import WatLowering.Proofs.TypeSoundness

/-!
# Functions that return on every path

A function with a result has to leave it at the end of its body, or the end must be out of reach.
Whether it is out of reach is for validation to say, which goes by the form of the code alone:
behind a jump nothing is reached, and behind a block, a loop or a conditional everything is,
whatever these hold.  So of two functions that return on every path one may be valid and the other not.

* `definitelyReturns` — every path through the statements ends in a `return`.
* `Code.polymorphic_of_validate` — what one construct does to reachability, and
  `polymorphic_of_validateAll` for code in sequence.
* **`result_function_valid_iff`** — a well-typed function with a result is valid exactly if one of
  its outermost statements is a `return`.
* **`returning_function_valid_iff`** — the same of the functions that return on every path; that
  they do makes no difference.

**Conditionals are the gap.**  A function that ends in a conditional with a `return` in each branch
returns on every path, but the code behind its conditional counts as reached, and there is no result
there (`returning_branches_not_valid`).
-/

namespace WatLowering

/-! ## Returning -/

/-- Is it a `return`? -/
def Node.isReturn : Node → Bool
  | .ret _ _ => true
  | _ => false

mutual

/-- Does every path through the statement end in a `return`? -/
def Node.definitelyReturns : Node → Bool
  | .ret _ _ => true
  | .ifElse _ _ thenBranch elseBranch =>
      WatLowering.definitelyReturns thenBranch && elseDefinitelyReturns elseBranch
  | _ => false

/-- Does every path through the statements?  This is up to the last of them. -/
def definitelyReturns : List Node → Bool
  | [] => false
  | [stmt] => stmt.definitelyReturns
  | _ :: stmt :: rest => definitelyReturns (stmt :: rest)

/-- Is there an `else` branch in which every path does? -/
def elseDefinitelyReturns : Option (List Node) → Bool
  | none => false
  | some branch => definitelyReturns branch

end

/-! ## Reachability -/

section Reachability

variable {env : Env} {o : Options} {labels : List (String × Option ValueType)}
  {σ σ' : OperandTypes}

theorem polymorphic_of_validateInstrs {ops : List Instr} (h : validateInstrs env ops σ = some σ') :
    σ'.polymorphic = σ.polymorphic := by
  induction ops generalizing σ with
  | nil =>
      cases h
      rfl
  | cons i rest ih =>
      obtain ⟨σ₁, hi, hrest⟩ := Option.bind_eq_some_iff.mp h
      rw [ih hrest, Instr.polymorphic_of_validate hi]

theorem OperandTypes.polymorphic_of_popResult {result : Option ValueType}
    (h : σ.popResult result = some σ') : σ'.polymorphic = σ.polymorphic := by
  cases result with
  | none =>
      cases h
      rfl
  | some t => exact polymorphic_of_pop h

@[simp] theorem OperandTypes.polymorphic_pushResult (result : Option ValueType) :
    (σ.pushResult result).polymorphic = σ.polymorphic := by
  cases result <;> rfl

/-- A block does not tell what is in it. -/
theorem eq_of_enclosed {body : Option OperandTypes} (h : enclosed body σ = some σ') : σ' = σ := by
  rw [enclosed] at h
  split at h
  · cases h
    rfl
  · cases h

/-- Is it a jump that is always taken? -/
def Code.isJump : Code → Bool
  | .br _ _ => true
  | _ => false

/-- **Only behind a jump is code out of reach.** -/
theorem Code.polymorphic_of_validate {c : Code} (h : c.validate env o labels σ = some σ') :
    σ'.polymorphic = (σ.polymorphic || c.isJump) := by
  cases c with
  | set storage x ops =>
      obtain ⟨t, -, h⟩ := Option.bind_eq_some_iff.mp h
      obtain ⟨σ₁, hops, h⟩ := Option.bind_eq_some_iff.mp h
      rw [OperandTypes.polymorphic_of_pop h, polymorphic_of_validateInstrs hops]
      simp [isJump]
  | br target value =>
      obtain ⟨result, -, h⟩ := Option.bind_eq_some_iff.mp h
      obtain ⟨σ₁, -, h⟩ := Option.bind_eq_some_iff.mp h
      obtain ⟨σ₂, -, h⟩ := Option.bind_eq_some_iff.mp h
      cases h
      simp [isJump, OperandTypes.unreachable]
  | brIf target test =>
      obtain ⟨result, -, h⟩ := Option.bind_eq_some_iff.mp h
      obtain ⟨σ₁, htest, h⟩ := Option.bind_eq_some_iff.mp h
      obtain ⟨σ₂, hpop, h⟩ := Option.bind_eq_some_iff.mp h
      obtain ⟨σ₃, hresult, h⟩ := Option.bind_eq_some_iff.mp h
      cases h
      rw [OperandTypes.polymorphic_pushResult, OperandTypes.polymorphic_of_popResult hresult,
        OperandTypes.polymorphic_of_pop hpop, polymorphic_of_validateInstrs htest]
      simp [isJump]
  | block label body =>
      rw [eq_of_enclosed h]
      simp [isJump]
  | loop exit head body =>
      rw [eq_of_enclosed h]
      simp [isJump]
  | ifThen test thenBranch elseBranch =>
      obtain ⟨σ₁, htest, h⟩ := Option.bind_eq_some_iff.mp h
      obtain ⟨σ₂, hpop, h⟩ := Option.bind_eq_some_iff.mp h
      obtain ⟨σ₃, hyes, h⟩ := Option.bind_eq_some_iff.mp h
      rw [eq_of_enclosed h, eq_of_enclosed hyes, OperandTypes.polymorphic_of_pop hpop,
        polymorphic_of_validateInstrs htest]
      simp [isJump]

/-- The end of code is out of reach exactly if it was before, or there is a jump on the way. -/
theorem polymorphic_of_validateAll {code : List Code}
    (h : validateAll env o labels σ code = some σ') :
    σ'.polymorphic = (σ.polymorphic || code.any Code.isJump) := by
  induction code generalizing σ with
  | nil =>
      cases h
      simp
  | cons c rest ih =>
      obtain ⟨σ₁, hc, hrest⟩ := Option.bind_eq_some_iff.mp h
      rw [ih hrest, Code.polymorphic_of_validate hc, List.any_cons, Bool.or_assoc]

end Reachability

/-! ## Functions -/

theorem any_isJump_of_assignments {ns : List Node} {code : List Code}
    (h : ns.mapM Node.assignment = .ok code) : code.any Code.isJump = false := by
  rw [List.any_eq_false]
  intro c hc
  obtain ⟨storage, x, ops, rfl⟩ := Node.exists_eq_set_of_assignments h c hc
  simp [Code.isJump]

/-- Outside of all loops, the jumps among the outermost constructs are the returns among the
statements. -/
theorem Lowers.any_isJump_eq {s : Scope} {stmts : List Node} {code : List Code}
    (h : Lowers s stmts code) (hs : s.loops = []) :
    code.any Code.isJump = stmts.any Node.isReturn := by
  have hloop : ∀ level, s.loop? level = none := by
    intro level
    cases level with
    | zero => rfl
    | succ n => simp [Scope.loop?, hs]
  induction h with
  | nil => rfl
  | declaration _ ih => exact ih hs hloop
  | assignment _ _ ih => exact ih hs hloop
  | returnValue _ _ _ _ => rfl
  | returnVoid _ _ _ => rfl
  | brk hd _ _ =>
      rw [hloop] at hd
      cases hd
  | cont hd _ _ =>
      rw [hloop] at hd
      cases hd
  | whileLoop _ ih => exact ih hs hloop
  | forLoop _ hinit _ _ _ _ _ ih =>
      rw [List.any_append, any_isJump_of_assignments hinit]
      exact ih hs hloop
  | doLoop _ _ _ _ _ ih => exact ih hs hloop
  | ifThen _ _ _ _ ih => exact ih hs hloop
  | ifElse _ _ _ _ _ _ ih => exact ih hs hloop

section Functions

variable {o : Options} {name : String} {result : NumericKind} {params : Node} {body : List Node}
  {f : Func} {globals : List (String × Bool × ValueType)}

/-- The stack at the end of the return block is empty, and out of reach exactly if one of the
outermost statements is a `return`. -/
theorem FunctionLowers.validateAll_eq (h : FunctionLowers name result params body f)
    (ho : ¬ IsLoopName o.returnLabel)
    (ht : wellTypedAll ⟨functionLocals params body, globals⟩ result.valueType? body = true) :
    validateAll ⟨f.params ++ f.locals, globals⟩ o [(Label.ret.name o, f.result)] .empty f.body
      = some ⟨[], body.any Node.isReturn⟩ := by
  rw [h.functionLocals_eq, h.result_eq] at ht
  obtain ⟨p, hp⟩ := h.lowers.keeps ho (.ofFunction o f.result)
    (wellTypedAll_dropWhile ht Node.isDeclaration) false
  have hreach : p = body.any Node.isReturn := by
    -- the declarations in front of the first statement are no returns
    have hskip := apply_dropWhile_isDeclaration (F := fun stmts => stmts.any Node.isReturn)
      (fun _ _ _ _ => rfl) body
    rw [← hskip, ← h.lowers.any_isJump_eq rfl]
    exact polymorphic_of_validateAll hp
  rw [OperandTypes.empty, hp, hreach]

/-- **A well-typed function with a result is valid exactly if one of its outermost statements is a
`return`.** -/
theorem FunctionLowers.valid_iff (h : FunctionLowers name result params body f)
    (ho : ¬ IsLoopName o.returnLabel)
    (hnodup : ((functionLocals params body).map Prod.fst).Nodup)
    (ht : wellTypedAll ⟨functionLocals params body, globals⟩ result.valueType? body = true)
    {t : ValueType} (hresult : result = .value t) :
    f.Valid o globals ↔ body.any Node.isReturn = true := by
  have hends : ∀ p, (⟨[], p⟩ : OperandTypes).endsWith (some t) = p := by
    intro p
    cases p <;> rfl
  have hbody := h.validateAll_eq ho ht
  rw [h.functionLocals_eq] at hnodup
  have hf : f.result = some t := by rw [← h.result_eq, hresult]; rfl
  constructor
  · intro hvalid
    have hend := hvalid.body_valid
    rwa [hbody, Option.any_some, hf, hends] at hend
  · intro hreturn
    refine ⟨hnodup, ?_⟩
    rw [hbody, Option.any_some, hf, hends, hreturn]

end Functions

/-! ## Generated functions -/

/-- **When a function with a result is valid.**  If a well-typed program is accepted, each of its
functions that has a result is valid exactly if one of its outermost statements is a `return`.  The
stack at the end of its return block is empty, and counts as out of reach in just these cases. -/
theorem result_function_valid_iff {o : Options} (ho : ¬ IsLoopName o.returnLabel)
    {pos : Position} {items : List Node} {text : String}
    (h : (generate o (.module pos items)).result = .ok text) (hitems : WellTyped items) :
    ∃ m : Module, (Node.module pos items).lowerModule.result = .ok m ∧ m.render o = text ∧
      ∀ (i : Nat) (p : Position) (name : String) (t : ValueType) (params : Node)
        (body : List Node), items[i]? = some (.function p name (.value t) params body) →
        ∃ f : Func, m.items[i]? = some (.func f) ∧
          (f.Valid o m.globals ↔ ∃ stmt ∈ body, stmt.isReturn = true) ∧
          validateAll ⟨f.params ++ f.locals, m.globals⟩ o [(Label.ret.name o, f.result)] .empty
            f.body = some ⟨[], body.any Node.isReturn⟩ := by
  obtain ⟨m, hm, htext, hlowered⟩ := exists_module_of_generate h
  refine ⟨m, hm, htext, fun i p name t params body hi => ?_⟩
  obtain ⟨f, hf, hlowers⟩ := exists_func_of_getElem? hlowered hi
  have htyped := hitems.items_wellTyped _ (List.mem_of_getElem? hi)
  rw [Node.itemWellTyped, Bool.and_eq_true, decide_eq_true_eq, globals_eq_of_lowered hlowered]
    at htyped
  refine ⟨f, hf, ?_, hlowers.validateAll_eq ho htyped.2⟩
  rw [hlowers.valid_iff ho htyped.1 htyped.2 rfl, List.any_eq_true]

/-- **When a function that returns on every path is valid.**  These are the functions one would
expect to be valid without exception; but the paths do not count, and what holds of them is no more
than what holds of every function with a result (`result_function_valid_iff`). -/
theorem returning_function_valid_iff {o : Options} (ho : ¬ IsLoopName o.returnLabel)
    {pos : Position} {items : List Node} {text : String}
    (h : (generate o (.module pos items)).result = .ok text) (hitems : WellTyped items) :
    ∃ m : Module, (Node.module pos items).lowerModule.result = .ok m ∧ m.render o = text ∧
      ∀ (i : Nat) (p : Position) (name : String) (t : ValueType) (params : Node)
        (body : List Node), items[i]? = some (.function p name (.value t) params body) →
        definitelyReturns body = true →
        ∃ f : Func, m.items[i]? = some (.func f) ∧
          (f.Valid o m.globals ↔ ∃ stmt ∈ body, stmt.isReturn = true) ∧
          validateAll ⟨f.params ++ f.locals, m.globals⟩ o [(Label.ret.name o, f.result)] .empty
            f.body = some ⟨[], body.any Node.isReturn⟩ := by
  obtain ⟨m, hm, htext, hfunctions⟩ := result_function_valid_iff ho h hitems
  exact ⟨m, hm, htext, fun i p name t params body hi _ => hfunctions i p name t params body hi⟩

/-- Two ways to write the same function.  The first has a `return` in each branch of a conditional
and nothing behind it, the second has one behind a conditional without an `else`. -/
def zeroTests : List Node :=
  let i32 : NumericKind := .value .i32
  let params : Node := .paramList .unplaced [.localVar .unplaced "x" i32]
  let x : Node := .get .unplaced .local "x" i32
  let give (literal : String) : Node := .ret .unplaced (some (.number .unplaced i32 literal))
  [.function .unplaced "inBranches" i32 params
      [.ifElse .unplaced x [give "0"] (some [give "1"])],
    .function .unplaced "behind" i32 params [.ifElse .unplaced x [give "0"] none, give "1"]]

theorem zeroTests_wellTyped : WellTyped zeroTests := by
  constructor <;> decide

/-- Of the two only the second is valid. -/
theorem zeroTests_valid_iff :
    ∃ m : Module, (Node.module .unplaced zeroTests).lowerModule.result = .ok m ∧
      (∃ f : Func, m.items[0]? = some (.func f) ∧ ¬ f.Valid .standard m.globals) ∧
      ∃ f : Func, m.items[1]? = some (.func f) ∧ f.Valid .standard m.globals := by
  have haccepted : (generate .standard (.module .unplaced zeroTests)).result = .ok _ := rfl
  obtain ⟨m, hlowered, -, hm⟩ := returning_function_valid_iff Options.not_isLoopName_standard
    haccepted zeroTests_wellTyped
  obtain ⟨f, hf, hvalid, -⟩ := hm 0 _ _ _ _ _ rfl rfl
  obtain ⟨f', hf', hvalid', -⟩ := hm 1 _ _ _ _ _ rfl rfl
  refine ⟨m, hlowered, ⟨f, hf, fun h => ?_⟩, f', hf', hvalid'.mpr (by decide)⟩
  exact absurd (hvalid.mp h) (by decide)

/-- **Not every function that returns on every path is valid.**  A well-typed program with the
standard options, the function with a `return` in each branch. -/
theorem returning_branches_not_valid :
    ∃ (p : Position) (name : String) (t : ValueType) (params : Node) (body : List Node)
      (text : String) (m : Module) (f : Func),
      zeroTests[0]? = some (.function p name (.value t) params body) ∧ WellTyped zeroTests ∧
      definitelyReturns body = true ∧
      (generate .standard (.module .unplaced zeroTests)).result = .ok text ∧
      (Node.module .unplaced zeroTests).lowerModule.result = .ok m ∧
      m.render .standard = text ∧ m.items[0]? = some (.func f) ∧
      ¬ f.Valid .standard m.globals := by
  have hlowered : (Node.module .unplaced zeroTests).lowerModule.result = .ok _ := rfl
  refine ⟨_, _, _, _, _, _, _, _, rfl, zeroTests_wellTyped, rfl,
    generate_eq_ok_iff.mpr ⟨_, hlowered, rfl⟩, hlowered, rfl, rfl, fun hvalid => ?_⟩
  exact absurd hvalid.body_valid (by decide)

end WatLowering
