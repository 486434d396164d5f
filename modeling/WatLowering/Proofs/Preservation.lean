import WatLowering.Proofs.Simulation
import WatLowering.Proofs.TypeSoundness

/-!
# Lowering preserves meaning

Every function of an accepted program runs as it is meant: from every store, the body that was
generated for it ends in a store and with an outcome exactly if the body that was written does.
Both directions are needed.  One alone would allow code that never ends, or code that ends in more
ways than the program.

What the single instructions do is left to a `Machine`, of which nothing but the meaning of
comparisons with zero is used; `Machine.integers` is one, and shows that there are such machines.
On a machine that keeps to types it is enough that the program is well-typed
(`FunctionLowers.runs_iff_of_wellTyped`).
-/

namespace WatLowering

/-! ## A machine -/

/-- The number that a decimal literal without a sign stands for. -/
def decimal (literal : String) : Int :=
  literal.toList.foldl (fun n c => 10 * n + ((c.toNat - '0'.toNat : Nat) : Int)) 0

/-- The integer that stands for a truth value. -/
def truthValue (b : Bool) : Int := if b then 1 else 0

/-- Arithmetic and comparisons on integers of any size. -/
def NumericOp.onIntegers (a b : Int) : NumericOp → Option Int
  | .add => some (a + b)
  | .sub => some (a - b)
  | .mul => some (a * b)
  | .eq => some (truthValue (a == b))
  | .ne => some (truthValue (!(a == b)))
  | .ltS | .lt => some (truthValue (a < b))
  | .leS | .le => some (truthValue (a ≤ b))
  | .gtS | .gt => some (truthValue (b < a))
  | .geS | .ge => some (truthValue (b ≤ a))
  | _ => none

/-- A machine whose values are integers, whatever their type. -/
def Machine.integers : Machine where
  Store := Storage → String → Int
  Value := Int
  step
    | .const _ literal, (s, vs) => some (s, decimal literal :: vs)
    | .get storage x, (s, vs) => some (s, s storage x :: vs)
    | .numeric op _, (s, b :: a :: vs) => (op.onIntegers a b).map fun v => (s, v :: vs)
    | .convert _, (s, v :: vs) => some (s, v :: vs)
    | .eqz _, (s, v :: vs) => some (s, truthValue (v == 0) :: vs)
    | _, _ => none
  assign storage x v s :=
    some fun storage' x' => if storage' = storage ∧ x' = x then v else s storage' x'
  HasType _ _ := True
  isZero v := v == 0
  ofBool := truthValue

theorem Machine.integers_testsZero : Machine.integers.TestsZero where
  eqz := by
    intro t v _ _ s vs
    rfl
  eqZero := by
    intro t v _ s vs
    rfl
  neZero := by
    intro t v _ s vs
    rfl
  isZero_ofBool := by
    intro b
    cases b <;> rfl

theorem Machine.integers_respectsTypes (env : Env) : Machine.integers.RespectsTypes env := by
  intro i ts ts' s s' vs vs' hvalid hvs hstep
  cases i with
  | const t literal =>
      cases hvalid
      cases hstep
      exact .cons trivial hvs
  | get storage x =>
      obtain ⟨t, -, ht⟩ := Option.map_eq_some_iff.mp hvalid
      cases ht
      cases hstep
      exact .cons trivial hvs
  | numeric op t =>
      rw [Instr.validate] at hvalid
      split at hvalid
      · obtain ⟨σ₁, h₁, hvalid⟩ := Option.bind_eq_some_iff.mp hvalid
        obtain ⟨ts₁, rfl, rfl⟩ := OperandTypes.pop_reachable_iff.mp h₁
        obtain ⟨σ₂, h₂, hvalid⟩ := Option.bind_eq_some_iff.mp hvalid
        obtain ⟨ts₂, rfl, rfl⟩ := OperandTypes.pop_reachable_iff.mp h₂
        cases hvalid
        obtain ⟨b, vs₁, -, hvs₁, rfl⟩ := List.forall₂_cons_left_iff.mp hvs
        obtain ⟨a, vs₂, -, hvs₂, rfl⟩ := List.forall₂_cons_left_iff.mp hvs₁
        obtain ⟨v, -, hv⟩ := Option.map_eq_some_iff.mp hstep
        cases hv
        exact .cons trivial hvs₂
      · cases hvalid
  | convert c =>
      obtain ⟨σ, h, ht⟩ := Option.map_eq_some_iff.mp hvalid
      obtain ⟨ts₁, rfl, rfl⟩ := OperandTypes.pop_reachable_iff.mp h
      obtain ⟨v, vs₁, -, hvs₁, rfl⟩ := List.forall₂_cons_left_iff.mp hvs
      cases ht
      cases hstep
      exact .cons trivial hvs₁
  | eqz t =>
      rw [Instr.validate] at hvalid
      split at hvalid
      · obtain ⟨σ, h, ht⟩ := Option.map_eq_some_iff.mp hvalid
        obtain ⟨ts₁, rfl, rfl⟩ := OperandTypes.pop_reachable_iff.mp h
        obtain ⟨v, vs₁, -, hvs₁, rfl⟩ := List.forall₂_cons_left_iff.mp hvs
        cases ht
        cases hstep
        exact .cons trivial hvs₁
      · cases hvalid

/-! ## Outcomes -/

section Outcomes

variable {V : Type} {o : Options} {result : NumericKind} {c : Completion V} {e : Exit V}

/-- At the level of the function the two sides give back the same. -/
theorem outcome_eq_of_exitOf (hresult : result ≠ .notApplicable)
    (he : (Scope.ofFunction result.valueType?).exitOf o c = some e) :
    e.outcome (Label.ret.name o) result.valueType? = c.outcome result := by
  -- no loop encloses a whole body, so nothing is on its way to one
  have hloop : ∀ level, (Scope.ofFunction result.valueType?).loop? level = none := by
    intro level
    cases level <;> rfl
  cases c with
  | normal =>
      cases he
      cases result <;> first | rfl | contradiction
  | brk level => simp [Scope.exitOf, hloop] at he
  | cont level => simp [Scope.exitOf, hloop] at he
  | ret value =>
      cases he
      cases result with
      | notApplicable => contradiction
      | void => exact if_pos rfl
      | value t =>
          cases value with
          | none => rfl
          | some v => exact if_pos rfl

theorem exists_exitOf_of_outcome {out : Option V} (hc : c.outcome result = some out) (sc : Scope) :
    ∃ e, sc.exitOf o c = some e := by
  cases c with
  | normal => exact ⟨_, rfl⟩
  | ret value => exact ⟨_, rfl⟩
  | brk level => cases result <;> cases hc
  | cont level => cases result <;> cases hc

end Outcomes

/-- A lowered function runs as it is meant. -/
theorem FunctionLowers.runs_iff {M : Machine} (hM : M.TestsZero) {o : Options}
    (ho : ¬ IsLoopName o.returnLabel) {name : String} {result : NumericKind} {params : Node}
    {body : List Node} {f : Func} (h : FunctionLowers name result params body f)
    (ht : StackTypedAll M body) {s s' : M.Store} {out : Option M.Value} :
    f.Runs M o s s' out ↔ FunctionMeans M result body s s' out := by
  have hbody := h.lowers.carriesOut hM ho (Scope.nested_ofFunction _)
    (stackTypedAll_dropWhile_isDeclaration.mpr ht)
  rw [← h.result_eq] at hbody
  simp only [Func.Runs, FunctionMeans, ← h.result_eq]
  constructor
  · rintro ⟨e, hexec, hout⟩
    obtain ⟨c, hc, he⟩ := (hbody _ _ _).mp hexec
    rw [outcome_eq_of_exitOf h.result_ne he] at hout
    exact ⟨c, Node.execAll_dropWhile_isDeclaration.mp hc, hout⟩
  · rintro ⟨c, hc, hout⟩
    obtain ⟨e, he⟩ := exists_exitOf_of_outcome hout (.ofFunction result.valueType?)
    rw [← outcome_eq_of_exitOf h.result_ne he] at hout
    exact ⟨e, (hbody _ _ _).mpr ⟨c, Node.execAll_dropWhile_isDeclaration.mpr hc, he⟩, hout⟩

/-- A well-typed function runs as it is meant on every machine that keeps to types. -/
theorem FunctionLowers.runs_iff_of_wellTyped {M : Machine} (hM : M.TestsZero) {o : Options}
    (ho : ¬ IsLoopName o.returnLabel) {name : String} {result : NumericKind} {params : Node}
    {body : List Node} {f : Func} (h : FunctionLowers name result params body f)
    {globals : List (String × Bool × ValueType)}
    (htypes : M.RespectsTypes ⟨functionLocals params body, globals⟩)
    (ht : wellTypedAll ⟨functionLocals params body, globals⟩ result.valueType? body = true)
    {s s' : M.Store} {out : Option M.Value} :
    f.Runs M o s s' out ↔ FunctionMeans M result body s s' out :=
  h.runs_iff hM ho (h.stackTyped htypes ht)

/-- **Lowering preserves meaning.**  Each function of an accepted program stands in the module it is
lowered to, and there it ends in a store and with an outcome exactly if it is meant to. -/
theorem functions_run_as_meant {M : Machine} (hM : M.TestsZero) {o : Options}
    (ho : ¬ IsLoopName o.returnLabel) {pos : Position} {items : List Node} {text : String}
    (h : (generate o (.module pos items)).result = .ok text) :
    ∃ m : Module, (Node.module pos items).lowerModule.result = .ok m ∧ m.render o = text ∧
      ∀ (i : Nat) (p : Position) (name : String) (result : NumericKind) (params : Node)
        (body : List Node), items[i]? = some (.function p name result params body) →
        StackTypedAll M body →
        ∃ f : Func, m.items[i]? = some (.func f) ∧
          ∀ s s' out, f.Runs M o s s' out ↔ FunctionMeans M result body s s' out := by
  obtain ⟨m, hm, htext, hitems⟩ := exists_module_of_generate h
  refine ⟨m, hm, htext, fun i p name result params body hi ht => ?_⟩
  obtain ⟨f, hf, hlowers⟩ := exists_func_of_getElem? hitems hi
  exact ⟨f, hf, fun s s' out => hlowers.runs_iff hM ho ht⟩

def countdownX : Node := .get .unplaced .local "x" (.value .i64)

/-- Takes 1 from `x`, and returns 7 unless something is left of it. -/
def countdownPass : List Node :=
  let literal (n : String) : Node := .number .unplaced (.value .i64) n
  let difference : List Node := [countdownX, literal "1", .operator .unplaced (.value .i64) "-"]
  [.set .unplaced .local "x" (.expression .unplaced (.value .i64) difference),
    .ifElse .unplaced countdownX [.cont .unplaced none] none,
    .ret .unplaced (some (literal "7"))]

/-- Counts `x` down to zero and then returns 7.  The `continue` has to go to the condition, and not
to the head of the loop. -/
def countdown : List Node := [.doLoop .unplaced countdownPass countdownX]

def countdownProgram : Node :=
  .module .unplaced
    [.function .unplaced "countdown" (.value .i64)
      (.paramList .unplaced [.localVar .unplaced "x" (.value .i64)]) countdown]

theorem countdown_stackTyped : StackTypedAll Machine.integers countdown := by
  have hlowers : Lowers (.ofFunction (some .i64)) countdown _ := lowerAll_eq_ok_iff.mp rfl
  exact hlowers.stackTyped (Machine.integers_respectsTypes ⟨[("x", .i64)], []⟩) (by decide)

/-- The store in which the local variable `x` has this value. -/
def storeOfX (n : Int) : Machine.integers.Store := fun storage y =>
  if storage = .local ∧ y = "x" then n else (0 : Int)

theorem assign_storeOfX (m n : Int) :
    Machine.integers.assign .local "x" m (storeOfX n) = some (storeOfX m) := by
  refine congrArg some ?_
  funext storage y
  show (if storage = .local ∧ y = "x" then m else storeOfX n storage y) = storeOfX m storage y
  by_cases h : storage = .local ∧ y = "x" <;> simp [storeOfX, h]

theorem countdown_means :
    FunctionMeans .integers (.value .i64) countdown (storeOfX 2) (storeOfX 0) (some (7 : Int)) := by
  refine ⟨.ret (some (7 : Int)), .inr ⟨by simp, ?_⟩, rfl⟩
  -- the first pass leaves 1 in `x` and is continued, the second leaves 0 and returns
  have hfirst : Node.execAll .integers (storeOfX 2) (storeOfX 1) (.cont 1) countdownPass := by
    refine .inl ⟨storeOfX 1, ⟨_, (1 : Int), rfl, assign_storeOfX 1 2, rfl⟩, .inr ⟨by simp, ?_⟩⟩
    exact ⟨_, true, ⟨(1 : Int), rfl, rfl⟩, .inr ⟨by simp, rfl, rfl⟩⟩
  have hsecond : Node.execAll .integers (storeOfX 1) (storeOfX 0) (.ret (some (7 : Int)))
      countdownPass := by
    refine .inl ⟨storeOfX 0, ⟨_, (0 : Int), rfl, assign_storeOfX 0 1, rfl⟩, ?_⟩
    refine .inl ⟨storeOfX 0, ?_, ?_⟩
    · exact ⟨_, false, ⟨(0 : Int), rfl, rfl⟩, rfl, rfl⟩
    · exact .inr ⟨by simp, (7 : Int), rfl, rfl⟩
  have hcondition : countdownX.Decides .integers (storeOfX 1) (storeOfX 1) true :=
    ⟨(1 : Int), rfl, rfl⟩
  exact .again (.again ⟨rfl, rfl⟩ hfirst rfl hcondition) (.done (.escaped ⟨rfl, rfl⟩ hsecond rfl))

/-- Started with 2 in `x` the generated function returns 7, after a pass that is continued and one
that is not. -/
theorem countdown_runs :
    ∃ (m : Module) (f : Func), countdownProgram.lowerModule.result = .ok m ∧
      m.items[0]? = some (.func f) ∧
      f.Runs .integers .standard (storeOfX 2) (storeOfX 0) (some (7 : Int)) := by
  have haccepted : (generate .standard countdownProgram).result = .ok _ := rfl
  obtain ⟨m, hlowered, -, hm⟩ := functions_run_as_meant Machine.integers_testsZero
    Options.not_isLoopName_standard haccepted
  obtain ⟨f, hf, hruns⟩ := hm 0 _ _ _ _ _ rfl countdown_stackTyped
  exact ⟨m, f, hlowered, hf, (hruns _ _ _).mpr countdown_means⟩

end WatLowering
