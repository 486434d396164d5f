import WatLowering.Proofs.FirstViolation

/-!
# Constants and the numbers they come from

A number of the source becomes a constant in two ways: as a term of an expression, and as what a
global starts from.  The type of the constant is found in different places.  A term is taken at the
kind that the number states; a global has a kind of its own, and what its number states is not
looked at.

* `Site.numbers` — the numbers below a site that become constants, in the order of the lowering.
* `Code.constants`, `Item.constants` — the constants in the code, in the order of the text.
* `Yields` — which constant a number becomes.
* `Lowers.numbers` — statements become code with one constant for each of their numbers.
* **`constants_carry_own_kind_iff`** — all constants of a program have the kinds that their numbers
  state exactly if the number of each global states the kind of the global.  A number without a
  value type is refused where it is a term.
* `mistypedGlobals_accepted` — where it is the number of a global, it is not.

**Zeros.**  A test may compare with a zero.  It stands for no number of the source, and is not among
the constants here.
-/

namespace WatLowering

/-! ## Constants in code -/

/-- The type and the literal of a constant. -/
abbrev Constant := ValueType × String

/-- The constant that an instruction pushes, if it is of that kind. -/
def Instr.constant? : Instr → Option Constant
  | .const t literal => some (t, literal)
  | _ => none

/-- The instructions that compute what is tested, without those of the test itself. -/
def Test.operands : Test → List Instr
  | .value operands | .againstZero _ _ operands | .isZero _ operands => operands

@[simp] theorem Test.operands_truth (t : ValueType) (ops : List Instr) :
    (truth t ops).operands = ops := by
  cases t <;> rfl

@[simp] theorem Test.operands_exit (t : ValueType) (ops : List Instr) :
    (exit t ops).operands = ops := by
  cases t <;> rfl

mutual

/-- The constants of a construct, in the order of the text. -/
def Code.constants : Code → List Constant
  | .set _ _ operands => operands.filterMap Instr.constant?
  | .br _ value => (value.getD []).filterMap Instr.constant?
  | .brIf _ test => test.operands.filterMap Instr.constant?
  | .block _ body => constantsAll body
  | .loop _ _ body => constantsAll body
  | .ifThen test thenBranch elseBranch =>
      test.operands.filterMap Instr.constant? ++ constantsAll thenBranch ++ elseConstants elseBranch

/-- The constants of several constructs, one after the other. -/
def constantsAll : List Code → List Constant
  | [] => []
  | c :: rest => c.constants ++ constantsAll rest

/-- The constants of an `else` branch, if there is one. -/
def elseConstants : Option (List Code) → List Constant
  | none => []
  | some branch => constantsAll branch

end

@[simp] theorem constantsAll_nil : constantsAll [] = [] := rfl

@[simp] theorem constantsAll_cons (c : Code) (rest : List Code) :
    constantsAll (c :: rest) = c.constants ++ constantsAll rest := rfl

@[simp] theorem constantsAll_append (xs ys : List Code) :
    constantsAll (xs ++ ys) = constantsAll xs ++ constantsAll ys := by
  induction xs with
  | nil => rfl
  | cons c rest ih => simp [ih]

@[simp] theorem Shape.constants_wrap (depth : Nat) (body : List Code) (shape : Shape) :
    constantsAll (shape.wrap depth body) = constantsAll body := by
  cases shape <;> simp [Shape.wrap, Code.constants]

/-- The constants of an item. -/
def Item.constants : Item → List Constant
  | .global _ _ t literal => [(t, literal)]
  | .exportFunc _ _ => []
  | .func f => constantsAll f.body

/-! ## Numbers in the source -/

namespace Site

/-- A number where it becomes a constant. -/
def isNumber : Site → Bool
  | ⟨.term, .number _ _ _⟩ | ⟨.literal _, .number _ _ _⟩ => true
  | _ => false

/-- The numbers that are looked at from a site on, in the order of the lowering. -/
def numbers (s : Site) : List Site := s.walk.filter isNumber

theorem numbers_eq (s : Site) : s.numbers = [s].filter isNumber ++ s.parts.flatMap numbers := by
  rw [numbers, walk_eq, ← List.singleton_append, List.filter_append, List.filter_flatMap]
  rfl

/-- A site that is no number itself has the numbers of its parts. -/
theorem numbers_of_not_isNumber {s : Site} (h : s.isNumber = false) :
    s.numbers = s.parts.flatMap numbers := by
  simp [numbers_eq s, h]

/-- There are no numbers in a declaration, nor in a list of parameters or a result. -/
theorem numbers_declaration (n : Node) : numbers ⟨.declaration, n⟩ = [] := by
  cases n <;> exact numbers_of_not_isNumber rfl

theorem numbers_parameters (name : String) (n : Node) : numbers ⟨.parameters name, n⟩ = [] := by
  cases n with
  | paramList p items =>
      rw [numbers_of_not_isNumber rfl]
      simp [parts, List.flatMap_map, numbers_declaration]
  | _ => exact numbers_of_not_isNumber rfl

theorem numbers_result (n : Node) : numbers ⟨.result, n⟩ = [] := by
  cases n <;> exact numbers_of_not_isNumber rfl

end Site

/-- **Which constant a number becomes**: a term one of its own kind, and what a global starts from
one of the kind of the global. -/
inductive Yields (item : Node) : Site → Constant → Prop where
  | term {p : Position} {t : ValueType} {literal : String} :
      Yields item ⟨.term, .number p (.value t) literal⟩ (t, literal)
  | literal {p q : Position} {mutable : Bool} {name : String} {t : ValueType} {k : NumericKind}
      {literal : String} : item = .global p mutable name (.value t) (.number q k literal) →
      Yields item ⟨.literal name, .number q k literal⟩ (t, literal)

/-- The constant is of the kind that the number states. -/
def OwnKind (s : Site) (c : Constant) : Prop := s.node.numericKind? = some (.value c.1)

/-! ## Expressions and statements -/

section Lowering

variable (item : Node)

theorem Selects.numbers {n : Node} {i : Option Instr} (h : Selects n i) :
    List.Forall₂ (Yields item) (Site.numbers ⟨.term, n⟩)
      (i.toList.filterMap Instr.constant?) := by
  rw [Site.numbers_eq]
  cases h with
  | number => exact .cons .term .nil
  | _ => exact .nil

/-- **Terms become instructions with one constant for each number.** -/
theorem Computes.numbers {terms : List Node} {ops : List Instr} (h : Computes terms ops) :
    List.Forall₂ (Yields item) (terms.flatMap fun n => Site.numbers ⟨.term, n⟩)
      (ops.filterMap Instr.constant?) := by
  induction h with
  | nil => exact .nil
  | leaf hi _ ih =>
      rw [List.flatMap_cons, List.filterMap_append]
      exact List.rel_append (hi.numbers item) ih
  | expression _ _ _ ihterms ih =>
      rw [List.flatMap_cons, List.filterMap_append, Site.numbers_of_not_isNumber rfl]
      simp only [Site.parts, List.flatMap_map]
      exact List.rel_append ihterms ih

theorem numbers_of_operands {n : Node} {ops : List Instr} (h : n.operands = .ok ops) :
    List.Forall₂ (Yields item) (Site.numbers ⟨.term, n⟩) (ops.filterMap Instr.constant?) := by
  simpa using (operands_eq_ok_iff.mp h).numbers item

theorem numbers_of_truthTest {c : Node} {test : Test} (h : c.truthTest = .ok test) :
    List.Forall₂ (Yields item) (Site.numbers ⟨.term, c⟩)
      (test.operands.filterMap Instr.constant?) := by
  obtain ⟨ops, t, hops, -, rfl⟩ := Node.truthTest_eq_ok_iff.mp h
  rw [Test.operands_truth]
  exact numbers_of_operands item hops

theorem numbers_of_assignments {ns : List Node} {code : List Code}
    (h : ns.mapM Node.assignment = .ok code) :
    List.Forall₂ (Yields item) (ns.flatMap fun n => Site.numbers ⟨.assignment, n⟩)
      (constantsAll code) := by
  rw [mapM_eq_ok_iff] at h
  induction h with
  | nil => exact .nil
  | cons hc _ ih =>
      obtain ⟨p, storage, x, v, ops, rfl, hops, rfl⟩ := Node.assignment_eq_ok_iff.mp hc
      rw [List.flatMap_cons, Site.numbers_of_not_isNumber rfl, constantsAll_cons]
      simp only [Site.parts, List.flatMap_singleton]
      exact List.rel_append (numbers_of_operands item hops) ih

theorem numbers_of_guard {condition : Option Node} {d : Nat} {guard : List Code}
    (h : condition.toList.mapM (Node.exitGuard d) = .ok guard) :
    List.Forall₂ (Yields item) (condition.toList.flatMap fun c => Site.numbers ⟨.term, c⟩)
      (constantsAll guard) := by
  obtain ⟨rfl, rfl⟩ | ⟨c, ops, t, rfl, hops, -, rfl⟩ := Node.guard_eq_ok_iff.mp h
  · exact .nil
  · simpa [Code.constants] using numbers_of_operands item hops

/-- **Statements become code with one constant for each number**, by induction over the rules. -/
theorem Lowers.numbers {s : Scope} {stmts : List Node} {code : List Code}
    (h : Lowers s stmts code) :
    List.Forall₂ (Yields item)
      (stmts.flatMap fun n => Site.numbers ⟨.statement s.result s.loops.length, n⟩)
      (constantsAll code) := by
  induction h with
  | nil => exact .nil
  | declaration _ ih =>
      rw [List.flatMap_cons, Site.numbers_of_not_isNumber rfl]
      exact ih
  | assignment hops _ ih =>
      rw [List.flatMap_cons, Site.numbers_of_not_isNumber rfl, constantsAll_cons]
      simp only [Site.parts, List.flatMap_singleton]
      exact List.rel_append (numbers_of_operands item hops) ih
  | returnValue _ hops _ ih =>
      rw [List.flatMap_cons, Site.numbers_of_not_isNumber rfl, constantsAll_cons]
      simp only [Site.parts, Option.toList_some, List.map_singleton, List.flatMap_singleton]
      exact List.rel_append (numbers_of_operands item hops) ih
  | returnVoid _ _ ih =>
      rw [List.flatMap_cons, Site.numbers_of_not_isNumber rfl]
      exact ih
  | brk _ _ ih =>
      rw [List.flatMap_cons, Site.numbers_of_not_isNumber rfl]
      exact ih
  | cont _ _ ih =>
      rw [List.flatMap_cons, Site.numbers_of_not_isNumber rfl]
      exact ih
  | whileLoop _ ih =>
      rw [List.flatMap_cons, Site.numbers_of_not_isNumber rfl] at ih ⊢
      simpa [Site.parts] using ih
  | forLoop _ hinit hguard _ hstep _ ihbody ih =>
      -- the increments are looked at behind the body, and they are written there
      have hloop := List.rel_append
        (List.rel_append (List.rel_append (numbers_of_assignments item hinit)
          (numbers_of_guard item hguard)) ihbody) (numbers_of_assignments item hstep)
      have hall := List.rel_append hloop ih
      rw [List.flatMap_cons, Site.numbers_of_not_isNumber rfl]
      simpa [Site.parts, List.flatMap_map, Code.constants] using hall
  | doLoop _ _ htest _ ihbody ih =>
      have hall := List.rel_append (List.rel_append ihbody (numbers_of_truthTest item htest)) ih
      rw [List.flatMap_cons, Site.numbers_of_not_isNumber rfl]
      simpa [Site.parts, List.flatMap_map, Code.constants] using hall
  | ifThen htest _ _ ihyes ih =>
      have hall := List.rel_append (List.rel_append (numbers_of_truthTest item htest) ihyes) ih
      rw [List.flatMap_cons, Site.numbers_of_not_isNumber rfl]
      simpa [Site.parts, List.flatMap_map, Code.constants, elseConstants] using hall
  | ifElse htest _ _ _ ihyes ihno ih =>
      have hall := List.rel_append (List.rel_append
        (List.rel_append (numbers_of_truthTest item htest) ihyes) ihno) ih
      rw [List.flatMap_cons, Site.numbers_of_not_isNumber rfl]
      simpa [Site.parts, List.flatMap_map, Code.constants, elseConstants] using hall

end Lowering

/-! ## Items -/

/-- **Items have one constant for each number.** -/
theorem numbers_of_lowerItem {n : Node} {item : Item} (h : n.lowerItem.result = .ok item) :
    List.Forall₂ (Yields n) (Site.numbers ⟨.item, n⟩) item.constants := by
  cases n with
  | global p mutable name kind init =>
      obtain ⟨t, q, k, literal, rfl, rfl, rfl⟩ := lowerItem_global_eq_ok_iff.mp h
      rw [Site.numbers_of_not_isNumber rfl]
      simp only [Site.parts, List.flatMap_singleton, Site.numbers_eq ⟨.literal name, _⟩]
      exact .cons (.literal rfl) .nil
  | exportFunc p name exported =>
      obtain rfl : Item.exportFunc name exported = item := by simpa [Node.lowerItem] using h
      rw [Site.numbers_of_not_isNumber rfl]
      exact .nil
  | function p name result params body =>
      obtain ⟨f, rfl, hf⟩ := lowerItem_function_eq_ok_iff.mp h
      have hlocals : (body.takeWhile Node.isDeclaration).flatMap
          (fun n => Site.numbers ⟨.declaration, n⟩) = [] :=
        List.flatMap_eq_nil_iff.mpr fun n _ => Site.numbers_declaration n
      have hbody := hf.lowers.numbers (.function p name result params body)
      rw [Site.numbers_of_not_isNumber rfl]
      simpa [Site.parts, List.flatMap_map, Site.numbers_parameters, Site.numbers_result, hlocals,
        hf.result_eq, Scope.ofFunction, Item.constants] using hbody
  | _ => simp [Node.lowerItem] at h

/-- A global that starts from a number is of the kind that the number states. -/
def Node.MatchesLiteral : Node → Prop
  | .global _ _ _ kind (.number _ k _) => k = kind
  | _ => True

/-- The constants of an item have the kinds that their numbers state, unless it is a global whose
number states another kind. -/
theorem forall₂_ownKind_iff {n : Node} {item : Item} (h : n.lowerItem.result = .ok item) :
    List.Forall₂ OwnKind (Site.numbers ⟨.item, n⟩) item.constants ↔ n.MatchesLiteral := by
  constructor
  · intro hown
    cases n with
    | global p mutable name kind init =>
        obtain ⟨t, q, k, literal, rfl, rfl, rfl⟩ := lowerItem_global_eq_ok_iff.mp h
        rw [Site.numbers_of_not_isNumber rfl] at hown
        simp only [Site.parts, List.flatMap_singleton, Site.numbers_eq ⟨.literal name, _⟩] at hown
        obtain ⟨hfirst, -⟩ := List.forall₂_cons.mp hown
        exact Option.some.inj hfirst
    | _ => trivial
  · intro hmatches
    refine (numbers_of_lowerItem h).imp ?_
    rintro s c (_ | ⟨rfl⟩)
    · rfl
    · exact congrArg some hmatches

/-! ## Programs -/

/-- A relation that depends on its left side only, where the two sides belong together. -/
theorem forall₂_iff_forall_mem {α β : Type} {R S : α → β → Prop} {P : α → Prop} {xs : List α}
    {ys : List β} (h : List.Forall₂ R xs ys) (hS : ∀ x y, R x y → (S x y ↔ P x)) :
    List.Forall₂ S xs ys ↔ ∀ x ∈ xs, P x := by
  induction h with
  | nil => simp
  | cons hxy _ ih => rw [List.forall₂_cons, List.forall_mem_cons, hS _ _ hxy, ih]

/-- **Constants and the kinds of their numbers.**

* In an accepted program each item has one constant for each of its numbers, in their order and with
  their literals.  A number that is a term gives its constant its own kind, and one that a global
  starts from gives it the kind of the global.  So all constants have the kinds that their numbers
  state exactly if no global starts from a number of another kind.
* A program with a number that has no value type and is a term is refused.  If nothing in front of
  the number breaks a rule, the report is about its kind, and at its position. -/
theorem constants_carry_own_kind_iff (o : Options) (program : Node) :
    (∀ text, (generate o program).result = .ok text →
      ∃ (p : Position) (items : List Node) (m : Module), program = .module p items ∧
        program.lowerModule.result = .ok m ∧ m.render o = text ∧
        List.Forall₂
            (fun n item => List.Forall₂ (Yields n) (Site.numbers ⟨.item, n⟩) item.constants)
            items m.items ∧
        (List.Forall₂
            (fun n item => List.Forall₂ OwnKind (Site.numbers ⟨.item, n⟩) item.constants)
            items m.items
          ↔ ∀ n ∈ items, n.MatchesLiteral)) ∧
    ∀ before p k literal after,
      program.sites = before ++ ⟨.term, .number p k literal⟩ :: after → k.isValue = false →
      ∃ f, (generate o program).result = .error f ∧
        ((∀ s ∈ before, s.Sound) →
          f.diagnostic = .of .unsupportedNumericKind ("`" ++ k.name ++ "` is not a value type")
            (.number p k literal)) := by
  refine ⟨?_, ?_⟩
  · intro text htext
    obtain ⟨m, hm, hrender⟩ := generate_eq_ok_iff.mp htext
    obtain ⟨p, items, rfl, hitems⟩ := lowerModule_eq_ok_iff.mp hm
    refine ⟨p, items, m, rfl, hm, hrender, hitems.imp fun n item h => numbers_of_lowerItem h, ?_⟩
    exact forall₂_iff_forall_mem hitems fun _ _ h => forall₂_ownKind_iff h
  · intro before p k literal after hsites hk
    have hbreaks : Breaks .term (.number p k literal) .unsupportedNumericKind
        ("`" ++ k.name ++ "` is not a value type") :=
      .kind (by simp [Role.valued, Node.form]) rfl hk nofun
    have hchecks := checks_generate o program
    rw [hsites] at hchecks
    cases hresult : (generate o program).result with
    | ok text =>
        rw [hresult] at hchecks
        exact absurd hbreaks (hchecks ⟨.term, .number p k literal⟩ (by simp) _ _)
    | error f =>
        rw [hresult] at hchecks
        refine ⟨f, rfl, ?_⟩
        intro hbefore
        -- what is reported is the first violation, and there is only one
        exact FirstViolation.unique hchecks
          ⟨before, _, after, _, _, rfl, hbefore, hbreaks, rfl⟩

/-- A global and a function whose numbers state the kinds that they are taken at. -/
def agreeingNumbers : Node :=
  .module .unplaced
    [.global .unplaced true "ratio" (.value .f64) (.number .unplaced (.value .f64) "2.5"),
      .function .unplaced "answer" (.value .i64) (.paramList .unplaced [])
        [.ret .unplaced (some (.expression .unplaced .void
          [.number .unplaced (.value .i64) "40", .number .unplaced (.value .i64) "2",
            .operator .unplaced (.value .i64) "+"]))]]

/-- An assignment of a number without a value type. -/
def valuelessNumber : Node :=
  .module .unplaced
    [.function .unplaced "f" .void (.paramList .unplaced [])
      [.set .unplaced .local "x" (.number ⟨3, 12⟩ .void "42")]]

/-- Where the numbers agree with their globals, all constants have the kinds that their numbers
state; a term without a value type is refused. -/
theorem agreeingNumbers_own_kind :
    (∃ (p : Position) (items : List Node) (m : Module), agreeingNumbers = .module p items ∧
      agreeingNumbers.lowerModule.result = .ok m ∧
      List.Forall₂ (fun n item => List.Forall₂ OwnKind (Site.numbers ⟨.item, n⟩) item.constants)
        items m.items) ∧
    ∃ f, (generate .standard valuelessNumber).result = .error f ∧ f.diagnostic.pos = ⟨3, 12⟩ := by
  refine ⟨?_, ?_⟩
  · obtain ⟨p, items, m, hmodule, hlowered, -, -, hiff⟩ :=
      (constants_carry_own_kind_iff .standard agreeingNumbers).1 _ rfl
    refine ⟨p, items, m, hmodule, hlowered, hiff.mpr ?_⟩
    cases hmodule
    simp [Node.MatchesLiteral]
  · obtain ⟨before, after, hsites⟩ : ∃ before after, valuelessNumber.sites
        = before ++ ⟨.term, .number ⟨3, 12⟩ .void "42"⟩ :: after := by
      refine List.append_of_mem ?_
      simp [Node.sites, valuelessNumber, Site.walk_eq, Site.parts, Node.isDeclaration]
    obtain ⟨f, hf, -⟩ := (constants_carry_own_kind_iff .standard valuelessNumber).2 before _ _ _
      after hsites rfl
    refine ⟨f, hf, ?_⟩
    cases hf
    rfl

/-- Two globals that start from numbers of other kinds, one of which has no values. -/
def mistypedGlobals : Node :=
  .module .unplaced
    [.global .unplaced false "ratio" (.value .f64) (.number .unplaced (.value .i32) "7"),
      .global .unplaced true "count" (.value .i32) (.number ⟨2, 15⟩ .notApplicable "5")]

/-- **The number of a global is not asked for its kind**: a constant has another kind than its
number, and a number without a value type is let through. -/
theorem mistypedGlobals_accepted :
    (generate .standard mistypedGlobals).result
        = .ok ("(module\n    (global $ratio f64 (f64.const 7))\n"
          ++ "    (global $count (mut i32) (i32.const 5))\n)") ∧
      ¬ OwnKind ⟨.literal "ratio", .number .unplaced (.value .i32) "7"⟩ (.f64, "7") ∧
      NumericKind.isValue .notApplicable = false := by
  refine ⟨rfl, ?_, rfl⟩
  simp [OwnKind, Node.numericKind?]

end WatLowering
