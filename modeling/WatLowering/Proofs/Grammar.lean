import WatLowering.Proofs.Rules

/-!
# Which programs are accepted

The checks that decide whether a program can be lowered are scattered over the lowering: each is
made where the code it guards is built.  This file says in one place what they add up to, as a
grammar with one production for each form of node, and proves that nothing else is refused and
nothing else is let through.

* `IsExpression` — what can be computed: values, reads, operators that exist at their type, casts
  between value types, and non-empty sequences of these.
* `IsStatement result n` — what can stand in a function with this result, inside `n` loops.
* `IsItem`, `IsProgram` — what can stand in a module, and what a program is.
* **`generate_accepts_iff`** — a text is generated for exactly the programs of the grammar, whatever
  the options.

**No hidden check.**  The lowering also asks for the kind of each condition, and would refuse one
without a value type.  `IsExpression.resultKind` shows that this never happens: whatever can be
computed has a value type, so the check adds nothing to the grammar.
-/

namespace WatLowering

/-! ## The grammar -/

/-- The operators that exist for integers only. -/
def BinaryOp.onlyOnIntegers : BinaryOp → Bool
  | .rem | .and | .or | .bitAnd | .bitOr | .bitXor | .shl | .shr => true
  | _ => false

/-- What can be computed. -/
inductive IsExpression : Node → Prop where
  | number {p : Position} {t : ValueType} {literal : String} :
      IsExpression (.number p (.value t) literal)
  | get {p : Position} {storage : Storage} {name : String} {t : ValueType} :
      IsExpression (.get p storage name (.value t))
  | operator {p : Position} {op : BinaryOp} {t : ValueType} :
      (op.onlyOnIntegers = true → t.isInteger = true) →
      IsExpression (.operator p (.value t) op.symbol)
  | cast {p : Position} {s t : ValueType} : IsExpression (.cast p (.value s) (.value t))
  | expression {p : Position} {k : NumericKind} {terms : List Node} :
      terms ≠ [] → (∀ term ∈ terms, IsExpression term) → IsExpression (.expression p k terms)

/-- What can stand in the header of a `for`. -/
inductive IsAssignment : Node → Prop where
  | set {p : Position} {storage : Storage} {x : String} {v : Node} :
      IsExpression v → IsAssignment (.set p storage x v)

/-- What can stand in a function with the given result, inside `n` loops of that function. -/
inductive IsStatement (result : NumericKind) : Nat → Node → Prop where
  | declaration {n : Nat} {p : Position} {x : String} {k : NumericKind} :
      IsStatement result n (.localVar p x k)
  | assignment {n : Nat} {stmt : Node} : IsAssignment stmt → IsStatement result n stmt
  | returnValue {n : Nat} {p : Position} {v : Node} :
      result.isValue = true → IsExpression v → IsStatement result n (.ret p (some v))
  | returnVoid {n : Nat} {p : Position} : result = .void → IsStatement result n (.ret p none)
  | brk {n : Nat} {p : Position} {levels : Option Nat} :
      1 ≤ levels.getD 1 → levels.getD 1 ≤ n → IsStatement result n (.brk p levels)
  | cont {n : Nat} {p : Position} {levels : Option Nat} :
      1 ≤ levels.getD 1 → levels.getD 1 ≤ n → IsStatement result n (.cont p levels)
  | whileLoop {n : Nat} {p : Position} {c : Node} {body : List Node} :
      IsExpression c → (∀ stmt ∈ body, IsStatement result (n + 1) stmt) →
      IsStatement result n (.whileLoop p c body)
  | doLoop {n : Nat} {p : Position} {body : List Node} {c : Node} :
      (∀ stmt ∈ body, IsStatement result (n + 1) stmt) → IsExpression c →
      IsStatement result n (.doLoop p body c)
  | forLoop {n : Nat} {p : Position} {init : List Node} {condition : Option Node}
      {increment body : List Node} :
      (∀ a ∈ init, IsAssignment a) → (∀ c ∈ condition, IsExpression c) →
      (∀ a ∈ increment, IsAssignment a) → (∀ stmt ∈ body, IsStatement result (n + 1) stmt) →
      IsStatement result n (.forLoop p init condition increment body)
  | ifElse {n : Nat} {p : Position} {c : Node} {thenBranch : List Node}
      {elseBranch : Option (List Node)} :
      IsExpression c → (∀ stmt ∈ thenBranch, IsStatement result n stmt) →
      (∀ branch ∈ elseBranch, ∀ stmt ∈ branch, IsStatement result n stmt) →
      IsStatement result n (.ifElse p c thenBranch elseBranch)

/-- A declaration of a variable that can have a value. -/
inductive IsVariable : Node → Prop where
  | localVar {p : Position} {x : String} {t : ValueType} : IsVariable (.localVar p x (.value t))

/-- What can stand in a module. -/
inductive IsItem : Node → Prop where
  | exportFunc {p : Position} {name exported : String} : IsItem (.exportFunc p name exported)
  | global {p q : Position} {mutable : Bool} {name literal : String} {kind k : NumericKind} :
      kind.isValue = true → IsItem (.global p mutable name kind (.number q k literal))
  | function {p q : Position} {name : String} {result : NumericKind} {params body : List Node} :
      (∀ v ∈ params, IsVariable v) → (result = .void ∨ result.isValue = true) →
      (∀ v ∈ body.takeWhile Node.isDeclaration, IsVariable v) →
      (∀ stmt ∈ body.dropWhile Node.isDeclaration, IsStatement result 0 stmt) →
      IsItem (.function p name result (.paramList q params) body)

/-- What can be lowered. -/
inductive IsProgram : Node → Prop where
  | module {p : Position} {items : List Node} :
      (∀ item ∈ items, IsItem item) → IsProgram (.module p items)

/-! ## Expressions -/

theorem BinaryOp.exists_select?_iff {op : BinaryOp} {t : ValueType} :
    (∃ i, op.select? t = some i) ↔ (op.onlyOnIntegers = true → t.isInteger = true) := by
  cases op <;> cases t <;> simp [select?, onlyOnIntegers, ValueType.isInteger]

theorem Selects.isExpression {n : Node} {i : Option Instr} (h : Selects n i) : IsExpression n := by
  cases h with
  | number => exact .number
  | get => exact .get
  | operator hselect => exact .operator (BinaryOp.exists_select?_iff.mp ⟨_, hselect⟩)
  | identity => exact .cast
  | convert => exact .cast

theorem Computes.isExpression {terms : List Node} {ops : List Instr} (h : Computes terms ops) :
    ∀ term ∈ terms, IsExpression term := by
  induction h with
  | nil => simp
  | leaf hi _ ih => exact List.forall_mem_cons.mpr ⟨hi.isExpression, ih⟩
  | expression hne _ _ ihterms ih =>
      exact List.forall_mem_cons.mpr ⟨.expression hne ihterms, ih⟩

/-- Terms each of which can be put in front of lowered terms can be lowered together. -/
theorem exists_computes {terms : List Node}
    (h : ∀ term ∈ terms, ∀ rest others, Computes rest others →
      ∃ ops, Computes (term :: rest) ops) :
    ∃ ops, Computes terms ops := by
  induction terms with
  | nil => exact ⟨[], .nil⟩
  | cons term terms ih =>
      obtain ⟨hterm, hterms⟩ := List.forall_mem_cons.mp h
      obtain ⟨others, hothers⟩ := ih hterms
      exact hterm terms others hothers

theorem IsExpression.computes {n : Node} (h : IsExpression n) :
    ∀ (rest : List Node) (others : List Instr), Computes rest others →
      ∃ ops, Computes (n :: rest) ops := by
  induction h with
  | number => exact fun _ _ hrest => ⟨_, .leaf .number hrest⟩
  | get => exact fun _ _ hrest => ⟨_, .leaf .get hrest⟩
  | operator hop =>
      obtain ⟨i, hi⟩ := BinaryOp.exists_select?_iff.mpr hop
      exact fun _ _ hrest => ⟨_, .leaf (.operator hi) hrest⟩
  | @cast p s t =>
      intro rest others hrest
      cases hst : castPlan s t with
      | identity =>
          obtain rfl := castPlan_eq_identity_iff.mp hst
          exact ⟨_, .leaf .identity hrest⟩
      | convert c =>
          obtain ⟨rfl, rfl⟩ := castPlan_eq_convert_iff.mp hst
          exact ⟨_, .leaf .convert hrest⟩
  | @expression p k terms hne _ ih =>
      intro rest others hrest
      obtain ⟨inner, hinner⟩ := exists_computes ih
      exact ⟨_, .expression hne hinner hrest⟩

/-- Exactly the expressions of the grammar can be lowered. -/
theorem exists_operands_eq_ok_iff {n : Node} :
    (∃ ops, n.operands = .ok ops) ↔ IsExpression n := by
  simp only [operands_eq_ok_iff]
  constructor
  · rintro ⟨ops, h⟩
    exact h.isExpression n List.mem_cons_self
  · exact fun h => h.computes [] [] .nil

/-- **Whatever can be computed has a value type.** -/
theorem IsExpression.resultKind {n : Node} (h : IsExpression n) :
    ∃ t, n.resultKind = .value t := by
  induction h with
  | @number p t => exact ⟨t, rfl⟩
  | @get p storage name t => exact ⟨t, rfl⟩
  | @operator p op t =>
      by_cases hop : op.isComparison = true
      · exact ⟨.i32, by simp [Node.resultKind, hop]⟩
      · exact ⟨t, by simp [Node.resultKind, hop]⟩
  | @cast p s t => exact ⟨t, rfl⟩
  | @expression p k terms hne _ ih =>
      -- only the last term matters, and there is one
      obtain ⟨t, ht⟩ := ih (terms.getLast hne) (List.getLast_mem hne)
      refine ⟨t, ?_⟩
      rw [Node.resultKind, ← List.dropLast_append_getLast hne, lastKind_append_singleton, ht]

theorem exists_resultKind_of_operands {n : Node} {ops : List Instr} (h : n.operands = .ok ops) :
    ∃ t, n.resultKind = .value t :=
  (exists_operands_eq_ok_iff.mp ⟨ops, h⟩).resultKind

/-! ## The parts of a statement -/

theorem exists_truthTest_eq_ok_iff {c : Node} :
    (∃ test, c.truthTest = .ok test) ↔ IsExpression c := by
  simp only [Node.truthTest_eq_ok_iff]
  constructor
  · rintro ⟨_, ops, _, hops, -⟩
    exact exists_operands_eq_ok_iff.mp ⟨ops, hops⟩
  · intro h
    obtain ⟨ops, hops⟩ := exists_operands_eq_ok_iff.mpr h
    obtain ⟨t, ht⟩ := h.resultKind
    exact ⟨_, ops, t, hops, ht, rfl⟩

theorem exists_exitGuard_eq_ok_iff {c : Node} {depth : Nat} :
    (∃ code, c.exitGuard depth = .ok code) ↔ IsExpression c := by
  simp only [Node.exitGuard_eq_ok_iff]
  constructor
  · rintro ⟨_, ops, _, hops, -⟩
    exact exists_operands_eq_ok_iff.mp ⟨ops, hops⟩
  · intro h
    obtain ⟨ops, hops⟩ := exists_operands_eq_ok_iff.mpr h
    obtain ⟨t, ht⟩ := h.resultKind
    exact ⟨_, ops, t, hops, ht, rfl⟩

theorem exists_assignment_eq_ok_iff {n : Node} :
    (∃ code, n.assignment = .ok code) ↔ IsAssignment n := by
  simp only [Node.assignment_eq_ok_iff]
  constructor
  · rintro ⟨_, p, storage, x, v, ops, rfl, hops, -⟩
    exact .set (exists_operands_eq_ok_iff.mp ⟨ops, hops⟩)
  · rintro ⟨hv⟩
    obtain ⟨ops, hops⟩ := exists_operands_eq_ok_iff.mpr hv
    exact ⟨_, _, _, _, _, ops, rfl, hops, rfl⟩

theorem exists_assignments_eq_ok_iff {ns : List Node} :
    (∃ code, ns.mapM Node.assignment = .ok code) ↔ ∀ n ∈ ns, IsAssignment n := by
  simp only [exists_mapM_eq_ok_iff, exists_assignment_eq_ok_iff]

theorem exists_guard_eq_ok_iff {condition : Option Node} {depth : Nat} :
    (∃ guard, condition.toList.mapM (Node.exitGuard depth) = .ok guard)
      ↔ ∀ c ∈ condition, IsExpression c := by
  simp only [exists_mapM_eq_ok_iff, exists_exitGuard_eq_ok_iff, Option.mem_toList,
    Option.mem_def]

theorem exists_declarations_eq_ok_iff {ns : List Node} :
    (∃ vars, ns.mapM Node.declaration = .ok vars) ↔ ∀ n ∈ ns, IsVariable n := by
  rw [exists_mapM_eq_ok_iff]
  refine forall₂_congr fun n _ => ?_
  simp only [Node.declaration_eq_ok_iff]
  constructor
  · rintro ⟨_, p, rfl⟩
    exact .localVar
  · rintro ⟨⟩
    exact ⟨(_, _), _, rfl⟩

theorem Scope.exists_loop?_iff {s : Scope} {level : Nat} :
    (∃ d, s.loop? level = some d) ↔ 1 ≤ level ∧ level ≤ s.loops.length := by
  rw [← Option.ne_none_iff_exists', Ne, loop?_eq_none_iff]
  omega

/-! ## Statements -/

/-- Whatever can be lowered is in the grammar.  The number of loops is read off the scope. -/
theorem Lowers.isStatement {s : Scope} {stmts : List Node} {code : List Code} {result : NumericKind}
    (h : Lowers s stmts code) (hresult : result.valueType? = s.result)
    (hne : result ≠ .notApplicable) :
    ∀ stmt ∈ stmts, IsStatement result s.loops.length stmt := by
  induction h with
  | nil => simp
  | declaration _ ih => exact List.forall_mem_cons.mpr ⟨.declaration, ih hresult⟩
  | assignment hops _ ih =>
      have hv := exists_operands_eq_ok_iff.mp ⟨_, hops⟩
      exact List.forall_mem_cons.mpr ⟨.assignment (.set hv), ih hresult⟩
  | returnValue ht hops _ ih =>
      have hv := exists_operands_eq_ok_iff.mp ⟨_, hops⟩
      have hvalue : result.isValue = true := by rw [NumericKind.isValue, hresult, ht]; rfl
      exact List.forall_mem_cons.mpr ⟨.returnValue hvalue hv, ih hresult⟩
  | returnVoid ht _ ih =>
      have hvoid : result = .void := by
        rw [ht] at hresult
        cases result with
        | value t => cases hresult
        | void => rfl
        | notApplicable => exact absurd rfl hne
      exact List.forall_mem_cons.mpr ⟨.returnVoid hvoid, ih hresult⟩
  | brk hd _ ih =>
      obtain ⟨hpos, hle⟩ := Scope.exists_loop?_iff.mp ⟨_, hd⟩
      exact List.forall_mem_cons.mpr ⟨.brk hpos hle, ih hresult⟩
  | cont hd _ ih =>
      obtain ⟨hpos, hle⟩ := Scope.exists_loop?_iff.mp ⟨_, hd⟩
      exact List.forall_mem_cons.mpr ⟨.cont hpos hle, ih hresult⟩
  | whileLoop _ ih =>
      obtain ⟨hfor, hrest⟩ := List.forall_mem_cons.mp (ih hresult)
      cases hfor with
      | assignment h => cases h
      | forLoop _ hcondition _ hbody =>
          exact List.forall_mem_cons.mpr ⟨.whileLoop (hcondition _ rfl) hbody, hrest⟩
  | forLoop _ hinit hguard _ hstep _ ihbody ih =>
      have hinit' := exists_assignments_eq_ok_iff.mp ⟨_, hinit⟩
      have hguard' := exists_guard_eq_ok_iff.mp ⟨_, hguard⟩
      have hstep' := exists_assignments_eq_ok_iff.mp ⟨_, hstep⟩
      exact List.forall_mem_cons.mpr
        ⟨.forLoop hinit' hguard' hstep' (ihbody hresult), ih hresult⟩
  | doLoop _ _ htest _ ihbody ih =>
      have hc := exists_truthTest_eq_ok_iff.mp ⟨_, htest⟩
      exact List.forall_mem_cons.mpr ⟨.doLoop (ihbody hresult) hc, ih hresult⟩
  | ifThen htest _ _ ihyes ih =>
      have hc := exists_truthTest_eq_ok_iff.mp ⟨_, htest⟩
      exact List.forall_mem_cons.mpr ⟨.ifElse hc (ihyes hresult) (by simp), ih hresult⟩
  | ifElse htest _ _ _ ihyes ihno ih =>
      have hc := exists_truthTest_eq_ok_iff.mp ⟨_, htest⟩
      refine List.forall_mem_cons.mpr ⟨.ifElse hc (ihyes hresult) ?_, ih hresult⟩
      rintro _ ⟨rfl⟩
      exact ihno hresult

/-- Statements each of which can be put in front of lowered statements can be lowered together. -/
theorem exists_lowers {s : Scope} {stmts : List Node}
    (h : ∀ stmt ∈ stmts, ∀ rest others, Lowers s rest others →
      ∃ code, Lowers s (stmt :: rest) code) :
    ∃ code, Lowers s stmts code := by
  induction stmts with
  | nil => exact ⟨[], .nil⟩
  | cons stmt stmts ih =>
      obtain ⟨hstmt, hstmts⟩ := List.forall_mem_cons.mp h
      obtain ⟨others, hothers⟩ := ih hstmts
      exact hstmt stmts others hothers

/-- Whatever is in the grammar can be lowered, in every scope with as many loops. -/
theorem IsStatement.lowers {result : NumericKind} {n : Nat} {stmt : Node}
    (h : IsStatement result n stmt) :
    ∀ s : Scope, result.valueType? = s.result → s.loops.length = n →
      ∀ rest others, Lowers s rest others → ∃ code, Lowers s (stmt :: rest) code := by
  induction h with
  | declaration => exact fun s _ _ rest others hrest => ⟨_, .declaration hrest⟩
  | assignment hset =>
      intro s _ _ rest others hrest
      obtain ⟨hv⟩ := hset
      obtain ⟨ops, hops⟩ := exists_operands_eq_ok_iff.mpr hv
      exact ⟨_, .assignment hops hrest⟩
  | returnValue hvalue hv =>
      intro s hresult _ rest others hrest
      obtain ⟨ops, hops⟩ := exists_operands_eq_ok_iff.mpr hv
      obtain ⟨t, ht⟩ := Option.isSome_iff_exists.mp hvalue
      exact ⟨_, .returnValue (hresult.symm.trans ht) hops hrest⟩
  | returnVoid hvoid =>
      intro s hresult _ rest others hrest
      subst hvoid
      exact ⟨_, .returnVoid hresult.symm hrest⟩
  | brk hpos hle =>
      intro s _ hn rest others hrest
      obtain ⟨d, hd⟩ := Scope.exists_loop?_iff.mpr ⟨hpos, hn.symm ▸ hle⟩
      exact ⟨_, .brk hd hrest⟩
  | cont hpos hle =>
      intro s _ hn rest others hrest
      obtain ⟨d, hd⟩ := Scope.exists_loop?_iff.mpr ⟨hpos, hn.symm ▸ hle⟩
      exact ⟨_, .cont hd hrest⟩
  | @whileLoop n p c body hc _ ihbody =>
      intro s hresult hn rest others hrest
      obtain ⟨guard, hguard⟩ := exists_guard_eq_ok_iff.mpr
        (show ∀ e ∈ some c, IsExpression e by rintro _ ⟨rfl⟩; exact hc)
      obtain ⟨inner, hinner⟩ := exists_lowers fun stmt hmem =>
        ihbody stmt hmem (s.enter .plain) hresult (congrArg (· + 1) hn)
      exact ⟨_, .whileLoop (.forLoop rfl rfl hguard hinner rfl hrest)⟩
  | doLoop _ hc ihbody =>
      intro s hresult hn rest others hrest
      obtain ⟨test, htest⟩ := exists_truthTest_eq_ok_iff.mpr hc
      obtain ⟨inner, hinner⟩ := exists_lowers fun stmt hmem =>
        ihbody stmt hmem (s.enter (Shape.ofBody true _)) hresult (congrArg (· + 1) hn)
      exact ⟨_, .doLoop rfl hinner htest hrest⟩
  | forLoop hinit hcondition hstep _ ihbody =>
      intro s hresult hn rest others hrest
      obtain ⟨first, hfirst⟩ := exists_assignments_eq_ok_iff.mpr hinit
      obtain ⟨guard, hguard⟩ := exists_guard_eq_ok_iff.mpr hcondition
      obtain ⟨step, hstep'⟩ := exists_assignments_eq_ok_iff.mpr hstep
      obtain ⟨inner, hinner⟩ := exists_lowers fun stmt hmem =>
        ihbody stmt hmem (s.enter (Shape.ofBody _ _)) hresult (congrArg (· + 1) hn)
      exact ⟨_, .forLoop rfl hfirst hguard hinner hstep' hrest⟩
  | @ifElse n p c thenBranch elseBranch hc _ _ ihyes ihno =>
      intro s hresult hn rest others hrest
      obtain ⟨test, htest⟩ := exists_truthTest_eq_ok_iff.mpr hc
      obtain ⟨yes, hyes⟩ := exists_lowers fun stmt hmem => ihyes stmt hmem s.deeper hresult hn
      cases elseBranch with
      | none => exact ⟨_, .ifThen htest hyes hrest⟩
      | some branch =>
          obtain ⟨no, hno⟩ := exists_lowers fun stmt hmem =>
            ihno branch rfl stmt hmem s.deeper hresult hn
          exact ⟨_, .ifElse htest hyes hno hrest⟩

/-! ## Items and programs -/

theorem isItem_of_lowerItem {n : Node} {item : Item} (h : n.lowerItem.result = .ok item) :
    IsItem n := by
  cases n with
  | global p mutable name kind init =>
      obtain ⟨t, q, k, literal, rfl, rfl, -⟩ := lowerItem_global_eq_ok_iff.mp h
      exact .global rfl
  | exportFunc p name exported => exact .exportFunc
  | function p name result params body =>
      obtain ⟨f, rfl, hf⟩ := lowerItem_function_eq_ok_iff.mp h
      obtain ⟨q, items, rfl, hitems⟩ := Node.parameters_eq_ok_iff.mp hf.params_eq
      have hresult : result = .void ∨ result.isValue = true := by
        cases result with
        | value t => exact .inr rfl
        | void => exact .inl rfl
        | notApplicable => exact absurd rfl hf.result_ne
      exact .function (exists_declarations_eq_ok_iff.mp ⟨_, hitems⟩) hresult
        (exists_declarations_eq_ok_iff.mp ⟨_, hf.locals_eq⟩)
        (hf.lowers.isStatement hf.result_eq hf.result_ne)
  | _ => simp [Node.lowerItem] at h

theorem IsItem.exists_lowerItem {n : Node} (h : IsItem n) :
    ∃ item, n.lowerItem.result = .ok item := by
  cases h with
  | exportFunc => exact ⟨_, rfl⟩
  | @global p q mutable name literal kind k hkind =>
      obtain ⟨t, ht⟩ := Option.isSome_iff_exists.mp hkind
      obtain rfl := NumericKind.valueType?_eq_some_iff.mp ht
      exact ⟨_, rfl⟩
  | @function p q name result params body hparams hresult hlocals hbody =>
      have hne : result ≠ .notApplicable := by
        rintro rfl
        simp [NumericKind.isValue, NumericKind.valueType?] at hresult
      obtain ⟨ps, hps⟩ := exists_declarations_eq_ok_iff.mpr hparams
      obtain ⟨ls, hls⟩ := exists_declarations_eq_ok_iff.mpr hlocals
      obtain ⟨code, hcode⟩ := exists_lowers fun stmt hmem =>
        (hbody stmt hmem).lowers (.ofFunction result.valueType?) rfl rfl
      exact ⟨_, lowerItem_function_eq_ok_iff.mpr
        ⟨⟨name, ps, result.valueType?, ls, code⟩, rfl, rfl, hps, rfl, hne, hls, hcode⟩⟩

/-- **Acceptance is exactly the grammar**: whatever the options, a text is generated for the
programs of the grammar and for no others. -/
theorem generate_accepts_iff (o : Options) (program : Node) :
    (∃ text, (generate o program).result = .ok text) ↔ IsProgram program := by
  constructor
  · rintro ⟨text, h⟩
    obtain ⟨m, hm, -⟩ := generate_eq_ok_iff.mp h
    obtain ⟨p, items, rfl, hitems⟩ := lowerModule_eq_ok_iff.mp hm
    have hmapM := exists_mapM_eq_ok_iff.mp ⟨_, mapM_eq_ok_iff.mpr hitems⟩
    refine .module fun item hmem => ?_
    obtain ⟨lowered, hlowered⟩ := hmapM item hmem
    exact isItem_of_lowerItem hlowered
  · rintro ⟨hitems⟩
    obtain ⟨lowered, hlowered⟩ := exists_mapM_eq_ok_iff.mpr fun item hmem =>
      (hitems item hmem).exists_lowerItem
    refine ⟨_, generate_eq_ok_iff.mpr ⟨⟨lowered⟩, lowerModule_eq_ok_iff.mpr ?_, rfl⟩⟩
    exact ⟨_, _, rfl, mapM_eq_ok_iff.mp hlowered⟩

end WatLowering
