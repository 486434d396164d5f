import Mathlib.Data.List.Forall2
import WatLowering.Generator

/-!
# Lowering as rules

`Node.lower` is a function that reports while it works and stops at the first fault.  What is proved
about the code it leaves is almost always about successful runs only, and goes by recursion over the
statements.  This file turns the successful runs into relations, so that such proofs are rule
inductions and never open the functions again.

* `Computes terms ops` — the terms of an expression become the instructions `ops`.
* `Lowers s stmts code` — in the scope `s` the statements become the code.  There is one rule for
  each way a statement can be lowered; each rule takes the first statement off the list.
* **`operandsAll_eq_ok_iff`** and **`lowerAll_eq_ok_iff`** — the relations are exactly the
  functions: each holds of just the results that its function returns.
* `FunctionLowers` and `lowerModule_eq_ok_iff` — the same for what surrounds function bodies.
* `generate_eq_ok_iff` — a text is generated exactly when a module was lowered and written out.

**One rule for two loops.**  A `while` loop is a `for` loop whose header holds nothing but the
condition, and it is lowered to the same code.  `Lowers.whileLoop` says just that, so a rule
induction treats the two at once.
-/

namespace WatLowering

/-! ## Steps that may fail -/

section Steps

variable {ε α β : Type}

/-- A sequence succeeds exactly if its steps do, one after the other. -/
theorem bind_eq_ok_iff {x : Except ε α} {f : α → Except ε β} {b : β} :
    (x >>= f) = .ok b ↔ ∃ a, x = .ok a ∧ f a = .ok b := by
  cases x with
  | error e => simp [bind, Except.bind]
  | ok a => simp [bind, Except.bind]

theorem map_eq_ok_iff {x : Except ε α} {f : α → β} {b : β} :
    f <$> x = .ok b ↔ ∃ a, x = .ok a ∧ f a = b := by
  cases x with
  | error e => simp [Functor.map, Except.map]
  | ok a => simp [Functor.map, Except.map]

theorem pure_eq_ok_iff {a b : α} : (pure a : Except ε α) = .ok b ↔ a = b := by
  simp [pure, Except.pure]

/-- A list is handled successfully exactly if each of its elements is. -/
theorem mapM_eq_ok_iff {f : α → Except ε β} {xs : List α} {ys : List β} :
    xs.mapM f = .ok ys ↔ List.Forall₂ (fun x y => f x = .ok y) xs ys := by
  induction xs generalizing ys with
  | nil => rw [List.mapM_nil, pure_eq_ok_iff, List.forall₂_nil_left_iff, eq_comm]
  | cons x xs ih =>
      simp only [List.mapM_cons, bind_eq_ok_iff, pure_eq_ok_iff, List.forall₂_cons_left_iff, ih]
      constructor
      · rintro ⟨y, hy, zs, hzs, rfl⟩
        exact ⟨y, zs, hy, hzs, rfl⟩
      · rintro ⟨y, zs, hy, hzs, rfl⟩
        exact ⟨y, hy, zs, hzs, rfl⟩

/-- What everything related to an element of a list has, all of a list related to it have. -/
theorem forall_mem_of_forall₂ {R : α → β → Prop} {P : β → Prop} {xs : List α} {ys : List β}
    (h : List.Forall₂ R xs ys) (hR : ∀ x ∈ xs, ∀ y, R x y → P y) : ∀ y ∈ ys, P y := by
  induction h with
  | nil => simp
  | cons hxy _ ih =>
      rw [List.forall_mem_cons] at hR
      exact List.forall_mem_cons.mpr ⟨hR.1 _ hxy, ih hR.2⟩

/-- Whether a list is handled successfully is asked of each element on its own. -/
theorem exists_mapM_eq_ok_iff {f : α → Except ε β} {xs : List α} :
    (∃ ys, xs.mapM f = .ok ys) ↔ ∀ x ∈ xs, ∃ y, f x = .ok y := by
  induction xs with
  | nil => simp [pure_eq_ok_iff]
  | cons x xs ih =>
      simp only [List.mapM_cons, bind_eq_ok_iff, pure_eq_ok_iff, List.forall_mem_cons, ← ih]
      constructor
      · rintro ⟨_, y, hy, ys, hys, rfl⟩
        exact ⟨⟨y, hy⟩, ys, hys⟩
      · rintro ⟨⟨y, hy⟩, ys, hys⟩
        exact ⟨y :: ys, y, hy, ys, hys, rfl⟩

/-- The results of a series of reporting steps are the series of their results. -/
theorem Traced.result_mapM (f : α → Traced β) (xs : List α) :
    (xs.mapM f).result = xs.mapM fun x => (f x).result := by
  induction xs with
  | nil => rfl
  | cons x xs ih =>
      simp only [List.mapM_cons, Traced.result_bind, Traced.result_pure, ih]
      rfl

theorem Traced.result_map (f : α → β) (x : Traced α) : (f <$> x).result = f <$> x.result := by
  obtain ⟨log, result⟩ := x
  cases result <;> rfl

end Steps

namespace Scope

@[simp] theorem result_enter (s : Scope) (shape : Shape) : (s.enter shape).result = s.result := rfl

@[simp] theorem loops_enter (s : Scope) (shape : Shape) :
    (s.enter shape).loops = s.depth :: s.loops := rfl

@[simp] theorem result_deeper (s : Scope) : s.deeper.result = s.result := rfl

@[simp] theorem loops_deeper (s : Scope) : s.deeper.loops = s.loops := rfl

end Scope

/-- A level is resolved exactly when it names an enclosing loop. -/
theorem Scope.target_eq_ok_iff {s : Scope} {levels : Option Nat} {stmt : Node} {d : Nat} :
    s.target levels stmt = .ok d ↔ s.loop? (levels.getD 1) = some d := by
  simp only [Scope.target]
  cases s.loop? (levels.getD 1) with
  | none => simp
  | some depth => simp

namespace Node

/-! What the parts of a statement become, for the parts that hold no statements. -/

theorem truthTest_eq_ok_iff {c : Node} {test : Test} :
    c.truthTest = .ok test
      ↔ ∃ ops t, c.operands = .ok ops ∧ c.resultKind = .value t ∧ test = .truth t ops := by
  simp only [truthTest, bind_eq_ok_iff, pure_eq_ok_iff, NumericKind.valueTypeAt_eq_ok_iff]
  constructor
  · rintro ⟨ops, hops, t, ht, rfl⟩
    exact ⟨ops, t, hops, ht, rfl⟩
  · rintro ⟨ops, t, hops, ht, rfl⟩
    exact ⟨ops, hops, t, ht, rfl⟩

theorem exitGuard_eq_ok_iff {c : Node} {depth : Nat} {code : Code} :
    c.exitGuard depth = .ok code
      ↔ ∃ ops t, c.operands = .ok ops ∧ c.resultKind = .value t
          ∧ code = .brIf (.exit depth) (.exit t ops) := by
  simp only [exitGuard, bind_eq_ok_iff, pure_eq_ok_iff, NumericKind.valueTypeAt_eq_ok_iff]
  constructor
  · rintro ⟨ops, hops, t, ht, rfl⟩
    exact ⟨ops, t, hops, ht, rfl⟩
  · rintro ⟨ops, t, hops, ht, rfl⟩
    exact ⟨ops, hops, t, ht, rfl⟩

theorem assignment_eq_ok_iff {n : Node} {code : Code} :
    n.assignment = .ok code
      ↔ ∃ p storage x v ops, n = .set p storage x v ∧ v.operands = .ok ops
          ∧ code = .set storage x ops := by
  cases n with
  | set p storage x v =>
      simp only [assignment, bind_eq_ok_iff, pure_eq_ok_iff]
      constructor
      · rintro ⟨ops, hops, rfl⟩
        exact ⟨p, storage, x, v, ops, rfl, hops, rfl⟩
      · rintro ⟨_, _, _, _, ops, ⟨rfl, rfl, rfl, rfl⟩, hops, rfl⟩
        exact ⟨ops, hops, rfl⟩
  | _ => simp [assignment]

theorem exists_eq_set_of_assignments {ns : List Node} {code : List Code}
    (h : ns.mapM assignment = .ok code) : ∀ c ∈ code, ∃ storage x ops, c = .set storage x ops := by
  refine forall_mem_of_forall₂ (mapM_eq_ok_iff.mp h) fun n _ c hc => ?_
  obtain ⟨p, storage, x, v, ops, -, -, rfl⟩ := assignment_eq_ok_iff.mp hc
  exact ⟨storage, x, ops, rfl⟩

/-- What no assignment has, a series of them does not have. -/
theorem flatMap_assignments {β : Type} {f : Code → List β}
    (hf : ∀ storage x ops, f (.set storage x ops) = []) {ns : List Node} {code : List Code}
    (h : ns.mapM assignment = .ok code) : code.flatMap f = [] := by
  rw [List.flatMap_eq_nil_iff]
  intro c hc
  obtain ⟨storage, x, ops, rfl⟩ := exists_eq_set_of_assignments h c hc
  exact hf storage x ops

/-- The guard of a loop is one conditional jump, or nothing where there is no condition. -/
theorem guard_eq_ok_iff {condition : Option Node} {depth : Nat} {guard : List Code} :
    condition.toList.mapM (exitGuard depth) = .ok guard
      ↔ (condition = none ∧ guard = [])
        ∨ ∃ c ops t, condition = some c ∧ c.operands = .ok ops ∧ c.resultKind = .value t
            ∧ guard = [.brIf (.exit depth) (.exit t ops)] := by
  cases condition with
  | none =>
      simp only [Option.toList, List.mapM_nil, pure_eq_ok_iff]
      simp [eq_comm]
  | some c =>
      simp only [Option.toList, List.mapM_cons, List.mapM_nil, pure_bind, bind_eq_ok_iff,
        pure_eq_ok_iff, exitGuard_eq_ok_iff]
      constructor
      · rintro ⟨_, ⟨ops, t, hops, ht, rfl⟩, rfl⟩
        exact .inr ⟨c, ops, t, rfl, hops, ht, rfl⟩
      · rintro (⟨hc, -⟩ | ⟨_, ops, t, ⟨rfl⟩, hops, ht, rfl⟩)
        · cases hc
        · exact ⟨_, ⟨ops, t, hops, ht, rfl⟩, rfl⟩

theorem declaration_eq_ok_iff {n : Node} {v : Variable} :
    n.declaration = .ok v ↔ ∃ p, n = .localVar p v.1 (.value v.2) := by
  cases n with
  | localVar p x k =>
      simp only [declaration, bind_eq_ok_iff, pure_eq_ok_iff, NumericKind.valueTypeAt_eq_ok_iff]
      constructor
      · rintro ⟨t, rfl, rfl⟩
        exact ⟨p, rfl⟩
      · rintro ⟨_, ⟨rfl, rfl, rfl⟩⟩
        exact ⟨v.2, rfl, rfl⟩
  | _ => simp [declaration]

theorem parameters_eq_ok_iff {n : Node} {name : String} {vars : List Variable} :
    n.parameters name = .ok vars
      ↔ ∃ p items, n = .paramList p items ∧ items.mapM declaration = .ok vars := by
  cases n with
  | paramList p items => simp [parameters]
  | _ => simp [parameters]

end Node

/-! ## Rules for expressions -/

/-- What a single term becomes; a cast that changes nothing becomes nothing. -/
inductive Selects : Node → Option Instr → Prop where
  | number {p : Position} {t : ValueType} {literal : String} :
      Selects (.number p (.value t) literal) (some (.const t literal))
  | get {p : Position} {storage : Storage} {name : String} {t : ValueType} :
      Selects (.get p storage name (.value t)) (some (.get storage name))
  | operator {p : Position} {op : BinaryOp} {t : ValueType} {i : NumericOp} :
      op.select? t = some i → Selects (.operator p (.value t) op.symbol) (some (.numeric i t))
  | identity {p : Position} {t : ValueType} : Selects (.cast p (.value t) (.value t)) none
  | convert {p : Position} {c : Conversion} :
      Selects (.cast p (.value c.source) (.value c.target)) (some (.convert c))

/-- What several terms become.  Sequences inside the terms are opened where they stand. -/
inductive Computes : List Node → List Instr → Prop where
  | nil : Computes [] []
  | leaf {n : Node} {i : Option Instr} {rest : List Node} {ops : List Instr} :
      Selects n i → Computes rest ops → Computes (n :: rest) (i.toList ++ ops)
  | expression {p : Position} {k : NumericKind} {terms rest : List Node} {inner ops : List Instr} :
      terms ≠ [] → Computes terms inner → Computes rest ops →
      Computes (.expression p k terms :: rest) (inner ++ ops)

theorem selects_of_leaf {n : Node} {i : Option Instr} (h : n.leaf = .ok i) : Selects n i := by
  cases n with
  | number p k literal =>
      simp only [Node.leaf, bind_eq_ok_iff, pure_eq_ok_iff, NumericKind.valueTypeAt_eq_ok_iff] at h
      obtain ⟨t, rfl, rfl⟩ := h
      exact .number
  | get p storage name k =>
      simp only [Node.leaf, bind_eq_ok_iff, pure_eq_ok_iff, NumericKind.valueTypeAt_eq_ok_iff] at h
      obtain ⟨t, rfl, rfl⟩ := h
      exact .get
  | operator p k symbol =>
      simp only [Node.leaf, bind_eq_ok_iff, NumericKind.valueTypeAt_eq_ok_iff] at h
      obtain ⟨t, rfl, h⟩ := h
      split at h
      · next chosen hchosen =>
          obtain ⟨op, hop, hselect⟩ := Option.bind_eq_some_iff.mp hchosen
          obtain rfl := BinaryOp.ofSymbol?_eq_some_iff.mp hop
          obtain rfl := pure_eq_ok_iff.mp h
          exact .operator hselect
      · cases h
  | cast p source target =>
      cases source with
      | value s =>
          cases target with
          | value t =>
              have hplan : castPlan? (.value s) (.value t) = some (castPlan s t) := rfl
              simp only [Node.leaf, hplan] at h
              cases hst : castPlan s t with
              | identity =>
                  simp only [hst, Except.ok.injEq] at h
                  subst h
                  obtain rfl := castPlan_eq_identity_iff.mp hst
                  exact .identity
              | convert c =>
                  simp only [hst, Except.ok.injEq] at h
                  subst h
                  obtain ⟨rfl, rfl⟩ := castPlan_eq_convert_iff.mp hst
                  exact .convert
          | _ => simp [Node.leaf, castPlan?, NumericKind.valueType?] at h
      | _ => simp [Node.leaf, castPlan?, NumericKind.valueType?] at h
  | _ => simp [Node.leaf] at h

theorem leaf_of_selects {n : Node} {i : Option Instr} (h : Selects n i) : n.leaf = .ok i := by
  cases h with
  | number => rfl
  | get => rfl
  | @operator p op t i hselect =>
      have hchosen : ((BinaryOp.ofSymbol? op.symbol).bind fun op => op.select? t) = some i := by
        rw [BinaryOp.ofSymbol?_symbol, Option.bind_some, hselect]
      rw [Node.leaf, bind_eq_ok_iff]
      refine ⟨t, rfl, ?_⟩
      rw [hchosen]
      rfl
  | @identity p t =>
      have hplan : castPlan? (.value t) (.value t) = some .identity :=
        congrArg some (castPlan_eq_identity_iff.mpr rfl)
      simp only [Node.leaf, hplan]
  | @convert p c =>
      have hplan : castPlan? (.value c.source) (.value c.target) = some (.convert c) :=
        congrArg some (castPlan_eq_convert_iff.mpr ⟨rfl, rfl⟩)
      simp only [Node.leaf, hplan]

theorem Selects.operands_eq {n : Node} {i : Option Instr} (h : Selects n i) :
    n.operands = .ok i.toList := by
  have hleaf : n.operands = n.leaf.map Option.toList := by cases h <;> rfl
  rw [hleaf, leaf_of_selects h]
  rfl

/-- A node that is not a sequence is lowered as a single term. -/
theorem computes_of_map_leaf {n : Node} {rest : List Node} {ops others : List Instr}
    (h : n.leaf.map Option.toList = .ok ops) (hrest : Computes rest others) :
    Computes (n :: rest) (ops ++ others) := by
  cases hi : n.leaf with
  | error fault => simp [hi, Except.map] at h
  | ok i =>
      simp only [hi, Except.map, Except.ok.injEq] at h
      subst h
      exact .leaf (selects_of_leaf hi) hrest

mutual

theorem computes_of_operands : ∀ (n : Node) (ops : List Instr) (rest : List Node)
    (others : List Instr), n.operands = .ok ops → Computes rest others →
      Computes (n :: rest) (ops ++ others)
  | .expression p k terms, ops, rest, others, h, hrest => by
      simp only [Node.operands] at h
      split at h
      · cases h
      · next hne =>
          have hterms : terms ≠ [] := by simpa using hne
          exact .expression hterms (computes_of_operandsAll terms ops h) hrest
  | .module _ _, _, _, _, h, hrest | .global _ _ _ _ _, _, _, _, h, hrest
  | .exportFunc _ _ _, _, _, _, h, hrest | .function _ _ _ _ _, _, _, _, h, hrest
  | .paramList _ _, _, _, _, h, hrest | .localVar _ _ _, _, _, _, h, hrest
  | .get _ _ _ _, _, _, _, h, hrest | .set _ _ _ _, _, _, _, h, hrest
  | .number _ _ _, _, _, _, h, hrest | .operator _ _ _, _, _, _, h, hrest
  | .cast _ _ _, _, _, _, h, hrest | .ret _ _, _, _, _, h, hrest | .brk _ _, _, _, _, h, hrest
  | .cont _ _, _, _, _, h, hrest | .forLoop _ _ _ _ _, _, _, _, h, hrest
  | .doLoop _ _ _, _, _, _, h, hrest | .whileLoop _ _ _, _, _, _, h, hrest
  | .ifElse _ _ _ _, _, _, _, h, hrest => computes_of_map_leaf h hrest

theorem computes_of_operandsAll : ∀ (terms : List Node) (ops : List Instr),
    operandsAll terms = .ok ops → Computes terms ops
  | [], ops, h => by
      simp only [operandsAll, Except.ok.injEq] at h
      subst h
      exact .nil
  | term :: rest, ops, h => by
      simp only [operandsAll, bind_eq_ok_iff, pure_eq_ok_iff] at h
      obtain ⟨first, hfirst, others, hothers, rfl⟩ := h
      exact computes_of_operands term first rest others hfirst
        (computes_of_operandsAll rest others hothers)

end

theorem operandsAll_of_computes {terms : List Node} {ops : List Instr} (h : Computes terms ops) :
    operandsAll terms = .ok ops := by
  induction h with
  | nil => rfl
  | leaf hi _ ih =>
      simp only [operandsAll, hi.operands_eq, ih]
      rfl
  | expression hne _ _ ihterms ih =>
      have hterms : (List.isEmpty _) = false := List.isEmpty_eq_false_iff.mpr hne
      simp only [operandsAll, Node.operands, hterms, ihterms, ih]
      rfl

/-- **The rules are the function**, for expressions. -/
theorem operandsAll_eq_ok_iff {terms : List Node} {ops : List Instr} :
    operandsAll terms = .ok ops ↔ Computes terms ops :=
  ⟨computes_of_operandsAll terms ops, operandsAll_of_computes⟩

theorem operands_eq_ok_iff {n : Node} {ops : List Instr} :
    n.operands = .ok ops ↔ Computes [n] ops := by
  rw [← operandsAll_eq_ok_iff]
  simp only [operandsAll, bind_eq_ok_iff, pure_eq_ok_iff, Except.ok.injEq, exists_eq_left',
    List.append_nil, exists_eq_right]

/-! ## Rules for statements -/

/-- **What the statements become.**  The first statement of the list decides which rule applies;
what its code is depends on the scope, and the rest of the list is lowered in the same scope. -/
inductive Lowers : Scope → List Node → List Code → Prop where
  | nil {s : Scope} : Lowers s [] []
  /-- A declaration among the statements leaves nothing. -/
  | declaration {s : Scope} {p : Position} {x : String} {k : NumericKind} {rest : List Node}
      {code : List Code} :
      Lowers s rest code → Lowers s (.localVar p x k :: rest) code
  | assignment {s : Scope} {p : Position} {storage : Storage} {x : String} {v : Node}
      {ops : List Instr} {rest : List Node} {code : List Code} :
      v.operands = .ok ops → Lowers s rest code →
      Lowers s (.set p storage x v :: rest) (.set storage x ops :: code)
  | returnValue {s : Scope} {p : Position} {t : ValueType} {v : Node} {ops : List Instr}
      {rest : List Node} {code : List Code} :
      s.result = some t → v.operands = .ok ops → Lowers s rest code →
      Lowers s (.ret p (some v) :: rest) (.br .ret (some ops) :: code)
  | returnVoid {s : Scope} {p : Position} {rest : List Node} {code : List Code} :
      s.result = none → Lowers s rest code →
      Lowers s (.ret p none :: rest) (.br .ret none :: code)
  | brk {s : Scope} {p : Position} {levels : Option Nat} {d : Nat} {rest : List Node}
      {code : List Code} :
      s.loop? (levels.getD 1) = some d → Lowers s rest code →
      Lowers s (.brk p levels :: rest) (.br (.exit d) none :: code)
  | cont {s : Scope} {p : Position} {levels : Option Nat} {d : Nat} {rest : List Node}
      {code : List Code} :
      s.loop? (levels.getD 1) = some d → Lowers s rest code →
      Lowers s (.cont p levels :: rest) (.br (.next d) none :: code)
  /-- A `while` loop is a `for` loop that has only a condition. -/
  | whileLoop {s : Scope} {p : Position} {c : Node} {body rest : List Node} {code : List Code} :
      Lowers s (.forLoop p [] (some c) [] body :: rest) code →
      Lowers s (.whileLoop p c body :: rest) code
  | forLoop {s : Scope} {p : Position} {init : List Node} {condition : Option Node}
      {increment body rest : List Node} {shape : Shape} {first guard inner step code : List Code} :
      shape = Shape.ofBody (!increment.isEmpty) body →
      init.mapM Node.assignment = .ok first →
      condition.toList.mapM (Node.exitGuard s.depth) = .ok guard →
      Lowers (s.enter shape) body inner →
      increment.mapM Node.assignment = .ok step →
      Lowers s rest code →
      Lowers s (.forLoop p init condition increment body :: rest)
        (first ++ .loop (.exit s.depth) (shape.headLabel s.depth)
          (guard ++ shape.wrap s.depth inner ++ step ++ [.br (shape.headLabel s.depth) none])
          :: code)
  | doLoop {s : Scope} {p : Position} {c : Node} {body rest : List Node} {shape : Shape}
      {test : Test} {inner code : List Code} :
      shape = Shape.ofBody true body →
      Lowers (s.enter shape) body inner →
      c.truthTest = .ok test →
      Lowers s rest code →
      Lowers s (.doLoop p body c :: rest)
        (.loop (.exit s.depth) (shape.headLabel s.depth)
          (shape.wrap s.depth inner ++ [.brIf (shape.headLabel s.depth) test]) :: code)
  | ifThen {s : Scope} {p : Position} {c : Node} {thenBranch rest : List Node} {test : Test}
      {yes code : List Code} :
      c.truthTest = .ok test → Lowers s.deeper thenBranch yes → Lowers s rest code →
      Lowers s (.ifElse p c thenBranch none :: rest) (.ifThen test yes none :: code)
  | ifElse {s : Scope} {p : Position} {c : Node} {thenBranch elseBranch rest : List Node}
      {test : Test} {yes no code : List Code} :
      c.truthTest = .ok test → Lowers s.deeper thenBranch yes → Lowers s.deeper elseBranch no →
      Lowers s rest code →
      Lowers s (.ifElse p c thenBranch (some elseBranch) :: rest)
        (.ifThen test yes (some no) :: code)

/-! ## The rules are the function -/

section Function

open Traced (report silently)

/-- A `while` loop and the `for` loop with its condition have the same code. -/
theorem result_lower_whileLoop (s : Scope) (p : Position) (c : Node) (body : List Node) :
    ((Node.whileLoop p c body).lower s).result
      = ((Node.forLoop p [] (some c) [] body).lower s).result := by
  simp only [Node.lower, Shape.ofBody, List.isEmpty_nil, Bool.not_true, Bool.false_and,
    Bool.false_eq_true, if_false, Shape.headLabel, Shape.wrap, Option.toList, List.mapM_cons,
    List.mapM_nil, Traced.result_bind, Traced.result_silently, Traced.result_pure,
    Traced.result_report, pure_bind, bind_assoc, List.nil_append, List.append_nil,
    List.singleton_append]

mutual

theorem lowers_of_lower : ∀ (n : Node) (s : Scope) (first : List Code) (rest : List Node)
    (others : List Code), (n.lower s).result = .ok first → Lowers s rest others →
      Lowers s (n :: rest) (first ++ others)
  | .localVar p x k, s, first, rest, others, h, hrest => by
      simp only [Node.lower, Traced.result_bind, Traced.result_report, Traced.result_pure,
        bind_eq_ok_iff, Except.ok.injEq] at h
      obtain ⟨-, -, rfl⟩ := h
      exact .declaration hrest
  | .set p storage x v, s, first, rest, others, h, hrest => by
      simp only [Node.lower, Traced.result_bind, Traced.result_silently, Traced.result_pure,
        Node.assignment, bind_eq_ok_iff, pure_eq_ok_iff, Except.ok.injEq] at h
      obtain ⟨c, ⟨ops, hops, rfl⟩, rfl⟩ := h
      exact .assignment hops hrest
  | .ret p (some v), s, first, rest, others, h, hrest => by
      simp only [Node.lower, Traced.result_bind, Traced.result_silently, Traced.result_pure,
        bind_eq_ok_iff, Except.ok.injEq] at h
      obtain ⟨c, hc, rfl⟩ := h
      cases ht : s.result with
      | none => simp [Scope.returnJump, ht] at hc
      | some t =>
          simp only [Scope.returnJump, ht, bind_eq_ok_iff, pure_eq_ok_iff] at hc
          obtain ⟨ops, hops, rfl⟩ := hc
          exact .returnValue ht hops hrest
  | .ret p none, s, first, rest, others, h, hrest => by
      simp only [Node.lower, Traced.result_bind, Traced.result_silently, Traced.result_pure,
        bind_eq_ok_iff, Except.ok.injEq] at h
      obtain ⟨c, hc, rfl⟩ := h
      cases ht : s.result with
      | none =>
          simp only [Scope.returnJump, ht, Except.ok.injEq] at hc
          subst hc
          exact .returnVoid ht hrest
      | some t => simp [Scope.returnJump, ht] at hc
  | .brk p levels, s, first, rest, others, h, hrest => by
      simp only [Node.lower, Traced.result_bind, Traced.result_silently, Traced.result_pure,
        bind_eq_ok_iff, Except.ok.injEq, Scope.target_eq_ok_iff] at h
      obtain ⟨d, hd, rfl⟩ := h
      exact .brk hd hrest
  | .cont p levels, s, first, rest, others, h, hrest => by
      simp only [Node.lower, Traced.result_bind, Traced.result_silently, Traced.result_pure,
        bind_eq_ok_iff, Except.ok.injEq, Scope.target_eq_ok_iff] at h
      obtain ⟨d, hd, rfl⟩ := h
      exact .cont hd hrest
  | .whileLoop p c body, s, first, rest, others, h, hrest => by
      rw [result_lower_whileLoop] at h
      simp only [Node.lower, Traced.result_bind, Traced.result_silently, Traced.result_pure,
        Traced.result_report, bind_eq_ok_iff, Except.ok.injEq] at h
      obtain ⟨init, hinit, -, -, guard, hguard, inner, hinner, step, hstep, rfl⟩ := h
      rw [List.append_assoc]
      exact .whileLoop (.forLoop rfl hinit hguard (lowers_of_lowerAll body _ _ hinner) hstep hrest)
  | .forLoop p init c increment body, s, first, rest, others, h, hrest => by
      simp only [Node.lower, Traced.result_bind, Traced.result_silently, Traced.result_pure,
        Traced.result_report, bind_eq_ok_iff, Except.ok.injEq] at h
      obtain ⟨init, hinit, -, -, guard, hguard, inner, hinner, step, hstep, rfl⟩ := h
      rw [List.append_assoc]
      exact .forLoop rfl hinit hguard (lowers_of_lowerAll body _ _ hinner) hstep hrest
  | .doLoop p body c, s, first, rest, others, h, hrest => by
      simp only [Node.lower, Traced.result_bind, Traced.result_silently, Traced.result_pure,
        Traced.result_report, bind_eq_ok_iff, Except.ok.injEq] at h
      obtain ⟨-, -, inner, hinner, test, htest, rfl⟩ := h
      exact .doLoop rfl (lowers_of_lowerAll body _ _ hinner) htest hrest
  | .ifElse p c thenBranch none, s, first, rest, others, h, hrest => by
      simp only [Node.lower, lowerBranch, Traced.result_bind, Traced.result_silently,
        Traced.result_pure, bind_eq_ok_iff, Except.ok.injEq] at h
      obtain ⟨test, htest, yes, hyes, no, rfl, rfl⟩ := h
      exact .ifThen htest (lowers_of_lowerAll thenBranch _ _ hyes) hrest
  | .ifElse p c thenBranch (some elseBranch), s, first, rest, others, h, hrest => by
      simp only [Node.lower, lowerBranch, Traced.result_bind, Traced.result_silently,
        Traced.result_pure, bind_eq_ok_iff, Except.ok.injEq] at h
      obtain ⟨test, htest, yes, hyes, no, ⟨branch, hbranch, rfl⟩, rfl⟩ := h
      exact .ifElse htest (lowers_of_lowerAll thenBranch _ _ hyes)
        (lowers_of_lowerAll elseBranch _ _ hbranch) hrest
  | .module _ _, _, _, _, _, h, _ => by simp [Node.lower] at h
  | .global _ _ _ _ _, _, _, _, _, h, _ => by simp [Node.lower] at h
  | .exportFunc _ _ _, _, _, _, _, h, _ => by simp [Node.lower] at h
  | .function _ _ _ _ _, _, _, _, _, h, _ => by simp [Node.lower] at h
  | .paramList _ _, _, _, _, _, h, _ => by simp [Node.lower] at h
  | .get _ _ _ _, _, _, _, _, h, _ => by simp [Node.lower] at h
  | .number _ _ _, _, _, _, _, h, _ => by simp [Node.lower] at h
  | .expression _ _ _, _, _, _, _, h, _ => by simp [Node.lower] at h
  | .operator _ _ _, _, _, _, _, h, _ => by simp [Node.lower] at h
  | .cast _ _ _, _, _, _, _, h, _ => by simp [Node.lower] at h

theorem lowers_of_lowerAll : ∀ (stmts : List Node) (s : Scope) (code : List Code),
    (lowerAll s stmts).result = .ok code → Lowers s stmts code
  | [], s, code, h => by
      simp only [lowerAll, Traced.result_pure, Except.ok.injEq] at h
      subst h
      exact .nil
  | stmt :: rest, s, code, h => by
      simp only [lowerAll, Traced.result_bind, Traced.result_pure, bind_eq_ok_iff,
        Except.ok.injEq] at h
      obtain ⟨first, hfirst, others, hothers, rfl⟩ := h
      exact lowers_of_lower stmt s first rest others hfirst (lowers_of_lowerAll rest s _ hothers)

end

/-- A rule of the relation holds of the function: what the first statement becomes, followed by what
the others become. -/
theorem result_lowerAll_cons {s : Scope} {stmt : Node} {rest : List Node}
    {code first others : List Code} (hfirst : (stmt.lower s).result = .ok first)
    (hothers : (lowerAll s rest).result = .ok others) (hcode : first ++ others = code) :
    (lowerAll s (stmt :: rest)).result = .ok code := by
  subst hcode
  simp only [lowerAll, Traced.result_bind, Traced.result_pure, hfirst, hothers]
  rfl

theorem lowerAll_of_lowers {s : Scope} {stmts : List Node} {code : List Code}
    (h : Lowers s stmts code) : (lowerAll s stmts).result = .ok code := by
  induction h with
  | nil => rfl
  | declaration _ ih => exact result_lowerAll_cons rfl ih rfl
  | assignment hops _ ih =>
      refine result_lowerAll_cons ?_ ih (List.singleton_append)
      simp only [Node.lower, Traced.result_bind, Traced.result_silently, Traced.result_pure,
        Node.assignment, hops]
      rfl
  | returnValue ht hops _ ih =>
      refine result_lowerAll_cons ?_ ih (List.singleton_append)
      simp only [Node.lower, Traced.result_bind, Traced.result_silently, Traced.result_pure,
        Scope.returnJump, ht, hops]
      rfl
  | returnVoid ht _ ih =>
      refine result_lowerAll_cons ?_ ih (List.singleton_append)
      simp only [Node.lower, Traced.result_bind, Traced.result_silently, Traced.result_pure,
        Scope.returnJump, ht]
      rfl
  | brk hd _ ih =>
      refine result_lowerAll_cons ?_ ih (List.singleton_append)
      simp only [Node.lower, Traced.result_bind, Traced.result_silently, Traced.result_pure,
        Scope.target_eq_ok_iff.mpr hd]
      rfl
  | cont hd _ ih =>
      refine result_lowerAll_cons ?_ ih (List.singleton_append)
      simp only [Node.lower, Traced.result_bind, Traced.result_silently, Traced.result_pure,
        Scope.target_eq_ok_iff.mpr hd]
      rfl
  | whileLoop _ ih =>
      simp only [lowerAll, Traced.result_bind, result_lower_whileLoop] at ih ⊢
      exact ih
  | forLoop hshape hinit hguard _ hstep _ ihbody ih =>
      subst hshape
      refine result_lowerAll_cons ?_ ih (List.append_cons _ _ _).symm
      simp only [Node.lower, Traced.result_bind, Traced.result_silently, Traced.result_pure,
        Traced.result_report, hinit, hguard, hstep, ihbody]
      rfl
  | doLoop hshape _ htest _ ihbody ih =>
      subst hshape
      refine result_lowerAll_cons ?_ ih (List.singleton_append)
      simp only [Node.lower, Traced.result_bind, Traced.result_silently, Traced.result_pure,
        Traced.result_report, htest, ihbody]
      rfl
  | ifThen htest _ _ ihyes ih =>
      refine result_lowerAll_cons ?_ ih (List.singleton_append)
      simp only [Node.lower, lowerBranch, Traced.result_bind, Traced.result_silently,
        Traced.result_pure, htest, ihyes]
      rfl
  | ifElse htest _ _ _ ihyes ihno ih =>
      refine result_lowerAll_cons ?_ ih (List.singleton_append)
      simp only [Node.lower, lowerBranch, Traced.result_bind, Traced.result_silently,
        Traced.result_pure, htest, ihyes, ihno]
      rfl

/-- **The rules are the function**: what the statements are lowered to is what the rules say. -/
theorem lowerAll_eq_ok_iff {s : Scope} {stmts : List Node} {code : List Code} :
    (lowerAll s stmts).result = .ok code ↔ Lowers s stmts code :=
  ⟨lowers_of_lowerAll stmts s code, lowerAll_of_lowers⟩

/-- Statements that follow one another are lowered apart, and in the same scope. -/
theorem Lowers.exists_of_append {s : Scope} {xs ys : List Node} {code : List Code}
    (h : Lowers s (xs ++ ys) code) :
    ∃ first second, Lowers s xs first ∧ Lowers s ys second ∧ code = first ++ second := by
  induction xs generalizing code with
  | nil => exact ⟨[], code, .nil, h, rfl⟩
  | cons stmt xs ih =>
      rw [← lowerAll_eq_ok_iff] at h
      simp only [List.cons_append, lowerAll, Traced.result_bind, Traced.result_pure, bind_eq_ok_iff,
        Except.ok.injEq] at h
      obtain ⟨code₁, hstmt, others, hothers, rfl⟩ := h
      obtain ⟨code₂, second, hxs, hys, rfl⟩ := ih (lowerAll_eq_ok_iff.mp hothers)
      refine ⟨code₁ ++ code₂, second, ?_, hys, by rw [List.append_assoc]⟩
      exact lowers_of_lower stmt s code₁ xs code₂ hstmt hxs

end Function

/-! ## Functions and modules -/

/-- What a declaration in front of statements does not change is the same for a body and for the
statements behind its declarations. -/
theorem apply_dropWhile_isDeclaration {β : Sort _} {F : List Node → β}
    (hF : ∀ p x k rest, F (.localVar p x k :: rest) = F rest) (body : List Node) :
    F (body.dropWhile Node.isDeclaration) = F body := by
  induction body with
  | nil => rfl
  | cons stmt rest ih =>
      cases stmt with
      | localVar p x k => rw [List.dropWhile_cons_of_pos rfl, ih, hF]
      | _ => rfl

/-- The type of a result: nothing for `void`, the value type of any other kind. -/
theorem NumericKind.resultTypeAt_eq_ok_iff {k : NumericKind} {n : Node} {r : Option ValueType} :
    k.resultTypeAt n = .ok r ↔ k.valueType? = r ∧ k ≠ .notApplicable := by
  cases k with
  | value t => simp [resultTypeAt]
  | void => simp [resultTypeAt, valueType?]
  | notApplicable => simp [resultTypeAt, valueTypeAt, valueType?]

/-- **What a function becomes**: its parameters, its result and the variables declared in front of
its first statement, and the statements in a scope without loops. -/
structure FunctionLowers (name : String) (result : NumericKind) (params : Node) (body : List Node)
    (f : Func) : Prop where
  name_eq : f.name = name
  params_eq : params.parameters name = .ok f.params
  result_eq : result.valueType? = f.result
  result_ne : result ≠ .notApplicable
  locals_eq : (body.takeWhile Node.isDeclaration).mapM Node.declaration = .ok f.locals
  lowers : Lowers (.ofFunction f.result) (body.dropWhile Node.isDeclaration) f.body

/-- A global is lowered exactly if it has a value type and starts from a literal. -/
theorem lowerItem_global_eq_ok_iff {p : Position} {mutable : Bool} {name : String}
    {k : NumericKind} {init : Node} {item : Item} :
    (Node.global p mutable name k init).lowerItem.result = .ok item
      ↔ ∃ t p' k' literal, k = .value t ∧ init = .number p' k' literal
          ∧ item = .global mutable name t literal := by
  simp only [Node.lowerItem, Traced.result_silently, bind_eq_ok_iff,
    NumericKind.valueTypeAt_eq_ok_iff]
  cases init with
  | number p' k' literal =>
      simp only [pure_eq_ok_iff]
      constructor
      · rintro ⟨t, rfl, rfl⟩
        exact ⟨t, p', k', literal, rfl, rfl, rfl⟩
      · rintro ⟨t, _, _, _, rfl, ⟨rfl, rfl, rfl⟩, rfl⟩
        exact ⟨t, rfl, rfl⟩
  | _ => simp

theorem lowerItem_function_eq_ok_iff {p : Position} {name : String} {result : NumericKind}
    {params : Node} {body : List Node} {item : Item} :
    (Node.function p name result params body).lowerItem.result = .ok item
      ↔ ∃ f, item = .func f ∧ FunctionLowers name result params body f := by
  simp only [Node.lowerItem, Traced.result_bind, Traced.result_report, Traced.result_silently,
    Traced.result_pure, bind_eq_ok_iff, Except.ok.injEq, NumericKind.resultTypeAt_eq_ok_iff,
    lowerAll_eq_ok_iff]
  constructor
  · rintro ⟨-, -, ps, hps, r, ⟨rfl, hne⟩, ls, hls, code, hcode, rfl⟩
    exact ⟨_, rfl, rfl, hps, rfl, hne, hls, hcode⟩
  · rintro ⟨f, rfl, rfl, hps, hr, hne, hls, hcode⟩
    exact ⟨(), trivial, f.params, hps, f.result, ⟨hr, hne⟩, f.locals, hls, f.body, hcode, rfl⟩

/-- A program is lowered exactly if it is a module each of whose items is. -/
theorem lowerModule_eq_ok_iff {program : Node} {m : Module} :
    program.lowerModule.result = .ok m
      ↔ ∃ p items, program = .module p items
          ∧ List.Forall₂ (fun n item => n.lowerItem.result = .ok item) items m.items := by
  cases program with
  | module p items =>
      simp only [Node.lowerModule, Traced.result_bind, Traced.result_report, Traced.result_mapM,
        Traced.result_pure, bind_eq_ok_iff, mapM_eq_ok_iff, Except.ok.injEq]
      constructor
      · rintro ⟨-, -, lowered, h, rfl⟩
        exact ⟨p, items, rfl, h⟩
      · rintro ⟨_, _, ⟨rfl, rfl⟩, h⟩
        exact ⟨(), trivial, m.items, h, rfl⟩
  | _ => simp [Node.lowerModule]

/-- **Generating is lowering and writing out.** -/
theorem generate_eq_ok_iff {o : Options} {program : Node} {text : String} :
    (generate o program).result = .ok text
      ↔ ∃ m, program.lowerModule.result = .ok m ∧ m.render o = text := by
  rw [generate, Traced.result_map, map_eq_ok_iff]

/-- What stands behind a generated text: the module that the program is lowered to, whose functions
are the lowered functions of the program, at the same places. -/
theorem exists_module_of_generate {o : Options} {pos : Position} {items : List Node} {text : String}
    (h : (generate o (.module pos items)).result = .ok text) :
    ∃ m : Module, (Node.module pos items).lowerModule.result = .ok m ∧ m.render o = text ∧
      List.Forall₂ (fun n item => n.lowerItem.result = .ok item) items m.items := by
  obtain ⟨m, hm, htext⟩ := generate_eq_ok_iff.mp h
  obtain ⟨p, items', hmodule, hitems⟩ := lowerModule_eq_ok_iff.mp hm
  cases hmodule
  exact ⟨m, hm, htext, hitems⟩

/-- The function at the `i`-th place of a program is at the `i`-th place of the module. -/
theorem exists_func_of_getElem? {items : List Node} {lowered : List Item}
    (h : List.Forall₂ (fun n item => n.lowerItem.result = .ok item) items lowered) {i : Nat}
    {p : Position} {name : String} {result : NumericKind} {params : Node} {body : List Node}
    (hi : items[i]? = some (.function p name result params body)) :
    ∃ f, lowered[i]? = some (.func f) ∧ FunctionLowers name result params body f := by
  induction h generalizing i with
  | nil => simp at hi
  | cons hitem _ ih =>
      cases i with
      | zero =>
          simp only [List.getElem?_cons_zero, Option.some.injEq] at hi
          subst hi
          obtain ⟨f, rfl, hf⟩ := lowerItem_function_eq_ok_iff.mp hitem
          exact ⟨f, rfl, hf⟩
      | succ j => exact ih hi

end WatLowering
