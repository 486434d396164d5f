import WatLowering.Proofs.Grammar
import WatLowering.Proofs.Preservation

/-!
# Two ways to ask for a condition

The same condition is asked for in two ways.  In front of a pass of a `while` or `for` loop the
question is whether to leave, and the code jumps if the condition does not hold; at the end of a
`do` loop and in an `if` the question is whether the condition holds.  The instructions for the two
are chosen by different tables, so that they answer alike has to be shown for each type.

* `TestsZero.exists_run_truth` — the test leaves a number that is zero exactly if the condition is.
* `TestsZero.exec_guard_iff` — the guard jumps exactly if the condition is zero, and goes on if not.
* **`guard_leaves_iff_test_fails`** — both are there for every expression that can be computed, both
  are valid where the expression leaves one value, and they never disagree.

**What is not a number** is equal to nothing, and so not equal to zero: it is true in both ways of
asking.  `Machine.withNaN` has such a value.
-/

namespace WatLowering

namespace Machine

variable {M : Machine} {o : Options} {depth : Nat} {t : ValueType} {ops : List Instr}
  {s s' : M.Store} {v : M.Value} {vs : List M.Value}

/-- A decision is taken on a value that is there. -/
theorem decide_eq_some_iff {σ : M.Store × List M.Value} {b : Bool} :
    M.decide σ = some (b, s, vs) ↔ ∃ w, σ = (s, w :: vs) ∧ b = !M.isZero w := by
  obtain ⟨s₁, stack⟩ := σ
  cases stack with
  | nil => simp [decide]
  | cons w ws =>
      simp only [decide, Option.some.injEq, Prod.mk.injEq, List.cons.injEq]
      constructor
      · rintro ⟨rfl, rfl, rfl⟩
        exact ⟨w, ⟨rfl, rfl, rfl⟩, rfl⟩
      · rintro ⟨_, ⟨rfl, rfl, rfl⟩, rfl⟩
        exact ⟨rfl, rfl, rfl⟩

/-- **What the test leaves** is zero exactly if the condition is. -/
theorem TestsZero.exists_run_truth (hM : M.TestsZero) (hv : M.HasType t v)
    (h : M.run ops (s, vs) = some (s', v :: vs)) :
    ∃ w, M.run (Test.truth t ops).instrs (s, vs) = some (s', w :: vs)
      ∧ M.isZero w = M.isZero v := by
  obtain ⟨σ, hrun, hdecide⟩ := Option.bind_eq_some_iff.mp (hM.test_truth hv h)
  obtain ⟨w, rfl, hw⟩ := decide_eq_some_iff.mp hdecide
  refine ⟨w, hrun, ?_⟩
  simpa using hw.symm

/-- **The guard jumps out of the loop** exactly if the condition is zero. -/
theorem TestsZero.exec_guard_iff (hM : M.TestsZero) (hv : M.HasType t v)
    (h : M.run ops (s, vs) = some (s', v :: vs)) {s₁ : M.Store} {e : Exit M.Value} :
    (Code.brIf (.exit depth) (.exit t ops)).exec M o s vs s₁ e
      ↔ s₁ = s' ∧ e = if M.isZero v then .jumps ("break_" ++ toString depth) vs else .falls vs := by
  simp only [Code.exec, hM.test_exit hv h, Option.some.injEq, Prod.mk.injEq]
  constructor
  · rintro ⟨_, _, ⟨rfl, rfl, rfl⟩, rfl⟩
    exact ⟨rfl, rfl⟩
  · rintro ⟨rfl, rfl⟩
    exact ⟨_, _, ⟨rfl, rfl, rfl⟩, rfl⟩

/-- A test cannot run where the condition itself cannot be computed. -/
theorem run_truth_of_none (h : M.run ops (s, vs) = none) :
    M.run (Test.truth t ops).instrs (s, vs) = none := by
  cases t <;> simp [Test.truth, Test.instrs, run_append, h]

end Machine

/-- **Guards and tests of a condition are complements.**  Every expression that can be computed has
both, and they are valid and leave an `i32` wherever the expression leaves one value.  On every
machine that compares with zero as usual: if the expression leaves a value of the type that is read
off it, then the test leaves a number, and the guard jumps out of the loop exactly if that number is
zero, which it is exactly if the value is.  If the expression leaves nothing, neither of them
runs. -/
theorem guard_leaves_iff_test_fails {M : Machine} (hM : M.TestsZero) {c : Node} {ops : List Instr}
    (hops : c.operands = .ok ops) (depth : Nat) :
    ∃ (t : ValueType) (exit test : Test), c.resultKind = .value t ∧
      c.exitGuard depth = .ok (.brIf (.exit depth) exit) ∧ c.truthTest = .ok test ∧
      (∀ (env : Env) (t' : ValueType), c.type? env = some t' →
        validateInstrs env exit.instrs .empty = some ⟨[.i32], false⟩ ∧
          validateInstrs env test.instrs .empty = some ⟨[.i32], false⟩) ∧
      ∀ (o : Options) (s : M.Store) (vs : List M.Value),
        (∀ s' v, c.eval M (s, vs) = some (s', v :: vs) → M.HasType t v →
          ∃ w, M.run test.instrs (s, vs) = some (s', w :: vs) ∧ M.isZero w = M.isZero v ∧
            ∀ s₁ e, (Code.brIf (.exit depth) exit).exec M o s vs s₁ e
              ↔ s₁ = s' ∧ e = if M.isZero w then .jumps ("break_" ++ toString depth) vs
                else .falls vs) ∧
        (c.eval M (s, vs) = none → M.run test.instrs (s, vs) = none ∧
          ∀ s₁ e, ¬ (Code.brIf (.exit depth) exit).exec M o s vs s₁ e) := by
  obtain ⟨t, hkind⟩ := (exists_operands_eq_ok_iff.mp ⟨ops, hops⟩).resultKind
  have hguard : c.exitGuard depth = .ok (.brIf (.exit depth) (.exit t ops)) :=
    Node.exitGuard_eq_ok_iff.mpr ⟨ops, t, hops, hkind, rfl⟩
  have htest : c.truthTest = .ok (.truth t ops) :=
    Node.truthTest_eq_ok_iff.mpr ⟨ops, t, hops, hkind, rfl⟩
  refine ⟨t, .exit t ops, .truth t ops, hkind, hguard, htest, ?_, ?_⟩
  · intro env t' ht'
    have htype : t' = t := by
      simpa [resultKind_eq_of_type? hops ht'] using hkind
    subst htype
    exact ⟨validate_exit hops ht', validate_truthTest htest ht'⟩
  · intro o s vs
    rw [eval_eq_run hops]
    refine ⟨?_, ?_⟩
    · intro s' v hrun hv
      obtain ⟨w, hw, hzero⟩ := hM.exists_run_truth hv hrun
      refine ⟨w, hw, hzero, ?_⟩
      intro s₁ e
      rw [hzero]
      exact hM.exec_guard_iff hv hrun
    · intro hnone
      refine ⟨Machine.run_truth_of_none hnone, ?_⟩
      intro s₁ e
      simp [Code.exec, Machine.test_exit_of_none hnone]

/-! ## A value that is not a number -/

/-- Arithmetic and comparisons on integers and on what is not a number.  The latter differs from
everything, and whatever is computed from it is not a number either. -/
def NumericOp.withNaN : Option Int → Option Int → NumericOp → Option (Option Int)
  | some a, some b, op => (op.onIntegers a b).map some
  | _, _, .ne => some (some 1)
  | _, _, .eq | _, _, .lt | _, _, .le | _, _, .gt | _, _, .ge => some (some 0)
  | _, _, _ => some none

/-- The machine of integers with one more value, which only floating point types have. -/
def Machine.withNaN : Machine where
  Store := Storage → String → Option Int
  Value := Option Int
  step
    | .const _ literal, (s, vs) => some (s, some (decimal literal) :: vs)
    | .get storage x, (s, vs) => some (s, s storage x :: vs)
    | .numeric op _, (s, b :: a :: vs) => (op.withNaN a b).map fun v => (s, v :: vs)
    | .convert _, (s, v :: vs) => some (s, v :: vs)
    | .eqz _, (s, v :: vs) => some (s, some (truthValue (v == some 0)) :: vs)
    | _, _ => none
  assign storage x v s :=
    some fun storage' x' => if storage' = storage ∧ x' = x then v else s storage' x'
  HasType t v := t.isInteger = true → v.isSome = true
  isZero v := v == some 0
  ofBool b := some (truthValue b)

theorem Machine.withNaN_testsZero : Machine.withNaN.TestsZero where
  eqz := by
    intro t v _ _ s vs
    rfl
  eqZero := by
    intro t v _ s vs
    cases v <;> rfl
  neZero := by
    intro t v _ s vs
    cases v <;> rfl
  isZero_ofBool := by
    intro b
    cases b <;> rfl

/-- A floating point variable, in an expression that says it is an integer. -/
def floatCondition : Node :=
  .expression .unplaced (.value .i32) [.get .unplaced .local "x" (.value .f64)]

/-- **If `x` is not a number**, the test leaves a number that is not zero, and the guard goes on; if
`x` is zero, the test leaves zero, and the guard jumps. -/
theorem floatCondition_holds_of_NaN :
    ∃ exit test : Test,
      floatCondition.exitGuard 3 = .ok (.brIf (.exit 3) exit) ∧
      floatCondition.truthTest = .ok test ∧
      (∃ w, Machine.withNaN.run test.instrs (fun _ _ => none, []) = some (fun _ _ => none, [w]) ∧
        Machine.withNaN.isZero w = false ∧
        (Code.brIf (.exit 3) exit).exec .withNaN .standard (fun _ _ => none) [] (fun _ _ => none)
          (.falls [])) ∧
      ∃ w, Machine.withNaN.run test.instrs (fun _ _ => some 0, []) =
          some (fun _ _ => some 0, [w]) ∧
        Machine.withNaN.isZero w = true ∧
        (Code.brIf (.exit 3) exit).exec .withNaN .standard (fun _ _ => some 0) []
          (fun _ _ => some 0) (.jumps "break_3" []) := by
  obtain ⟨t, exit, test, ht, hguard, htest, -, hrun⟩ :=
    guard_leaves_iff_test_fails Machine.withNaN_testsZero
      (show floatCondition.operands = .ok [.get .local "x"] from rfl) 3
  have hf64 : t = .f64 := by
    simpa using ht.symm.trans (show floatCondition.resultKind = .value .f64 from rfl)
  subst hf64
  refine ⟨exit, test, hguard, htest, ?_, ?_⟩
  · obtain ⟨w, hw, hzero, hexec⟩ :=
      (hrun .standard (fun _ _ => none) []).1 _ none rfl (fun h => by cases h)
    have hfalse : Machine.withNaN.isZero w = false := hzero
    refine ⟨w, hw, hfalse, (hexec _ _).mpr ⟨rfl, ?_⟩⟩
    simp [hfalse]
  · obtain ⟨w, hw, hzero, hexec⟩ :=
      (hrun .standard (fun _ _ => some 0) []).1 _ (some 0) rfl (fun h => by cases h)
    have htrue : Machine.withNaN.isZero w = true := hzero
    refine ⟨w, hw, htrue, (hexec _ _).mpr ⟨rfl, ?_⟩⟩
    rw [if_pos htrue]
    rfl

end WatLowering
