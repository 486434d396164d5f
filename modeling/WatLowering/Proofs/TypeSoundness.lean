import WatLowering.Proofs.Meaning
import WatLowering.Proofs.ValidOutput

/-!
# Well-typed programs leave one value

That an expression leaves exactly one value is a fact about every run of it (`Node.LeavesOne`).
That it is well-typed is a fact about its text (`Node.type?`).  The second gives the first on every
machine that keeps to the types of its instructions, and so well-typed programs are among those
whose meaning is preserved.

* `Machine.RespectsTypes` — a valid instruction leaves values of the types that validation says.
* `leavesTyped_of_type?` — **type soundness** for expressions.
* `Lowers.stackTyped` — the same for statements, by induction over the rules.
-/

namespace WatLowering

/-- The values on a stack are of these types. -/
def Machine.StackHas (M : Machine) (ts : List ValueType) (vs : List M.Value) : Prop :=
  List.Forall₂ M.HasType ts vs

/-- **A machine that keeps to types**, among these variables. -/
def Machine.RespectsTypes (M : Machine) (env : Env) : Prop :=
  ∀ (i : Instr) (ts ts' : List ValueType) (s s' : M.Store) (vs vs' : List M.Value),
    i.validate env ⟨ts, false⟩ = some ⟨ts', false⟩ → M.StackHas ts vs →
      M.step i (s, vs) = some (s', vs') → M.StackHas ts' vs'

@[simp] theorem OperandTypes.polymorphic_push (t : ValueType) (σ : OperandTypes) :
    (σ.push t).polymorphic = σ.polymorphic := rfl

/-- Where code is reached, only a value that is known to be there can be taken. -/
theorem OperandTypes.pop_reachable_iff {t : ValueType} {ts : List ValueType} {σ : OperandTypes} :
    (⟨ts, false⟩ : OperandTypes).pop t = some σ ↔ ∃ ts', ts = t :: ts' ∧ σ = ⟨ts', false⟩ := by
  cases ts with
  | nil => simp [pop]
  | cons t' ts =>
      rw [pop]
      split
      · next h => simp [h, eq_comm]
      · next h => simp [h]

/-- What is known of a stack may change, but code behind it stays as reachable as it was. -/
theorem OperandTypes.polymorphic_of_pop {t : ValueType} {σ σ' : OperandTypes}
    (h : σ.pop t = some σ') : σ'.polymorphic = σ.polymorphic := by
  obtain ⟨known, p⟩ := σ
  cases known with
  | nil =>
      rw [pop] at h
      split at h
      · cases h
        rfl
      · cases h
  | cons t' known =>
      rw [pop] at h
      split at h
      · cases h
        rfl
      · cases h

theorem Instr.polymorphic_of_validate {env : Env} {i : Instr} {σ σ' : OperandTypes}
    (h : i.validate env σ = some σ') : σ'.polymorphic = σ.polymorphic := by
  cases i with
  | const t literal =>
      cases h
      rfl
  | get storage x =>
      obtain ⟨t, -, rfl⟩ := Option.map_eq_some_iff.mp h
      rfl
  | numeric op t =>
      rw [validate] at h
      split at h
      · obtain ⟨σ₁, h₁, h⟩ := Option.bind_eq_some_iff.mp h
        obtain ⟨σ₂, h₂, h⟩ := Option.bind_eq_some_iff.mp h
        cases h
        rw [OperandTypes.polymorphic_push, OperandTypes.polymorphic_of_pop h₂,
          OperandTypes.polymorphic_of_pop h₁]
      · cases h
  | convert c =>
      obtain ⟨σ₁, h₁, rfl⟩ := Option.map_eq_some_iff.mp h
      rw [OperandTypes.polymorphic_push, OperandTypes.polymorphic_of_pop h₁]
  | eqz t =>
      rw [validate] at h
      split at h
      · obtain ⟨σ₁, h₁, rfl⟩ := Option.map_eq_some_iff.mp h
        rw [OperandTypes.polymorphic_push, OperandTypes.polymorphic_of_pop h₁]
      · cases h

section Soundness

variable {M : Machine} {env : Env}

/-- What holds of one instruction holds of straight-line code. -/
theorem Machine.RespectsTypes.run (hM : M.RespectsTypes env) {ops : List Instr}
    {ts ts' : List ValueType} {s s' : M.Store} {vs vs' : List M.Value}
    (hops : validateInstrs env ops ⟨ts, false⟩ = some ⟨ts', false⟩) (hvs : M.StackHas ts vs)
    (hrun : M.run ops (s, vs) = some (s', vs')) : M.StackHas ts' vs' := by
  induction ops generalizing ts s vs with
  | nil =>
      cases hops
      cases hrun
      exact hvs
  | cons i rest ih =>
      rw [validateInstrs] at hops
      obtain ⟨⟨ts₁, p⟩, hi, hrest⟩ := Option.bind_eq_some_iff.mp hops
      have hp : p = false := Instr.polymorphic_of_validate hi
      subst hp
      rw [Machine.run] at hrun
      obtain ⟨⟨s₁, vs₁⟩, hstep, hrun⟩ := Option.bind_eq_some_iff.mp hrun
      exact ih hrest (hM i ts ts₁ s s₁ vs vs₁ hi hvs hstep) hrun

/-- **A well-typed expression leaves exactly one value, and that is of its type.** -/
theorem leavesTyped_of_type? (hM : M.RespectsTypes env) {n : Node} {ops : List Instr}
    (hops : n.operands = .ok ops) {t : ValueType} (ht : n.type? env = some t) :
    n.LeavesTyped M := by
  intro s s' stack heval
  rw [eval_eq_run hops] at heval
  have hstack : M.StackHas [t] stack := hM.run (validate_operands hops ht) .nil heval
  cases hstack with
  | cons hv hnil =>
      cases hnil
      refine ⟨_, rfl, fun t' ht' => ?_⟩
      rw [resultKind_eq_of_type? hops ht, NumericKind.value.injEq] at ht'
      rw [← ht']
      exact hv

theorem Node.LeavesTyped.leavesOne {n : Node} (h : n.LeavesTyped M) : n.LeavesOne M := by
  intro s s' stack heval
  obtain ⟨v, hv, -⟩ := h s s' stack heval
  exact ⟨v, hv⟩

theorem stackTyped_assignments (hM : M.RespectsTypes env) {ns : List Node} {code : List Code}
    (h : ns.mapM Node.assignment = .ok code) {result : Option ValueType}
    (ht : wellTypedAll env result ns = true) : StackTypedAll M ns := by
  rw [mapM_eq_ok_iff] at h
  induction h with
  | nil => trivial
  | cons hn _ ih =>
      obtain ⟨p, storage, x, v, ops, rfl, hops, -⟩ := Node.assignment_eq_ok_iff.mp hn
      obtain ⟨hset, hrest⟩ := wellTypedAll_cons_iff.mp ht
      obtain ⟨t, hv, -⟩ := Node.wellTyped_set_iff.mp hset
      exact ⟨(leavesTyped_of_type? hM hops hv).leavesOne, ih hrest⟩

/-- **Well-typed statements leave nothing behind them on the stack**, if they are accepted. -/
theorem Lowers.stackTyped (hM : M.RespectsTypes env) {sc : Scope} {stmts : List Node}
    {code : List Code} (h : Lowers sc stmts code) (ht : wellTypedAll env sc.result stmts = true) :
    StackTypedAll M stmts := by
  have hcondition : ∀ {n : Node} {test : Test}, n.truthTest = .ok test →
      (n.type? env).isSome = true → n.LeavesTyped M := by
    intro n test htest hsome
    obtain ⟨ops, t, hops, -, -⟩ := Node.truthTest_eq_ok_iff.mp htest
    obtain ⟨t', ht'⟩ := Option.isSome_iff_exists.mp hsome
    exact leavesTyped_of_type? hM hops ht'
  induction h with
  | nil => trivial
  | declaration _ ih => exact ⟨trivial, ih (wellTypedAll_cons_iff.mp ht).2⟩
  | assignment hops _ ih =>
      obtain ⟨hset, hrest⟩ := wellTypedAll_cons_iff.mp ht
      obtain ⟨t, hv, -⟩ := Node.wellTyped_set_iff.mp hset
      exact ⟨(leavesTyped_of_type? hM hops hv).leavesOne, ih hrest⟩
  | returnValue _ hops _ ih =>
      obtain ⟨hret, hrest⟩ := wellTypedAll_cons_iff.mp ht
      obtain ⟨t, hv, -⟩ := Node.wellTyped_ret_iff.mp hret
      exact ⟨(leavesTyped_of_type? hM hops hv).leavesOne, ih hrest⟩
  | returnVoid _ _ ih => exact ⟨trivial, ih (wellTypedAll_cons_iff.mp ht).2⟩
  | brk _ _ ih => exact ⟨trivial, ih (wellTypedAll_cons_iff.mp ht).2⟩
  | cont _ _ ih => exact ⟨trivial, ih (wellTypedAll_cons_iff.mp ht).2⟩
  | whileLoop _ ih =>
      have hfor := ih (by simpa [wellTypedAll, Node.wellTyped] using ht)
      obtain ⟨⟨-, hcond, -, hbody⟩, hrest⟩ := hfor
      exact ⟨⟨hcond _ rfl, hbody⟩, hrest⟩
  | forLoop _ hinit hguard _ hstep _ ihbody ih =>
      obtain ⟨hfor, hrest⟩ := wellTypedAll_cons_iff.mp ht
      simp only [Node.wellTyped, Bool.and_eq_true] at hfor
      obtain ⟨⟨⟨htinit, htcond⟩, htinc⟩, htbody⟩ := hfor
      refine ⟨⟨stackTyped_assignments hM hinit htinit, fun n hn => ?_,
        stackTyped_assignments hM hstep htinc, ihbody htbody⟩, ih hrest⟩
      subst hn
      rcases Node.guard_eq_ok_iff.mp hguard with ⟨hnone, -⟩ | ⟨n', ops, t, hn', hops, -, -⟩
      · cases hnone
      · cases hn'
        obtain ⟨t', ht'⟩ := Option.isSome_iff_exists.mp htcond
        exact leavesTyped_of_type? hM hops ht'
  | doLoop _ _ htest _ ihbody ih =>
      obtain ⟨hdo, hrest⟩ := wellTypedAll_cons_iff.mp ht
      simp only [Node.wellTyped, Bool.and_eq_true] at hdo
      exact ⟨⟨ihbody hdo.1, hcondition htest hdo.2⟩, ih hrest⟩
  | ifThen htest _ _ ihyes ih =>
      obtain ⟨hif, hrest⟩ := wellTypedAll_cons_iff.mp ht
      simp only [Node.wellTyped, Bool.and_eq_true] at hif
      exact ⟨⟨hcondition htest hif.1.1, ihyes hif.1.2, trivial⟩, ih hrest⟩
  | ifElse htest _ _ _ ihyes ihno ih =>
      obtain ⟨hif, hrest⟩ := wellTypedAll_cons_iff.mp ht
      simp only [Node.wellTyped, Bool.and_eq_true] at hif
      exact ⟨⟨hcondition htest hif.1.1, ihyes hif.1.2, ihno hif.2⟩, ih hrest⟩

/-- The same for a whole function, among its variables and the globals. -/
theorem FunctionLowers.stackTyped {name : String} {result : NumericKind} {params : Node}
    {body : List Node} {f : Func} (h : FunctionLowers name result params body f)
    {globals : List (String × Bool × ValueType)}
    (hM : M.RespectsTypes ⟨functionLocals params body, globals⟩)
    (ht : wellTypedAll ⟨functionLocals params body, globals⟩ result.valueType? body = true) :
    StackTypedAll M body := by
  rw [h.result_eq] at ht
  rw [← stackTypedAll_dropWhile_isDeclaration]
  exact h.lowers.stackTyped hM (wellTypedAll_dropWhile ht _)

end Soundness

end WatLowering
