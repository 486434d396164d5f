import WatLowering.Proofs.Meaning

/-!
# Generated code does what the program means

A statement that ends normally becomes code that runs to its end, and one that is on its way
somewhere becomes code that jumps there.  `Scope.exitOf` is this correspondence, and it is all that
ties the two sides together: stores are the same, and the operand stack is empty between statements.

* `CarriesOut` — code ends exactly as the meaning completes, from every store.
* `CarriesOut.loop` — **the loop lemma**.  A pass of the code is a pass of the loop
  (`LoopParts.pass_of_exec`, `LoopParts.exec_of_pass_none`, `LoopParts.exec_of_pass_some`), so the
  turns of the code are the passes of the loop, by induction over either.
* `Lowers.carriesOut` — lowered statements, by induction over the rules.

**Where the shape matters.**  In a loop of plain shape a `continue` jumps to the head and leaves out
what stands at the end of the body.  That is right only if there is nothing to leave out, or no
`continue`; this is the last field of `LoopParts`.
-/

namespace WatLowering

/-! ## Completions and exits -/

section Exits

variable {V : Type} {o : Options} {sc : Scope}

/-- How code ends, when the statements it stands for end like this. -/
def Scope.exitOf (o : Options) (sc : Scope) : Completion V → Option (Exit V)
  | .normal => some (.falls [])
  | .brk level => (sc.loop? level).map fun d => .jumps ((Label.exit d).name o) []
  | .cont level => (sc.loop? level).map fun d => .jumps ((Label.next d).name o) []
  | .ret value => some (.jumps (Label.ret.name o) value.toList)

/-- Only the normal end is no jump. -/
theorem Scope.exitOf_eq_falls_iff {c : Completion V} {stack : List V} :
    sc.exitOf o c = some (.falls stack) ↔ c = .normal ∧ stack = [] := by
  cases c with
  | normal => simp [Scope.exitOf, eq_comm]
  | brk level => simp [Scope.exitOf]
  | cont level => simp [Scope.exitOf]
  | ret value => simp [Scope.exitOf]

theorem Scope.exitOf_brk {level d : Nat} (h : sc.loop? level = some d) :
    sc.exitOf o (.brk level : Completion V) = some (.jumps ((Label.exit d).name o) []) := by
  rw [Scope.exitOf, h, Option.map_some]

theorem Scope.exitOf_cont {level d : Nat} (h : sc.loop? level = some d) :
    sc.exitOf o (.cont level : Completion V) = some (.jumps ((Label.next d).name o) []) := by
  rw [Scope.exitOf, h, Option.map_some]

/-- How the body of a loop ends, seen from the loop: where it has a block of its own, that block
catches the `continue`s. -/
def Shape.bodyExit (o : Options) (d : Nat) (e : Exit V) : Shape → Exit V
  | .plain => e
  | .wrapped => e.caughtBy ((Label.next d).name o) []

/-- A body after which the loop goes on runs to its end, or else it is a plain one with a `continue`
that jumps to the head. -/
theorem Scope.exists_exitOf_enter_of_resumes (o : Options) (sc : Scope) (shape : Shape)
    {c : Completion V} (hc : c.resumes = true) :
    ∃ e, (sc.enter shape).exitOf o c = some e ∧
      (shape.bodyExit o sc.depth e = .falls [] ∨ shape = .plain ∧ c = .cont 1 ∧
        shape.bodyExit o sc.depth e = .jumps ((shape.headLabel sc.depth).name o) []) := by
  match c, hc with
  | .normal, _ => exact ⟨.falls [], rfl, .inl (by cases shape <;> rfl)⟩
  | .cont 1, _ =>
      refine ⟨.jumps ((Label.next sc.depth).name o) [], rfl, ?_⟩
      cases shape with
      | plain => exact .inr ⟨rfl, rfl, rfl⟩
      | wrapped => exact .inl (by simp [Shape.bodyExit, Exit.caughtBy])

/-- Any other end of a body is a jump to somewhere outside of the body and its loop, or to the exit
of the loop, and then the loop itself ends normally. -/
theorem Scope.exitOf_enter_of_escapes (hsc : sc.Nested) {shape : Shape} {c : Completion V}
    (hc : c.resumes = false) {e : Exit V} (he : (sc.enter shape).exitOf o c = some e) :
    ∃ (l : Label) (stack : List V), e = .jumps (l.name o) stack ∧ l ≠ .next sc.depth ∧
      l ≠ .head sc.depth ∧ (l = .exit sc.depth ∧ c.outside = .normal
        ∨ l ≠ .exit sc.depth ∧ sc.exitOf o c.outside = some e) := by
  match c, hc, he with
  | .brk 1, _, he =>
      cases he
      exact ⟨.exit sc.depth, [], rfl, by simp, by simp, .inl ⟨rfl, rfl⟩⟩
  | .brk (n + 2), _, he =>
      obtain ⟨d, hd, rfl⟩ := Option.map_eq_some_iff.mp he
      rw [Scope.loop?_enter_succ] at hd
      have hne := hsc.ne_of_loop? hd
      refine ⟨.exit d, [], rfl, by simp, by simp, .inr ⟨by simpa using hne, ?_⟩⟩
      exact Scope.exitOf_brk hd
  | .cont (n + 2), _, he =>
      obtain ⟨d, hd, rfl⟩ := Option.map_eq_some_iff.mp he
      rw [Scope.loop?_enter_succ] at hd
      have hne := hsc.ne_of_loop? hd
      refine ⟨.next d, [], rfl, by simpa using hne, by simp, .inr ⟨by simp, ?_⟩⟩
      exact Scope.exitOf_cont hd
  | .ret value, _, he =>
      cases he
      exact ⟨.ret, value.toList, rfl, by simp, by simp, .inr ⟨by simp, rfl⟩⟩

/-- **A jump out of a body**: the loop does not take it for a `continue`, and ends outside as the
completion says. -/
theorem Scope.bodyExit_of_escapes (ho : ¬ IsLoopName o.returnLabel) (hsc : sc.Nested)
    {shape : Shape} {c : Completion V} (hc : c.resumes = false) {e : Exit V}
    (he : (sc.enter shape).exitOf o c = some e) :
    ∃ name stack, shape.bodyExit o sc.depth e = .jumps name stack
      ∧ name ≠ (shape.headLabel sc.depth).name o
      ∧ sc.exitOf o c.outside
          = some ((Exit.jumps name stack).caughtBy ((Label.exit sc.depth).name o) []) := by
  obtain ⟨l, stack, rfl, hnext, hhead, hout⟩ := exitOf_enter_of_escapes hsc hc he
  have hname : ∀ l', l ≠ l' → l.name o ≠ l'.name o := by
    intro l' hl' heq
    exact hl' ((Label.name_eq_iff ho).mp heq)
  refine ⟨l.name o, stack, ?_, ?_, ?_⟩
  · cases shape with
    | plain => rfl
    | wrapped => rw [Shape.bodyExit, Exit.caughtBy, if_neg (hname _ hnext)]
  · cases shape with
    | plain => exact hname _ hnext
    | wrapped => exact hname _ hhead
  · rcases hout with ⟨rfl, hnormal⟩ | ⟨hexit, hout⟩
    · rw [hnormal, Exit.caughtBy, if_pos rfl, Scope.exitOf]
    · rw [hout, Exit.caughtBy, if_neg (hname _ hexit)]

/-- Nothing that leaves a loop is taken for a jump back to its head. -/
theorem name_exit_ne_headLabel (ho : ¬ IsLoopName o.returnLabel) (d : Nat) (shape : Shape) :
    (Label.exit d).name o ≠ (shape.headLabel d).name o := by
  rw [Ne, Label.name_eq_iff ho]
  exact shape.exit_ne_headLabel d

/-- What can be resolved outside of a loop can be resolved in its body. -/
theorem Scope.exists_exitOf_enter (shape : Shape) {c : Completion V} {e : Exit V}
    (he : sc.exitOf o c.outside = some e) : ∃ e', (sc.enter shape).exitOf o c = some e' := by
  match c, he with
  | .normal, _ | .brk 1, _ | .cont 1, _ | .ret value, _ => exact ⟨_, rfl⟩
  | .brk (n + 2), he | .cont (n + 2), he =>
      obtain ⟨d, hd, -⟩ := Option.map_eq_some_iff.mp he
      rw [Scope.exitOf, Scope.loop?_enter_succ, hd]
      exact ⟨_, rfl⟩

end Exits

/-! ## Code that carries out a meaning -/

/-- From every store the code ends exactly as the meaning completes. -/
def CarriesOut (M : Machine) (o : Options) (sc : Scope) (code : List Code)
    (meaning : M.Store → M.Store → Completion M.Value → Prop) : Prop :=
  ∀ s s' e, execAll M o s [] s' e code ↔ ∃ c, meaning s s' c ∧ sc.exitOf o c = some e

section Statements

variable {M : Machine} {o : Options} {sc : Scope} {first second : List Code}
  {m m₁ m₂ : M.Store → M.Store → Completion M.Value → Prop}

theorem CarriesOut.congr (h : CarriesOut M o sc first m₁) (hm : ∀ s s' c, m₁ s s' c ↔ m₂ s s' c) :
    CarriesOut M o sc first m₂ := by
  intro s s' e
  simp only [h s s' e, hm]

/-- Code after code carries out one meaning after the other. -/
theorem CarriesOut.append (h₁ : CarriesOut M o sc first m₁) (h₂ : CarriesOut M o sc second m₂) :
    CarriesOut M o sc (first ++ second) (Sequence m₁ m₂) := by
  intro s s' e
  rw [execAll_append]
  constructor
  · rintro (⟨s₁, stack, hfirst, hsecond⟩ | ⟨name, stack, rfl, hfirst⟩)
    · obtain ⟨c₁, hc₁, hexit⟩ := (h₁ _ _ _).mp hfirst
      obtain ⟨rfl, rfl⟩ := Scope.exitOf_eq_falls_iff.mp hexit
      obtain ⟨c, hc, he⟩ := (h₂ _ _ _).mp hsecond
      exact ⟨c, .inl ⟨s₁, hc₁, hc⟩, he⟩
    · obtain ⟨c, hc, hexit⟩ := (h₁ _ _ _).mp hfirst
      have hne : c ≠ .normal := by
        rintro rfl
        cases hexit
      exact ⟨c, .inr ⟨hne, hc⟩, hexit⟩
  · rintro ⟨c, ⟨s₁, hc₁, hc⟩ | ⟨hne, hc⟩, he⟩
    · exact .inl ⟨s₁, [], (h₁ _ _ _).mpr ⟨.normal, hc₁, rfl⟩, (h₂ _ _ _).mpr ⟨c, hc, he⟩⟩
    · cases e with
      | falls stack => exact absurd (Scope.exitOf_eq_falls_iff.mp he).1 hne
      | jumps name stack => exact .inr ⟨name, stack, rfl, (h₁ _ _ _).mpr ⟨c, hc, he⟩⟩

/-- A statement and the statements after it. -/
theorem CarriesOut.cons {stmt : Node} {rest : List Node}
    (h₁ : CarriesOut M o sc first fun s s' c => stmt.exec M s s' c)
    (h₂ : CarriesOut M o sc second fun s s' c => Node.execAll M s s' c rest) :
    CarriesOut M o sc (first ++ second) fun s s' c => Node.execAll M s s' c (stmt :: rest) := by
  refine (h₁.append h₂).congr fun s s' c => ?_
  rw [Node.execAll]

theorem CarriesOut.nil : CarriesOut M o sc [] fun s s' c => Node.execAll M s s' c [] := by
  intro s s' e
  simp only [execAll_nil, Node.execAll]
  constructor
  · rintro ⟨rfl, rfl⟩
    exact ⟨.normal, ⟨rfl, rfl⟩, rfl⟩
  · rintro ⟨c, ⟨rfl, rfl⟩, he⟩
    cases he
    exact ⟨rfl, rfl⟩

/-! ## Values, assignments and jumps -/

/-- An expression that leaves one value: its instructions leave just that. -/
theorem run_eq_some_iff {n : Node} {ops : List Instr} (hops : n.operands = .ok ops)
    (hn : n.LeavesOne M) {s s' : M.Store} {stack : List M.Value} :
    M.run ops (s, []) = some (s', stack) ↔ ∃ v, n.Yields M s s' v ∧ stack = [v] := by
  rw [← eval_eq_run hops]
  constructor
  · intro h
    obtain ⟨v, rfl⟩ := hn s s' stack h
    exact ⟨v, h, rfl⟩
  · rintro ⟨v, hv, rfl⟩
    exact hv

theorem CarriesOut.set {p : Position} {storage : Storage} {x : String} {v : Node} {ops : List Instr}
    (hops : v.operands = .ok ops) (hv : v.LeavesOne M) :
    CarriesOut M o sc [.set storage x ops] fun s s' c =>
      (Node.set p storage x v).exec M s s' c := by
  intro s s' e
  simp only [execAll_singleton, Code.exec, Node.exec, run_eq_some_iff hops hv]
  constructor
  · rintro ⟨s₁, a, stack, ⟨_, ha, hstack⟩, hassign, rfl⟩
    cases hstack
    exact ⟨.normal, ⟨s₁, a, ha, hassign, rfl⟩, rfl⟩
  · rintro ⟨_, ⟨s₁, a, ha, hassign, rfl⟩, he⟩
    cases he
    exact ⟨s₁, a, [], ⟨a, ha, rfl⟩, hassign, rfl⟩

theorem CarriesOut.returnValue {p : Position} {v : Node} {ops : List Instr}
    (hops : v.operands = .ok ops) (hv : v.LeavesOne M) :
    CarriesOut M o sc [.br .ret (some ops)] fun s s' c =>
      (Node.ret p (some v)).exec M s s' c := by
  intro s s' e
  simp only [execAll_singleton, Code.exec, Node.exec, Option.getD_some, run_eq_some_iff hops hv]
  constructor
  · rintro ⟨stack, ⟨a, ha, rfl⟩, rfl⟩
    exact ⟨.ret (some a), ⟨a, ha, rfl⟩, rfl⟩
  · rintro ⟨_, ⟨a, ha, rfl⟩, he⟩
    cases he
    exact ⟨[a], ⟨a, ha, rfl⟩, rfl⟩

/-- A jump without a value stands for a statement that does nothing but complete in its way. -/
theorem CarriesOut.jump {l : Label} {stmt : Node} {c : Completion M.Value}
    (hl : sc.exitOf o c = some (.jumps (l.name o) []))
    (hstmt : ∀ s s' c', stmt.exec M s s' c' ↔ s' = s ∧ c' = c) :
    CarriesOut M o sc [.br l none] fun s s' c => stmt.exec M s s' c := by
  intro s s' e
  simp only [execAll_singleton, Code.exec, Option.getD_none, Machine.run_nil, hstmt,
    Option.some.injEq, Prod.mk.injEq]
  constructor
  · rintro ⟨stack, ⟨rfl, rfl⟩, rfl⟩
    exact ⟨c, ⟨rfl, rfl⟩, hl⟩
  · rintro ⟨_, ⟨rfl, rfl⟩, he⟩
    rw [hl, Option.some.injEq] at he
    exact ⟨[], ⟨rfl, rfl⟩, he.symm⟩

theorem carriesOut_assignments {ns : List Node} {code : List Code}
    (h : ns.mapM Node.assignment = .ok code) (ht : StackTypedAll M ns) :
    CarriesOut M o sc code fun s s' c => Node.execAll M s s' c ns := by
  rw [mapM_eq_ok_iff] at h
  induction h with
  | nil => exact .nil
  | cons hn _ ih =>
      obtain ⟨p, storage, x, v, ops, rfl, hops, rfl⟩ := Node.assignment_eq_ok_iff.mp hn
      exact .cons (.set hops ht.1) (ih ht.2)

/-- Assignments always come to a normal end. -/
theorem completion_of_assignments {ns : List Node} {code : List Code}
    (h : ns.mapM Node.assignment = .ok code) {s s' : M.Store} {c : Completion M.Value}
    (hns : Node.execAll M s s' c ns) : c = .normal := by
  rw [mapM_eq_ok_iff] at h
  induction h generalizing s with
  | nil => exact hns.2
  | cons hn _ ih =>
      obtain ⟨p, storage, x, v, ops, rfl, -, -⟩ := Node.assignment_eq_ok_iff.mp hn
      rw [Node.execAll] at hns
      rcases hns with ⟨s₁, -, hrest⟩ | ⟨hne, hset⟩
      · exact ih hrest
      · rw [Node.exec] at hset
        obtain ⟨-, -, -, -, hnormal⟩ := hset
        exact hnormal

theorem execAll_assignments_iff {ns : List Node} {code : List Code}
    (h : ns.mapM Node.assignment = .ok code) (ht : StackTypedAll M ns) {s s' : M.Store}
    {e : Exit M.Value} :
    execAll M o s [] s' e code ↔ Node.execAll M s s' .normal ns ∧ e = .falls [] := by
  -- assignments carry out the same whatever the scope
  have hcarries : CarriesOut M o (.ofFunction none) code _ := carriesOut_assignments h ht
  rw [hcarries s s' e]
  constructor
  · rintro ⟨c, hns, he⟩
    obtain rfl := completion_of_assignments h hns
    cases he
    exact ⟨hns, rfl⟩
  · rintro ⟨hns, rfl⟩
    exact ⟨.normal, hns, rfl⟩

/-! ## Conditions -/

/-- A test is decided on the value of its condition, if it can answer on every value of the right
type. -/
theorem test_eq_some_iff (answer : M.Value → Bool) {n : Node} {ops : List Instr} {test : Test}
    (hops : n.operands = .ok ops) (hn : n.LeavesTyped M) {s s' : M.Store} {b : Bool}
    {stack : List M.Value}
    (hnone : M.run ops (s, []) = none → M.test test (s, []) = none)
    (hsome : ∀ s' v, (∀ t, n.resultKind = .value t → M.HasType t v) →
      M.run ops (s, []) = some (s', [v]) → M.test test (s, []) = some (answer v, s', [])) :
    M.test test (s, []) = some (b, s', stack)
      ↔ ∃ v, n.Yields M s s' v ∧ b = answer v ∧ stack = [] := by
  have heval := eval_eq_run (M := M) hops (s, [])
  cases hrun : M.run ops (s, []) with
  | none =>
      rw [hrun] at heval
      simp [hnone hrun, Node.Yields, heval]
  | some σ =>
      obtain ⟨s₁, vs⟩ := σ
      rw [hrun] at heval
      obtain ⟨v, rfl, hv⟩ := hn s s₁ vs heval
      rw [hsome s₁ v hv hrun]
      constructor
      · intro h
        cases h
        exact ⟨v, heval, rfl, rfl⟩
      · rintro ⟨w, hw, rfl, rfl⟩
        have hσ : some (s₁, [v]) = some (s', [w]) := heval.symm.trans hw
        cases hσ
        rfl

theorem test_truth_iff (hM : M.TestsZero) {n : Node} {test : Test} (htest : n.truthTest = .ok test)
    (hn : n.LeavesTyped M) {s s' : M.Store} {b : Bool} {stack : List M.Value} :
    M.test test (s, []) = some (b, s', stack) ↔ n.Decides M s s' b ∧ stack = [] := by
  obtain ⟨ops, t, hops, ht, rfl⟩ := Node.truthTest_eq_ok_iff.mp htest
  rw [test_eq_some_iff (fun v => !M.isZero v) hops hn Machine.test_truth_of_none
    fun s' v hv hrun => hM.test_truth (hv t ht) hrun]
  constructor
  · rintro ⟨v, hv, rfl, rfl⟩
    exact ⟨⟨v, hv, rfl⟩, rfl⟩
  · rintro ⟨⟨v, hv, rfl⟩, rfl⟩
    exact ⟨v, hv, rfl, rfl⟩

theorem test_exit_iff (hM : M.TestsZero) {n : Node} {ops : List Instr} {t : ValueType}
    (hops : n.operands = .ok ops) (ht : n.resultKind = .value t) (hn : n.LeavesTyped M)
    {s s' : M.Store} {b : Bool} {stack : List M.Value} :
    M.test (.exit t ops) (s, []) = some (b, s', stack) ↔ n.Decides M s s' (!b) ∧ stack = [] := by
  rw [test_eq_some_iff M.isZero hops hn Machine.test_exit_of_none
    fun s' v hv hrun => hM.test_exit (hv t ht) hrun]
  constructor
  · rintro ⟨v, hv, rfl, rfl⟩
    exact ⟨⟨v, hv, rfl⟩, rfl⟩
  · rintro ⟨⟨v, hv, hb⟩, rfl⟩
    exact ⟨v, hv, Bool.not_inj hb, rfl⟩

/-- **A loop is left before a pass exactly if its condition fails**; without one it never is. -/
theorem execAll_guard_iff (hM : M.TestsZero) {condition : Option Node} {d : Nat} {guard : List Code}
    (hguard : condition.toList.mapM (Node.exitGuard d) = .ok guard)
    (ht : ∀ n, condition = some n → n.LeavesTyped M) {s s' : M.Store} {e : Exit M.Value} :
    execAll M o s [] s' e guard ↔ ∃ b, Node.DecidesIfAny M s s' b condition
      ∧ e = if b then .falls [] else .jumps ((Label.exit d).name o) [] := by
  rcases Node.guard_eq_ok_iff.mp hguard with ⟨rfl, rfl⟩ | ⟨n, ops, t, rfl, hops, hkind, rfl⟩
  · rw [execAll_nil]
    constructor
    · rintro ⟨rfl, rfl⟩
      exact ⟨true, ⟨rfl, rfl⟩, rfl⟩
    · rintro ⟨b, ⟨rfl, rfl⟩, rfl⟩
      exact ⟨rfl, rfl⟩
  · simp only [execAll_singleton, Code.exec, test_exit_iff hM hops hkind (ht n rfl)]
    constructor
    · rintro ⟨yes, stack, ⟨hdecides, rfl⟩, rfl⟩
      exact ⟨!yes, hdecides, by cases yes <;> rfl⟩
    · rintro ⟨b, hdecides, rfl⟩
      refine ⟨!b, [], ⟨?_, rfl⟩, by cases b <;> rfl⟩
      rw [Bool.not_not]
      exact hdecides

@[simp] theorem Exit.above_nil {V : Type} (e : Exit V) : e.above [] = e := by
  cases e with
  | falls stack => rw [Exit.above, List.append_nil]
  | jumps name stack => rfl

theorem CarriesOut.ifElse (hM : M.TestsZero) {p : Position} {n : Node} {test : Test}
    {thenBranch : List Node} {elseBranch : Option (List Node)} {yes : List Code}
    {no : Option (List Code)} (htest : n.truthTest = .ok test) (hn : n.LeavesTyped M)
    (hyes : CarriesOut M o sc.deeper yes fun s s' c => Node.execAll M s s' c thenBranch)
    (hno : ∀ s s' e, execElse M o s [] s' e no
      ↔ ∃ c, Node.execElse M s s' c elseBranch ∧ sc.deeper.exitOf o c = some e) :
    CarriesOut M o sc [.ifThen test yes no] fun s s' c =>
      (Node.ifElse p n thenBranch elseBranch).exec M s s' c := by
  have hexit : ∀ c : Completion M.Value, sc.deeper.exitOf o c = sc.exitOf o c := by
    intro c
    cases c <;> simp [Scope.exitOf]
  intro s s' e
  simp only [execAll_singleton, Code.exec, Node.exec, test_truth_iff hM htest hn]
  constructor
  · rintro ⟨b, s₁, stack, e', ⟨hdecides, rfl⟩, hbranch, rfl⟩
    rw [Exit.above_nil]
    cases b with
    | true =>
        obtain ⟨c, hc, he⟩ := (hyes _ _ _).mp hbranch
        exact ⟨c, ⟨s₁, true, hdecides, hc⟩, hexit c ▸ he⟩
    | false =>
        obtain ⟨c, hc, he⟩ := (hno _ _ _).mp hbranch
        exact ⟨c, ⟨s₁, false, hdecides, hc⟩, hexit c ▸ he⟩
  · rintro ⟨c, ⟨s₁, b, hdecides, hbranch⟩, he⟩
    refine ⟨b, s₁, [], e, ⟨hdecides, rfl⟩, ?_, (Exit.above_nil e).symm⟩
    rw [← hexit] at he
    cases b with
    | true => exact (hyes _ _ _).mpr ⟨c, hbranch, he⟩
    | false => exact (hno _ _ _).mpr ⟨c, hbranch, he⟩

end Statements

/-! ## Loops -/

/-- **The parts of a loop and what they stand for.** -/
structure LoopParts (M : Machine) (o : Options) (sc : Scope) (shape : Shape)
    (guard inner tail : List Code) (G : M.Store → M.Store → Bool → Prop)
    (B : M.Store → M.Store → Completion M.Value → Prop) (T : M.Store → M.Store → Bool → Prop) :
    Prop where
  guard_iff : ∀ {s s' e}, execAll M o s [] s' e guard
    ↔ ∃ b, G s s' b ∧ e = if b then .falls [] else .jumps ((Label.exit sc.depth).name o) []
  inner_iff : CarriesOut M o (sc.enter shape) inner B
  tail_iff : ∀ {s s' e}, execAll M o s [] s' e tail
    ↔ ∃ b, T s s' b ∧ e = if b then .jumps ((shape.headLabel sc.depth).name o) [] else .falls []
  /-- Where a `continue` jumps to the head, it leaves nothing out. -/
  nothing_left_out : shape = .plain → ∀ s s₁, B s s₁ (.cont 1) →
    ∀ s' b, T s₁ s' b ↔ s' = s₁ ∧ b = true

namespace LoopParts

variable {M : Machine} {o : Options} {sc : Scope} {shape : Shape} {guard inner tail : List Code}
  {G T : M.Store → M.Store → Bool → Prop} {B : M.Store → M.Store → Completion M.Value → Prop}
  {s s' : M.Store} {e : Exit M.Value}

/-- The body of a loop, in its block if it has one. -/
theorem wrap_iff (h : LoopParts M o sc shape guard inner tail G B T) :
    execAll M o s [] s' e (shape.wrap sc.depth inner)
      ↔ ∃ c e', B s s' c ∧ (sc.enter shape).exitOf o c = some e'
          ∧ e = shape.bodyExit o sc.depth e' := by
  cases shape with
  | plain =>
      rw [Shape.wrap, h.inner_iff]
      simp [Shape.bodyExit]
  | wrapped =>
      simp only [Shape.wrap, execAll_singleton, Code.exec, h.inner_iff _ _ _, Shape.bodyExit]
      constructor
      · rintro ⟨e', ⟨c, hc, he'⟩, rfl⟩
        exact ⟨c, e', hc, he', rfl⟩
      · rintro ⟨c, e', hc, he', rfl⟩
        exact ⟨e', ⟨c, hc, he'⟩, rfl⟩

/-- The three ways in which the body of a loop can end: it runs to its end and the loop goes on, it
jumps to the head and nothing is left out by that, or it jumps elsewhere. -/
theorem wrap_cases (h : LoopParts M o sc shape guard inner tail G B T)
    (ho : ¬ IsLoopName o.returnLabel) (hsc : sc.Nested)
    (hexec : execAll M o s [] s' e (shape.wrap sc.depth inner)) :
    ∃ c, B s s' c ∧
      (c.resumes = true ∧ e = .falls []
        ∨ c.resumes = true ∧ T s' s' true ∧ e = .jumps ((shape.headLabel sc.depth).name o) []
        ∨ c.resumes = false ∧ ∃ name stack, e = .jumps name stack
          ∧ name ≠ (shape.headLabel sc.depth).name o
          ∧ sc.exitOf o c.outside = some (e.caughtBy ((Label.exit sc.depth).name o) [])) := by
  obtain ⟨c, e', hc, he', rfl⟩ := h.wrap_iff.mp hexec
  refine ⟨c, hc, ?_⟩
  cases hres : c.resumes with
  | true =>
      obtain ⟨e'', he'', hbody⟩ := Scope.exists_exitOf_enter_of_resumes o sc shape hres
      rw [he', Option.some.injEq] at he''
      subst he''
      rcases hbody with hfalls | ⟨hplain, rfl, hhead⟩
      · exact .inl ⟨rfl, hfalls⟩
      · exact .inr (.inl ⟨rfl, (h.nothing_left_out hplain _ _ hc _ _).mpr ⟨rfl, rfl⟩, hhead⟩)
  | false =>
      obtain ⟨name, stack, hjumps, hhead, hout⟩ := Scope.bodyExit_of_escapes ho hsc hres he'
      rw [hjumps]
      exact .inr (.inr ⟨rfl, name, stack, rfl, hhead, hout⟩)

/-- What stands behind the guard runs if the guard lets it. -/
theorem guarded_iff (h : LoopParts M o sc shape guard inner tail G B T) {code : List Code} :
    execAll M o s [] s' e (guard ++ code)
      ↔ (∃ s₁, G s s₁ true ∧ execAll M o s₁ [] s' e code)
        ∨ G s s' false ∧ e = .jumps ((Label.exit sc.depth).name o) [] := by
  rw [execAll_append]
  constructor
  · rintro (⟨s₁, stack, hguard, hcode⟩ | ⟨name, stack, rfl, hguard⟩)
    · obtain ⟨b, hg, he⟩ := h.guard_iff.mp hguard
      cases b with
      | true =>
          cases he
          exact .inl ⟨s₁, hg, hcode⟩
      | false => cases he
    · obtain ⟨b, hg, he⟩ := h.guard_iff.mp hguard
      cases b with
      | true => cases he
      | false => exact .inr ⟨hg, he⟩
  · rintro (⟨s₁, hg, hcode⟩ | ⟨hg, rfl⟩)
    · exact .inl ⟨s₁, [], h.guard_iff.mpr ⟨true, hg, rfl⟩, hcode⟩
    · exact .inr ⟨_, _, rfl, h.guard_iff.mpr ⟨false, hg, rfl⟩⟩

/-- **A pass of the code is a pass of the loop.**  It goes back to the head exactly if another pass
follows, and else the loop ends as its last pass says. -/
theorem pass_of_exec (h : LoopParts M o sc shape guard inner tail G B T)
    (ho : ¬ IsLoopName o.returnLabel) (hsc : sc.Nested)
    (hexec : execAll M o s [] s' e (guard ++ (shape.wrap sc.depth inner ++ tail))) :
    (∃ stack, e = .jumps ((shape.headLabel sc.depth).name o) stack) ∧ Pass G B T s s' none
      ∨ (∀ stack, e ≠ .jumps ((shape.headLabel sc.depth).name o) stack) ∧
        ∃ c, Pass G B T s s' (some c)
          ∧ sc.exitOf o c = some (e.caughtBy ((Label.exit sc.depth).name o) []) := by
  rcases h.guarded_iff.mp hexec with ⟨s₁, hg, hexec⟩ | ⟨hg, rfl⟩
  · rcases execAll_append.mp hexec with ⟨s₂, stack, hbody, htail⟩ | ⟨name, stack, rfl, hbody⟩
    · -- the body has come to its end, so what stands behind it runs
      obtain ⟨c, hc, ⟨hres, he⟩ | ⟨-, -, he⟩ | ⟨-, _, _, he, -⟩⟩ := h.wrap_cases ho hsc hbody
      · cases he
        obtain ⟨b, ht, rfl⟩ := h.tail_iff.mp htail
        cases b with
        | true => exact .inl ⟨⟨[], rfl⟩, .again hg hc hres ht⟩
        | false => exact .inr ⟨by simp, .normal, .last hg hc hres ht, rfl⟩
      · cases he
      · cases he
    · obtain ⟨c, hc, ⟨-, he⟩ | ⟨hres, ht, he⟩ | ⟨hres, _, _, he, hhead, hout⟩⟩ :=
        h.wrap_cases ho hsc hbody
      · cases he
      · exact .inl ⟨⟨[], he⟩, .again hg hc hres ht⟩
      · cases he
        refine .inr ⟨?_, c.outside, .escaped hg hc hres, hout⟩
        intro stack' heq
        exact hhead (Exit.jumps.inj heq).1
  · refine .inr ⟨?_, .normal, .refused hg, ?_⟩
    · intro stack' heq
      exact name_exit_ne_headLabel ho _ shape (Exit.jumps.inj heq).1
    · rw [Exit.caughtBy, if_pos rfl, Scope.exitOf]

/-- Another pass follows: the code goes back to the head. -/
theorem exec_of_pass_none (h : LoopParts M o sc shape guard inner tail G B T)
    (hpass : Pass G B T s s' none) :
    execAll M o s [] s' (.jumps ((shape.headLabel sc.depth).name o) [])
      (guard ++ (shape.wrap sc.depth inner ++ tail)) := by
  cases hpass with
  | again hg hc hres ht =>
      refine h.guarded_iff.mpr (.inl ⟨_, hg, execAll_append.mpr ?_⟩)
      obtain ⟨e', he', hfalls | ⟨hplain, rfl, hhead⟩⟩ :=
        Scope.exists_exitOf_enter_of_resumes o sc shape hres
      · have hbody := h.wrap_iff.mpr ⟨_, e', hc, he', rfl⟩
        rw [hfalls] at hbody
        exact .inl ⟨_, [], hbody, h.tail_iff.mpr ⟨true, ht, rfl⟩⟩
      · have hbody := h.wrap_iff.mpr ⟨.cont 1, e', hc, he', rfl⟩
        obtain ⟨rfl, -⟩ := (h.nothing_left_out hplain _ _ hc _ _).mp ht
        rw [hhead] at hbody
        exact .inr ⟨_, _, rfl, hbody⟩

/-- No other pass follows: the code leaves the loop, and ends outside as the pass says. -/
theorem exec_of_pass_some (h : LoopParts M o sc shape guard inner tail G B T)
    (ho : ¬ IsLoopName o.returnLabel) (hsc : sc.Nested) {c : Completion M.Value}
    (hpass : Pass G B T s s' (some c)) (he : sc.exitOf o c = some e) :
    ∃ e', execAll M o s [] s' e' (guard ++ (shape.wrap sc.depth inner ++ tail))
      ∧ (∀ stack, e' ≠ .jumps ((shape.headLabel sc.depth).name o) stack)
      ∧ e = e'.caughtBy ((Label.exit sc.depth).name o) [] := by
  cases hpass with
  | refused hg =>
      refine ⟨_, h.guarded_iff.mpr (.inr ⟨hg, rfl⟩), ?_, ?_⟩
      · intro stack heq
        exact name_exit_ne_headLabel ho _ shape (Exit.jumps.inj heq).1
      · rw [Exit.caughtBy, if_pos rfl]
        exact (Option.some.inj he).symm
  | escaped hg hc hres =>
      obtain ⟨e', he'⟩ := Scope.exists_exitOf_enter shape he
      obtain ⟨name, stack, hjumps, hhead, hout⟩ := Scope.bodyExit_of_escapes ho hsc hres he'
      have hbody := h.wrap_iff.mpr ⟨_, e', hc, he', rfl⟩
      rw [hjumps] at hbody
      refine ⟨.jumps name stack, ?_, ?_, ?_⟩
      · exact h.guarded_iff.mpr (.inl ⟨_, hg, execAll_append.mpr (.inr ⟨_, _, rfl, hbody⟩)⟩)
      · intro stack' heq
        exact hhead (Exit.jumps.inj heq).1
      · exact Option.some.inj (he.symm.trans hout)
  | last hg hc hres ht =>
      obtain ⟨e', he', hfalls | ⟨hplain, rfl, -⟩⟩ :=
        Scope.exists_exitOf_enter_of_resumes o sc shape hres
      · have hbody := h.wrap_iff.mpr ⟨_, e', hc, he', rfl⟩
        rw [hfalls] at hbody
        have htail := h.tail_iff.mpr ⟨false, ht, rfl⟩
        refine ⟨.falls [], ?_, by simp, (Option.some.inj he).symm⟩
        exact h.guarded_iff.mpr (.inl ⟨_, hg, execAll_append.mpr (.inl ⟨_, [], hbody, htail⟩)⟩)
      · obtain ⟨-, hb⟩ := (h.nothing_left_out hplain _ _ hc _ _).mp ht
        cases hb

/-- The turns of the code are passes of the loop, the last of them included. -/
theorem loops_of_turns (h : LoopParts M o sc shape guard inner tail G B T)
    (ho : ¬ IsLoopName o.returnLabel) (hsc : sc.Nested)
    (hturns : Turns (fun s₁ s₂ e₁ => execAll M o s₁ [] s₂ e₁
      (guard ++ (shape.wrap sc.depth inner ++ tail))) ((shape.headLabel sc.depth).name o) s s' e) :
    ∃ c, Loops (Pass G B T) s s' c
      ∧ sc.exitOf o c = some (e.caughtBy ((Label.exit sc.depth).name o) []) := by
  induction hturns with
  | again hbody _ ih =>
      obtain ⟨c, hloops, he⟩ := ih
      rcases h.pass_of_exec ho hsc hbody with ⟨-, hpass⟩ | ⟨hne, -⟩
      · exact ⟨c, .again hpass hloops, he⟩
      · exact absurd rfl (hne _)
  | done hbody hne =>
      rcases h.pass_of_exec ho hsc hbody with ⟨⟨stack, rfl⟩, -⟩ | ⟨-, c, hpass, he⟩
      · exact absurd rfl (hne stack)
      · exact ⟨c, .done hpass, he⟩

theorem turns_of_loops (h : LoopParts M o sc shape guard inner tail G B T)
    (ho : ¬ IsLoopName o.returnLabel) (hsc : sc.Nested) {c : Completion M.Value}
    (hloops : Loops (Pass G B T) s s' c) (he : sc.exitOf o c = some e) :
    ∃ e', Turns (fun s₁ s₂ e₁ => execAll M o s₁ [] s₂ e₁
        (guard ++ (shape.wrap sc.depth inner ++ tail))) ((shape.headLabel sc.depth).name o) s s' e'
      ∧ e = e'.caughtBy ((Label.exit sc.depth).name o) [] := by
  induction hloops with
  | again hpass _ ih =>
      obtain ⟨e', hturns, he'⟩ := ih he
      exact ⟨e', .again (h.exec_of_pass_none hpass) hturns, he'⟩
  | done hpass =>
      obtain ⟨e', hbody, hne, he'⟩ := h.exec_of_pass_some ho hsc hpass he
      exact ⟨e', .done hbody hne, he'⟩

/-- **The loop lemma**: a loop is carried out, if its parts are. -/
theorem carriesOut (h : LoopParts M o sc shape guard inner tail G B T)
    (ho : ¬ IsLoopName o.returnLabel) (hsc : sc.Nested) :
    CarriesOut M o sc [.loop (.exit sc.depth) (shape.headLabel sc.depth)
      (guard ++ (shape.wrap sc.depth inner ++ tail))] (Loops (Pass G B T)) := by
  intro s s' e
  rw [execAll_singleton, Code.exec]
  constructor
  · rintro ⟨e', hturns, rfl⟩
    exact h.loops_of_turns ho hsc hturns
  · rintro ⟨c, hloops, he⟩
    exact h.turns_of_loops ho hsc hloops he

end LoopParts

/-! ## All statements -/

section Lowered

variable {M : Machine} {o : Options} {sc : Scope}

/-- In a plain loop with something to do between two passes, no `continue` is ever on its way to the
next one. -/
theorem runsBetweenPasses_eq_false {between : Bool} {body : List Node}
    (hshape : Shape.ofBody between body = .plain) {s s' : M.Store}
    (hbody : Node.execAll M s s' (.cont 1) body) : between = false := by
  have hcont : anyContinuesTo 0 body = true := anyContinuesTo_of_execAll body 0 s s' hbody
  cases between with
  | false => rfl
  | true => simp [Shape.ofBody, hcont] at hshape

theorem execAll_increment_iff {increment : List Node} {step : List Code} {l : Label}
    (hstep : increment.mapM Node.assignment = .ok step) (ht : StackTypedAll M increment)
    {s s' : M.Store} {e : Exit M.Value} :
    execAll M o s [] s' e (step ++ [.br l none])
      ↔ ∃ b, (Node.execAll M s s' .normal increment ∧ b = true)
          ∧ e = if b then .jumps (l.name o) [] else .falls [] := by
  simp only [execAll_append, execAll_singleton, execAll_assignments_iff hstep ht, Code.exec,
    Option.getD_none, Machine.run_nil, Option.some.injEq, Prod.mk.injEq]
  constructor
  · rintro (⟨s₁, stack, ⟨hinc, hstack⟩, stack', ⟨rfl, rfl⟩, rfl⟩ | ⟨name, stack, rfl, -, he⟩)
    · cases hstack
      exact ⟨true, ⟨hinc, rfl⟩, rfl⟩
    · cases he
  · rintro ⟨b, ⟨hinc, rfl⟩, rfl⟩
    exact .inl ⟨s', [], ⟨hinc, rfl⟩, [], ⟨rfl, rfl⟩, rfl⟩

theorem execAll_doTest_iff (hM : M.TestsZero) {n : Node} {test : Test} {l : Label}
    (htest : n.truthTest = .ok test) (hn : n.LeavesTyped M) {s s' : M.Store} {e : Exit M.Value} :
    execAll M o s [] s' e [.brIf l test]
      ↔ ∃ b, n.Decides M s s' b ∧ e = if b then .jumps (l.name o) [] else .falls [] := by
  simp only [execAll_singleton, Code.exec, test_truth_iff hM htest hn]
  constructor
  · rintro ⟨b, stack, ⟨hdecides, rfl⟩, rfl⟩
    exact ⟨b, hdecides, rfl⟩
  · rintro ⟨b, hdecides, rfl⟩
    exact ⟨b, [], ⟨hdecides, rfl⟩, rfl⟩

theorem CarriesOut.forLoop (hM : M.TestsZero) (ho : ¬ IsLoopName o.returnLabel) (hsc : sc.Nested)
    {p : Position} {init : List Node} {condition : Option Node} {increment body : List Node}
    {shape : Shape} {first guard inner step : List Code}
    (hshape : shape = Shape.ofBody (!increment.isEmpty) body)
    (hinit : init.mapM Node.assignment = .ok first)
    (hguard : condition.toList.mapM (Node.exitGuard sc.depth) = .ok guard)
    (hinner : CarriesOut M o (sc.enter shape) inner fun s s' c => Node.execAll M s s' c body)
    (hstep : increment.mapM Node.assignment = .ok step)
    (ht : (Node.forLoop p init condition increment body).StackTyped M) :
    CarriesOut M o sc (first ++ [.loop (.exit sc.depth) (shape.headLabel sc.depth)
        (guard ++ (shape.wrap sc.depth inner ++ (step ++ [.br (shape.headLabel sc.depth) none])))])
      fun s s' c => (Node.forLoop p init condition increment body).exec M s s' c := by
  obtain ⟨htinit, htcond, htinc, -⟩ := ht
  have hloop : LoopParts M o sc shape guard inner (step ++ [.br (shape.headLabel sc.depth) none])
      (fun s s' b => Node.DecidesIfAny M s s' b condition)
      (fun s s' c => Node.execAll M s s' c body)
      (fun s s' b => Node.execAll M s s' .normal increment ∧ b = true) := by
    refine ⟨execAll_guard_iff hM hguard htcond, hinner, execAll_increment_iff hstep htinc, ?_⟩
    intro hplain s s₁ hcont s' b
    have hempty := runsBetweenPasses_eq_false (hshape.symm.trans hplain) hcont
    have hinc : increment = [] := by simpa using hempty
    simp only [hinc, Node.execAll, and_true]
  refine ((carriesOut_assignments hinit htinit).append (hloop.carriesOut ho hsc)).congr ?_
  intro s s' c
  rw [Node.exec]
  constructor
  · rintro (⟨s₁, hfirst, hloops⟩ | ⟨hne, hfirst⟩)
    · exact ⟨s₁, hfirst, hloops⟩
    · exact absurd (completion_of_assignments hinit hfirst) hne
  · rintro ⟨s₁, hfirst, hloops⟩
    exact .inl ⟨s₁, hfirst, hloops⟩

theorem CarriesOut.doLoop (hM : M.TestsZero) (ho : ¬ IsLoopName o.returnLabel) (hsc : sc.Nested)
    {p : Position} {n : Node} {body : List Node} {shape : Shape} {test : Test} {inner : List Code}
    (hshape : shape = Shape.ofBody true body)
    (hinner : CarriesOut M o (sc.enter shape) inner fun s s' c => Node.execAll M s s' c body)
    (htest : n.truthTest = .ok test) (hn : n.LeavesTyped M) :
    CarriesOut M o sc [.loop (.exit sc.depth) (shape.headLabel sc.depth)
        ([] ++ (shape.wrap sc.depth inner ++ [.brIf (shape.headLabel sc.depth) test]))]
      fun s s' c => (Node.doLoop p body n).exec M s s' c := by
  have hloop : LoopParts M o sc shape [] inner [.brIf (shape.headLabel sc.depth) test]
      (fun s s' b => s' = s ∧ b = true) (fun s s' c => Node.execAll M s s' c body)
      (fun s s' b => n.Decides M s s' b) := by
    refine ⟨?_, hinner, execAll_doTest_iff hM htest hn, ?_⟩
    · intro s s' e
      rw [execAll_nil]
      constructor
      · rintro ⟨rfl, rfl⟩
        exact ⟨true, ⟨rfl, rfl⟩, rfl⟩
      · rintro ⟨b, ⟨rfl, rfl⟩, rfl⟩
        exact ⟨rfl, rfl⟩
    · intro hplain s s₁ hcont
      cases runsBetweenPasses_eq_false (hshape.symm.trans hplain) hcont
  refine (hloop.carriesOut ho hsc).congr ?_
  intro s s' c
  rw [Node.exec]

/-- **Lowered statements do what the statements mean**, by induction over the rules. -/
theorem Lowers.carriesOut (hM : M.TestsZero) (ho : ¬ IsLoopName o.returnLabel) {stmts : List Node}
    {code : List Code} (h : Lowers sc stmts code) (hsc : sc.Nested) (ht : StackTypedAll M stmts) :
    CarriesOut M o sc code fun s s' c => Node.execAll M s s' c stmts := by
  induction h with
  | nil => exact .nil
  | declaration _ ih =>
      exact (ih hsc ht.2).congr fun s s' c => Node.execAll_declaration_cons.symm
  | assignment hops _ ih => exact .cons (.set hops ht.1) (ih hsc ht.2)
  | returnValue _ hops _ ih => exact .cons (.returnValue hops ht.1) (ih hsc ht.2)
  | returnVoid _ _ ih =>
      refine .cons (.jump (c := .ret none) rfl fun s s' c => ?_) (ih hsc ht.2)
      rw [Node.exec]
  | brk hd _ ih =>
      refine .cons (.jump (Scope.exitOf_brk hd) fun s s' c => ?_) (ih hsc ht.2)
      rw [Node.exec]
  | cont hd _ ih =>
      refine .cons (.jump (Scope.exitOf_cont hd) fun s s' c => ?_) (ih hsc ht.2)
      rw [Node.exec]
  | whileLoop _ ih =>
      obtain ⟨⟨hcond, hbody⟩, hrest⟩ := ht
      have htfor := ih hsc ⟨⟨trivial, by simpa using hcond, trivial, hbody⟩, hrest⟩
      refine htfor.congr fun s s' c => ?_
      simp only [Node.execAll, Node.exec_whileLoop_iff]
  | @forLoop _ _ _ _ _ _ _ shape _ _ _ _ _ hshape hinit hguard _ hstep _ ihbody ih =>
      obtain ⟨hfor, hrest⟩ := ht
      have hbody := ihbody (hsc.enter shape) hfor.2.2.2
      have hloop := CarriesOut.forLoop hM ho hsc hshape hinit hguard hbody hstep hfor
      simpa only [List.append_assoc, List.singleton_append] using hloop.cons (ih hsc hrest)
  | @doLoop _ _ _ _ _ shape _ _ _ hshape _ htest _ ihbody ih =>
      obtain ⟨⟨hbody, hcond⟩, hrest⟩ := ht
      have hinner := ihbody (hsc.enter shape) hbody
      exact .cons (.doLoop hM ho hsc hshape hinner htest hcond) (ih hsc hrest)
  | ifThen htest _ _ ihyes ih =>
      obtain ⟨⟨hcond, hyes, -⟩, hrest⟩ := ht
      refine .cons (.ifElse hM htest hcond (ihyes hsc.deeper hyes) fun s s' e => ?_) (ih hsc hrest)
      rw [execElse]
      exact (execAll_nil.symm.trans (CarriesOut.nil s s' e))
  | ifElse htest _ _ _ ihyes ihno ih =>
      obtain ⟨⟨hcond, hyes, hno⟩, hrest⟩ := ht
      refine .cons (.ifElse hM htest hcond (ihyes hsc.deeper hyes) fun s s' e => ?_) (ih hsc hrest)
      rw [execElse]
      exact ihno hsc.deeper hno s s' e

end Lowered

end WatLowering
