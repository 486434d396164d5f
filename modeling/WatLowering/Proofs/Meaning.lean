import WatLowering.Proofs.Machine

/-!
# What programs mean

The meaning of a function body, told without any code: expressions work on an operand stack term by
term, and statements change the store and end in one of a few ways.  Single terms mean what the
`Machine` makes of them; everything else is said here.

* `Node.eval` — an expression.  Its value is what it leaves on an empty stack (`Node.Yields`), and
  as a condition it holds if that value is not zero (`Node.Decides`).
* `Completion` — how statements end.  A `break` or `continue` that is still on its way carries the
  number of loops it has to leave behind.
* `Pass` and `Loops` — **all three loops are one**: before each pass a guard may refuse it, after
  each pass, and after a `continue` just as after a pass to the end, a step may call it the last.
* `Node.exec` — statements, as a relation between the store before, the store after and the
  completion.
* `FunctionMeans` — a function body as a whole: what it gives back.

Levels are never resolved here, and nothing is jumped to: a loop takes away one level from what
passes through it.
-/

namespace WatLowering

/-! ## Expressions -/

section Expressions

variable (M : Machine)

mutual

/-- What a term or a sequence of terms does to the store and the operand stack. -/
def Node.eval : Node → M.Store × List M.Value → Option (M.Store × List M.Value)
  | .number _ (.value t) literal, σ => M.step (.const t literal) σ
  | .get _ storage x _, σ => M.step (.get storage x) σ
  | .operator _ (.value t) symbol, σ =>
      ((BinaryOp.ofSymbol? symbol).bind fun op => op.select? t).bind fun i =>
        M.step (.numeric i t) σ
  | .cast _ source target, σ =>
      match castPlan? source target with
      | some .identity => some σ
      | some (.convert c) => M.step (.convert c) σ
      | none => none
  | .expression _ _ terms, σ => evalAll terms σ
  | _, _ => none

def evalAll : List Node → M.Store × List M.Value → Option (M.Store × List M.Value)
  | [], σ => some σ
  | term :: rest, σ => (term.eval σ).bind (evalAll rest)

end

/-- From the store `s` the expression gives the value `v` and leaves the store `s'`. -/
def Node.Yields (s s' : M.Store) (v : M.Value) (n : Node) : Prop :=
  n.eval M (s, []) = some (s', [v])

/-- From the store `s` the condition is decided with `b` and leaves the store `s'`: it holds exactly
if it is not zero. -/
def Node.Decides (s s' : M.Store) (b : Bool) (n : Node) : Prop :=
  ∃ v, n.Yields M s s' v ∧ b = !M.isZero v

end Expressions

/-! ## Loops -/

/-- How statements can end. -/
inductive Completion (V : Type) where
  | normal
  /-- On the way out of this many loops. -/
  | brk (level : Nat)
  /-- On the way to the next pass of the loop of this level. -/
  | cont (level : Nat)
  /-- On the way out of the function. -/
  | ret (value : Option V)

namespace Completion

variable {V : Type}

/-- Does the loop go on as usual, after its body has ended like this? -/
def resumes : Completion V → Bool
  | .normal | .cont 1 => true
  | _ => false

/-- How a loop ends that does not go on: what is aimed at this very loop has arrived, what is aimed
further out has one loop less to go. -/
def outside : Completion V → Completion V
  | .brk 1 => .normal
  | .brk (n + 2) => .brk (n + 1)
  | .cont (n + 2) => .cont (n + 1)
  | c => c

/-- Only a `continue` that has one loop more to go becomes a `continue` outside. -/
theorem eq_cont_of_outside {c : Completion V} {n : Nat} (hres : c.resumes = false)
    (h : c.outside = .cont (n + 1)) : c = .cont (n + 2) := by
  match c, hres, h with
  | .cont (k + 2), _, h =>
      rw [outside, cont.injEq] at h
      rw [Nat.succ.inj h]
  | .brk 1, _, h | .brk (k + 2), _, h => cases h

end Completion

section Loops

variable {S V : Type}

/-- One pass of a loop, and how the loop ends if no other pass follows. -/
inductive Pass (guard : S → S → Bool → Prop) (body : S → S → Completion V → Prop)
    (step : S → S → Bool → Prop) : S → S → Option (Completion V) → Prop where
  | refused {s s' : S} : guard s s' false → Pass guard body step s s' (some .normal)
  | escaped {s s₁ s' : S} {c : Completion V} :
      guard s s₁ true → body s₁ s' c → c.resumes = false →
      Pass guard body step s s' (some c.outside)
  | again {s s₁ s₂ s' : S} {c : Completion V} :
      guard s s₁ true → body s₁ s₂ c → c.resumes = true → step s₂ s' true →
      Pass guard body step s s' none
  | last {s s₁ s₂ s' : S} {c : Completion V} :
      guard s s₁ true → body s₁ s₂ c → c.resumes = true → step s₂ s' false →
      Pass guard body step s s' (some .normal)

/-- Pass after pass, until one is not followed by another. -/
inductive Loops (pass : S → S → Option (Completion V) → Prop) : S → S → Completion V → Prop where
  | again {s s₁ s' : S} {c : Completion V} :
      pass s s₁ none → Loops pass s₁ s' c → Loops pass s s' c
  | done {s s' : S} {c : Completion V} : pass s s' (some c) → Loops pass s s' c

/-- One thing after the other: the second happens where the first has come to a normal end. -/
def Sequence (first second : S → S → Completion V → Prop) (s s' : S) (c : Completion V) : Prop :=
  (∃ s₁, first s s₁ .normal ∧ second s₁ s' c) ∨ (c ≠ .normal ∧ first s s' c)

end Loops

/-! ## Statements -/

section Statements

variable (M : Machine)

/-- Does a loop without a condition go on?  Always. -/
def Node.DecidesIfAny (s s' : M.Store) (b : Bool) : Option Node → Prop
  | none => s' = s ∧ b = true
  | some condition => condition.Decides M s s' b

mutual

/-- One statement: from the store `s` it can end in the store `s'` and with the completion `c`. -/
def Node.exec (s s' : M.Store) (c : Completion M.Value) : Node → Prop
  | .localVar _ _ _ => s' = s ∧ c = .normal
  | .set _ storage x value =>
      ∃ s₁ v, value.Yields M s s₁ v ∧ M.assign storage x v s₁ = some s' ∧ c = .normal
  | .ret _ none => s' = s ∧ c = .ret none
  | .ret _ (some value) => ∃ v, value.Yields M s s' v ∧ c = .ret (some v)
  | .brk _ levels => s' = s ∧ c = .brk (levels.getD 1)
  | .cont _ levels => s' = s ∧ c = .cont (levels.getD 1)
  | .whileLoop _ condition body =>
      Loops (Pass (fun s s' b => condition.Decides M s s' b) (fun s s' c => execAll s s' c body)
        (fun s s' b => s' = s ∧ b = true)) s s' c
  | .doLoop _ body condition =>
      Loops (Pass (fun s s' b => s' = s ∧ b = true) (fun s s' c => execAll s s' c body)
        (fun s s' b => condition.Decides M s s' b)) s s' c
  | .forLoop _ init condition increment body =>
      ∃ s₁, execAll s s₁ .normal init ∧
        Loops (Pass (fun s s' b => Node.DecidesIfAny M s s' b condition)
          (fun s s' c => execAll s s' c body)
          (fun s s' b => execAll s s' .normal increment ∧ b = true)) s₁ s' c
  | .ifElse _ condition thenBranch elseBranch =>
      ∃ s₁ b, condition.Decides M s s₁ b ∧
        if b then execAll s₁ s' c thenBranch else execElse s₁ s' c elseBranch
  | _ => False

/-- Several statements, each where the one before it has come to a normal end. -/
def Node.execAll (s s' : M.Store) (c : Completion M.Value) : List Node → Prop
  | [] => s' = s ∧ c = .normal
  | stmt :: rest =>
      Sequence (fun s s' c => stmt.exec s s' c) (fun s s' c => execAll s s' c rest) s s' c

def Node.execElse (s s' : M.Store) (c : Completion M.Value) : Option (List Node) → Prop
  | none => s' = s ∧ c = .normal
  | some branch => execAll s s' c branch

end

variable {M}

/-- A declaration among the statements does nothing. -/
theorem Node.execAll_declaration_cons {p : Position} {x : String} {k : NumericKind}
    {rest : List Node} {s s' : M.Store} {c : Completion M.Value} :
    Node.execAll M s s' c (.localVar p x k :: rest) ↔ Node.execAll M s s' c rest := by
  simp only [Node.execAll, Node.exec]
  constructor
  · rintro (⟨s₁, ⟨rfl, -⟩, hrest⟩ | ⟨hne, -, hnormal⟩)
    · exact hrest
    · exact absurd hnormal hne
  · intro hrest
    exact .inl ⟨s, ⟨rfl, rfl⟩, hrest⟩

theorem Node.execAll_dropWhile_isDeclaration {body : List Node} {s s' : M.Store}
    {c : Completion M.Value} :
    Node.execAll M s s' c (body.dropWhile Node.isDeclaration) ↔ Node.execAll M s s' c body :=
  iff_of_eq (apply_dropWhile_isDeclaration
    (fun _ _ _ _ => propext Node.execAll_declaration_cons) body)

/-- A `while` loop is a `for` loop that has only a condition. -/
theorem Node.exec_whileLoop_iff {p : Position} {condition : Node} {body : List Node}
    {s s' : M.Store} {c : Completion M.Value} :
    (Node.whileLoop p condition body).exec M s s' c
      ↔ (Node.forLoop p [] (some condition) [] body).exec M s s' c := by
  simp only [Node.exec, Node.execAll, Node.DecidesIfAny, and_true, exists_eq_left]

end Statements

/-! ## Functions -/

/-- What a function gives back when its body has completed.  A function with a result has to return
one: coming to the end of its body gives nothing at all. -/
def Completion.outcome {V : Type} : NumericKind → Completion V → Option (Option V)
  | .void, .normal => some none
  | .void, .ret _ => some none
  | .value _, .ret (some v) => some (some v)
  | _, _ => none

/-- **The meaning of a function**: from the store `s` its body ends in `s'` with this outcome. -/
def FunctionMeans (M : Machine) (result : NumericKind) (body : List Node) (s s' : M.Store)
    (out : Option M.Value) : Prop :=
  ∃ c, Node.execAll M s s' c body ∧ c.outcome result = some out

/-! ## Expressions that leave one value -/

section StackTyped

variable (M : Machine)

/-- The expression leaves exactly one value, whatever the store. -/
def Node.LeavesOne (n : Node) : Prop :=
  ∀ s s' stack, n.eval M (s, []) = some (s', stack) → ∃ v, stack = [v]

/-- The condition leaves exactly one value, and that is of the type which is read off it. -/
def Node.LeavesTyped (n : Node) : Prop :=
  ∀ s s' stack, n.eval M (s, []) = some (s', stack) →
    ∃ v, stack = [v] ∧ ∀ t, n.resultKind = .value t → M.HasType t v

mutual

/-- Every value that the statement assigns, returns or decides on is the only one on the stack. -/
def Node.StackTyped : Node → Prop
  | .set _ _ _ value => value.LeavesOne M
  | .ret _ (some value) => value.LeavesOne M
  | .whileLoop _ condition body => condition.LeavesTyped M ∧ StackTypedAll body
  | .doLoop _ body condition => StackTypedAll body ∧ condition.LeavesTyped M
  | .forLoop _ init condition increment body =>
      StackTypedAll init ∧ (∀ n, condition = some n → n.LeavesTyped M) ∧ StackTypedAll increment
        ∧ StackTypedAll body
  | .ifElse _ condition thenBranch elseBranch =>
      condition.LeavesTyped M ∧ StackTypedAll thenBranch ∧ StackTypedElse elseBranch
  | _ => True

def StackTypedAll : List Node → Prop
  | [] => True
  | stmt :: rest => stmt.StackTyped ∧ StackTypedAll rest

def StackTypedElse : Option (List Node) → Prop
  | none => True
  | some branch => StackTypedAll branch

end

variable {M}

theorem stackTypedAll_dropWhile_isDeclaration {body : List Node} :
    StackTypedAll M (body.dropWhile Node.isDeclaration) ↔ StackTypedAll M body :=
  iff_of_eq (apply_dropWhile_isDeclaration
    (fun _ _ _ _ => propext (and_iff_right trivial)) body)

end StackTyped

/-! ## Instructions of an expression -/

section Operands

variable {M : Machine}

theorem Selects.eval_eq {n : Node} {i : Option Instr} (h : Selects n i)
    (σ : M.Store × List M.Value) : n.eval M σ = M.run i.toList σ := by
  have hrun : ∀ i : Instr, M.run (some i).toList σ = M.step i σ := by
    intro i
    cases hσ : M.step i σ <;> simp [Machine.run, hσ]
  cases h with
  | number => rw [hrun, Node.eval]
  | get => rw [hrun, Node.eval]
  | @operator p op t i hselect =>
      rw [hrun, Node.eval, BinaryOp.ofSymbol?_symbol, Option.bind_some, hselect, Option.bind_some]
  | @identity p t =>
      have hplan : castPlan? (.value t) (.value t) = some .identity :=
        congrArg some (castPlan_eq_identity_iff.mpr rfl)
      rw [Node.eval, hplan]
      rfl
  | @convert p c =>
      have hplan : castPlan? (.value c.source) (.value c.target) = some (.convert c) :=
        congrArg some (castPlan_eq_convert_iff.mpr ⟨rfl, rfl⟩)
      rw [hrun, Node.eval, hplan]

theorem Computes.evalAll_eq {terms : List Node} {ops : List Instr} (h : Computes terms ops)
    (σ : M.Store × List M.Value) : evalAll M terms σ = M.run ops σ := by
  induction h generalizing σ with
  | nil => rfl
  | leaf hi _ ih =>
      rw [evalAll, hi.eval_eq, Machine.run_append]
      congr 1
      funext σ'
      exact ih σ'
  | expression _ _ _ ihterms ih =>
      rw [evalAll, Node.eval, ihterms, Machine.run_append]
      congr 1
      funext σ'
      exact ih σ'

/-- **The instructions of an expression do what the expression means.** -/
theorem eval_eq_run {n : Node} {ops : List Instr} (h : n.operands = .ok ops)
    (σ : M.Store × List M.Value) : n.eval M σ = M.run ops σ := by
  have hterms := (operands_eq_ok_iff.mp h).evalAll_eq σ
  rw [evalAll] at hterms
  cases hn : n.eval M σ with
  | none => rw [← hterms, hn, Option.bind_none]
  | some σ' => rw [← hterms, hn, Option.bind_some, evalAll]

end Operands

/-! ## Loops that nothing continues -/

section Continue

variable {M : Machine} {s s' : M.Store}

/-- Statements in a loop end with a `continue` for a loop further out, if the loop does. -/
theorem Loops.exists_cont {S V : Type} {guard : S → S → Bool → Prop}
    {body : S → S → Completion V → Prop} {step : S → S → Bool → Prop} {s s' : S}
    {c : Completion V} (h : Loops (Pass guard body step) s s' c) {n : Nat}
    (hc : c = .cont (n + 1)) : ∃ s₁ s₂, body s₁ s₂ (.cont (n + 2)) := by
  induction h with
  | again _ _ ih => exact ih hc
  | done hpass =>
      generalize hq : some _ = q at hpass
      cases hpass with
      | refused _ => simp [hc] at hq
      | last _ _ _ _ => simp [hc] at hq
      | again _ _ _ _ => cases hq
      | escaped _ hbody hres =>
          rw [hc, Option.some.injEq] at hq
          rw [Completion.eq_cont_of_outside hres hq.symm] at hbody
          exact ⟨_, _, hbody⟩

mutual

theorem continuesTo_of_exec : ∀ (stmt : Node) (n : Nat) (s s' : M.Store),
    stmt.exec M s s' (.cont (n + 1)) → stmt.continuesTo n = true
  | .cont _ levels, n, s, s', h => by
      rw [Node.exec, Completion.cont.injEq] at h
      rw [Node.continuesTo, ← h.2]
      exact beq_self_eq_true _
  | .whileLoop _ _ body, n, s, s', h => by
      rw [Node.exec] at h
      obtain ⟨s₁, s₂, hbody⟩ := h.exists_cont rfl
      exact anyContinuesTo_of_execAll body (n + 1) s₁ s₂ hbody
  | .doLoop _ body _, n, s, s', h => by
      rw [Node.exec] at h
      obtain ⟨s₁, s₂, hbody⟩ := h.exists_cont rfl
      exact anyContinuesTo_of_execAll body (n + 1) s₁ s₂ hbody
  | .forLoop _ _ _ _ body, n, s, s', h => by
      rw [Node.exec] at h
      obtain ⟨_, -, hloop⟩ := h
      obtain ⟨s₁, s₂, hbody⟩ := hloop.exists_cont rfl
      exact anyContinuesTo_of_execAll body (n + 1) s₁ s₂ hbody
  | .ifElse _ _ thenBranch elseBranch, n, s, s', h => by
      rw [Node.exec] at h
      obtain ⟨s₁, b, -, h⟩ := h
      rw [Node.continuesTo, Bool.or_eq_true]
      cases b with
      | true => exact .inl (anyContinuesTo_of_execAll thenBranch n s₁ s' h)
      | false => exact .inr (branchContinuesTo_of_execElse elseBranch n s₁ s' h)
  | .localVar _ _ _, _, _, _, h => by simp [Node.exec] at h
  | .set _ _ _ _, _, _, _, h => by simp [Node.exec] at h
  | .ret _ none, _, _, _, h => by simp [Node.exec] at h
  | .ret _ (some _), _, _, _, h => by simp [Node.exec] at h
  | .brk _ _, _, _, _, h => by simp [Node.exec] at h
  | .module _ _, _, _, _, h => by simp [Node.exec] at h
  | .global _ _ _ _ _, _, _, _, h => by simp [Node.exec] at h
  | .exportFunc _ _ _, _, _, _, h => by simp [Node.exec] at h
  | .function _ _ _ _ _, _, _, _, h => by simp [Node.exec] at h
  | .paramList _ _, _, _, _, h => by simp [Node.exec] at h
  | .get _ _ _ _, _, _, _, h => by simp [Node.exec] at h
  | .number _ _ _, _, _, _, h => by simp [Node.exec] at h
  | .expression _ _ _, _, _, _, h => by simp [Node.exec] at h
  | .operator _ _ _, _, _, _, h => by simp [Node.exec] at h
  | .cast _ _ _, _, _, _, h => by simp [Node.exec] at h

/-- **Only a `continue` that is there is ever on its way.** -/
theorem anyContinuesTo_of_execAll : ∀ (stmts : List Node) (n : Nat) (s s' : M.Store),
    Node.execAll M s s' (.cont (n + 1)) stmts → anyContinuesTo n stmts = true
  | [], n, s, s', h => by simp [Node.execAll] at h
  | stmt :: rest, n, s, s', h => by
      rw [Node.execAll] at h
      rw [anyContinuesTo, Bool.or_eq_true]
      rcases h with ⟨s₁, -, hrest⟩ | ⟨-, hstmt⟩
      · exact .inr (anyContinuesTo_of_execAll rest n s₁ s' hrest)
      · exact .inl (continuesTo_of_exec stmt n s s' hstmt)

theorem branchContinuesTo_of_execElse : ∀ (branch : Option (List Node)) (n : Nat) (s s' : M.Store),
    Node.execElse M s s' (.cont (n + 1)) branch → branchContinuesTo n branch = true
  | none, n, s, s', h => by simp [Node.execElse] at h
  | some branch, n, s, s', h => by
      rw [Node.execElse] at h
      exact anyContinuesTo_of_execAll branch n s s' h

end

end Continue

end WatLowering
