import WatLowering.Proofs.LabelNames

/-!
# Running generated code

What straight-line instructions do is left open: a `Machine` interprets each of them as a partial
change of a store and an operand stack, and nothing is known about it beyond what
`Machine.TestsZero` says about comparing with zero.  What this file fixes is the control flow around
them.

* `Machine.run` — straight-line code; an instruction that cannot run stops everything.
* `Exit` — how code can end: it runs to its end, or it jumps and takes the stack along.
* `Code.exec` — code as a relation between the store before, the store after and the way it ends.
  Blocks and loops start on a stack of their own, catch the jumps that name them, and let all other
  jumps pass; so a name is resolved to the innermost construct around the jump that bears it.
* `Turns` — a loop runs its body again whenever the body ends with a jump to its head.
* `Func.Runs` — a whole function, whose body lies in the return block.

Nothing here looks at labels themselves, only at their names in the text.
-/

namespace WatLowering

/-! ## Machines -/

/-- An interpretation of straight-line instructions. -/
structure Machine where
  Store : Type
  Value : Type
  /-- What an instruction does to the store and the operand stack, whose top comes first. -/
  step : Instr → Store × List Value → Option (Store × List Value)
  /-- What storing a value in a variable does. -/
  assign : Storage → String → Value → Store → Option Store
  /-- Which values are of a type. -/
  HasType : ValueType → Value → Prop
  /-- Is the value a zero? -/
  isZero : Value → Bool
  /-- The `i32` that stands for a truth value. -/
  ofBool : Bool → Value

namespace Machine

variable (M : Machine)

/-- Straight-line code. -/
def run : List Instr → M.Store × List M.Value → Option (M.Store × List M.Value)
  | [], σ => some σ
  | i :: rest, σ => (M.step i σ).bind (run rest)

/-- The decision that a conditional jump takes on the value on top of the stack: no exactly if it is
a zero. -/
def decide : M.Store × List M.Value → Option (Bool × M.Store × List M.Value)
  | (_, []) => none
  | (s, v :: vs) => some (!M.isZero v, s, vs)

/-- A test, and the decision on what it leaves. -/
def test (t : Test) (σ : M.Store × List M.Value) : Option (Bool × M.Store × List M.Value) :=
  (M.run t.instrs σ).bind M.decide

/-- **The instructions that compare with zero have their usual meaning** on values of their type.
Comparing with `eq` and with `ne` give opposite answers. -/
structure TestsZero : Prop where
  eqz : ∀ {t v}, t.isInteger = true → M.HasType t v → ∀ s vs,
    M.step (.eqz t) (s, v :: vs) = some (s, M.ofBool (M.isZero v) :: vs)
  eqZero : ∀ {t v}, M.HasType t v → ∀ s vs,
    M.run [.const t "0", .numeric .eq t] (s, v :: vs) = some (s, M.ofBool (M.isZero v) :: vs)
  neZero : ∀ {t v}, M.HasType t v → ∀ s vs,
    M.run [.const t "0", .numeric .ne t] (s, v :: vs) = some (s, M.ofBool (!M.isZero v) :: vs)
  isZero_ofBool : ∀ b, M.isZero (M.ofBool b) = !b

variable {M}

@[simp] theorem run_nil (σ : M.Store × List M.Value) : M.run [] σ = some σ := rfl

theorem run_append (xs ys : List Instr) (σ : M.Store × List M.Value) :
    M.run (xs ++ ys) σ = (M.run xs σ).bind (M.run ys) := by
  induction xs generalizing σ with
  | nil => rfl
  | cons i xs ih =>
      rw [List.cons_append, run, run, Option.bind_assoc]
      congr 1
      funext σ'
      exact ih σ'

theorem TestsZero.decide_ofBool (hM : M.TestsZero) (b : Bool) (s : M.Store) (vs : List M.Value) :
    M.decide (s, M.ofBool b :: vs) = some (b, s, vs) := by
  rw [decide, hM.isZero_ofBool, Bool.not_not]

section Conditions

variable {t : ValueType} {ops : List Instr} {σ : M.Store × List M.Value} {s : M.Store} {v : M.Value}
  {vs : List M.Value}

/-- **The test for truth says yes exactly on what is not zero.** -/
theorem TestsZero.test_truth (hM : M.TestsZero) (hv : M.HasType t v)
    (h : M.run ops σ = some (s, v :: vs)) :
    M.test (.truth t ops) σ = some (!M.isZero v, s, vs) := by
  have hne : M.test (.againstZero .ne t ops) σ = some (!M.isZero v, s, vs) := by
    rw [test, Test.instrs, run_append, h, Option.bind_some, hM.neZero hv, Option.bind_some,
      hM.decide_ofBool]
  cases t with
  | i32 =>
      -- an `i32` decides as it is
      rw [test, Test.truth, Test.instrs, h]
      rfl
  | i64 => exact hne
  | f32 => exact hne
  | f64 => exact hne

/-- **The test for leaving a loop says the opposite.** -/
theorem TestsZero.test_exit (hM : M.TestsZero) (hv : M.HasType t v)
    (h : M.run ops σ = some (s, v :: vs)) :
    M.test (.exit t ops) σ = some (M.isZero v, s, vs) := by
  have heq : M.test (.againstZero .eq t ops) σ = some (M.isZero v, s, vs) := by
    rw [test, Test.instrs, run_append, h, Option.bind_some, hM.eqZero hv, Option.bind_some,
      hM.decide_ofBool]
  have heqz : t.isInteger = true → M.test (.isZero t ops) σ = some (M.isZero v, s, vs) := by
    intro ht
    rw [test, Test.instrs, run_append, h, Option.bind_some, run, hM.eqz ht hv, Option.bind_some,
      run_nil, Option.bind_some, hM.decide_ofBool]
  cases t with
  | i32 => exact heqz rfl
  | i64 => exact heqz rfl
  | f32 => exact heq
  | f64 => exact heq

/-- Where the condition itself cannot be computed, neither can a test of it. -/
theorem test_truth_of_none (h : M.run ops σ = none) : M.test (.truth t ops) σ = none := by
  cases t <;> simp [test, Test.truth, Test.instrs, run_append, h]

theorem test_exit_of_none (h : M.run ops σ = none) : M.test (.exit t ops) σ = none := by
  cases t <;> simp [test, Test.exit, Test.instrs, run_append, h]

end Conditions

end Machine

/-! ## Code -/

/-- How code can end. -/
inductive Exit (V : Type) where
  /-- It runs to its end and leaves a stack. -/
  | falls (stack : List V)
  /-- It jumps to the construct of this name and takes its stack along. -/
  | jumps (name : String) (stack : List V)

namespace Exit

variable {V : Type}

/-- How a block without a result ends, when its body has ended: a jump to the block is caught, and
the block takes no values from it.  `below` is the stack that the block was entered with. -/
def caughtBy (name : String) (below : List V) : Exit V → Exit V
  | .falls stack => .falls (stack ++ below)
  | .jumps target stack => if target = name then .falls below else .jumps target stack

/-- How a conditional ends, when its branch has ended; nothing can jump to it. -/
def above (below : List V) : Exit V → Exit V
  | .falls stack => .falls (stack ++ below)
  | .jumps target stack => .jumps target stack

end Exit

/-- **A loop**: as long as the body ends with a jump to the head it runs again, from the store that
it has left. -/
inductive Turns {S V : Type} (body : S → S → Exit V → Prop) (head : String) : S → S → Exit V → Prop
    where
  | again {s₁ s₂ s₃ : S} {stack : List V} {e : Exit V} :
      body s₁ s₂ (.jumps head stack) → Turns body head s₂ s₃ e → Turns body head s₁ s₃ e
  | done {s₁ s₂ : S} {e : Exit V} :
      body s₁ s₂ e → (∀ stack, e ≠ .jumps head stack) → Turns body head s₁ s₂ e

section Exec

variable (M : Machine) (o : Options)

mutual

/-- One construct: from the store `s` and the stack `vs` it can end in the store `s'` with `e`. -/
def Code.exec (s : M.Store) (vs : List M.Value) (s' : M.Store) (e : Exit M.Value) : Code → Prop
  | .set storage x ops =>
      ∃ s₁ v stack, M.run ops (s, vs) = some (s₁, v :: stack) ∧ M.assign storage x v s₁ = some s'
        ∧ e = .falls stack
  | .br target value =>
      ∃ stack, M.run (value.getD []) (s, vs) = some (s', stack) ∧ e = .jumps (target.name o) stack
  | .brIf target test =>
      ∃ yes stack, M.test test (s, vs) = some (yes, s', stack)
        ∧ e = if yes then .jumps (target.name o) stack else .falls stack
  | .block label body => ∃ e', execAll s [] s' e' body ∧ e = e'.caughtBy (label.name o) vs
  | .loop exit head body =>
      ∃ e', Turns (fun s₁ s₂ e₁ => execAll s₁ [] s₂ e₁ body) (head.name o) s s' e'
        ∧ e = e'.caughtBy (exit.name o) vs
  | .ifThen test yes no =>
      ∃ b s₁ stack e', M.test test (s, vs) = some (b, s₁, stack)
        ∧ (if b then execAll s₁ [] s' e' yes else execElse s₁ [] s' e' no) ∧ e = e'.above stack

/-- Several constructs: each runs on what the one before it has left, until one of them jumps. -/
def execAll (s : M.Store) (vs : List M.Value) (s' : M.Store) (e : Exit M.Value) :
    List Code → Prop
  | [] => s' = s ∧ e = .falls vs
  | c :: rest =>
      (∃ s₁ stack, c.exec s vs s₁ (.falls stack) ∧ execAll s₁ stack s' e rest)
        ∨ ∃ name stack, e = .jumps name stack ∧ c.exec s vs s' e

def execElse (s : M.Store) (vs : List M.Value) (s' : M.Store) (e : Exit M.Value) :
    Option (List Code) → Prop
  | none => s' = s ∧ e = .falls vs
  | some branch => execAll s vs s' e branch

end

end Exec

/-! ## Functions -/

/-- What a function gives back when its body has ended: the value on top where it has a result, and
nothing where it has none.  A jump to anything but the return block gives nothing at all, and
neither does a body that leaves the wrong number of values. -/
def Exit.outcome {V : Type} (returnName : String) : Option ValueType → Exit V → Option (Option V)
  | none, .falls [] => some none
  | none, .jumps target _ => if target = returnName then some none else none
  | some _, .falls [v] => some (some v)
  | some _, .jumps target (v :: _) => if target = returnName then some (some v) else none
  | _, _ => none

/-- Running a generated function from the store `s` ends in `s'` with this outcome. -/
def Func.Runs (M : Machine) (o : Options) (f : Func) (s s' : M.Store) (out : Option M.Value) :
    Prop :=
  ∃ e, execAll M o s [] s' e f.body ∧ e.outcome (Label.ret.name o) f.result = some out

/-! ## Sequences -/

section Sequences

variable {M : Machine} {o : Options} {s s' : M.Store} {vs : List M.Value} {e : Exit M.Value}

theorem execAll_nil : execAll M o s vs s' e [] ↔ s' = s ∧ e = .falls vs := by
  rw [execAll]

theorem execAll_cons {c : Code} {rest : List Code} :
    execAll M o s vs s' e (c :: rest)
      ↔ (∃ s₁ stack, c.exec M o s vs s₁ (.falls stack) ∧ execAll M o s₁ stack s' e rest)
        ∨ ∃ name stack, e = .jumps name stack ∧ c.exec M o s vs s' e := by
  rw [execAll]

theorem execAll_singleton {c : Code} :
    execAll M o s vs s' e [c] ↔ c.exec M o s vs s' e := by
  rw [execAll_cons]
  constructor
  · rintro (⟨s₁, stack, hc, hrest⟩ | ⟨name, stack, -, hc⟩)
    · obtain ⟨rfl, rfl⟩ := execAll_nil.mp hrest
      exact hc
    · exact hc
  · intro hc
    cases e with
    | falls stack => exact .inl ⟨s', stack, hc, execAll_nil.mpr ⟨rfl, rfl⟩⟩
    | jumps name stack => exact .inr ⟨name, stack, rfl, hc⟩

/-- **Running one piece after another**: the second runs where the first has come to its end. -/
theorem execAll_append {xs ys : List Code} :
    execAll M o s vs s' e (xs ++ ys)
      ↔ (∃ s₁ stack, execAll M o s vs s₁ (.falls stack) xs ∧ execAll M o s₁ stack s' e ys)
        ∨ ∃ name stack, e = .jumps name stack ∧ execAll M o s vs s' e xs := by
  induction xs generalizing s vs with
  | nil =>
      simp only [List.nil_append, execAll_nil]
      constructor
      · intro h
        exact .inl ⟨s, vs, ⟨rfl, rfl⟩, h⟩
      · rintro (⟨s₁, stack, ⟨rfl, hstack⟩, h⟩ | ⟨name, stack, rfl, -, h⟩)
        · cases hstack
          exact h
        · cases h
  | cons c xs ih =>
      simp only [List.cons_append, execAll_cons, ih]
      constructor
      · rintro (⟨s₁, stack, hc, ⟨s₂, stack₂, hxs, hys⟩ | ⟨name, stack₂, he, hxs⟩⟩
          | ⟨name, stack, he, hc⟩)
        · exact .inl ⟨s₂, stack₂, .inl ⟨s₁, stack, hc, hxs⟩, hys⟩
        · exact .inr ⟨name, stack₂, he, .inl ⟨s₁, stack, hc, hxs⟩⟩
        · exact .inr ⟨name, stack, he, .inr ⟨name, stack, he, hc⟩⟩
      · rintro (⟨s₂, stack₂, ⟨s₁, stack, hc, hxs⟩ | ⟨name, stack, he, -⟩, hys⟩
          | ⟨name, stack₂, he, ⟨s₁, stack, hc, hxs⟩ | ⟨-, -, -, hc⟩⟩)
        · exact .inl ⟨s₁, stack, hc, .inl ⟨s₂, stack₂, hxs, hys⟩⟩
        · cases he
        · exact .inl ⟨s₁, stack, hc, .inr ⟨name, stack₂, he, hxs⟩⟩
        · exact .inr ⟨name, stack₂, he, hc⟩

end Sequences

end WatLowering
