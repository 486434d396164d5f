import Mathlib
import WatLowering.Proofs.Rules

/-!
# Names of labels, and why they do not collide

A jump finds its target by name: of the blocks and loops around it, the innermost one that bears the
name.  Names carry the depth of their loop as a number, so two loops share names exactly if they
stand at one depth.  Loops inside one another never do, because everything inside a loop is deeper
than the loop itself; `Scope.Nested` is the part of this that the lowering hands down.

* `Label.name` — the name that a label gets under the given options.
* `Label.name_eq_iff_of_ne_ret` — the names of loops tell their labels apart, whatever the options.
* `Label.name_eq_iff` — so do all names, if the return label is not the name of a loop
  (`IsLoopName`).
-/

namespace WatLowering

/-! ## Names -/

/-- The name of a label in the text. -/
def Label.name (o : Options) (l : Label) : String := l.piece.render o

/-- The names that labels of loops have. -/
def IsLoopName (name : String) : Prop :=
  ∃ d : Nat, name = "break_" ++ toString d ∨ name = "continue_" ++ toString d
    ∨ name = "loop_" ++ toString d

/-- The standard return label is none of them. -/
theorem Options.not_isLoopName_standard : ¬ IsLoopName standard.returnLabel := by
  rintro ⟨d, h | h | h⟩ <;>
    · have hfirst := congrArg (fun s => s.toList.head?) h
      simp [standard] at hfirst

namespace Label

@[simp] theorem name_ret (o : Options) : ret.name o = o.returnLabel := rfl

theorem name_exit (o : Options) (d : Nat) : (exit d).name o = "break_" ++ Nat.repr d := rfl

theorem name_next (o : Options) (d : Nat) : (next d).name o = "continue_" ++ Nat.repr d := rfl

theorem name_head (o : Options) (d : Nat) : (head d).name o = "loop_" ++ Nat.repr d := rfl

theorem isLoopName_name (o : Options) {l : Label} (h : l ≠ .ret) : IsLoopName (l.name o) := by
  cases l with
  | ret => exact absurd rfl h
  | exit d => exact ⟨d, .inl rfl⟩
  | next d => exact ⟨d, .inr (.inl rfl)⟩
  | head d => exact ⟨d, .inr (.inr rfl)⟩

/-- The names of the labels of loops are told apart by their first letter and their number. -/
theorem name_eq_iff_of_ne_ret {o : Options} {l l' : Label} (h : l ≠ .ret) (h' : l' ≠ .ret) :
    l.name o = l'.name o ↔ l = l' := by
  constructor
  · intro hname
    have hfirst := congrArg (fun s => s.toList.head?) hname
    cases l <;> cases l' <;> try contradiction
    all_goals simp only [name_exit, name_next, name_head] at hname hfirst
    case exit.exit d d' =>
      rw [Nat.repr_injective ((String.append_right_inj "break_").mp hname)]
    case next.next d d' =>
      rw [Nat.repr_injective ((String.append_right_inj "continue_").mp hname)]
    case head.head d d' =>
      rw [Nat.repr_injective ((String.append_right_inj "loop_").mp hname)]
    all_goals simp at hfirst
  · rintro rfl
    rfl

/-- **All names tell labels apart**, unless the return label was chosen to look like a loop. -/
theorem name_eq_iff {o : Options} (ho : ¬ IsLoopName o.returnLabel) {l l' : Label} :
    l.name o = l'.name o ↔ l = l' := by
  constructor
  · intro hname
    by_cases h : l = .ret
    · by_cases h' : l' = .ret
      · rw [h, h']
      · subst h
        have hloop : IsLoopName (ret.name o) := hname ▸ isLoopName_name o h'
        exact absurd hloop ho
    · by_cases h' : l' = .ret
      · subst h'
        have hloop : IsLoopName (ret.name o) := hname ▸ isLoopName_name o h
        exact absurd hloop ho
      · exact (name_eq_iff_of_ne_ret h h').mp hname
  · rintro rfl
    rfl

end Label

theorem Shape.exit_ne_headLabel (shape : Shape) (d : Nat) : Label.exit d ≠ shape.headLabel d := by
  cases shape <;> simp [Shape.headLabel]

theorem Shape.headLabel_ne_ret (shape : Shape) (d : Nat) : shape.headLabel d ≠ .ret := by
  cases shape <;> simp [Shape.headLabel]

/-! ## Depths -/

namespace Scope

/-- Every enclosing loop stands at a smaller depth than the statement. -/
def Nested (s : Scope) : Prop := ∀ d ∈ s.loops, d < s.depth

theorem nested_ofFunction (result : Option ValueType) : (ofFunction result).Nested := by
  simp [Nested, ofFunction]

theorem Nested.deeper {s : Scope} (h : s.Nested) : s.deeper.Nested := by
  intro d hd
  exact Nat.lt_succ_of_lt (h d hd)

theorem Nested.enter {s : Scope} (h : s.Nested) (shape : Shape) : (s.enter shape).Nested := by
  have hdepth : s.depth < (s.enter shape).depth := by
    cases shape <;> simp [Scope.enter]
  intro d hd
  rcases List.mem_cons.mp hd with rfl | hd
  · exact hdepth
  · exact (h d hd).trans hdepth

theorem Nested.lt_of_loop? {s : Scope} (h : s.Nested) {level d : Nat}
    (hd : s.loop? level = some d) : d < s.depth := by
  cases level with
  | zero => cases hd
  | succ n => exact h d (List.mem_of_getElem? hd)

theorem Nested.ne_of_loop? {s : Scope} (h : s.Nested) {level d : Nat}
    (hd : s.loop? level = some d) : d ≠ s.depth :=
  Nat.ne_of_lt (h.lt_of_loop? hd)

/-- In the body of a loop, the levels beyond the first count on outside of it. -/
theorem loop?_enter_succ (s : Scope) (shape : Shape) (n : Nat) :
    (s.enter shape).loop? (n + 2) = s.loop? (n + 1) := rfl

@[simp] theorem loop?_deeper (s : Scope) (n : Nat) : s.deeper.loop? n = s.loop? n := by
  cases n <;> rfl

end Scope

end WatLowering
