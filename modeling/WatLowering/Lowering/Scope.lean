import WatLowering.Code.Basic
import WatLowering.Fault

/-!
# The surroundings of a statement

What a statement becomes depends on three things around it: what its function returns, which loops
enclose it, and how deep it is nested.  A `Scope` holds these, and changes only on the way inwards.

A loop is known by the depth it stands at, which is the number in its labels.  `Scope.loop?` counts
enclosing loops outwards from 1, as the level of a `break` or `continue` does.
-/

namespace WatLowering

/-- The surroundings of a statement. -/
structure Scope where
  /-- The result of the enclosing function. -/
  result : Option ValueType
  /-- The depths of the enclosing loops, innermost first. -/
  loops : List Nat
  /-- The depth of the statement itself. -/
  depth : Nat

namespace Scope

/-- The scope of a function body, which lies inside the module, the function and the return
block. -/
def ofFunction (result : Option ValueType) : Scope := ⟨result, [], 3⟩

/-- The scope of a branch of a conditional. -/
def deeper (s : Scope) : Scope := { s with depth := s.depth + 1 }

/-- The scope of the body of a loop that stands here.  Where the body has a block of its own, it is
one deeper than it would be otherwise. -/
def enter (s : Scope) (shape : Shape) : Scope :=
  { s with
    loops := s.depth :: s.loops
    depth := match shape with
      | .plain => s.depth + 1
      | .wrapped => s.depth + 2 }

/-- The depth of the enclosing loop that a level counts; level 1 is the innermost. -/
def loop? (s : Scope) : Nat → Option Nat
  | 0 => none
  | level + 1 => s.loops[level]?

/-- **A level names no loop exactly if it is zero or there are not that many loops around.** -/
theorem loop?_eq_none_iff {s : Scope} {level : Nat} :
    s.loop? level = none ↔ level = 0 ∨ s.loops.length < level := by
  cases level with
  | zero => simp [loop?]
  | succ n =>
      rw [loop?, List.getElem?_eq_none_iff]
      omega

/-- The loop that the `break` or `continue` `stmt` is aimed at.  Without a level it is the innermost
one. -/
def target (s : Scope) (levels : Option Nat) (stmt : Node) : Except Fault Nat :=
  let level := levels.getD 1
  match s.loop? level with
  | some depth => .ok depth
  | none => .error ⟨if s.loops.isEmpty then .outsideLoop else .noSuchLoop level, stmt⟩

end Scope

end WatLowering
