import WatLowering.Node.Basic

/-!
# Where a loop continues

A `while` loop continues at its head: the condition is tested there, and nothing else has to happen
first.  A `do` loop has its condition at the end, and a `for` loop with increments has to run them,
so for these two the head is the wrong place to go.  If some `continue` in the body is aimed at such
a loop, the body gets a block of its own, and leaving that block is how the loop continues
(`Shape.wrapped`).  Where no `continue` is aimed at the loop the extra block is not made
(`Shape.plain`), and the head can carry the name that a `continue` would look for.

Whether a `continue` is aimed at a given loop is a question about the tree alone: `continuesTo n`
asks it of a statement that sits inside `n` further loops.
-/

namespace WatLowering

/-- How a loop offers a target to the `continue`s that are aimed at it. -/
inductive Shape where
  /-- The loop itself is the target. -/
  | plain
  /-- The body sits in a block of its own, and the end of that block is the target. -/
  | wrapped
  deriving DecidableEq

/-- The name of a shape in the log. -/
def Shape.name : Shape → String
  | .plain => "Plain"
  | .wrapped => "Wrapped"

/-! ## Finding the `continue`s that are aimed at a loop -/

mutual

/-- Does the statement hold a `continue` for the loop just outside of `nesting` inner ones?  Loops
inside the statement count as further inner loops, the arms of an `if` do not. -/
def Node.continuesTo (nesting : Nat) : Node → Bool
  | .cont _ levels => levels.getD 1 == nesting + 1
  | .ifElse _ _ thenBranch elseBranch =>
      anyContinuesTo nesting thenBranch || branchContinuesTo nesting elseBranch
  | .whileLoop _ _ body => anyContinuesTo (nesting + 1) body
  | .doLoop _ body _ => anyContinuesTo (nesting + 1) body
  | .forLoop _ _ _ _ body => anyContinuesTo (nesting + 1) body
  | _ => false

/-- Does one of the statements? -/
def anyContinuesTo (nesting : Nat) : List Node → Bool
  | [] => false
  | stmt :: rest => stmt.continuesTo nesting || anyContinuesTo nesting rest

/-- Does an `else` branch, if there is one? -/
def branchContinuesTo (nesting : Nat) : Option (List Node) → Bool
  | none => false
  | some branch => anyContinuesTo nesting branch

end

theorem anyContinuesTo_eq_any (nesting : Nat) (stmts : List Node) :
    anyContinuesTo nesting stmts = stmts.any fun stmt => stmt.continuesTo nesting := by
  induction stmts with
  | nil => rfl
  | cons stmt rest ih => rw [anyContinuesTo, ih, List.any_cons]

/-- **The shape of a loop.**  Only a loop with something to run between two passes can need a block
around its body, and it needs one exactly if some `continue` in the body is aimed at it. -/
def Shape.ofBody (runsBetweenPasses : Bool) (body : List Node) : Shape :=
  if runsBetweenPasses && anyContinuesTo 0 body then .wrapped else .plain

end WatLowering
