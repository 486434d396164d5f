import WatLowering.Shape

/-!
# Labels

Generated code jumps to named blocks and loops.  A label says what its target is for, and for the
ones that belong to a loop, at which depth the loop stands; the depth is also the number in the
name.  Loops inside one another stand at different depths, so their names differ; loops beside one
another may share names, since a name means the innermost block or loop that bears it.

The name of the block around a function body is a matter of taste and left to the options, so a
label does not have a text by itself; see `Label.piece`.
-/

namespace WatLowering

/-- The targets of jumps. -/
inductive Label where
  /-- The block around a function body: leaving it returns. -/
  | ret
  /-- The block around the loop at this depth: leaving it ends the loop. -/
  | exit (depth : Nat)
  /-- What a `continue` of the loop at this depth jumps to. -/
  | next (depth : Nat)
  /-- The head of the loop at this depth, where it is not also its `next`. -/
  | head (depth : Nat)
  deriving DecidableEq

/-- The label that the loop itself bears, and that its last instruction jumps back to. -/
def Shape.headLabel (depth : Nat) : Shape → Label
  | .plain => .next depth
  | .wrapped => .head depth

end WatLowering
