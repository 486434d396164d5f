/-!
# Source positions

Every node of a source tree carries the place it was read from, as a line and a column.  The
lowering never looks at a position to decide anything; positions only travel into diagnostics and
into the log.  A node that nobody located sits at `0:0`.
-/

namespace WatLowering

/-- A place in the source text. -/
structure Position where
  line : Nat
  column : Nat
  deriving DecidableEq

namespace Position

/-- The position of a node that was built without one. -/
def unplaced : Position := ⟨0, 0⟩

/-- The written form, `line:column`. -/
def text (p : Position) : String := toString p.line ++ ":" ++ toString p.column

/-- Reading order: by line, and within one line by column. -/
instance : Ord Position where
  compare p q := (compare p.line q.line).then (compare p.column q.column)

end Position

end WatLowering
