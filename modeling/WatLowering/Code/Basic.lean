import WatLowering.Code.Label
import WatLowering.Code.Test

/-!
# Structured code

The code that function bodies become, as a tree: jumps name their targets by `Label`, and blocks,
loops and conditionals hold their bodies.  Operands are sequences of straight-line instructions and
belong to the construct that consumes them.  Nothing here is text yet, and nothing depends on the
options.

* `Code` — one construct of a function body.
* `Func`, `Item`, `Module` — what surrounds function bodies.
-/

namespace WatLowering

/-- One construct of a function body. -/
inductive Code where
  /-- Stores the value of the operands in a variable. -/
  | set (storage : Storage) (name : String) (operands : List Instr)
  /-- Jumps, taking along a value if there are operands for one. -/
  | br (target : Label) (value : Option (List Instr))
  /-- Jumps if the test succeeds. -/
  | brIf (target : Label) (test : Test)
  /-- A block: a jump to its label goes to its end. -/
  | block (label : Label) (body : List Code)
  /-- A loop in a block of its own: a jump to `exit` goes to the end of both, a jump to `head` back
  to the start of the body. -/
  | loop (exit head : Label) (body : List Code)
  /-- Runs the test, then one of the branches. -/
  | ifThen (test : Test) (thenBranch : List Code) (elseBranch : Option (List Code))

/-- A variable with its type. -/
abbrev Variable := String × ValueType

/-- A function.  Its body runs inside the block that `Label.ret` names. -/
structure Func where
  name : String
  params : List Variable
  result : Option ValueType
  locals : List Variable
  body : List Code

/-- What a module is made of. -/
inductive Item where
  /-- A module variable with the literal it starts from. -/
  | global (mutable : Bool) (name : String) (type : ValueType) (literal : String)
  /-- Makes the function `name` known to the outside as `exported`. -/
  | exportFunc (name exported : String)
  | func (f : Func)

/-- A module: its items in order. -/
structure Module where
  items : List Item

/-- Puts the body of a loop into the block that its shape asks for. -/
def Shape.wrap (depth : Nat) (body : List Code) : Shape → List Code
  | .plain => body
  | .wrapped => [.block (.next depth) body]

end WatLowering
