import WatLowering.Lowering.Operands
import WatLowering.Lowering.Scope
import WatLowering.Traced

/-!
# Statements

Each statement becomes a few constructs of code, depending on its scope.  Assignments, returns and
jumps become one construct each; declarations that stand among the statements become nothing, and
are reported.  Loops and conditionals hold statements, so the main function is mutually recursive
with its versions for lists of statements and for the optional `else` branch.

**Loops.**  A loop at depth `d` is left through the label `exit d`, and a `continue` of it goes to
`next d`.  The condition of a `while` or `for` is tested first, and a false one leaves the loop; that
of a `do` is tested last, and a true one goes back to the head.  How `next d` is provided is the
`Shape` of the loop.

**Order.**  The parts of a statement are lowered in the order in which they will run, the body of a
`for` before its increments.  The first fault in that order is the one reported.
-/

namespace WatLowering

/-! ## Statements without statements inside -/

namespace Node

/-- The test that succeeds when the condition is true. -/
def truthTest (condition : Node) : Except Fault Test := do
  let operands ← condition.operands
  let t ← condition.resultKind.valueTypeAt condition
  return .truth t operands

/-- Leaves the loop at `depth` when the condition is false. -/
def exitGuard (depth : Nat) (condition : Node) : Except Fault Code := do
  let operands ← condition.operands
  let t ← condition.resultKind.valueTypeAt condition
  return .brIf (.exit depth) (.exit t operands)

/-- The code of an assignment. -/
def assignment : Node → Except Fault Code
  | .set _ storage name value => do
      let operands ← value.operands
      return .set storage name operands
  | n => .error ⟨.notAnAssignment, n⟩

end Node

/-- The code of the `return` statement `stmt`, which gives a value exactly if the function has a
result. -/
def Scope.returnJump (s : Scope) (value : Option Node) (stmt : Node) : Except Fault Code :=
  match value, s.result with
  | some v, some _ => do
      let operands ← v.operands
      return .br .ret (some operands)
  | none, none => .ok (.br .ret none)
  | some _, none => .error ⟨.unexpectedValue, stmt⟩
  | none, some t => .error ⟨.missingValue t, stmt⟩

/-! ## All statements -/

open Traced (report silently)

mutual

/-- The code of a statement. -/
def Node.lower (s : Scope) : Node → Traced (List Code)
  | .localVar pos name _ => do
      report (.lateDeclaration pos name)
      return []
  | n@(.set _ _ _ _) => do
      let code ← silently n.assignment
      return [code]
  | n@(.ret _ value) => do
      let code ← silently (s.returnJump value n)
      return [code]
  | n@(.brk _ levels) => do
      let depth ← silently (s.target levels n)
      return [.br (.exit depth) none]
  | n@(.cont _ levels) => do
      let depth ← silently (s.target levels n)
      return [.br (.next depth) none]
  | .whileLoop pos condition body => do
      let exit := Label.exit s.depth
      let head := Label.next s.depth
      report (.whileLoop pos s.depth)
      let guard ← silently (condition.exitGuard s.depth)
      let inner ← lowerAll (s.enter .plain) body
      return [.loop exit head (guard :: inner ++ [.br head none])]
  | .doLoop pos body condition => do
      let shape := Shape.ofBody true body
      let exit := Label.exit s.depth
      let head := shape.headLabel s.depth
      report (.doLoop pos s.depth shape)
      let inner ← lowerAll (s.enter shape) body
      let test ← silently condition.truthTest
      return [.loop exit head (shape.wrap s.depth inner ++ [.brIf head test])]
  | .forLoop pos init condition increment body => do
      let shape := Shape.ofBody (!increment.isEmpty) body
      let exit := Label.exit s.depth
      let head := shape.headLabel s.depth
      let first ← silently (init.mapM Node.assignment)
      report (.forLoop pos s.depth shape)
      let guard ← silently (condition.toList.mapM (Node.exitGuard s.depth))
      let inner ← lowerAll (s.enter shape) body
      let step ← silently (increment.mapM Node.assignment)
      return first ++
        [.loop exit head (guard ++ shape.wrap s.depth inner ++ step ++ [.br head none])]
  | .ifElse _ condition thenBranch elseBranch => do
      let test ← silently condition.truthTest
      let yes ← lowerAll s.deeper thenBranch
      let no ← lowerBranch s.deeper elseBranch
      return [.ifThen test yes no]
  | n => silently (.error ⟨.notAStatement, n⟩)

/-- The code of several statements, one after the other. -/
def lowerAll (s : Scope) : List Node → Traced (List Code)
  | [] => return []
  | stmt :: rest => do
      let first ← stmt.lower s
      let others ← lowerAll s rest
      return first ++ others

/-- The code of an `else` branch, if there is one. -/
def lowerBranch (s : Scope) : Option (List Node) → Traced (Option (List Code))
  | none => return none
  | some branch => do
      let code ← lowerAll s branch
      return some code

end

/-- Statements are lowered each on its own: nothing but the scope is passed from one to the next. -/
theorem lowerAll_eq_mapM (s : Scope) (stmts : List Node) :
    lowerAll s stmts = List.flatten <$> stmts.mapM (Node.lower s) := by
  induction stmts with
  | nil => simp [lowerAll]
  | cons stmt rest ih => simp [lowerAll, ih]

end WatLowering
