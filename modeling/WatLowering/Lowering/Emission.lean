import WatLowering.Lowering.Module
import WatLowering.Session

/-!
# Lowering in one pass

`Node.lower` says what a statement becomes; here the same is done by a generator that writes as it
goes.  Each part of a statement is checked when its turn comes, and written before the next part is
looked at, so the lines that open a loop are in the buffer before anyone knows whether its body is
sound.

The checks of the parts that hold no statements are those of `Node.lower`, and so is the order of
everything that can fail or that is reported.  What differs is when lines are written: one after the
other, instead of all at once when the code of the module is complete.
-/

namespace WatLowering

open Emission (check report raw write writeCode clear takeOutput)

/-! ## Statements -/

/-- Writes assignments, each as soon as it is checked. -/
def emitAssignments (depth : Nat) (assignments : List Node) : Emission Unit :=
  assignments.forM fun n => do
    let code ← check n.assignment
    writeCode depth [code]

/-- Opens the loop at `depth` and the block around it. -/
def openLoop (depth : Nat) (head : Label) : Emission Unit := do
  write ⟨depth, [.text "(block $", (Label.exit depth).piece]⟩
  write ⟨depth, [.text "(loop  $", head.piece]⟩

/-- Puts what `body` writes into the block that the shape of the loop at `depth` asks for. -/
def Shape.enclose (depth : Nat) (body : Emission Unit) : Shape → Emission Unit
  | .plain => body
  | .wrapped => do
      write ⟨depth + 1, [.text "(block $", (Label.next depth).piece]⟩
      body
      write (.ofText (depth + 1) ")")

mutual

/-- Writes a statement. -/
def Node.emit (s : Scope) : Node → Emission Unit
  | .localVar pos name _ => report (.lateDeclaration pos name)
  | n@(.set _ _ _ _) => do
      let code ← check n.assignment
      writeCode s.depth [code]
  | n@(.ret _ value) => do
      let code ← check (s.returnJump value n)
      writeCode s.depth [code]
  | n@(.brk _ levels) => do
      let depth ← check (s.target levels n)
      writeCode s.depth [.br (.exit depth) none]
  | n@(.cont _ levels) => do
      let depth ← check (s.target levels n)
      writeCode s.depth [.br (.next depth) none]
  | .whileLoop pos condition body => do
      let head := Label.next s.depth
      report (.whileLoop pos s.depth)
      openLoop s.depth head
      let guard ← check (condition.exitGuard s.depth)
      writeCode (s.depth + 1) [guard]
      emitAll (s.enter .plain) body
      writeCode (s.depth + 1) [.br head none]
      write (.ofText s.depth "))")
  | .doLoop pos body condition => do
      let shape := Shape.ofBody true body
      let head := shape.headLabel s.depth
      report (.doLoop pos s.depth shape)
      openLoop s.depth head
      shape.enclose s.depth (emitAll (s.enter shape) body)
      let test ← check condition.truthTest
      writeCode (s.depth + 1) [.brIf head test]
      write (.ofText s.depth "))")
  | .forLoop pos init condition increment body => do
      let shape := Shape.ofBody (!increment.isEmpty) body
      let head := shape.headLabel s.depth
      emitAssignments s.depth init
      report (.forLoop pos s.depth shape)
      openLoop s.depth head
      let guard ← check (condition.toList.mapM (Node.exitGuard s.depth))
      writeCode (s.depth + 1) guard
      shape.enclose s.depth (emitAll (s.enter shape) body)
      emitAssignments (s.depth + 1) increment
      writeCode (s.depth + 1) [.br head none]
      write (.ofText s.depth "))")
  | .ifElse _ condition thenBranch elseBranch => do
      let test ← check condition.truthTest
      write (.ofText s.depth test.text)
      write (.ofText s.depth "(if (then")
      emitAll s.deeper thenBranch
      emitBranch s elseBranch
      write (.ofText s.depth "))")
  | n => check (.error ⟨.notAStatement, n⟩)

/-- Writes several statements, one after the other. -/
def emitAll (s : Scope) : List Node → Emission Unit
  | [] => return ()
  | stmt :: rest => do
      stmt.emit s
      emitAll s rest

/-- Writes the `else` branch of a conditional that stands in the scope `s`, if there is one. -/
def emitBranch (s : Scope) : Option (List Node) → Emission Unit
  | none => return ()
  | some branch => do
      write (.ofText s.depth ")(else")
      emitAll s.deeper branch

end

/-! ## Modules -/

/-- Writes the declarations of local variables, each as soon as it is checked. -/
def emitLocals (depth : Nat) (declarations : List Node) : Emission Unit :=
  declarations.forM fun n => do
    let v ← check n.declaration
    write (.ofText depth (v.text "local"))

/-- Writes an item of a module. -/
def Node.emitItem (n : Node) : Emission Unit :=
  match n with
  | .function _ name result params body => do
      report (.functionStarted name)
      let params ← check (params.parameters name)
      let result ← check (result.resultTypeAt n)
      write (.ofText 1 (Func.header ⟨name, params, result, [], []⟩))
      emitLocals 2 (body.takeWhile Node.isDeclaration)
      write ⟨2, [.text "(block $", Label.ret.piece, .text (resultClause result)]⟩
      emitAll (.ofFunction result) (body.dropWhile Node.isDeclaration)
      write (.ofText 2 ")")
      write (.ofText 1 ")")
  | _ => do
      let item ← check n.lowerItem.result
      (item.lines 1).forM write

/-- Writes a module with the given items.  One without items stays on one line. -/
def emitItems (items : List Node) : Emission Unit := do
  raw "(module"
  unless items.isEmpty do
    raw "\n"
    items.forM Node.emitItem
  raw ")"

/-- Writes a program into an empty buffer, and takes its text out when it is complete. -/
def Node.emitModule (program : Node) : Emission String := do
  clear
  match program with
  | .module _ items => do
      report (.moduleStarted items.length)
      emitItems items
      takeOutput
  | n => check (.error ⟨.notAModule, n⟩)

end WatLowering
