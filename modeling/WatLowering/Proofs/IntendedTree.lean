import WatLowering.Lowering.Module
import WatLowering.Proofs.SExpr

/-!
# What the text of a program is meant to say

The written form of a program is a tree, and which tree it is meant to be can be said by recursion
over the source, with no lines, no indentation and no checks.  Of the options only the return label
has a place in it.

* `Node.operandTrees` — an expression is one list for each of its instructions, in order.
* `Node.truthTrees`, `Node.exitTrees` — a condition, made into a test for a jump or an `if`.
* `Node.statementTrees` — a statement in its scope.  A loop is a block with a loop in it, and where
  its shape asks for it, the body is in a block inside the loop.
* `Node.itemTree`, `Node.moduleTree` — a module has one tree for each of its items, in order.

Trees are given to accepted programs only.  Where the source makes no sense there is nothing that
its text should say, and the definitions leave something out or return the empty list.
-/

namespace WatLowering

/-! ## Lists and names -/

namespace SExpr

/-- A list that begins with a keyword. -/
def clause (keyword : String) (items : List SExpr) : SExpr := .list (.atom keyword :: items)

/-- A reference to a name. -/
def ident (name : String) : SExpr := .atom ("$" ++ name)

/-- A literal, taken at a kind. -/
def const (kind : NumericKind) (literal : String) : SExpr :=
  clause (kind.name ++ ".const") [.atom literal]

end SExpr

open SExpr (clause ident const)

/-- A reference to a label. -/
def Label.tree (returnLabel : String) : Label → SExpr
  | .ret => ident returnLabel
  | .exit depth => ident ("break_" ++ toString depth)
  | .next depth => ident ("continue_" ++ toString depth)
  | .head depth => ident ("loop_" ++ toString depth)

/-! ## Expressions and conditions -/

mutual

/-- The instructions of an expression. -/
def Node.operandTrees : Node → List SExpr
  | .number _ kind literal => [const kind literal]
  | .get _ storage name _ => [clause (storage.name ++ ".get") [ident name]]
  | .operator _ kind symbol =>
      ((BinaryOp.ofSymbol? symbol).bind (·.mnemonic? kind)).toList.map (clause · [])
  | .cast _ source target =>
      match castPlan? source target with
      | some (.convert c) => [clause c.mnemonic []]
      | _ => []
  | .expression _ _ terms => operandTreesAll terms
  | _ => []

/-- The instructions of several terms, one after the other. -/
def operandTreesAll : List Node → List SExpr
  | [] => []
  | term :: rest => term.operandTrees ++ operandTreesAll rest

end

namespace Node

/-- The condition, and then its comparison with zero. -/
def againstZero (comparison : String) (condition : Node) : List SExpr :=
  let kind := condition.resultKind
  condition.operandTrees ++ [const kind "0", clause (kind.name ++ "." ++ comparison) []]

/-- A test that succeeds if the condition is true: an `i32` as it stands, anything else compared
with zero. -/
def truthTrees (condition : Node) : List SExpr :=
  if condition.resultKind = .value .i32 then condition.operandTrees
  else condition.againstZero "ne"

/-- A test that succeeds if the condition is false: around an integer, or by comparing with zero. -/
def exitTrees (condition : Node) : List SExpr :=
  let kind := condition.resultKind
  if kind.isInteger then [clause (kind.name ++ ".eqz") condition.operandTrees]
  else condition.againstZero "eq"

/-- The tree of an assignment. -/
def assignmentTree : Node → SExpr
  | .set _ storage name value => clause (storage.name ++ ".set") (ident name :: value.operandTrees)
  | _ => .list []

end Node

/-! ## Statements -/

section Trees

variable (returnLabel : String)

/-- A jump that takes along what the operands leave. -/
def jumpTree (target : Label) (operands : List SExpr) : SExpr :=
  clause "br" (target.tree returnLabel :: operands)

/-- A jump that is made if the test succeeds. -/
def jumpIfTree (target : Label) (test : List SExpr) : SExpr :=
  clause "br_if" (target.tree returnLabel :: test)

/-- A block under a label. -/
def blockTree (label : Label) (items : List SExpr) : SExpr :=
  clause "block" (label.tree returnLabel :: items)

/-- The loop at `depth`, in the block that a jump out of it leaves. -/
def loopTree (depth : Nat) (head : Label) (items : List SExpr) : SExpr :=
  blockTree returnLabel (.exit depth) [clause "loop" (head.tree returnLabel :: items)]

/-- The body of the loop at `depth`, in a block of its own if the shape of the loop has one. -/
def Shape.bodyTrees (depth : Nat) (body : List SExpr) : Shape → List SExpr
  | .plain => body
  | .wrapped => [blockTree returnLabel (.next depth) body]

mutual

/-- The trees of a statement in the scope `s`. -/
def Node.statementTrees (s : Scope) : Node → List SExpr
  | n@(.set _ _ _ _) => [n.assignmentTree]
  | .ret _ none => [jumpTree returnLabel .ret []]
  | .ret _ (some value) => [jumpTree returnLabel .ret value.operandTrees]
  | .brk _ levels =>
      (s.loop? (levels.getD 1)).toList.map fun depth => jumpTree returnLabel (.exit depth) []
  | .cont _ levels =>
      (s.loop? (levels.getD 1)).toList.map fun depth => jumpTree returnLabel (.next depth) []
  | .whileLoop _ condition body =>
      let head := Label.next s.depth
      [loopTree returnLabel s.depth head
        (jumpIfTree returnLabel (.exit s.depth) condition.exitTrees
          :: statementTreesAll (s.enter .plain) body
          ++ [jumpTree returnLabel head []])]
  | .doLoop _ body condition =>
      let shape := Shape.ofBody true body
      let head := shape.headLabel s.depth
      [loopTree returnLabel s.depth head
        (shape.bodyTrees returnLabel s.depth (statementTreesAll (s.enter shape) body)
          ++ [jumpIfTree returnLabel head condition.truthTrees])]
  | .forLoop _ init condition increment body =>
      let shape := Shape.ofBody (!increment.isEmpty) body
      let head := shape.headLabel s.depth
      let guard := condition.toList.map fun c => jumpIfTree returnLabel (.exit s.depth) c.exitTrees
      init.map Node.assignmentTree
        ++ [loopTree returnLabel s.depth head
          (guard
            ++ shape.bodyTrees returnLabel s.depth (statementTreesAll (s.enter shape) body)
            ++ increment.map Node.assignmentTree
            ++ [jumpTree returnLabel head []])]
  | .ifElse _ condition thenBranch elseBranch =>
      condition.truthTrees
        ++ [clause "if" (clause "then" (statementTreesAll s.deeper thenBranch)
          :: elseTrees s.deeper elseBranch)]
  | _ => []

/-- The trees of several statements, one after the other. -/
def statementTreesAll (s : Scope) : List Node → List SExpr
  | [] => []
  | stmt :: rest => stmt.statementTrees s ++ statementTreesAll s rest

/-- The tree of an `else` branch, if there is one. -/
def elseTrees (s : Scope) : Option (List Node) → List SExpr
  | none => []
  | some branch => [clause "else" (statementTreesAll s branch)]

end

/-! ## Modules -/

/-- The tree of a declared variable. -/
def Node.declarationTree (keyword : String) : Node → SExpr
  | .localVar _ name kind => clause keyword [ident name, .atom kind.name]
  | _ => .list []

/-- What a function and the block around its body say about the result. -/
def NumericKind.resultTrees (kind : NumericKind) : List SExpr :=
  kind.valueType?.toList.map fun t => clause "result" [.atom t.name]

/-- The tree of an item. -/
def Node.itemTree : Node → SExpr
  | .global _ mutable name kind (.number _ _ literal) =>
      let type := SExpr.atom kind.name
      let declared := if mutable then clause "mut" [type] else type
      clause "global" [ident name, declared, const kind literal]
  | .exportFunc _ name exported => clause "export" [.quoted exported, clause "func" [ident name]]
  | .function _ name result (.paramList _ params) body =>
      let scope := Scope.ofFunction result.valueType?
      clause "func" (ident name
        :: params.map (Node.declarationTree "param")
        ++ result.resultTrees
        ++ (body.takeWhile Node.isDeclaration).map (Node.declarationTree "local")
        ++ [blockTree returnLabel .ret
          (result.resultTrees ++ statementTreesAll returnLabel scope body)])
  | _ => .list []

/-- **The tree of a program**: the trees of its items, in their order. -/
def Node.moduleTree : Node → SExpr
  | .module _ items => clause "module" (items.map (Node.itemTree returnLabel))
  | _ => .list []

end Trees

end WatLowering
