import WatLowering.Lowering.Body

/-!
# Functions and modules

A module is lowered item by item, and a function from the outside in: its parameters, its result,
the variables declared in front of its first statement, and then its statements.

* `Node.declaration` — a parameter or a local variable.
* `Node.lowerItem` — a global, an export or a function.  A global takes its type from its own kind;
  its initial value only has to be a literal.
* `Node.lowerModule` — the whole program.
-/

namespace WatLowering

/-! ## Declarations -/

/-- The variable that a node declares. -/
def Node.declaration : Node → Except Fault Variable
  | n@(.localVar _ name kind) => do
      let t ← kind.valueTypeAt n
      return (name, t)
  | n => .error ⟨.notADeclaration, n⟩

/-- The parameters of the function called `name`. -/
def Node.parameters (name : String) : Node → Except Fault (List Variable)
  | .paramList _ items => items.mapM Node.declaration
  | n => .error ⟨.noParameterList name, n⟩

/-- The result type of the function `n` with result `k`: nothing for `void`, and else a value
type. -/
def NumericKind.resultTypeAt (k : NumericKind) (n : Node) : Except Fault (Option ValueType) :=
  if k = .void then .ok none else some <$> k.valueTypeAt n

/-! ## Items -/

open Traced (report silently)

/-- The code of a module item.  The declarations in front of the first statement of a function are
its local variables; the others are left to the statements. -/
def Node.lowerItem (n : Node) : Traced Item :=
  match n with
  | .global _ mutable name kind init => silently do
      let t ← kind.valueTypeAt n
      match init with
      | .number _ _ literal => return .global mutable name t literal
      | _ => .error ⟨.notALiteral name, init⟩
  | .exportFunc _ name exported => return .exportFunc name exported
  | .function _ name result params body => do
      report (.functionStarted name)
      let params ← silently (params.parameters name)
      let result ← silently (result.resultTypeAt n)
      let locals ← silently ((body.takeWhile Node.isDeclaration).mapM Node.declaration)
      let code ← lowerAll (.ofFunction result) (body.dropWhile Node.isDeclaration)
      return .func ⟨name, params, result, locals, code⟩
  | _ => silently (.error ⟨.notAnItem, n⟩)

/-- The code of a program. -/
def Node.lowerModule : Node → Traced Module
  | .module _ items => do
      report (.moduleStarted items.length)
      let lowered ← items.mapM Node.lowerItem
      return ⟨lowered⟩
  | n => silently (.error ⟨.notAModule, n⟩)

end WatLowering
