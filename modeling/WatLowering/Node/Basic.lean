import WatLowering.Kind
import WatLowering.Position

/-!
# Source trees

A source program arrives as a tree of `Node`s.  All nodes are of one sort: a tree may put a number
where a statement belongs, or a loop where a parameter list belongs, and it is the lowering that
decides which trees mean something.  Expressions are lists of terms in evaluation order, so an
operator or a cast is a term like any other and acts on the values that the terms before it left.

* `Form` — what a node is, without its contents; diagnostics name nodes by their form.
* `Node.numericKind?` and `Node.label?` — the two things a diagnostic says about a node besides its
  form.
* `Node.globalOfLiteral` and `Node.functionOfParams` — the usual way to build a global and a
  function, where the initial value is a literal and the parameters are a plain list.

Two distinctions that a careless reading would lose are kept: a `break` or `continue` without a
level is not the same tree as one with level 1, and an empty `else` branch is not a missing one.
-/

namespace WatLowering

/-! ## Forms -/

/-- What a node is, contents aside. -/
inductive Form where
  | module
  | globalVar
  | globalConst
  | exportFunc
  | function
  | paramList
  | localVar
  | localGet
  | globalGet
  | localSet
  | globalSet
  | number
  | expression
  | operator
  | cast
  | ret
  | brk
  | cont
  | forLoop
  | doLoop
  | whileLoop
  | ifElse
  deriving DecidableEq

/-- The name of a form in diagnostics. -/
def Form.name : Form → String
  | .module => "Module"
  | .globalVar => "GlobalVar"
  | .globalConst => "GlobalConst"
  | .exportFunc => "ExportFunc"
  | .function => "Function"
  | .paramList => "ParamList"
  | .localVar => "LocalVar"
  | .localGet => "LocalGet"
  | .globalGet => "GlobalGet"
  | .localSet => "LocalSet"
  | .globalSet => "GlobalSet"
  | .number => "Number"
  | .expression => "Expression"
  | .operator => "Operator"
  | .cast => "Cast"
  | .ret => "Return"
  | .brk => "Break"
  | .cont => "Continue"
  | .forLoop => "For"
  | .doLoop => "Do"
  | .whileLoop => "While"
  | .ifElse => "If"

/-! ## Nodes -/

/-- A source tree.  Names, literals and operator symbols are kept as they were written. -/
inductive Node where
  /-- The items of a program, in order. -/
  | module (pos : Position) (items : List Node)
  /-- A module variable, or a constant if it is not mutable. -/
  | global (pos : Position) (mutable : Bool) (name : String) (kind : NumericKind) (init : Node)
  /-- Makes the function `name` known to the outside as `exported`. -/
  | exportFunc (pos : Position) (name exported : String)
  | function (pos : Position) (name : String) (result : NumericKind) (params : Node)
      (body : List Node)
  | paramList (pos : Position) (items : List Node)
  /-- Declares a parameter or a local variable. -/
  | localVar (pos : Position) (name : String) (kind : NumericKind)
  | get (pos : Position) (storage : Storage) (name : String) (kind : NumericKind)
  | set (pos : Position) (storage : Storage) (name : String) (value : Node)
  | number (pos : Position) (kind : NumericKind) (literal : String)
  /-- Terms in evaluation order. -/
  | expression (pos : Position) (kind : NumericKind) (terms : List Node)
  | operator (pos : Position) (kind : NumericKind) (symbol : String)
  | cast (pos : Position) (source target : NumericKind)
  | ret (pos : Position) (value : Option Node)
  /-- Leaves the `levels`-th enclosing loop, counted outwards from 1. -/
  | brk (pos : Position) (levels : Option Nat)
  /-- Starts the next pass of the `levels`-th enclosing loop. -/
  | cont (pos : Position) (levels : Option Nat)
  | forLoop (pos : Position) (init : List Node) (condition : Option Node)
      (increment body : List Node)
  | doLoop (pos : Position) (body : List Node) (condition : Node)
  | whileLoop (pos : Position) (condition : Node) (body : List Node)
  | ifElse (pos : Position) (condition : Node) (thenBranch : List Node)
      (elseBranch : Option (List Node))

namespace Node

/-! ## What can be read off a node -/

/-- Where the node was read from. -/
def pos : Node → Position
  | .module p _ => p
  | .global p _ _ _ _ => p
  | .exportFunc p _ _ => p
  | .function p _ _ _ _ => p
  | .paramList p _ => p
  | .localVar p _ _ => p
  | .get p _ _ _ => p
  | .set p _ _ _ => p
  | .number p _ _ => p
  | .expression p _ _ => p
  | .operator p _ _ => p
  | .cast p _ _ => p
  | .ret p _ => p
  | .brk p _ => p
  | .cont p _ => p
  | .forLoop p _ _ _ _ => p
  | .doLoop p _ _ => p
  | .whileLoop p _ _ => p
  | .ifElse p _ _ _ => p

/-- The form of a node.  Mutability splits the globals, storage splits reads and writes. -/
def form : Node → Form
  | .module _ _ => .module
  | .global _ true _ _ _ => .globalVar
  | .global _ false _ _ _ => .globalConst
  | .exportFunc _ _ _ => .exportFunc
  | .function _ _ _ _ _ => .function
  | .paramList _ _ => .paramList
  | .localVar _ _ _ => .localVar
  | .get _ .local _ _ => .localGet
  | .get _ .global _ _ => .globalGet
  | .set _ .local _ _ => .localSet
  | .set _ .global _ _ => .globalSet
  | .number _ _ _ => .number
  | .expression _ _ _ => .expression
  | .operator _ _ _ => .operator
  | .cast _ _ _ => .cast
  | .ret _ _ => .ret
  | .brk _ _ => .brk
  | .cont _ _ => .cont
  | .forLoop _ _ _ _ _ => .forLoop
  | .doLoop _ _ _ => .doLoop
  | .whileLoop _ _ _ => .whileLoop
  | .ifElse _ _ _ _ => .ifElse

@[simp] theorem form_global_eq_iff {p : Position} {mutable : Bool} {x : String} {k : NumericKind}
    {init : Node} {form : Form} :
    (global p mutable x k init).form = form
      ↔ mutable = true ∧ .globalVar = form ∨ mutable = false ∧ .globalConst = form := by
  cases mutable <;> simp [Node.form]

@[simp] theorem form_get_eq_iff {p : Position} {storage : Storage} {x : String} {k : NumericKind}
    {form : Form} :
    (get p storage x k).form = form
      ↔ storage = .local ∧ .localGet = form ∨ storage = .global ∧ .globalGet = form := by
  cases storage <;> simp [Node.form]

@[simp] theorem form_set_eq_iff {p : Position} {storage : Storage} {x : String} {v : Node}
    {form : Form} :
    (set p storage x v).form = form
      ↔ storage = .local ∧ .localSet = form ∨ storage = .global ∧ .globalSet = form := by
  cases storage <;> simp [Node.form]

/-- The kind a node speaks about itself: of a function its result, of a cast where it leads. -/
def numericKind? : Node → Option NumericKind
  | .global _ _ _ k _ => some k
  | .function _ _ result _ _ => some result
  | .localVar _ _ k => some k
  | .get _ _ _ k => some k
  | .number _ k _ => some k
  | .expression _ k _ => some k
  | .operator _ k _ => some k
  | .cast _ _ target => some target
  | _ => none

/-- The text that identifies a node: a name, a literal or a symbol. -/
def label? : Node → Option String
  | .global _ _ name _ _ => some name
  | .exportFunc _ name _ => some name
  | .function _ name _ _ _ => some name
  | .localVar _ name _ => some name
  | .get _ _ name _ => some name
  | .set _ _ name _ => some name
  | .number _ _ literal => some literal
  | .operator _ _ symbol => some symbol
  | _ => none

/-- The level operand of a `break` or `continue`, which may be missing; no other node has one. -/
def levels? : Node → Option (Option Nat)
  | .brk _ levels | .cont _ levels => some levels
  | _ => none

theorem form_of_levels? {n : Node} {levels : Option Nat} (h : n.levels? = some levels) :
    n.form = .brk ∨ n.form = .cont := by
  cases n with
  | brk => exact .inl rfl
  | cont => exact .inr rfl
  | _ => cases h

/-- Declarations are what a function may put in front of its first statement. -/
def isDeclaration : Node → Bool
  | .localVar _ _ _ => true
  | _ => false

/-! ## Building nodes -/

/-- A global whose initial value is a literal of its own kind. -/
def globalOfLiteral (pos : Position) (mutable : Bool) (name : String) (kind : NumericKind)
    (literal : String) : Node :=
  .global pos mutable name kind (.number .unplaced kind literal)

/-- A function whose parameters are given as names with their kinds. -/
def functionOfParams (pos : Position) (name : String) (result : NumericKind)
    (params : List (String × NumericKind)) (body : List Node) : Node :=
  .function pos name result
    (.paramList .unplaced (params.map fun (name, kind) => .localVar .unplaced name kind)) body

end Node

end WatLowering
