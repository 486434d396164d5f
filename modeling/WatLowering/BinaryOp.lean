/-!
# Operators of the source language

The source language writes expressions in evaluation order, so every operator takes two operands
that precede it.  A tree carries operators as bare symbols; `BinaryOp.ofSymbol?` recognises the
eighteen that mean something.

`symbol` is the only table: recognition is a search in it, so the two cannot drift apart
(`ofSymbol?_eq_some_iff`).
-/

namespace WatLowering

/-- The binary operators.  The two logical ones evaluate both operands. -/
inductive BinaryOp where
  | add
  | sub
  | mul
  | div
  | rem
  | lt
  | le
  | gt
  | ge
  | eq
  | ne
  | and
  | or
  | bitAnd
  | bitOr
  | bitXor
  | shl
  | shr
  deriving DecidableEq

namespace BinaryOp

/-- The symbol of an operator in the source language. -/
def symbol : BinaryOp → String
  | .add => "+"
  | .sub => "-"
  | .mul => "*"
  | .div => "/"
  | .rem => "%"
  | .lt => "<"
  | .le => "<="
  | .gt => ">"
  | .ge => ">="
  | .eq => "=="
  | .ne => "!="
  | .and => "&&"
  | .or => "||"
  | .bitAnd => "&"
  | .bitOr => "|"
  | .bitXor => "^"
  | .shl => "<<"
  | .shr => ">>"

/-- The name of an operator where a symbol would not do. -/
def name : BinaryOp → String
  | .add => "Add"
  | .sub => "Sub"
  | .mul => "Mul"
  | .div => "Div"
  | .rem => "Rem"
  | .lt => "Lt"
  | .le => "Le"
  | .gt => "Gt"
  | .ge => "Ge"
  | .eq => "Eq"
  | .ne => "Ne"
  | .and => "And"
  | .or => "Or"
  | .bitAnd => "BitAnd"
  | .bitOr => "BitOr"
  | .bitXor => "BitXor"
  | .shl => "Shl"
  | .shr => "Shr"

/-- All operators, in the order of their declaration. -/
def all : List BinaryOp :=
  [.add, .sub, .mul, .div, .rem, .lt, .le, .gt, .ge, .eq, .ne, .and, .or, .bitAnd, .bitOr, .bitXor,
    .shl, .shr]

/-- The operator written with the symbol `s`, if there is one. -/
def ofSymbol? (s : String) : Option BinaryOp := all.find? fun op => op.symbol == s

/-- Comparisons leave an `i32` whatever they compare. -/
def isComparison : BinaryOp → Bool
  | .lt | .le | .gt | .ge | .eq | .ne => true
  | _ => false

@[simp] theorem ofSymbol?_symbol (op : BinaryOp) : ofSymbol? op.symbol = some op := by
  cases op <;> decide

/-- **Symbols name operators one to one.** -/
theorem ofSymbol?_eq_some_iff {s : String} {op : BinaryOp} :
    ofSymbol? s = some op ↔ op.symbol = s := by
  constructor
  · intro h
    simpa using List.find?_some h
  · rintro rfl
    exact ofSymbol?_symbol op

end BinaryOp

end WatLowering
