import WatLowering.BinaryOp
import WatLowering.Instr.Basic

/-!
# Choosing instructions

Which instruction does an operator become at a given type, and which conversion leads from one type
to another?  Both questions are tables; a missing entry is an ordinary answer here, and turning it
into a diagnostic is left to whoever knows the node.

* `BinaryOp.select?` — arithmetic and comparisons exist at every type, in their signed variant where
  the type is an integer.  Remainder, logic, bit operations and shifts exist for integers only.
* `CastPlan` — a cast between equal types needs no instruction, any other pair of value types needs
  exactly one.  `castPlan_eq_identity_iff` and `castPlan_eq_convert_iff` say that the matrix holds
  the right one in every cell.
-/

namespace WatLowering

/-! ## Operators -/

/-- The instruction of an operator whose operands have type `t`. -/
def BinaryOp.select? (op : BinaryOp) (t : ValueType) : Option NumericOp :=
  match op, t.isInteger with
  | .add, _ => some .add
  | .sub, _ => some .sub
  | .mul, _ => some .mul
  | .div, true => some .divS
  | .div, false => some .div
  | .rem, true => some .remS
  | .lt, true => some .ltS
  | .lt, false => some .lt
  | .le, true => some .leS
  | .le, false => some .le
  | .gt, true => some .gtS
  | .gt, false => some .gt
  | .ge, true => some .geS
  | .ge, false => some .ge
  | .eq, _ => some .eq
  | .ne, _ => some .ne
  | .and, true | .bitAnd, true => some .and
  | .or, true | .bitOr, true => some .or
  | .bitXor, true => some .xor
  | .shl, true => some .shl
  | .shr, true => some .shrS
  | _, false => none

/-- The mnemonic of an operator at a kind: none unless the kind has values and the operator exists
there. -/
def BinaryOp.mnemonic? (op : BinaryOp) (k : NumericKind) : Option String := do
  let t ← k.valueType?
  let chosen ← op.select? t
  return chosen.mnemonic t

/-! ## Casts -/

/-- How a cast between two value types is carried out. -/
inductive CastPlan where
  | identity
  | convert (conversion : Conversion)
  deriving DecidableEq

/-- The conversion matrix. -/
def castPlan : ValueType → ValueType → CastPlan
  | .i32, .i32 | .i64, .i64 | .f32, .f32 | .f64, .f64 => .identity
  | .i32, .i64 => .convert .extend
  | .i32, .f32 => .convert .convertI32ToF32
  | .i32, .f64 => .convert .convertI32ToF64
  | .i64, .i32 => .convert .wrap
  | .i64, .f32 => .convert .convertI64ToF32
  | .i64, .f64 => .convert .convertI64ToF64
  | .f32, .i32 => .convert .truncF32ToI32
  | .f32, .i64 => .convert .truncF32ToI64
  | .f32, .f64 => .convert .promote
  | .f64, .i32 => .convert .truncF64ToI32
  | .f64, .i64 => .convert .truncF64ToI64
  | .f64, .f32 => .convert .demote

/-- A cast between kinds is possible exactly when both of them have values. -/
def castPlan? (source target : NumericKind) : Option CastPlan := do
  let s ← source.valueType?
  let t ← target.valueType?
  return castPlan s t

/-- Nothing is to be done exactly on the diagonal. -/
theorem castPlan_eq_identity_iff {s t : ValueType} : castPlan s t = .identity ↔ s = t := by
  cases s <;> cases t <;> decide

/-- **Each cell holds the conversion between its own two types.** -/
theorem castPlan_eq_convert_iff {s t : ValueType} {c : Conversion} :
    castPlan s t = .convert c ↔ c.source = s ∧ c.target = t := by
  cases s <;> cases t <;> cases c <;> decide

end WatLowering
