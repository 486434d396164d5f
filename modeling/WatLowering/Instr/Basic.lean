import WatLowering.Kind

/-!
# Straight-line instructions

The instructions an expression can become, and the text of each.  All of them work on the operand
stack and none of them branches; control flow is the business of `Code`.

* `NumericOp` — the two-operand instructions, without the type they are taken at.
* `Conversion` — the twelve instructions that turn a value of one type into a value of another.
* `Instr` — one instruction, written as a parenthesised form.  `Instr.seq` writes several, with one
  space between neighbours; of no instruction at all nothing is written.
-/

namespace WatLowering

/-! ## Two-operand instructions -/

/-- The two-operand instructions.  An `S` marks the signed variant, which integers need and floating
point numbers do not have. -/
inductive NumericOp where
  | add
  | sub
  | mul
  | divS
  | div
  | remS
  | ltS
  | lt
  | leS
  | le
  | gtS
  | gt
  | geS
  | ge
  | eq
  | ne
  | and
  | or
  | xor
  | shl
  | shrS
  deriving DecidableEq

namespace NumericOp

/-- The part of the mnemonic that follows the type. -/
def name : NumericOp → String
  | .add => "add"
  | .sub => "sub"
  | .mul => "mul"
  | .divS => "div_s"
  | .div => "div"
  | .remS => "rem_s"
  | .ltS => "lt_s"
  | .lt => "lt"
  | .leS => "le_s"
  | .le => "le"
  | .gtS => "gt_s"
  | .gt => "gt"
  | .geS => "ge_s"
  | .ge => "ge"
  | .eq => "eq"
  | .ne => "ne"
  | .and => "and"
  | .or => "or"
  | .xor => "xor"
  | .shl => "shl"
  | .shrS => "shr_s"

/-- The mnemonic at a type, such as `i64.rem_s`. -/
def mnemonic (op : NumericOp) (t : ValueType) : String := t.name ++ "." ++ op.name

end NumericOp

/-! ## Conversions -/

/-- The instructions between different value types.  Integers are signed, and a floating point
number becomes an integer by dropping its fraction. -/
inductive Conversion where
  | extend
  | wrap
  | promote
  | demote
  | convertI32ToF32
  | convertI32ToF64
  | convertI64ToF32
  | convertI64ToF64
  | truncF32ToI32
  | truncF32ToI64
  | truncF64ToI32
  | truncF64ToI64
  deriving DecidableEq

namespace Conversion

/-- The whole mnemonic; it names the target first. -/
def mnemonic : Conversion → String
  | .extend => "i64.extend_i32_s"
  | .wrap => "i32.wrap_i64"
  | .promote => "f64.promote_f32"
  | .demote => "f32.demote_f64"
  | .convertI32ToF32 => "f32.convert_i32_s"
  | .convertI32ToF64 => "f64.convert_i32_s"
  | .convertI64ToF32 => "f32.convert_i64_s"
  | .convertI64ToF64 => "f64.convert_i64_s"
  | .truncF32ToI32 => "i32.trunc_f32_s"
  | .truncF32ToI64 => "i64.trunc_f32_s"
  | .truncF64ToI32 => "i32.trunc_f64_s"
  | .truncF64ToI64 => "i64.trunc_f64_s"

/-- The type of the value a conversion takes. -/
def source : Conversion → ValueType
  | .extend | .convertI32ToF32 | .convertI32ToF64 => .i32
  | .wrap | .convertI64ToF32 | .convertI64ToF64 => .i64
  | .promote | .truncF32ToI32 | .truncF32ToI64 => .f32
  | .demote | .truncF64ToI32 | .truncF64ToI64 => .f64

/-- The type of the value a conversion leaves. -/
def target : Conversion → ValueType
  | .wrap | .truncF32ToI32 | .truncF64ToI32 => .i32
  | .extend | .truncF32ToI64 | .truncF64ToI64 => .i64
  | .demote | .convertI32ToF32 | .convertI64ToF32 => .f32
  | .promote | .convertI32ToF64 | .convertI64ToF64 => .f64

end Conversion

/-! ## Instructions -/

/-- One straight-line instruction.  Literals are carried through as the source wrote them. -/
inductive Instr where
  | const (type : ValueType) (literal : String)
  | get (storage : Storage) (name : String)
  | numeric (op : NumericOp) (type : ValueType)
  | convert (conversion : Conversion)
  | eqz (type : ValueType)
  deriving DecidableEq

namespace Instr

/-- The written form of one instruction. -/
def text : Instr → String
  | .const t literal => "(" ++ t.name ++ ".const " ++ literal ++ ")"
  | .get storage name => "(" ++ storage.name ++ ".get $" ++ name ++ ")"
  | .numeric op t => "(" ++ op.mnemonic t ++ ")"
  | .convert c => "(" ++ c.mnemonic ++ ")"
  | .eqz t => "(" ++ t.name ++ ".eqz)"

/-- The written form of a sequence: one space between neighbours. -/
def seq (instrs : List Instr) : String := " ".intercalate (instrs.map text)

@[simp] theorem seq_nil : seq [] = "" := rfl

@[simp] theorem seq_singleton (i : Instr) : seq [i] = i.text := by
  simp [seq]

/-- **Sequences are written left to right**, with a space after each instruction but the last. -/
theorem seq_cons_cons (i j : Instr) (rest : List Instr) :
    seq (i :: j :: rest) = i.text ++ " " ++ seq (j :: rest) := by
  simp [seq, String.intercalate_cons_cons]

end Instr

end WatLowering
