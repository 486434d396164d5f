import WatLowering.Instr.Basic

/-!
# Tests

Conditions of the source language are numbers of any type, true when they are not zero.  A
conditional jump or an `if` of the target looks at an `i32`.  A `Test` is the code in between: the
instructions that compute the condition, and what is done to turn its value into an `i32`.

* `Test.truth` — leaves a number that is not zero exactly when the condition is true.  An `i32` can
  be used as it is; any other type is compared with zero.
* `Test.exit` — the opposite, for jumps that leave a loop when its condition is false.  Integers
  have an instruction for it, floating point numbers are compared with zero.

The text keeps a space around the condition even if no instruction computes it, so a test is not
just the list of its instructions; `Test.instrs` forgets the difference.
-/

namespace WatLowering

/-- Code that leaves an `i32` to decide on. -/
inductive Test where
  /-- The value that the operands leave. -/
  | value (operands : List Instr)
  /-- That value compared with a zero of its type. -/
  | againstZero (op : NumericOp) (type : ValueType) (operands : List Instr)
  /-- Whether that value is zero, in one instruction around the operands. -/
  | isZero (type : ValueType) (operands : List Instr)
  deriving DecidableEq

namespace Test

/-- The test that succeeds on a true condition of type `t`. -/
def truth (t : ValueType) (operands : List Instr) : Test :=
  match t with
  | .i32 => .value operands
  | .i64 | .f32 | .f64 => .againstZero .ne t operands

/-- The test that succeeds on a false condition of type `t`. -/
def exit (t : ValueType) (operands : List Instr) : Test :=
  match t with
  | .i32 | .i64 => .isZero t operands
  | .f32 | .f64 => .againstZero .eq t operands

/-- The instructions of a test in the order in which they run. -/
def instrs : Test → List Instr
  | .value operands => operands
  | .againstZero op t operands => operands ++ [.const t "0", .numeric op t]
  | .isZero t operands => operands ++ [.eqz t]

/-- The written form of a test. -/
def text : Test → String
  | .value operands => Instr.seq operands
  | .againstZero op t operands =>
      Instr.seq operands ++ " " ++ Instr.seq [.const t "0", .numeric op t]
  | .isZero t operands => "(" ++ t.name ++ ".eqz " ++ Instr.seq operands ++ ")"

end Test

end WatLowering
