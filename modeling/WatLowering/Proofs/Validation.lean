import WatLowering.Proofs.LabelNames
import WatLowering.Proofs.Typing

/-!
# Validation of generated code

WebAssembly is validated before it runs: each instruction is checked against the types on the
operand stack, and each jump against what its target expects.  This file follows the rules of the
specification, for the instructions and constructs that occur in generated code.

* `OperandTypes` — the types on the operand stack.  Behind a jump that is always taken no code runs,
  and the stack is *polymorphic*: whatever is taken off it below the known types is there.
* `Instr.validate` — straight-line instructions.  An instruction must exist at its type
  (`NumericOp.existsAt`, for instance there is no `f64.rem_s`).
* `Code.validate` — constructs.  A jump needs the value that its target gives on; blocks, loops and
  conditionals take nothing, must leave nothing, and do not see the stack around them.
* `Func.Valid` — a function, whose body lies in a block with the result of the function.

Jumps find their targets by name, innermost first, as they do when the code runs.
-/

namespace WatLowering

/-! ## The operand stack -/

/-- The types on the operand stack, the top first. -/
structure OperandTypes where
  known : List ValueType
  /-- Is there anything that is asked for below the known types? -/
  polymorphic : Bool

namespace OperandTypes

/-- The stack at the start of a function or a block. -/
def empty : OperandTypes := ⟨[], false⟩

/-- The stack behind a jump that is always taken. -/
def unreachable : OperandTypes := ⟨[], true⟩

def push (t : ValueType) (σ : OperandTypes) : OperandTypes := ⟨t :: σ.known, σ.polymorphic⟩

def pop (t : ValueType) : OperandTypes → Option OperandTypes
  | ⟨t' :: known, p⟩ => if t' = t then some ⟨known, p⟩ else none
  | ⟨[], p⟩ => if p then some ⟨[], p⟩ else none

/-- Takes the value that a target gives on, if it gives one on. -/
def popResult : Option ValueType → OperandTypes → Option OperandTypes
  | none, σ => some σ
  | some t, σ => σ.pop t

def pushResult : Option ValueType → OperandTypes → OperandTypes
  | none, σ => σ
  | some t, σ => σ.push t

/-- May a block with this result end here?  Nothing may be left besides. -/
def endsWith (result : Option ValueType) (σ : OperandTypes) : Bool :=
  (σ.popResult result).any (·.known.isEmpty)

end OperandTypes

/-! ## Instructions -/

/-- Is there such an instruction at the type? -/
def NumericOp.existsAt (t : ValueType) : NumericOp → Bool
  | .add | .sub | .mul | .eq | .ne => true
  | .divS | .remS | .ltS | .leS | .gtS | .geS | .and | .or | .xor | .shl | .shrS => t.isInteger
  | .div | .lt | .le | .gt | .ge => !t.isInteger

/-- The type of what the instruction leaves: comparisons leave an `i32`. -/
def NumericOp.resultType (t : ValueType) : NumericOp → ValueType
  | .ltS | .lt | .leS | .le | .gtS | .gt | .geS | .ge | .eq | .ne => .i32
  | _ => t

def Instr.validate (env : Env) (σ : OperandTypes) : Instr → Option OperandTypes
  | .const t _ => some (σ.push t)
  | .get storage x => (env.typeOf? storage x).map σ.push
  | .numeric op t =>
      if op.existsAt t then do
        let σ ← σ.pop t
        let σ ← σ.pop t
        return σ.push (op.resultType t)
      else none
  | .convert c => (σ.pop c.source).map (·.push c.target)
  | .eqz t => if t.isInteger then (σ.pop t).map (·.push .i32) else none

/-- Instructions one after the other. -/
def validateInstrs (env : Env) : List Instr → OperandTypes → Option OperandTypes
  | [], σ => some σ
  | i :: rest, σ => (i.validate env σ).bind (validateInstrs env rest)

/-! ## Constructs -/

section Code

variable (env : Env) (o : Options)

/-- A block without a result around code that was validated like this, on the stack `σ`. -/
def enclosed (body : Option OperandTypes) (σ : OperandTypes) : Option OperandTypes :=
  if body.any (·.endsWith none) then some σ else none

mutual

/-- The stack after a construct.  `labels` are the blocks and loops around it, innermost first, with
what a jump to them has to bring along. -/
def Code.validate (labels : List (String × Option ValueType)) (σ : OperandTypes) :
    Code → Option OperandTypes
  | .set storage x ops => do
      let t ← env.writable? storage x
      let σ ← validateInstrs env ops σ
      σ.pop t
  | .br target value => do
      let result ← labels.lookup (target.name o)
      let σ ← validateInstrs env (value.getD []) σ
      let _ ← σ.popResult result
      return .unreachable
  | .brIf target test => do
      let result ← labels.lookup (target.name o)
      let σ ← validateInstrs env test.instrs σ
      let σ ← σ.pop .i32
      let σ ← σ.popResult result
      return σ.pushResult result
  | .block label body => enclosed (validateAll ((label.name o, none) :: labels) .empty body) σ
  | .loop exit head body =>
      enclosed (validateAll ((head.name o, none) :: (exit.name o, none) :: labels) .empty body) σ
  | .ifThen test thenBranch elseBranch => do
      let σ ← validateInstrs env test.instrs σ
      let σ ← σ.pop .i32
      let σ ← enclosed (validateAll labels .empty thenBranch) σ
      enclosed (validateElse labels .empty elseBranch) σ

/-- Several constructs one after the other. -/
def validateAll (labels : List (String × Option ValueType)) (σ : OperandTypes) :
    List Code → Option OperandTypes
  | [] => some σ
  | c :: rest => do
      let σ ← c.validate labels σ
      validateAll labels σ rest

def validateElse (labels : List (String × Option ValueType)) (σ : OperandTypes) :
    Option (List Code) → Option OperandTypes
  | none => some σ
  | some branch => validateAll labels σ branch

end

end Code

/-! ## Functions and modules -/

/-- **A valid function**: the names of its variables are distinct, and its body may end in the
return block. -/
structure Func.Valid (o : Options) (globals : List (String × Bool × ValueType)) (f : Func) :
    Prop where
  variables_nodup : ((f.params ++ f.locals).map Prod.fst).Nodup
  body_valid : (validateAll ⟨f.params ++ f.locals, globals⟩ o [(Label.ret.name o, f.result)] .empty
    f.body).any (·.endsWith f.result) = true

/-- The global that an item is, if it is one. -/
def Item.global? : Item → Option (String × Bool × ValueType)
  | .global mutable x t _ => some (x, mutable, t)
  | _ => none

def Item.functionName? : Item → Option String
  | .func f => some f.name
  | _ => none

def Item.export? : Item → Option (String × String)
  | .exportFunc name exported => some (name, exported)
  | _ => none

/-- The globals that the functions of a module can name. -/
def Module.globals (m : Module) : List (String × Bool × ValueType) := m.items.filterMap Item.global?

/-- The names of a module are distinct, and what is exported exists. -/
structure Module.NamesValid (m : Module) : Prop where
  functions_nodup : (m.items.filterMap Item.functionName?).Nodup
  globals_nodup : (m.globals.map Prod.fst).Nodup
  exports_nodup : ((m.items.filterMap Item.export?).map Prod.snd).Nodup
  exports_resolve : ∀ e ∈ m.items.filterMap Item.export?, e.1 ∈ m.items.filterMap Item.functionName?

end WatLowering
