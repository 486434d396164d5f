import WatLowering.Fault
import WatLowering.Instr.Selection

/-!
# Expressions

An expression lists its terms in evaluation order, which is the order a stack machine wants, so
lowering an expression means lowering its terms from left to right.

* `Node.leaf` — a term that is not itself an expression becomes one instruction, or none at all if
  it is a cast to the type a value already has.
* `Node.operands` — the instructions of a whole expression.  Expressions inside expressions are
  inlined, wherever they stand; one without terms is refused before anything else about it is
  looked at.
* `Node.resultKind` — the kind of the value that ends up on top of the stack, read off the last
  term.  What an expression says about its own kind does not matter unless it has no terms.
-/

namespace WatLowering

/-! ## Terms -/

/-- The instruction of a single term.  Only a cast between equal types needs none. -/
def Node.leaf (n : Node) : Except Fault (Option Instr) :=
  match n with
  | .number _ kind literal => do
      let t ← kind.valueTypeAt n
      return some (.const t literal)
  | .get _ storage name kind => do
      let _ ← kind.valueTypeAt n
      return some (.get storage name)
  | .operator _ kind symbol => do
      let t ← kind.valueTypeAt n
      match (BinaryOp.ofSymbol? symbol).bind fun op => op.select? t with
      | some op => return some (.numeric op t)
      | none => .error ⟨.noInstruction symbol t, n⟩
  | .cast _ source target =>
      match castPlan? source target with
      | some .identity => .ok none
      | some (.convert c) => .ok (some (.convert c))
      | none => .error ⟨.noConversion source target, n⟩
  | _ => .error ⟨.notATerm, n⟩

/-! ## Expressions -/

mutual

/-- The instructions that compute an expression, in the order in which they run. -/
def Node.operands : Node → Except Fault (List Instr)
  | n@(.expression _ _ terms) =>
      if terms.isEmpty then .error ⟨.emptyExpression, n⟩ else operandsAll terms
  | n => n.leaf.map Option.toList

/-- The instructions of several terms, one after the other. -/
def operandsAll : List Node → Except Fault (List Instr)
  | [] => .ok []
  | term :: rest => do
      let first ← term.operands
      let others ← operandsAll rest
      return first ++ others

end

/-- Several terms are lowered each on its own, and the instructions put together. -/
theorem operandsAll_eq_mapM (terms : List Node) :
    operandsAll terms = List.flatten <$> terms.mapM Node.operands := by
  induction terms with
  | nil => rfl
  | cons term rest ih => simp [operandsAll, ih]

/-! ## The kind of the result -/

mutual

/-- The kind of the value an expression leaves; `n/a` for nodes that are not expressions. -/
def Node.resultKind : Node → NumericKind
  | .number _ kind _ => kind
  | .get _ _ _ kind => kind
  | .operator _ kind symbol =>
      if (BinaryOp.ofSymbol? symbol).any (·.isComparison) then .value .i32 else kind
  | .cast _ _ target => target
  | .expression _ kind terms => lastKind kind terms
  | _ => .notApplicable

/-- The kind that the last of the terms leaves, or `fallback` if there is no term. -/
def lastKind (fallback : NumericKind) : List Node → NumericKind
  | [] => fallback
  | term :: rest => lastKind term.resultKind rest

end

theorem lastKind_append_singleton (fallback : NumericKind) (terms : List Node) (last : Node) :
    lastKind fallback (terms ++ [last]) = last.resultKind := by
  induction terms generalizing fallback with
  | nil => rfl
  | cons term rest ih => exact ih term.resultKind

end WatLowering
