import WatLowering.Diagnostic

/-!
# Faults: a broken rule and the node that breaks it

The lowering fails at the first node that breaks one of its rules.  `Violation` lists the rules, one
constructor for each; a `Fault` pairs a broken rule with the node to blame.  Wording and
classification are functions of that pair (`Fault.detail`, `Violation.category`), so the lowering
itself never composes a message.

The node to blame is not always the node being looked at: a global with a bad initial value is
reported at that value, a function without a parameter list at whatever stands in its place.
-/

namespace WatLowering

/-- The rules a tree can break. -/
inductive Violation where
  /-- What has a value must be of a value type. -/
  | notAValueType (kind : NumericKind)
  /-- An operator must have an instruction at its type. -/
  | noInstruction (symbol : String) (type : ValueType)
  /-- Both ends of a cast must have values. -/
  | noConversion (source target : NumericKind)
  /-- An expression must have a term. -/
  | emptyExpression
  /-- Only numbers, reads, operators, casts and expressions are terms. -/
  | notATerm
  /-- Only assignments, jumps, loops, conditionals and declarations are statements. -/
  | notAStatement
  /-- The header of a `for` holds assignments only. -/
  | notAnAssignment
  /-- A `break` or `continue` must stand in a loop. -/
  | outsideLoop
  /-- A level must count one of the enclosing loops. -/
  | noSuchLoop (level : Nat)
  /-- A function without a result returns nothing. -/
  | unexpectedValue
  /-- A function with a result returns a value. -/
  | missingValue (type : ValueType)
  /-- The root must be a module. -/
  | notAModule
  /-- Only globals, exports and functions are items. -/
  | notAnItem
  /-- A global starts from a literal. -/
  | notALiteral (name : String)
  /-- A function must have a parameter list. -/
  | noParameterList (name : String)
  /-- A parameter list holds declarations only. -/
  | notADeclaration
  deriving DecidableEq

/-- The category under which a broken rule is reported. -/
def Violation.category : Violation → Category
  | .notAValueType _ => .unsupportedNumericKind
  | .noInstruction _ _ => .unsupportedOperator
  | .noConversion _ _ => .unsupportedCast
  | .emptyExpression | .notATerm => .malformedExpression
  | .notAStatement | .notAnAssignment | .outsideLoop | .noSuchLoop _ | .unexpectedValue
  | .missingValue _ => .malformedStatement
  | .notAModule | .notAnItem | .notALiteral _ | .noParameterList _ | .notADeclaration =>
      .malformedModule

/-- A broken rule, and the node that breaks it. -/
structure Fault where
  violation : Violation
  node : Node
  deriving DecidableEq

namespace Fault

/-- The sentence that tells what is wrong with the blamed node. -/
def detail (f : Fault) : String :=
  let form := f.node.form.name
  match f.violation with
  | .notAValueType kind => "`" ++ kind.name ++ "` is not a value type"
  | .noInstruction symbol type => "no instruction for `" ++ symbol ++ "` on " ++ type.name
  | .noConversion source target => "cannot convert " ++ source.name ++ " to " ++ target.name
  | .emptyExpression => "empty expression"
  | .notATerm => form ++ " cannot appear in an expression"
  | .notAStatement => form ++ " cannot appear as a statement"
  | .notAnAssignment => "expected an assignment, found " ++ form
  | .outsideLoop => form ++ " outside of a loop"
  | .noSuchLoop level => form ++ " level " ++ toString level ++ " does not name an enclosing loop"
  | .unexpectedValue => "void function cannot return a value"
  | .missingValue type => "missing " ++ type.name ++ " return value"
  | .notAModule => "expected a module at the root"
  | .notAnItem => form ++ " cannot appear at module level"
  | .notALiteral name => "global `" ++ name ++ "` must be initialized from a literal"
  | .noParameterList name => "function `" ++ name ++ "` has no parameter list"
  | .notADeclaration => "expected a variable declaration, found " ++ form

/-- The report of a fault. -/
def diagnostic (f : Fault) : Diagnostic := .of f.violation.category f.detail f.node

end Fault

/-- The value type of a kind, or the fault of the node `n` that has this kind. -/
def NumericKind.valueTypeAt (k : NumericKind) (n : Node) : Except Fault ValueType :=
  match k.valueType? with
  | some t => .ok t
  | none => .error ⟨.notAValueType k, n⟩

@[simp] theorem NumericKind.valueTypeAt_value (t : ValueType) (n : Node) :
    (value t).valueTypeAt n = .ok t := rfl

theorem NumericKind.valueTypeAt_eq_ok_iff {k : NumericKind} {n : Node} {t : ValueType} :
    k.valueTypeAt n = .ok t ↔ k = .value t := by
  cases k <;> simp [valueTypeAt, valueType?]

end WatLowering
