import WatLowering.Node.Equality

/-!
# Diagnostics

A diagnostic is what a caller is told when a tree cannot be lowered: a category, one sentence of
detail, where the blamed node stands, and a summary of what it looks like.  `Diagnostic.of` builds
one from any category, sentence and node; which of them the lowering reports, and about which node,
is settled by `Fault`.
-/

namespace WatLowering

/-! ## Categories -/

/-- The coarse classification of failures. -/
inductive Category where
  /-- A node that has to have a value is of kind `void` or `n/a`. -/
  | unsupportedNumericKind
  /-- An operator does not exist at the kind it is used at. -/
  | unsupportedOperator
  /-- A cast has an endpoint without values. -/
  | unsupportedCast
  | malformedExpression
  | malformedStatement
  | malformedModule
  deriving DecidableEq

namespace Category

/-- The name of a category, as reports begin with it. -/
def name : Category → String
  | .unsupportedNumericKind => "UnsupportedNumericKind"
  | .unsupportedOperator => "UnsupportedOperator"
  | .unsupportedCast => "UnsupportedCast"
  | .malformedExpression => "MalformedExpression"
  | .malformedStatement => "MalformedStatement"
  | .malformedModule => "MalformedModule"

/-- All categories, in the order of their declaration. -/
def all : List Category :=
  [.unsupportedNumericKind, .unsupportedOperator, .unsupportedCast, .malformedExpression,
    .malformedStatement, .malformedModule]

/-- The category called `s`, if there is one. -/
def ofName? (s : String) : Option Category := all.find? fun c => c.name == s

@[simp] theorem ofName?_name (c : Category) : ofName? c.name = some c := by
  cases c <;> decide

end Category

/-! ## Summaries of nodes -/

/-- What a diagnostic says about a node. -/
structure Summary where
  form : Form
  kind : Option NumericKind
  label : Option String
  deriving DecidableEq

namespace Summary

/-- The summary of a node. -/
def of (n : Node) : Summary := ⟨n.form, n.numericKind?, n.label?⟩

/-- The written form: the form, then the kind and the quoted label as far as the node has them. -/
def text (s : Summary) : String :=
  s.form.name
    ++ (match s.kind with
        | some k => " " ++ k.name
        | none => "")
    ++ (match s.label with
        | some l => " `" ++ l ++ "`"
        | none => "")

end Summary

/-! ## Diagnostics -/

/-- One reported failure. -/
structure Diagnostic where
  category : Category
  detail : String
  pos : Position
  summary : Summary
  deriving DecidableEq

namespace Diagnostic

/-- The diagnostic that blames `n`. -/
def of (category : Category) (detail : String) (n : Node) : Diagnostic :=
  ⟨category, detail, n.pos, .of n⟩

/-- The whole report on one line. -/
def message (d : Diagnostic) : String :=
  d.category.name ++ " at " ++ d.pos.text ++ ": " ++ d.detail ++ " [" ++ d.summary.text ++ "]"

end Diagnostic

end WatLowering
