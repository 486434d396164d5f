/-!
# Numeric kinds and value types

Two vocabularies meet here.

* `ValueType` — the four types a WebAssembly value can have.  Everything the generated code
  mentions is typed by one of these.
* `NumericKind` — what a source tree says about a node: one of the four value types, `void` (a
  function without a result), or nothing applicable at all.  A tree may put any kind anywhere;
  `valueType?` is the one place where the two non-value kinds are told apart from the rest.
* `Storage` — whether a variable belongs to a function or to the module.

Keeping `ValueType` apart from `NumericKind` means that code which was generated at all cannot
mention `void`: the check has happened once, at the boundary, and its outcome is in the type.
-/

namespace WatLowering

/-! ## Value types -/

/-- The types of WebAssembly values. -/
inductive ValueType where
  | i32
  | i64
  | f32
  | f64
  deriving DecidableEq

namespace ValueType

/-- The name of a type in WebAssembly text. -/
def name : ValueType → String
  | .i32 => "i32"
  | .i64 => "i64"
  | .f32 => "f32"
  | .f64 => "f64"

/-- The two integer types. -/
def isInteger : ValueType → Bool
  | .i32 | .i64 => true
  | .f32 | .f64 => false

/-- All value types, in the order that tables over them use. -/
def all : List ValueType := [.i32, .i64, .f32, .f64]

/-- The row of a type in a table over `all`. -/
def index : ValueType → Nat
  | .i32 => 0
  | .i64 => 1
  | .f32 => 2
  | .f64 => 3

/-- The index of a type is its place in `all`. -/
@[simp] theorem all_getElem?_index (t : ValueType) : all[t.index]? = some t := by
  cases t <;> rfl

end ValueType

/-! ## Numeric kinds -/

/-- What a source tree records about the value of a node. -/
inductive NumericKind where
  | value (type : ValueType)
  | void
  | notApplicable
  deriving DecidableEq

namespace NumericKind

/-- The written form of a kind, also inside diagnostics. -/
def name : NumericKind → String
  | .value t => t.name
  | .void => "void"
  | .notApplicable => "n/a"

/-- All kinds, in their order. -/
def all : List NumericKind := ValueType.all.map .value ++ [.void, .notApplicable]

/-- The kind written as `s`, if there is one. -/
def ofName? (s : String) : Option NumericKind := all.find? fun k => k.name == s

/-- The value type of a kind that has values. -/
def valueType? : NumericKind → Option ValueType
  | .value t => some t
  | .void | .notApplicable => none

/-- Does the kind have values? -/
def isValue (k : NumericKind) : Bool := k.valueType?.isSome

/-- Is it one of the two integer kinds? -/
def isInteger (k : NumericKind) : Bool := k.valueType?.any (·.isInteger)

/-- Is it one of the two floating point kinds? -/
def isFloat (k : NumericKind) : Bool := k.valueType?.any fun t => !t.isInteger

/-- The place of a kind in the order of kinds: the value types first, then `void`, then `n/a`. -/
def rank : NumericKind → Nat
  | .value t => t.index
  | .void => 4
  | .notApplicable => 5

instance : Ord NumericKind where
  compare a b := compare a.rank b.rank

@[simp] theorem valueType?_value (t : ValueType) : (value t).valueType? = some t := rfl

theorem valueType?_eq_some_iff {k : NumericKind} {t : ValueType} :
    k.valueType? = some t ↔ k = .value t := by
  cases k <;> simp [valueType?]

/-- **Names are read back**: the written form of a kind names that kind and no other. -/
@[simp] theorem ofName?_name (k : NumericKind) : ofName? k.name = some k := by
  rcases k with (_ | _ | _ | _) | _ | _ <;> decide

/-- The rank of a kind is its place in `all`. -/
@[simp] theorem all_getElem?_rank (k : NumericKind) : all[k.rank]? = some k := by
  rcases k with (_ | _ | _ | _) | _ | _ <;> rfl

end NumericKind

/-! ## Storage -/

/-- Where a variable lives: in one call of a function, or in the module. -/
inductive Storage where
  | local
  | global
  deriving DecidableEq

/-- The namespace of the instructions that read and write such a variable. -/
def Storage.name : Storage → String
  | .local => "local"
  | .global => "global"

end WatLowering
