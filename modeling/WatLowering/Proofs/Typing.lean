import WatLowering.Proofs.StackTyping

/-!
# Well-typed programs

Nothing in a source tree has to fit anything else: the lowering accepts a program whose variables do
not exist and whose operators find the wrong operands, or none.  This file says when a program fits
together.  Everything here can be evaluated, and nothing mentions generated code.

* `Env` — the variables that a function body can name, and which of them it can write.
* `Node.typeStack` — an expression is checked as a stack program: each term takes types off the
  stack and puts types on it.  `Node.type?` is the type of what is left, if that is a single value.
* `Node.wellTyped` — a statement: what it assigns has the type of the variable, what it returns has
  the type of the result, and its conditions leave a value of any type.
* `WellTyped` — a module: names are distinct, exports exist, initial values have the kind of their
  global, and each function is well-typed among its variables and the globals.

**One fact about expressions** is proved here.  The kind that the lowering reads off the last term
of an expression is the type of the value that it leaves (`resultKind_eq_of_type?`); this is where
the tests that the lowering makes of conditions take their type from.
-/

namespace WatLowering

/-! ## Variables -/

/-- The variables that can be named in a function body. -/
structure Env where
  locals : List Variable
  /-- Each with whether it can be written. -/
  globals : List (String × Bool × ValueType)

namespace Env

/-- The type of a variable, if there is one of that name. -/
def typeOf? (env : Env) : Storage → String → Option ValueType
  | .local, x => env.locals.lookup x
  | .global, x => (env.globals.lookup x).map Prod.snd

/-- The type of a variable that can be written. -/
def writable? (env : Env) : Storage → String → Option ValueType
  | .local, x => env.locals.lookup x
  | .global, x => (env.globals.lookup x).bind fun (mutable, t) => if mutable then some t else none

end Env

/-! ## Expressions -/

mutual

/-- The types on the operand stack after a term, from those before it; the top comes first. -/
def Node.typeStack (env : Env) : Node → List ValueType → Option (List ValueType)
  | .number _ (.value t) _, ts => some (t :: ts)
  | .get _ storage x (.value t), ts =>
      if env.typeOf? storage x = some t then some (t :: ts) else none
  | .operator _ (.value t) symbol, b :: a :: ts =>
      if a = t ∧ b = t then some (operatorType symbol t :: ts) else none
  | .cast _ (.value source) (.value target), a :: ts =>
      if a = source then some (target :: ts) else none
  | .expression _ _ terms, ts => typeStackAll env terms ts
  | _, _ => none

def typeStackAll (env : Env) : List Node → List ValueType → Option (List ValueType)
  | [], ts => some ts
  | term :: rest, ts => (term.typeStack env ts).bind (typeStackAll env rest)

end

/-- The type of an expression that leaves exactly one value. -/
def Node.type? (env : Env) (n : Node) : Option ValueType :=
  match n.typeStack env [] with
  | some [t] => some t
  | _ => none

theorem Node.type?_eq_some_iff {env : Env} {n : Node} {t : ValueType} :
    n.type? env = some t ↔ n.typeStack env [] = some [t] := by
  rw [Node.type?]
  split
  · next t' h => simp [h]
  · next h => simpa using h t

/-! ## Statements -/

mutual

/-- Does the statement fit, in a function with this result? -/
def Node.wellTyped (env : Env) (result : Option ValueType) : Node → Bool
  | .set _ storage x value =>
      (value.type? env).isSome && value.type? env == env.writable? storage x
  | .ret _ (some value) => (value.type? env).isSome && value.type? env == result
  | .whileLoop _ condition body => (condition.type? env).isSome && wellTypedAll env result body
  | .doLoop _ body condition => wellTypedAll env result body && (condition.type? env).isSome
  | .forLoop _ init condition increment body =>
      wellTypedAll env result init && condition.all (fun n => (n.type? env).isSome)
        && wellTypedAll env result increment && wellTypedAll env result body
  | .ifElse _ condition thenBranch elseBranch =>
      (condition.type? env).isSome && wellTypedAll env result thenBranch
        && wellTypedElse env result elseBranch
  | _ => true

def wellTypedAll (env : Env) (result : Option ValueType) : List Node → Bool
  | [] => true
  | stmt :: rest => stmt.wellTyped env result && wellTypedAll env result rest

def wellTypedElse (env : Env) (result : Option ValueType) : Option (List Node) → Bool
  | none => true
  | some branch => wellTypedAll env result branch

end

section WellTyped

variable {env : Env} {result : Option ValueType} {p : Position}

/-- Two types that have to be there and to be the same. -/
theorem isSome_and_beq_iff {x y : Option ValueType} :
    (x.isSome && x == y) = true ↔ ∃ t, x = some t ∧ y = some t := by
  rw [Bool.and_eq_true, beq_iff_eq, Option.isSome_iff_exists]
  constructor
  · rintro ⟨⟨t, rfl⟩, rfl⟩
    exact ⟨t, rfl, rfl⟩
  · rintro ⟨t, rfl, rfl⟩
    exact ⟨⟨t, rfl⟩, rfl⟩

theorem Node.wellTyped_set_iff {storage : Storage} {x : String} {value : Node} :
    (Node.set p storage x value).wellTyped env result = true
      ↔ ∃ t, value.type? env = some t ∧ env.writable? storage x = some t := by
  rw [Node.wellTyped, isSome_and_beq_iff]

theorem Node.wellTyped_ret_iff {value : Node} :
    (Node.ret p (some value)).wellTyped env result = true
      ↔ ∃ t, value.type? env = some t ∧ result = some t := by
  rw [Node.wellTyped, isSome_and_beq_iff]

theorem wellTypedAll_cons_iff {stmt : Node} {rest : List Node} :
    wellTypedAll env result (stmt :: rest) = true
      ↔ stmt.wellTyped env result = true ∧ wellTypedAll env result rest = true := by
  rw [wellTypedAll, Bool.and_eq_true]

theorem wellTypedAll_iff {stmts : List Node} :
    wellTypedAll env result stmts = true ↔ ∀ stmt ∈ stmts, stmt.wellTyped env result = true := by
  induction stmts with
  | nil => simp [wellTypedAll]
  | cons stmt rest ih => rw [wellTypedAll_cons_iff, ih, List.forall_mem_cons]

theorem wellTypedAll_dropWhile {stmts : List Node} (h : wellTypedAll env result stmts = true)
    (q : Node → Bool) : wellTypedAll env result (stmts.dropWhile q) = true := by
  rw [wellTypedAll_iff] at h ⊢
  intro stmt hstmt
  exact h stmt ((List.dropWhile_sublist q).subset hstmt)

end WellTyped

/-! ## Modules -/

/-- The variable that a node declares, if it does. -/
def Node.variable? : Node → Option Variable
  | .localVar _ x (.value t) => some (x, t)
  | _ => none

/-- The variables that a list of nodes declares. -/
def declared (ns : List Node) : List Variable := ns.filterMap Node.variable?

/-- The parameters of a function, and the variables in front of its first statement. -/
def functionLocals (params : Node) (body : List Node) : List Variable :=
  (match params with
    | .paramList _ items => declared items
    | _ => []) ++ declared (body.takeWhile Node.isDeclaration)

/-- The global that an item declares, if it does. -/
def Node.global? : Node → Option (String × Bool × ValueType)
  | .global _ mutable x (.value t) _ => some (x, mutable, t)
  | _ => none

def Node.functionName? : Node → Option String
  | .function _ name _ _ _ => some name
  | _ => none

def Node.export? : Node → Option (String × String)
  | .exportFunc _ name exported => some (name, exported)
  | _ => none

/-- Does an item fit into a module with these items? -/
def Node.itemWellTyped (items : List Node) : Node → Bool
  | .exportFunc _ name _ => (items.filterMap Node.functionName?).contains name
  | .global _ _ _ kind (.number _ kind' _) => kind' == kind
  | .function _ _ result params body =>
      decide ((functionLocals params body).map Prod.fst).Nodup
        && wellTypedAll ⟨functionLocals params body, items.filterMap Node.global?⟩ result.valueType?
          body
  | _ => true

/-- **A well-typed module.**  The functions, the globals and the names under which functions are
exported have name spaces of their own, and so do the variables of each function. -/
structure WellTyped (items : List Node) : Prop where
  functions_nodup : (items.filterMap Node.functionName?).Nodup
  globals_nodup : ((items.filterMap Node.global?).map Prod.fst).Nodup
  exports_nodup : ((items.filterMap Node.export?).map Prod.snd).Nodup
  items_wellTyped : ∀ n ∈ items, n.itemWellTyped items = true

/-! ## The kind that is read off an expression -/

/-- A term that finds what it needs among the variables moves types as it says. -/
theorem Selects.stackTypes_cons {env : Env} {n : Node} {i : Option Instr} (h : Selects n i)
    {rest : List Node} {ts ts₁ ts' : List ValueType} (ht : n.typeStack env ts = some ts₁)
    (hrest : StackTypes rest ts₁ ts') : StackTypes (n :: rest) ts ts' := by
  cases h with
  | number =>
      cases ht
      exact .number hrest
  | get =>
      rw [Node.typeStack] at ht
      split at ht
      · cases ht
        exact .get hrest
      · cases ht
  | operator hselect =>
      match ts, ht with
      | b :: a :: ts, ht =>
          rw [Node.typeStack] at ht
          split at ht
          · next hab =>
              obtain ⟨rfl, rfl⟩ := hab
              cases ht
              exact .operator hrest
          · cases ht
  | identity =>
      match ts, ht with
      | a :: ts, ht =>
          rw [Node.typeStack] at ht
          split at ht
          · next ha =>
              subst ha
              cases ht
              exact .cast hrest
          · cases ht
  | convert =>
      match ts, ht with
      | a :: ts, ht =>
          rw [Node.typeStack] at ht
          split at ht
          · next ha =>
              subst ha
              cases ht
              exact .cast hrest
          · cases ht

theorem Computes.stackTypes {env : Env} {terms : List Node} {ops : List Instr}
    (h : Computes terms ops) {ts ts' : List ValueType}
    (ht : typeStackAll env terms ts = some ts') : StackTypes terms ts ts' := by
  induction h generalizing ts ts' with
  | nil =>
      cases ht
      exact .nil
  | leaf hi _ ih =>
      obtain ⟨ts₁, hterm, hrest⟩ := Option.bind_eq_some_iff.mp ht
      exact hi.stackTypes_cons hterm (ih hrest)
  | expression _ _ _ ihterms ih =>
      obtain ⟨ts₁, hterms, hrest⟩ := Option.bind_eq_some_iff.mp ht
      exact .expression (ihterms hterms) (ih hrest)

/-- **The kind that is read off an expression is the type of its value.** -/
theorem resultKind_eq_of_type? {env : Env} {n : Node} {ops : List Instr}
    (hops : n.operands = .ok ops) {t : ValueType} (ht : n.type? env = some t) :
    n.resultKind = .value t := by
  have hstack : typeStackAll env [n] [] = some [t] := by
    rw [typeStackAll, Node.type?_eq_some_iff.mp ht, Option.bind_some, typeStackAll]
  obtain ⟨t', rest, hts, hkind⟩ :=
    tops_resultKind hops ((operands_eq_ok_iff.mp hops).stackTypes hstack)
  cases hts
  exact hkind

end WatLowering
