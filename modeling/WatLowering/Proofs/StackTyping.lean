import WatLowering.Proofs.Rules

/-!
# Expressions as programs of a stack machine

The terms of an expression act on a stack of values: numbers and reads put a value on it, an
operator takes two off and puts one back, a cast replaces one.  This file types terms as such
programs.  What a term does to the types on the stack is what the term says about itself; whether a
variable that is read has the type that the read states is left aside here.

* `StackTypes terms ts ts'` — one after the other, the terms turn a stack of types `ts` into `ts'`.
* **`Computes.tops_lastKind`** — the kind that is read off the last term is the type on top of the
  stack, however deep the terms are nested and whatever expressions say about their own kind.
-/

namespace WatLowering

/-- The type of what an operator leaves, when its operands are of type `t`. -/
def operatorType (symbol : String) (t : ValueType) : ValueType :=
  if (BinaryOp.ofSymbol? symbol).any (·.isComparison) then .i32 else t

/-- What terms do to the types on the operand stack; the top comes first.  Expressions inside
expressions are opened where they stand. -/
inductive StackTypes : List Node → List ValueType → List ValueType → Prop where
  | nil {ts : List ValueType} : StackTypes [] ts ts
  | number {p : Position} {t : ValueType} {literal : String} {rest : List Node}
      {ts ts' : List ValueType} :
      StackTypes rest (t :: ts) ts' → StackTypes (.number p (.value t) literal :: rest) ts ts'
  | get {p : Position} {storage : Storage} {x : String} {t : ValueType} {rest : List Node}
      {ts ts' : List ValueType} :
      StackTypes rest (t :: ts) ts' → StackTypes (.get p storage x (.value t) :: rest) ts ts'
  | operator {p : Position} {t : ValueType} {symbol : String} {rest : List Node}
      {ts ts' : List ValueType} :
      StackTypes rest (operatorType symbol t :: ts) ts' →
      StackTypes (.operator p (.value t) symbol :: rest) (t :: t :: ts) ts'
  /-- Also where both types are the same, there has to be a value of that type. -/
  | cast {p : Position} {source target : ValueType} {rest : List Node} {ts ts' : List ValueType} :
      StackTypes rest (target :: ts) ts' →
      StackTypes (.cast p (.value source) (.value target) :: rest) (source :: ts) ts'
  | expression {p : Position} {k : NumericKind} {terms rest : List Node}
      {ts ts₁ ts' : List ValueType} :
      StackTypes terms ts ts₁ → StackTypes rest ts₁ ts' →
      StackTypes (.expression p k terms :: rest) ts ts'

/-- The kind is that of the value on top of the stack. -/
def NumericKind.Tops (k : NumericKind) (ts : List ValueType) : Prop :=
  ∃ t rest, ts = t :: rest ∧ k = .value t

theorem NumericKind.Tops.value (t : ValueType) (ts : List ValueType) :
    (NumericKind.value t).Tops (t :: ts) :=
  ⟨t, ts, rfl, rfl⟩

/-- **The kind of the last term tops the stack.**  As long as there is no term, the top is what it
was before. -/
theorem Computes.tops_lastKind {terms : List Node} {ops : List Instr} (h : Computes terms ops)
    {k : NumericKind} {ts ts' : List ValueType} (hts : StackTypes terms ts ts')
    (hk : terms ≠ [] ∨ k.Tops ts) : (lastKind k terms).Tops ts' := by
  induction h generalizing k ts ts' with
  | nil =>
      cases hts with
      | nil => exact hk.resolve_left fun hne => hne rfl
  | leaf hi _ ih =>
      cases hi with
      | number => cases hts with | number hrest => exact ih hrest (.inr (.value _ _))
      | get => cases hts with | get hrest => exact ih hrest (.inr (.value _ _))
      | @operator p op t i hselect =>
          cases hts with
          | operator hrest =>
              have hkind : (Node.operator p (.value t) op.symbol).resultKind
                  = .value (operatorType op.symbol t) := by
                rw [Node.resultKind, operatorType]
                split <;> rfl
              exact ih hrest (.inr (hkind ▸ .value _ _))
      | identity => cases hts with | cast hrest => exact ih hrest (.inr (.value _ _))
      | convert => cases hts with | cast hrest => exact ih hrest (.inr (.value _ _))
  | expression hne _ _ ihterms ih =>
      cases hts with
      | expression hterms hrest => exact ih hrest (.inr (ihterms hterms (.inl hne)))

/-- The kind of an expression is the type that it leaves on top of the stack. -/
theorem tops_resultKind {n : Node} {ops : List Instr} (hops : n.operands = .ok ops)
    {ts ts' : List ValueType} (hts : StackTypes [n] ts ts') : n.resultKind.Tops ts' :=
  (operands_eq_ok_iff.mp hops).tops_lastKind (k := .void) hts (.inl (List.cons_ne_nil n []))

end WatLowering
