import WatLowering.Node.Walk
import WatLowering.Proofs.ValidOutput

/-!
# The instructions of an expression keep its types

`StackTypes` says what the terms of an expression do to the types on the stack, and validation says
the same of instructions.  The two differ in what they look at: a term carries its own types, a read
instruction carries a name and has the type of the variable.  Where reads state the types of their
variables (`Node.ReadsFit`), the instructions are valid on every stack on which the terms are, and
leave the same types.

* `StackTypes.typeStackAll_eq` — such terms are well-typed among the variables.
* **`expressions_keep_stack_types`** — what an accepted expression does to a stack of types is done
  by its instructions, and the kind that is read off the expression is the type on top.
-/

namespace WatLowering

/-- Every read in the tree states the type of the variable that it reads. -/
def Node.ReadsFit (env : Env) (n : Node) : Prop :=
  ∀ p storage x t, .get p storage x (.value t) ∈ n.nodes → env.typeOf? storage x = some t

theorem Node.ReadsFit.child {env : Env} {parent child : Node} (h : parent.ReadsFit env)
    (hchild : child ∈ parent.children) : child.ReadsFit env :=
  fun p storage x t hmem => h p storage x t (mem_nodes_of_child hchild hmem)

/-- Terms whose reads state the types of their variables are well-typed among these. -/
theorem StackTypes.typeStackAll_eq {env : Env} {terms : List Node} {ts ts' : List ValueType}
    (h : StackTypes terms ts ts') (hreads : ∀ n ∈ terms, n.ReadsFit env) :
    typeStackAll env terms ts = some ts' := by
  induction h with
  | nil => rfl
  | number _ ih =>
      rw [List.forall_mem_cons] at hreads
      exact ih hreads.2
  | @get p storage x t rest ts ts' _ ih =>
      rw [List.forall_mem_cons] at hreads
      have hx : env.typeOf? storage x = some t := hreads.1 p storage x t (Node.mem_nodes_self _)
      rw [typeStackAll, Node.typeStack, if_pos hx, Option.bind_some]
      exact ih hreads.2
  | operator _ ih =>
      rw [List.forall_mem_cons] at hreads
      rw [typeStackAll, Node.typeStack, if_pos ⟨rfl, rfl⟩, Option.bind_some]
      exact ih hreads.2
  | cast _ ih =>
      rw [List.forall_mem_cons] at hreads
      rw [typeStackAll, Node.typeStack, if_pos rfl, Option.bind_some]
      exact ih hreads.2
  | expression _ _ ihterms ih =>
      rw [List.forall_mem_cons] at hreads
      rw [typeStackAll, Node.typeStack, ihterms fun n hn => hreads.1.child hn, Option.bind_some]
      exact ih hreads.2

/-- **Expressions keep their types.**  If an expression is accepted and its terms turn a stack of
types `ts` into `ts'`, then the kind that is read off the expression is the type on top of `ts'`,
whatever the expressions in it say about their own kinds; and among all variables whose types the
reads state, its instructions are valid on `ts`, also behind a jump, and leave `ts'`. -/
theorem expressions_keep_stack_types {n : Node} {ops : List Instr} (hops : n.operands = .ok ops)
    {ts ts' : List ValueType} (hts : StackTypes [n] ts ts') :
    (∃ t rest, ts' = t :: rest ∧ n.resultKind = .value t) ∧
      ∀ env : Env, n.ReadsFit env → ∀ p : Bool,
        validateInstrs env ops ⟨ts, p⟩ = some ⟨ts', p⟩ := by
  refine ⟨tops_resultKind hops hts, fun env hreads p => ?_⟩
  have htyped := hts.typeStackAll_eq fun m hm => List.mem_singleton.mp hm ▸ hreads
  exact (operands_eq_ok_iff.mp hops).validate_eq htyped

/-- A comparison in an expression of its own, two casts behind it, and kinds that are wrong or
missing wherever an expression states its own. -/
def castComparison : Node :=
  .expression .unplaced .void
    [.expression .unplaced (.value .f32)
        [.get .unplaced .local "x" (.value .i64),
          .expression .unplaced .notApplicable [.number .unplaced (.value .i64) "2"],
          .operator .unplaced (.value .i64) "<"],
      .cast .unplaced (.value .i32) (.value .i32),
      .cast .unplaced (.value .i32) (.value .f64)]

theorem castComparison_keeps_types :
    castComparison.resultKind = .value .f64 ∧
      validateInstrs ⟨[("x", .i64)], []⟩
          [.get .local "x", .const .i64 "2", .numeric .ltS .i64, .convert .convertI32ToF64]
          ⟨[.f32], false⟩
        = some ⟨[.f64, .f32], false⟩ := by
  have hops : castComparison.operands = .ok [.get .local "x", .const .i64 "2",
      .numeric .ltS .i64, .convert .convertI32ToF64] := rfl
  have hts : StackTypes [castComparison] [.f32] [.f64, .f32] :=
    .expression (.expression (.get (.expression (.number .nil) (.operator .nil)))
      (.cast (.cast .nil))) .nil
  obtain ⟨⟨t, rest, htop, hkind⟩, hvalid⟩ := expressions_keep_stack_types hops hts
  cases htop
  refine ⟨hkind, hvalid _ ?_ false⟩
  intro p storage x t hmem
  simp only [castComparison, Node.nodes_eq, Node.children, List.flatMap_cons, List.flatMap_nil,
    List.mem_cons, List.mem_append, List.not_mem_nil, reduceCtorEq, false_or, or_false,
    Node.get.injEq, NumericKind.value.injEq] at hmem
  obtain ⟨-, rfl, rfl, rfl⟩ := hmem
  rfl

end WatLowering
