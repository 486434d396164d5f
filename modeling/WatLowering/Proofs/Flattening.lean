import Mathlib.Data.List.Chain
import WatLowering.Node.Walk
import WatLowering.Proofs.Grammar
import WatLowering.Proofs.Independence

/-!
# Expressions are lists

Expressions can be nested, but the nesting says nothing: what an expression becomes depends only on
the terms at which its tree ends, read from left to right.

* `Node.tips` — these terms.  An expression without terms is an end of the tree as well, and the
  only way for an expression to be among them; the others are the `Node.leaves`.
* `operands_eq_tips`, `resultKind_eq_tips` — the instructions of an expression and the kind of its
  result are those of its tips.
* `Instr.seq_flatten` — a text is put together from the texts of the tips, and the tips that become
  no instruction leave no trace in it, not even a space.
* `Regroups` — terms that stand next to each other are put into an expression of their own, or are
  taken out of one again, anywhere in the tree.
* **`expressions_are_flattened`** — which expressions are lowered, what their text is, which error
  is reported for the others, and that regrouping changes none of it.

**Spaces.**  Names and literals are written as they are, so they may bring double spaces along.  The
text of a sequence has one only if one of its instructions has.
-/

namespace WatLowering

/-! ## Where the tree of an expression ends -/

mutual

/-- The ends of the tree of an expression, from left to right: the terms that are no expressions,
and the expressions that have no terms. -/
def Node.tips : Node → List Node
  | n@(.expression _ _ terms) => if terms.isEmpty then [n] else tipsAll terms
  | n => [n]

/-- The ends of several trees, one after the other. -/
def tipsAll : List Node → List Node
  | [] => []
  | term :: rest => term.tips ++ tipsAll rest

end

/-- The ends of the tree that are no expressions. -/
def Node.leaves (n : Node) : List Node := n.tips.filter fun m => m.form ≠ .expression

theorem tipsAll_eq_flatMap (terms : List Node) : tipsAll terms = terms.flatMap Node.tips := by
  induction terms with
  | nil => rfl
  | cons term rest ih => rw [tipsAll, ih, List.flatMap_cons]

theorem tips_of_form_ne {n : Node} (h : n.form ≠ .expression) : n.tips = [n] := by
  cases n with
  | expression => exact absurd rfl h
  | _ => rfl

theorem tips_expression {p : Position} {k : NumericKind} {terms : List Node} (h : terms ≠ []) :
    (Node.expression p k terms).tips = terms.flatMap Node.tips := by
  rw [Node.tips, if_neg (by simpa using h), tipsAll_eq_flatMap]

theorem operands_expression {p : Position} {k : NumericKind} {terms : List Node} (h : terms ≠ []) :
    (Node.expression p k terms).operands = operandsAll terms := by
  rw [Node.operands, if_neg (by simpa using h)]

/-- **Induction over expressions**: an expression with terms is treated through its terms, and there
is nothing to be gone through below a tip. -/
@[elab_as_elim]
theorem Node.tipInduction {motive : Node → Prop}
    (tip : ∀ n : Node, n.tips = [n] → (n.form = .expression → ∃ p k, n = .expression p k []) →
      motive n)
    (expression : ∀ p k terms, terms ≠ [] → (∀ term ∈ terms, motive term) →
      motive (.expression p k terms)) (n : Node) : motive n := by
  induction n using Node.childInduction with
  | node n ih =>
      by_cases hform : n.form = .expression
      · cases n with
        | expression p k terms =>
            by_cases hne : terms = []
            · subst hne
              exact tip _ rfl fun _ => ⟨p, k, rfl⟩
            · exact expression p k terms hne ih
        | global p mutable => cases mutable <;> cases hform
        | get p storage => cases storage <;> cases hform
        | set p storage => cases storage <;> cases hform
        | _ => cases hform
      · exact tip n (tips_of_form_ne hform) fun h => absurd h hform

/-- An expression among the tips has no terms. -/
theorem eq_expression_nil_of_mem_tips {n m : Node} (hm : m ∈ n.tips)
    (hform : m.form = .expression) : ∃ p k, m = .expression p k [] := by
  induction n using Node.tipInduction with
  | tip n htips hempty =>
      rw [htips, List.mem_singleton] at hm
      subst hm
      exact hempty hform
  | expression p k terms hne ih =>
      rw [tips_expression hne, List.mem_flatMap] at hm
      obtain ⟨term, hterm, hm⟩ := hm
      exact ih term hterm hm

theorem mem_nodes_of_mem_tips {n m : Node} (hm : m ∈ n.tips) : m ∈ n.nodes := by
  induction n using Node.tipInduction with
  | tip n htips _ =>
      rw [htips, List.mem_singleton] at hm
      subst hm
      exact m.mem_nodes_self
  | expression p k terms hne ih =>
      rw [tips_expression hne, List.mem_flatMap] at hm
      obtain ⟨term, hterm, hm⟩ := hm
      exact Node.mem_nodes_of_child hterm (ih term hterm hm)

/-! ## Lowering the tips -/

/-- **An expression is lowered through its tips**, each on its own. -/
theorem operands_eq_tips (n : Node) : n.operands = List.flatten <$> n.tips.mapM Node.operands := by
  induction n using Node.tipInduction with
  | tip n htips _ => simp [htips]
  | expression p k terms hne ih =>
      rw [operands_expression hne, tips_expression hne]
      clear hne
      induction terms with
      | nil => rfl
      | cons term rest ihrest =>
          obtain ⟨hterm, hrest⟩ := List.forall_mem_cons.mp ih
          rw [operandsAll, hterm, ihrest hrest]
          simp [List.mapM_append]

theorem lastKind_append (fallback : NumericKind) (terms others : List Node) :
    lastKind fallback (terms ++ others) = lastKind (lastKind fallback terms) others := by
  induction terms generalizing fallback with
  | nil => rfl
  | cons term rest ih => exact ih term.resultKind

/-- **The kind of the result** is the one that the last tip leaves. -/
theorem resultKind_eq_tips (n : Node) :
    ∀ fallback : NumericKind, lastKind fallback n.tips = n.resultKind := by
  induction n using Node.tipInduction with
  | tip n htips _ =>
      intro fallback
      rw [htips]
      rfl
  | expression p k terms hne ih =>
      intro fallback
      have hlast : ∀ start : NumericKind,
          lastKind start (terms.flatMap Node.tips) = lastKind start terms := by
        clear hne
        induction terms with
        | nil => exact fun _ => rfl
        | cons term rest ihrest =>
            obtain ⟨hterm, hrest⟩ := List.forall_mem_cons.mp ih
            intro start
            rw [List.flatMap_cons, lastKind_append, hterm, ihrest hrest]
            rfl
      rw [tips_expression hne, hlast]
      cases terms with
      | nil => exact absurd rfl hne
      | cons term rest => rfl

/-- An expression without terms is nowhere in what can be lowered. -/
theorem IsExpression.ne_empty_of_mem_nodes {n : Node} (h : IsExpression n) :
    ∀ m ∈ n.nodes, ∀ p k, m ≠ .expression p k [] := by
  induction h with
  | expression hne _ ih =>
      rw [Node.forall_mem_nodes_iff]
      refine ⟨?_, ih⟩
      rintro p k heq
      cases heq
      exact hne rfl
  | _ => simp [Node.nodes_eq, Node.children]

/-- Where no expression is empty, all tips are leaves. -/
theorem leaves_eq_tips {n : Node} (h : ∀ m ∈ n.nodes, ∀ p k, m ≠ .expression p k []) :
    n.leaves = n.tips := by
  rw [Node.leaves, List.filter_eq_self]
  intro m hm
  rw [decide_eq_true_iff]
  intro hform
  obtain ⟨p, k, heq⟩ := eq_expression_nil_of_mem_tips hm hform
  exact h m (mem_nodes_of_mem_tips hm) p k heq

theorem mem_leaves_iff {n m : Node} : m ∈ n.leaves ↔ m ∈ n.tips ∧ m.form ≠ .expression := by
  simp [Node.leaves]

/-- What can be lowered are the expressions whose tips can be lowered. -/
theorem exists_operands_iff_tips {n : Node} :
    (∃ ops, n.operands = .ok ops) ↔ ∀ m ∈ n.tips, ∃ ops, m.operands = .ok ops := by
  rw [operands_eq_tips, ← exists_mapM_eq_ok_iff]
  simp only [map_eq_ok_iff]
  constructor
  · rintro ⟨_, parts, hparts, rfl⟩
    exact ⟨parts, hparts⟩
  · rintro ⟨parts, hparts⟩
    exact ⟨_, parts, hparts, rfl⟩

/-! ## The text -/

/-- A text that begins with an opening and ends with a closing parenthesis. -/
def Parenthesised (s : String) : Prop := ∃ inner, s = "(" ++ inner ++ ")"

/-- A text without two spaces next to each other. -/
def SinglySpaced (s : String) : Prop := s.toList.IsChain fun a b => a = ' ' → b ≠ ' '

theorem Parenthesised.ne_empty {s : String} (h : Parenthesised s) : s ≠ "" := by
  obtain ⟨inner, rfl⟩ := h
  intro heq
  have := congrArg String.toList heq
  simp at this

theorem Parenthesised.space {s t : String} (hs : Parenthesised s) (ht : Parenthesised t) :
    Parenthesised (s ++ " " ++ t) := by
  obtain ⟨inner, rfl⟩ := hs
  obtain ⟨inner', rfl⟩ := ht
  exact ⟨inner ++ ")" ++ " " ++ "(" ++ inner', by simp only [String.append_assoc]⟩

/-- A single space between parentheses makes no double space. -/
theorem singlySpaced_space_iff {s t : String} (hs : Parenthesised s) (ht : Parenthesised t) :
    SinglySpaced (s ++ " " ++ t) ↔ SinglySpaced s ∧ SinglySpaced t := by
  obtain ⟨inner, rfl⟩ := hs
  obtain ⟨inner', rfl⟩ := ht
  simp only [SinglySpaced, String.toList_append]
  rw [List.isChain_append, List.isChain_append]
  simp [List.getLast?_cons]

theorem Instr.parenthesised_text (i : Instr) : Parenthesised i.text := by
  cases i with
  | const t literal => exact ⟨t.name ++ ".const " ++ literal, by simp [text, String.append_assoc]⟩
  | get storage name =>
      exact ⟨storage.name ++ ".get $" ++ name, by simp [text, String.append_assoc]⟩
  | numeric op t => exact ⟨_, rfl⟩
  | convert c => exact ⟨_, rfl⟩
  | eqz t => exact ⟨t.name ++ ".eqz", by simp [text, String.append_assoc]⟩

/-- **Sequences begin and end with parentheses**, and have a double space only if one of their
instructions has. -/
theorem Instr.seq_spacing (ops : List Instr) :
    (ops = [] ∨ Parenthesised (seq ops)) ∧
      (SinglySpaced (seq ops) ↔ ∀ i ∈ ops, SinglySpaced i.text) := by
  induction ops with
  | nil => simp [SinglySpaced]
  | cons i rest ih =>
      cases rest with
      | nil => simp [i.parenthesised_text]
      | cons j rest =>
          have hrest : Parenthesised (seq (j :: rest)) := ih.1.resolve_left (by simp)
          rw [seq_cons_cons, singlySpaced_space_iff i.parenthesised_text hrest, ih.2]
          exact ⟨.inr (i.parenthesised_text.space hrest), by simp⟩

/-- **What becomes no instruction leaves no trace**: a sequence is written by joining the texts of
its parts, the empty ones left out. -/
theorem Instr.seq_flatten (is : List (Option Instr)) :
    seq (is.map Option.toList).flatten
      = " ".intercalate ((is.map fun i => seq i.toList).filter (· ≠ "")) := by
  rw [seq]
  congr 1
  induction is with
  | nil => rfl
  | cons i is ih =>
      cases i with
      | none => simpa using ih
      | some i => simpa [i.parenthesised_text.ne_empty] using ih

theorem Instr.singlySpaced_flatten_iff (is : List (Option Instr)) :
    SinglySpaced (seq (is.map Option.toList).flatten)
      ↔ ∀ part ∈ is.map fun i => seq i.toList, SinglySpaced part := by
  rw [(seq_spacing _).2, List.forall_mem_map]
  simp only [(seq_spacing _).2, List.mem_flatten, List.mem_map]
  constructor
  · intro h i hi j hj
    exact h j ⟨i.toList, ⟨i, hi, rfl⟩, hj⟩
  · rintro h j ⟨_, ⟨i, hi, rfl⟩, hj⟩
    exact h i hi j hj

theorem Conversion.source_ne_target (c : Conversion) : c.source ≠ c.target := by
  cases c <;> decide

/-- **Only a cast to the type that is there already** is written as nothing. -/
theorem Selects.text_eq_empty_iff {n : Node} {i : Option Instr} (h : Selects n i) :
    Instr.seq i.toList = "" ↔ ∃ p t, n = .cast p (.value t) (.value t) := by
  cases h with
  | identity => simp
  | @convert p c =>
      simp only [Option.toList_some, Instr.seq_singleton, Instr.text, Node.cast.injEq,
        NumericKind.value.injEq]
      refine ⟨fun h => absurd h (Instr.parenthesised_text (.convert c)).ne_empty, ?_⟩
      rintro ⟨_, t, -, hsource, htarget⟩
      exact absurd (hsource.trans htarget.symm) c.source_ne_target
  | _ => simp [(Instr.parenthesised_text _).ne_empty]

/-- The leaves become one instruction or none each, and these are the instructions of the whole. -/
theorem Computes.exists_selects {terms : List Node} {ops : List Instr} (h : Computes terms ops) :
    ∃ is, List.Forall₂ Selects (terms.flatMap Node.tips) is ∧
      ops = (is.map Option.toList).flatten := by
  induction h with
  | nil => exact ⟨[], .nil, rfl⟩
  | @leaf n i rest ops hi _ ih =>
      obtain ⟨is, his, rfl⟩ := ih
      have htips : n.tips = [n] := by cases hi <;> rfl
      refine ⟨i :: is, ?_, rfl⟩
      rw [List.flatMap_cons, htips]
      exact .cons hi his
  | expression hne _ _ ihterms ih =>
      obtain ⟨is, his, rfl⟩ := ih
      obtain ⟨inner, hinner, rfl⟩ := ihterms
      refine ⟨inner ++ is, ?_, by simp⟩
      rw [List.flatMap_cons, tips_expression hne]
      exact List.rel_append hinner his

/-! ## Regrouping -/

/-- The two trees differ in how terms are grouped: terms next to each other are put into an
expression of their own, which may state any kind, or are taken out of one. -/
inductive Regroups : Node → Node → Prop where
  | refl (n : Node) : Regroups n n
  | symm {n m : Node} : Regroups n m → Regroups m n
  | trans {n m l : Node} : Regroups n m → Regroups m l → Regroups n l
  | group {p q : Position} {k k' : NumericKind} {before terms after : List Node} : terms ≠ [] →
      Regroups (.expression p k (before ++ terms ++ after))
        (.expression p k (before ++ .expression q k' terms :: after))
  | within {p : Position} {k : NumericKind} {before after : List Node} {n m : Node} :
      Regroups n m →
      Regroups (.expression p k (before ++ n :: after)) (.expression p k (before ++ m :: after))

/-- **Grouping is not seen at the tips.** -/
theorem Regroups.tips_eq {n m : Node} (h : Regroups n m) : n.tips = m.tips := by
  induction h with
  | refl => rfl
  | symm _ ih => exact ih.symm
  | trans _ _ ih₁ ih₂ => exact ih₁.trans ih₂
  | group hne =>
      rw [tips_expression (by simp [hne]), tips_expression (by simp)]
      simp [tips_expression hne]
  | within _ ih =>
      rw [tips_expression (by simp), tips_expression (by simp)]
      simp [ih]

/-! ## Flattening -/

/-- **Lowering an expression is flattening it.**

* A text comes out exactly if no expression inside is empty and each leaf has a text of its own.
* The text is then made of the texts of the leaves, from left to right, with one space between
  neighbours; a leaf has the empty text, which is left out, exactly if it is a cast between equal
  value types.  What comes out is empty or begins and ends with a parenthesis, and it has a double
  space only if the text of a leaf has.
* Otherwise the error is the one of the first tip, leaf or empty expression, that has no text.
* Trees that differ in how the terms are grouped have the same text or the same error, and their
  results have the same kind. -/
theorem expressions_are_flattened (n : Node) :
    ((∃ text, Instr.seq <$> n.operands = .ok text) ↔
      (∀ m ∈ n.nodes, ∀ p k, m ≠ .expression p k []) ∧
        ∀ leaf ∈ n.leaves, ∃ part, Instr.seq <$> leaf.operands = .ok part) ∧
    (∀ text, Instr.seq <$> n.operands = .ok text →
      ∃ parts : List String,
        List.Forall₂ (fun leaf part => Instr.seq <$> leaf.operands = .ok part ∧
          (part = "" ↔ ∃ p t, leaf = .cast p (.value t) (.value t))) n.leaves parts ∧
        text = " ".intercalate (parts.filter (· ≠ "")) ∧
        (text = "" ∨ Parenthesised text) ∧
        (SinglySpaced text ↔ ∀ part ∈ parts, SinglySpaced part)) ∧
    (∀ fault, Instr.seq <$> n.operands = .error fault ↔
      ∃ before tip after, n.tips = before ++ tip :: after ∧
        (∀ m ∈ before, ∃ part, Instr.seq <$> m.operands = .ok part) ∧
        Instr.seq <$> tip.operands = .error fault) ∧
    ∀ m, Regroups n m →
      Instr.seq <$> m.operands = Instr.seq <$> n.operands ∧ m.resultKind = n.resultKind := by
  have hok : ∀ m : Node,
      (∃ text, Instr.seq <$> m.operands = .ok text) ↔ ∃ ops, m.operands = .ok ops := by
    intro m
    simp [map_eq_ok_iff]
  simp only [hok]
  refine ⟨?_, ?_, ?_, ?_⟩
  · constructor
    · intro h
      refine ⟨(exists_operands_eq_ok_iff.mp h).ne_empty_of_mem_nodes, ?_⟩
      intro leaf hleaf
      exact exists_operands_iff_tips.mp h leaf (mem_leaves_iff.mp hleaf).1
    · rintro ⟨hempty, hleaves⟩
      rw [leaves_eq_tips hempty] at hleaves
      exact exists_operands_iff_tips.mpr hleaves
  · intro text htext
    obtain ⟨ops, hops, rfl⟩ := map_eq_ok_iff.mp htext
    obtain ⟨is, his, rfl⟩ := (operands_eq_ok_iff.mp hops).exists_selects
    rw [List.flatMap_singleton,
      ← leaves_eq_tips (exists_operands_eq_ok_iff.mp ⟨_, hops⟩).ne_empty_of_mem_nodes] at his
    refine ⟨is.map fun i => Instr.seq i.toList, ?_, Instr.seq_flatten is, ?_,
      Instr.singlySpaced_flatten_iff is⟩
    · rw [List.forall₂_map_right_iff]
      refine his.imp ?_
      intro leaf i hi
      exact ⟨by rw [hi.operands_eq]; rfl, hi.text_eq_empty_iff⟩
    · refine (Instr.seq_spacing _).1.imp_left ?_
      intro hnil
      rw [hnil, Instr.seq_nil]
  · intro fault
    rw [map_eq_error_iff, operands_eq_tips, map_eq_error_iff, mapM_eq_error_iff]
    simp only [map_eq_error_iff]
  · intro m hm
    -- text, error and kind are all read off the tips
    have htips := hm.tips_eq
    refine ⟨?_, ?_⟩
    · rw [operands_eq_tips n, operands_eq_tips m, htips]
    · rw [← resultKind_eq_tips n .notApplicable, ← resultKind_eq_tips m .notApplicable, htips]

/-- A sum whose second operand is an expression of its own. -/
def groupedSum : Node :=
  .expression .unplaced (.value .f64)
    [.number .unplaced (.value .i32) "1",
      .expression .unplaced .void
        [.get .unplaced .local "x" (.value .i32), .cast .unplaced (.value .i32) (.value .i32)],
      .operator .unplaced (.value .i32) "+"]

/-- The same sum, with all terms in one expression. -/
def flatSum : Node :=
  .expression .unplaced (.value .f64)
    [.number .unplaced (.value .i32) "1", .get .unplaced .local "x" (.value .i32),
      .cast .unplaced (.value .i32) (.value .i32), .operator .unplaced (.value .i32) "+"]

/-- Both sums become the same three instructions, and the cast between them leaves no space. -/
theorem groupedSum_flattened :
    Instr.seq <$> groupedSum.operands = .ok "(i32.const 1) (local.get $x) (i32.add)" ∧
      Instr.seq <$> groupedSum.operands = Instr.seq <$> flatSum.operands ∧
      groupedSum.resultKind = flatSum.resultKind := by
  refine ⟨by decide, (expressions_are_flattened flatSum).2.2.2 groupedSum ?_⟩
  exact @Regroups.group .unplaced .unplaced (.value .f64) .void
    [.number .unplaced (.value .i32) "1"]
    [.get .unplaced .local "x" (.value .i32), .cast .unplaced (.value .i32) (.value .i32)]
    [.operator .unplaced (.value .i32) "+"] (by simp)

end WatLowering
