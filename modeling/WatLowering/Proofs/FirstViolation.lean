import WatLowering.Node.Walk
import WatLowering.Proofs.Grammar

/-!
# Which violation is reported

A program can break many rules at once, and one of them is reported.  The lowering finds it by going
through the tree in the order in which the code will run, and makes its checks wherever they come
up.  This file keeps two things apart: where the lowering looks, and what it asks of the nodes
there.

* `Role` — what a node is expected to be at its place.  The same node can be right in one role and
  wrong in another, and a diagnostic depends on the role it was looked at in.
* `Breaks` — the rules, each with its category and its text.  No node breaks two of them in one
  role (`Breaks.unique`).
* `Site.parts` and `Site.walk` — the order: what is looked at after a node, and all that is looked
  at from there on.
* **`reports_iff_first_violation`** — the diagnostic of a program is that of the first node in this
  order that breaks a rule.  If no node does, there is none.

**One step at a time.**  `Checks sites x` says of a step that its outcome `x` is that of looking at
the sites in order.  Steps that follow one another look at their sites one after the other
(`Checks.bind`), so each part of the lowering is compared with the order by itself.
-/

namespace WatLowering

/-! ## Places in a tree -/

/-- What is expected of a node where it stands. -/
inductive Role where
  /-- The root of the tree. -/
  | program
  | item
  /-- What the global of this name starts from. -/
  | literal (global : String)
  /-- The parameters of the function of this name. -/
  | parameters (function : String)
  /-- A parameter, or a variable in front of the first statement. -/
  | declaration
  /-- A function, as far as its result is concerned. -/
  | result
  /-- A statement in a function with this result, inside that many loops. -/
  | statement (result : Option ValueType) (loops : Nat)
  /-- An assignment in the header of a `for`. -/
  | assignment
  /-- An expression, or a part of one. -/
  | term

namespace Role

/-- The forms that a node can have in a role. -/
def forms : Role → List Form
  | .program => [.module]
  | .item => [.globalVar, .globalConst, .exportFunc, .function]
  | .literal _ => [.number]
  | .parameters _ => [.paramList]
  | .declaration => [.localVar]
  | .result => [.function]
  | .statement _ _ => [.localVar, .localSet, .globalSet, .ret, .brk, .cont, .forLoop, .doLoop,
      .whileLoop, .ifElse]
  | .assignment => [.localSet, .globalSet]
  | .term => [.number, .localGet, .globalGet, .operator, .cast, .expression]

/-- The forms of which the kind has to be one of a value.  What an expression says about its own
kind does not matter, nor what a literal says that a global starts from. -/
def valued : Role → List Form
  | .item => [.globalVar, .globalConst]
  | .declaration => [.localVar]
  | .result => [.function]
  | .term => [.number, .localGet, .globalGet, .operator]
  | _ => []

/-- The category of nodes that have the wrong form. -/
def category : Role → Category
  | .statement _ _ | .assignment => .malformedStatement
  | .term => .malformedExpression
  | _ => .malformedModule

/-- What is said about a node that has the wrong form. -/
def misplaced (n : Node) : Role → String
  | .program => "expected a module at the root"
  | .item | .result => n.form.name ++ " cannot appear at module level"
  | .literal name => "global `" ++ name ++ "` must be initialized from a literal"
  | .parameters name => "function `" ++ name ++ "` has no parameter list"
  | .declaration => "expected a variable declaration, found " ++ n.form.name
  | .statement _ _ => n.form.name ++ " cannot appear as a statement"
  | .assignment => "expected an assignment, found " ++ n.form.name
  | .term => n.form.name ++ " cannot appear in an expression"

end Role

/-- **The rules**, each with the category and the text under which a node that breaks it is
reported. -/
inductive Breaks : Role → Node → Category → String → Prop where
  /-- A node has one of the forms of its role. -/
  | form {role : Role} {n : Node} :
      n.form ∉ role.forms → Breaks role n role.category (role.misplaced n)
  /-- What has a value is of a value type.  Only the result of a function may be `void`. -/
  | kind {role : Role} {n : Node} {k : NumericKind} :
      n.form ∈ role.valued → n.numericKind? = some k → k.isValue = false →
      (role = .result → k ≠ .void) →
      Breaks role n .unsupportedNumericKind ("`" ++ k.name ++ "` is not a value type")
  /-- An operator has an instruction at its type. -/
  | operator {p : Position} {t : ValueType} {symbol : String} :
      (∀ op : BinaryOp, op.symbol = symbol → op.select? t = none) →
      Breaks .term (.operator p (.value t) symbol) .unsupportedOperator
        ("no instruction for `" ++ symbol ++ "` on " ++ t.name)
  /-- Both ends of a cast have values. -/
  | cast {p : Position} {source target : NumericKind} :
      source.isValue = false ∨ target.isValue = false →
      Breaks .term (.cast p source target) .unsupportedCast
        ("cannot convert " ++ source.name ++ " to " ++ target.name)
  | emptyExpression {p : Position} {k : NumericKind} :
      Breaks .term (.expression p k []) .malformedExpression "empty expression"
  | unexpectedValue {p : Position} {v : Node} {loops : Nat} :
      Breaks (.statement none loops) (.ret p (some v)) .malformedStatement
        "void function cannot return a value"
  | missingValue {p : Position} {t : ValueType} {loops : Nat} :
      Breaks (.statement (some t) loops) (.ret p none) .malformedStatement
        ("missing " ++ t.name ++ " return value")
  | outsideLoop {n : Node} {levels : Option Nat} {result : Option ValueType} :
      n.levels? = some levels →
      Breaks (.statement result 0) n .malformedStatement (n.form.name ++ " outside of a loop")
  | noSuchLoop {n : Node} {levels : Option Nat} {result : Option ValueType} {loops : Nat} :
      n.levels? = some levels → levels.getD 1 = 0 ∨ loops + 1 < levels.getD 1 →
      Breaks (.statement result (loops + 1)) n .malformedStatement
        (n.form.name ++ " level " ++ toString (levels.getD 1)
          ++ " does not name an enclosing loop")

/-- A node with the role in which it is looked at. -/
structure Site where
  role : Role
  node : Node

namespace Site

/-- The node breaks no rule of its role. -/
def Sound (s : Site) : Prop := ∀ category text, ¬ Breaks s.role s.node category text

/-- **The order of the lowering**: what is looked at after a node, and in which roles.  It is the
order in which the code will run, so that a `do` has its body in front of its condition and a `for`
its body in front of its increments. -/
def parts (s : Site) : List Site :=
  match s.role, s.node with
  | .program, .module _ items => items.map (mk .item)
  | .item, .global _ _ name _ init => [⟨.literal name, init⟩]
  | .item, .function _ name result params body =>
      ⟨.parameters name, params⟩ :: ⟨.result, s.node⟩
        :: (body.takeWhile Node.isDeclaration).map (mk .declaration)
        ++ (body.dropWhile Node.isDeclaration).map (mk (.statement result.valueType? 0))
  | .parameters _, .paramList _ items => items.map (mk .declaration)
  | .statement _ _, .set _ _ _ value => [⟨.term, value⟩]
  | .statement _ _, .ret _ value => value.toList.map (mk .term)
  | .statement result loops, .whileLoop _ condition body =>
      ⟨.term, condition⟩ :: body.map (mk (.statement result (loops + 1)))
  | .statement result loops, .doLoop _ body condition =>
      body.map (mk (.statement result (loops + 1))) ++ [⟨.term, condition⟩]
  | .statement result loops, .forLoop _ init condition increment body =>
      init.map (mk .assignment) ++ condition.toList.map (mk .term)
        ++ body.map (mk (.statement result (loops + 1))) ++ increment.map (mk .assignment)
  | .statement result loops, .ifElse _ condition thenBranch elseBranch =>
      ⟨.term, condition⟩ :: thenBranch.map (mk (.statement result loops))
        ++ (elseBranch.getD []).map (mk (.statement result loops))
  | .assignment, .set _ _ _ value => [⟨.term, value⟩]
  | .term, .expression _ _ terms => terms.map (mk .term)
  | _, _ => []

/-- What is looked at after a node stands below it, but for a function, which is looked at again. -/
theorem node_mem_children_or {s part : Site} (h : part ∈ s.parts) :
    part.node ∈ s.node.children ∨ (s.role = .item ∧ part = ⟨.result, s.node⟩) := by
  obtain ⟨role, n⟩ := s
  simp only [parts] at h
  split at h
  case h_3 p name result params body =>
    have htake := List.takeWhile_subset (l := body) Node.isDeclaration
    have hdrop := List.dropWhile_subset (l := body) Node.isDeclaration
    simp only [List.mem_append, List.mem_cons, List.mem_map] at h
    rcases h with (rfl | rfl | ⟨v, hv, rfl⟩) | ⟨stmt, hstmt, rfl⟩
    · exact .inl List.mem_cons_self
    · exact .inr ⟨rfl, rfl⟩
    · exact .inl (List.mem_cons_of_mem _ (htake hv))
    · exact .inl (List.mem_cons_of_mem _ (hdrop hstmt))
  all_goals
    left
    grind [Node.children]

/-- Sites become smaller from a node to its parts; a function that is looked at again counts less
than it did as an item. -/
noncomputable def rank (s : Site) : Nat :=
  2 * sizeOf s.node + match s.role with
    | .result => 0
    | _ => 1

theorem rank_lt_of_mem_parts {s part : Site} (h : part ∈ s.parts) : part.rank < s.rank := by
  obtain hchild | ⟨hrole, rfl⟩ := node_mem_children_or h
  · have hsize := Node.sizeOf_lt_of_mem_children hchild
    have hpart : part.rank ≤ 2 * sizeOf part.node + 1 := by
      rw [rank]
      split <;> omega
    have hs : 2 * sizeOf s.node ≤ s.rank := Nat.le_add_right _ _
    omega
  · simp [rank, hrole]

/-- The site, and everything that is looked at after it. -/
def walk (s : Site) : List Site := s :: s.parts.attach.flatMap fun part => walk part.1
termination_by s.rank
decreasing_by exact rank_lt_of_mem_parts part.2

theorem walk_eq (s : Site) : s.walk = s :: s.parts.flatMap walk := by
  rw [walk]
  simp [List.flatMap_subtype]

/-- Whatever is looked at is a node of the tree. -/
theorem node_mem_nodes {s site : Site} (h : site ∈ s.walk) : site.node ∈ s.node.nodes := by
  rw [walk_eq, List.mem_cons, List.mem_flatMap] at h
  obtain rfl | ⟨part, hpart, hsite⟩ := h
  · exact Node.mem_nodes_self _
  · have hnode := node_mem_nodes hsite
    obtain hchild | ⟨-, rfl⟩ := node_mem_children_or hpart
    · exact Node.mem_nodes_of_child hchild hnode
    · exact hnode
termination_by s.rank
decreasing_by exact rank_lt_of_mem_parts hpart

end Site

/-! ## Looking at sites one after the other -/

/-- The diagnostic is that of the first of the sites that breaks a rule. -/
def FirstViolation (sites : List Site) (d : Diagnostic) : Prop :=
  ∃ before site after category text,
    sites = before ++ site :: after ∧ (∀ earlier ∈ before, earlier.Sound) ∧
      Breaks site.role site.node category text ∧ d = .of category text site.node

/-- The outcome is that of looking at the sites in order: a success if all of them are sound, and
else the fault of the first that is not. -/
def Checks {α : Type} (sites : List Site) : Except Fault α → Prop
  | .ok _ => ∀ site ∈ sites, site.Sound
  | .error f => FirstViolation sites f.diagnostic

namespace Checks

variable {α β : Type} {xs ys : List Site} {x : Except Fault α}

theorem nil (a : α) : Checks [] (.ok a) := by simp [Checks]

theorem append (hxs : ∀ site ∈ xs, site.Sound) (h : Checks ys x) : Checks (xs ++ ys) x := by
  cases x with
  | ok a => exact List.forall_mem_append.mpr ⟨hxs, h⟩
  | error f =>
      obtain ⟨before, site, after, category, text, rfl, hbefore, hsite⟩ := h
      exact ⟨xs ++ before, site, after, category, text, (List.append_assoc _ _ _).symm,
        List.forall_mem_append.mpr ⟨hxs, hbefore⟩, hsite⟩

/-- **One step after the other**: the sites of the second step come into play once the first has
succeeded. -/
theorem bind {g : α → Except Fault β} (hx : Checks xs x)
    (hg : ∀ a, x = .ok a → Checks ys (g a)) : Checks (xs ++ ys) (x >>= g) := by
  cases x with
  | ok a => exact (hg a rfl).append hx
  | error f =>
      obtain ⟨before, site, after, category, text, rfl, hsite⟩ := hx
      exact ⟨before, site, after ++ ys, category, text, by simp, hsite⟩

/-- A last step that cannot fail. -/
theorem bind_ok {g : α → Except Fault β} (hx : Checks xs x)
    (hg : ∀ a, x = .ok a → ∃ b, g a = .ok b) : Checks xs (x >>= g) := by
  rw [← List.append_nil xs]
  refine hx.bind fun a ha => ?_
  obtain ⟨b, hb⟩ := hg a ha
  rw [hb]
  exact nil b

theorem map {g : α → β} (hx : Checks xs x) : Checks xs (g <$> x) := by
  rw [map_eq_pure_bind]
  exact hx.bind_ok fun a _ => ⟨g a, rfl⟩

theorem mapM {γ : Type} {f : γ → Except Fault β} {sites : γ → List Site} {cs : List γ}
    (h : ∀ c ∈ cs, Checks (sites c) (f c)) : Checks (cs.flatMap sites) (cs.mapM f) := by
  induction cs with
  | nil => exact nil []
  | cons c cs ih =>
      rw [List.forall_mem_cons] at h
      rw [List.flatMap_cons, List.mapM_cons]
      exact h.1.bind fun b _ => (ih h.2).bind_ok fun bs _ => ⟨b :: bs, rfl⟩

/-- A sound site hands over to its parts. -/
theorem walk_of_sound {s : Site} (hs : s.Sound) (h : Checks (s.parts.flatMap Site.walk) x) :
    Checks s.walk x := by
  rw [Site.walk_eq, ← List.singleton_append]
  exact h.append (by simpa using hs)

/-- A site that breaks a rule comes before its parts. -/
theorem walk_of_breaks {s : Site} {f : Fault} (hnode : f.node = s.node)
    (h : Breaks s.role s.node f.violation.category f.detail) :
    Checks s.walk (.error f : Except Fault α) := by
  rw [Site.walk_eq]
  exact ⟨[], s, _, _, _, rfl, by simp, h, by rw [Fault.diagnostic, hnode]⟩

/-- A site whose kind has to be one of a value, up to the point where it has been asked for. -/
theorem walk_of_kind {s : Site} {k : NumericKind} {g : ValueType → Except Fault α}
    (hvalued : s.node.form ∈ s.role.valued) (hk : s.node.numericKind? = some k)
    (hvoid : s.role = .result → k ≠ .void) (hg : ∀ t, k = .value t → Checks s.walk (g t)) :
    Checks s.walk (k.valueTypeAt s.node >>= g) := by
  cases k with
  | value t => exact hg t rfl
  | void => exact walk_of_breaks rfl (.kind hvalued hk rfl hvoid)
  | notApplicable => exact walk_of_breaks rfl (.kind hvalued hk rfl hvoid)

end Checks

/-! ## Sound sites -/

section Sound

variable {role : Role} {n : Node}

/-- For most forms it is enough to have the right form and a kind with values. -/
theorem sound_of_form (hform : n.form ∈ role.forms)
    (hkind : ∀ k, n.form ∈ role.valued → n.numericKind? = some k →
      k.isValue = true ∨ role = .result ∧ k = .void)
    (hown : n.form ∉ [Form.operator, .cast, .expression, .ret, .brk, .cont]) :
    Site.Sound ⟨role, n⟩ := by
  intro category text hbreaks
  cases hbreaks with
  | form hn => exact hn hform
  | kind hvalued hk hvalue hvoid =>
      obtain h | ⟨hrole, h⟩ := hkind _ hvalued hk
      · simp [h] at hvalue
      · exact hvoid hrole h
  | operator _ => simp [Node.form] at hown
  | cast _ => simp [Node.form] at hown
  | emptyExpression => simp [Node.form] at hown
  | unexpectedValue => simp [Node.form] at hown
  | missingValue => simp [Node.form] at hown
  | outsideLoop hlevels => obtain h | h := Node.form_of_levels? hlevels <;> simp [h] at hown
  | noSuchLoop hlevels _ => obtain h | h := Node.form_of_levels? hlevels <;> simp [h] at hown

theorem sound_operator {p : Position} {op : BinaryOp} {t : ValueType} {i : NumericOp}
    (h : op.select? t = some i) : Site.Sound ⟨.term, .operator p (.value t) op.symbol⟩ := by
  intro category text hbreaks
  cases hbreaks with
  | form hn => simp [Role.forms, Node.form] at hn
  | kind _ hk hvalue _ =>
      cases hk
      cases hvalue
  | operator hnone => simp [hnone op rfl] at h

theorem sound_cast (p : Position) (s t : ValueType) :
    Site.Sound ⟨.term, .cast p (.value s) (.value t)⟩ := by
  intro category text hbreaks
  cases hbreaks with
  | form hn => simp [Role.forms, Node.form] at hn
  | kind hvalued => simp [Role.valued, Node.form] at hvalued
  | cast hends => simp [NumericKind.isValue] at hends

theorem sound_expression (p : Position) (k : NumericKind) {terms : List Node} (h : terms ≠ []) :
    Site.Sound ⟨.term, .expression p k terms⟩ := by
  intro category text hbreaks
  cases hbreaks with
  | form hn => simp [Role.forms, Node.form] at hn
  | kind hvalued => simp [Role.valued, Node.form] at hvalued
  | emptyExpression => exact h rfl

end Sound

/-! ## Expressions -/

theorem checks_leaf {n : Node} (h : ∀ p k terms, n ≠ .expression p k terms) :
    Checks (Site.walk ⟨.term, n⟩) n.leaf := by
  cases n with
  | expression p k terms => exact absurd rfl (h p k terms)
  | number p k literal =>
      refine .walk_of_kind (s := ⟨.term, .number p k literal⟩) ?_ rfl (by simp) ?_
      · simp [Role.valued, Node.form]
      · rintro t rfl
        refine .walk_of_sound (sound_of_form ?_ ?_ ?_) (.nil _) <;>
          simp [Role.forms, Node.form, Node.numericKind?, NumericKind.isValue]
  | get p storage name k =>
      refine .walk_of_kind (s := ⟨.term, .get p storage name k⟩) ?_ rfl (by simp) ?_
      · cases storage <;> simp [Role.valued]
      · rintro t rfl
        refine .walk_of_sound (sound_of_form ?_ ?_ ?_) (.nil _)
        · cases storage <;> simp [Role.forms]
        · simp [Node.numericKind?, NumericKind.isValue]
        · simp
  | operator p k symbol =>
      refine .walk_of_kind (s := ⟨.term, .operator p k symbol⟩) ?_ rfl (by simp) ?_
      · simp [Role.valued, Node.form]
      · rintro t rfl
        cases hchosen : (BinaryOp.ofSymbol? symbol).bind fun op => op.select? t with
        | none =>
            refine .walk_of_breaks rfl (.operator fun op hop => ?_)
            subst hop
            simpa using hchosen
        | some i =>
            obtain ⟨op, hop, hselect⟩ := Option.bind_eq_some_iff.mp hchosen
            obtain rfl := BinaryOp.ofSymbol?_eq_some_iff.mp hop
            exact .walk_of_sound (sound_operator hselect) (.nil _)
  | cast p source target =>
      cases source with
      | value s =>
          cases target with
          | value t =>
              have hplan : castPlan? (.value s) (.value t) = some (castPlan s t) := rfl
              simp only [Node.leaf, hplan]
              cases castPlan s t with
              | identity => exact .walk_of_sound (sound_cast p s t) (.nil _)
              | convert c => exact .walk_of_sound (sound_cast p s t) (.nil _)
          | void | notApplicable => exact .walk_of_breaks rfl (.cast (.inr rfl))
      | void | notApplicable => exact .walk_of_breaks rfl (.cast (.inl rfl))
  | global | set => exact .walk_of_breaks rfl (.form (by simp [Role.forms]))
  | _ => exact .walk_of_breaks rfl (.form (by simp [Role.forms, Node.form]))

theorem checks_operands (n : Node) : Checks (Site.walk ⟨.term, n⟩) n.operands := by
  -- by the size of the node, since terms are smaller than the expression they stand in
  cases n with
  | expression p k terms =>
      cases terms with
      | nil => exact .walk_of_breaks rfl .emptyExpression
      | cons term rest =>
          have hterms : Checks (((term :: rest).map (Site.mk .term)).flatMap Site.walk)
              (operandsAll (term :: rest)) := by
            rw [List.flatMap_map, operandsAll_eq_mapM]
            exact (Checks.mapM fun t ht => checks_operands t).map
          exact .walk_of_sound (sound_expression p k (List.cons_ne_nil _ _)) hterms
  | _ => exact (checks_leaf (by simp)).map
termination_by sizeOf n
decreasing_by exact Node.sizeOf_lt_of_mem_children ht

/-- The kind of a condition that can be computed is one of a value, so asking for it cannot fail. -/
theorem valueTypeAt_of_operands {c : Node} {ops : List Instr} (h : c.operands = .ok ops) :
    ∃ t, c.resultKind.valueTypeAt c = .ok t := by
  obtain ⟨t, ht⟩ := exists_resultKind_of_operands h
  exact ⟨t, NumericKind.valueTypeAt_eq_ok_iff.mpr ht⟩

theorem checks_truthTest (c : Node) : Checks (Site.walk ⟨.term, c⟩) c.truthTest := by
  refine (checks_operands c).bind_ok fun ops hops => ?_
  obtain ⟨t, ht⟩ := valueTypeAt_of_operands hops
  exact ⟨.truth t ops, by rw [ht]; rfl⟩

theorem checks_exitGuard (depth : Nat) (c : Node) :
    Checks (Site.walk ⟨.term, c⟩) (c.exitGuard depth) := by
  refine (checks_operands c).bind_ok fun ops hops => ?_
  obtain ⟨t, ht⟩ := valueTypeAt_of_operands hops
  exact ⟨.brIf (.exit depth) (.exit t ops), by rw [ht]; rfl⟩

theorem checks_assignment (n : Node) : Checks (Site.walk ⟨.assignment, n⟩) n.assignment := by
  cases n with
  | set p storage x v =>
      have hvalue : Checks ([⟨.term, v⟩].flatMap Site.walk)
          (Node.assignment (.set p storage x v)) := by
        rw [List.flatMap_singleton]
        exact (checks_operands v).map
      refine .walk_of_sound (sound_of_form ?_ ?_ ?_) hvalue <;> cases storage <;>
        simp [Role.forms, Role.valued, Node.form]
  | global | get => exact .walk_of_breaks rfl (.form (by simp [Role.forms]))
  | _ => exact .walk_of_breaks rfl (.form (by simp [Role.forms, Node.form]))

theorem checks_assignments (ns : List Node) :
    Checks (ns.flatMap fun n => Site.walk ⟨.assignment, n⟩) (ns.mapM Node.assignment) :=
  .mapM fun n _ => checks_assignment n

/-! ## Statements -/

section Statements

variable {result : Option ValueType} {loops : Nat} {p : Position}

/-- Statements that have no rule of their own. -/
theorem sound_statement {n : Node} (h : n.form ∈ [Form.localVar, .localSet, .globalSet, .forLoop,
    .doLoop, .whileLoop, .ifElse]) : Site.Sound ⟨.statement result loops, n⟩ := by
  have hforms : ∀ form ∈ [Form.localVar, .localSet, .globalSet, .forLoop, .doLoop, .whileLoop,
      .ifElse], form ∈ Role.forms (.statement result loops)
        ∧ form ∉ [Form.operator, .cast, .expression, .ret, .brk, .cont] := by
    simp [Role.forms]
  exact sound_of_form (hforms _ h).1 (by simp [Role.valued]) (hforms _ h).2

theorem sound_ret {value : Option Node} (h : value.isSome = result.isSome) :
    Site.Sound ⟨.statement result loops, .ret p value⟩ := by
  intro category text hbreaks
  cases hbreaks with
  | form hn => simp [Role.forms, Node.form] at hn
  | kind hvalued => simp [Role.valued] at hvalued
  | unexpectedValue => cases h
  | missingValue => cases h
  | outsideLoop hlevels => cases hlevels
  | noSuchLoop hlevels => cases hlevels

/-- A jump whose level counts one of the loops around it. -/
theorem sound_jump {n : Node} {levels : Option Nat} (hlevels : n.levels? = some levels)
    (hpos : levels.getD 1 ≠ 0) (hle : levels.getD 1 ≤ loops) :
    Site.Sound ⟨.statement result loops, n⟩ := by
  intro category text hbreaks
  cases hbreaks with
  | form hn => obtain h | h := Node.form_of_levels? hlevels <;> simp [Role.forms, h] at hn
  | kind hvalued => simp [Role.valued] at hvalued
  | unexpectedValue => cases hlevels
  | missingValue => cases hlevels
  | outsideLoop => omega
  | noSuchLoop hlevels' hlevel =>
      cases hlevels.symm.trans hlevels'
      omega

/-- A level that counts no loop breaks the rule for its case: there is no loop at all, or not that
one. -/
theorem breaks_of_target {s : Scope} {n : Node} {levels : Option Nat} {f : Fault}
    (hlevels : n.levels? = some levels) (h : s.target levels n = .error f) :
    f.node = n ∧ Breaks (.statement s.result s.loops.length) n f.violation.category f.detail := by
  obtain ⟨result, loops, depth⟩ := s
  simp only [Scope.target] at h
  split at h
  · cases h
  · next hnone =>
      cases h
      rw [Scope.loop?_eq_none_iff] at hnone
      cases loops with
      | nil => exact ⟨rfl, .outsideLoop hlevels⟩
      | cons loop loops => exact ⟨rfl, .noSuchLoop hlevels hnone⟩

theorem checks_target (s : Scope) {n : Node} {levels : Option Nat}
    (hlevels : n.levels? = some levels) :
    Checks (Site.walk ⟨.statement s.result s.loops.length, n⟩) (s.target levels n) := by
  cases h : s.target levels n with
  | error f =>
      obtain ⟨hnode, hbreaks⟩ := breaks_of_target hlevels h
      exact .walk_of_breaks hnode hbreaks
  | ok d =>
      have hloop : ¬ (levels.getD 1 = 0 ∨ s.loops.length < levels.getD 1) := by
        rw [← Scope.loop?_eq_none_iff, Scope.target_eq_ok_iff.mp h]
        exact Option.some_ne_none d
      have hparts : Site.parts ⟨.statement s.result s.loops.length, n⟩ = [] := by
        cases n <;> first | rfl | cases hlevels
      refine .walk_of_sound (sound_jump hlevels (by omega) (by omega)) ?_
      rw [hparts]
      exact .nil d

theorem checks_lowerAll {s : Scope} {stmts : List Node}
    (h : ∀ n ∈ stmts,
      Checks (Site.walk ⟨.statement s.result s.loops.length, n⟩) (n.lower s).result) :
    Checks ((stmts.map (Site.mk (.statement s.result s.loops.length))).flatMap Site.walk)
      (lowerAll s stmts).result := by
  rw [lowerAll_eq_mapM, Traced.result_map, Traced.result_mapM, List.flatMap_map]
  exact (Checks.mapM h).map

theorem checks_lowerBranch {s : Scope} {branch : Option (List Node)}
    (h : ∀ n ∈ branch.getD [],
      Checks (Site.walk ⟨.statement s.result s.loops.length, n⟩) (n.lower s).result) :
    Checks (((branch.getD []).map (Site.mk (.statement s.result s.loops.length))).flatMap Site.walk)
      (lowerBranch s branch).result := by
  cases branch with
  | none => exact .nil none
  | some stmts =>
      simp only [lowerBranch, Traced.result_bind, Traced.result_pure]
      exact (checks_lowerAll h).bind_ok fun code _ => ⟨some code, rfl⟩

theorem checks_returnJump (s : Scope) (p : Position) (value : Option Node) :
    Checks (Site.walk ⟨.statement s.result s.loops.length, .ret p value⟩)
      (s.returnJump value (.ret p value)) := by
  obtain ⟨result, loops, depth⟩ := s
  cases value with
  | none =>
      cases result with
      | none => exact .walk_of_sound (sound_ret rfl) (.nil _)
      | some t => exact .walk_of_breaks rfl .missingValue
  | some v =>
      cases result with
      | none => exact .walk_of_breaks rfl .unexpectedValue
      | some t =>
          have hvalue : Checks ([⟨.term, v⟩].flatMap Site.walk)
              (Scope.returnJump ⟨some t, loops, depth⟩ (some v) (.ret p (some v))) := by
            rw [List.flatMap_singleton]
            exact (checks_operands v).map
          exact .walk_of_sound (sound_ret rfl) hvalue

/-- **Statements are looked at in the order of the lowering.**  Of its scope a statement needs only
the result of the function and the number of loops around it. -/
theorem checks_lower (s : Scope) (n : Node) :
    Checks (Site.walk ⟨.statement s.result s.loops.length, n⟩) (n.lower s).result := by
  -- by the size of the statement; reports do not count, they neither fail nor look at anything
  cases n with
  | localVar p x k => exact .walk_of_sound (sound_statement (by simp [Node.form])) (.nil _)
  | set p storage x v =>
      have hform : (Node.set p storage x v).form ∈ [Form.localVar, .localSet, .globalSet, .forLoop,
          .doLoop, .whileLoop, .ifElse] := by
        cases storage <;> simp
      have hvalue : Checks ([⟨.term, v⟩].flatMap Site.walk)
          ((Node.set p storage x v).lower s).result := by
        simp only [Node.lower, Traced.result_bind, Traced.result_silently, Traced.result_pure,
          List.flatMap_singleton]
        exact ((checks_operands v).map).bind_ok fun code _ => ⟨[code], rfl⟩
      exact .walk_of_sound (sound_statement hform) hvalue
  | ret p value =>
      simp only [Node.lower, Traced.result_bind, Traced.result_silently, Traced.result_pure]
      exact (checks_returnJump s p value).bind_ok fun code _ => ⟨[code], rfl⟩
  | brk p levels =>
      simp only [Node.lower, Traced.result_bind, Traced.result_silently, Traced.result_pure]
      exact (checks_target s rfl).bind_ok fun d _ => ⟨_, rfl⟩
  | cont p levels =>
      simp only [Node.lower, Traced.result_bind, Traced.result_silently, Traced.result_pure]
      exact (checks_target s rfl).bind_ok fun d _ => ⟨_, rfl⟩
  | whileLoop p c body =>
      refine .walk_of_sound (sound_statement (by simp [Node.form])) ?_
      have hbody : Checks _ (lowerAll (s.enter .plain) body).result :=
        checks_lowerAll fun n hn => checks_lower (s.enter .plain) n
      simp only [Site.parts, Node.lower, Traced.result_bind, Traced.result_report,
        Traced.result_silently, Traced.result_pure, List.flatMap_cons]
      exact (checks_exitGuard s.depth c).bind fun _ _ => hbody.bind_ok fun _ _ => ⟨_, rfl⟩
  | doLoop p body c =>
      refine .walk_of_sound (sound_statement (by simp [Node.form])) ?_
      have hbody : Checks _ (lowerAll (s.enter (Shape.ofBody true body)) body).result :=
        checks_lowerAll fun n hn => checks_lower (s.enter (Shape.ofBody true body)) n
      simp only [Site.parts, Node.lower, Traced.result_bind, Traced.result_report,
        Traced.result_silently, Traced.result_pure, List.flatMap_append, List.flatMap_singleton]
      exact hbody.bind fun _ _ => (checks_truthTest c).bind_ok fun _ _ => ⟨_, rfl⟩
  | forLoop p init condition increment body =>
      refine .walk_of_sound (sound_statement (by simp [Node.form])) ?_
      have hguard : Checks (condition.toList.flatMap fun c => Site.walk ⟨.term, c⟩)
          (condition.toList.mapM (Node.exitGuard s.depth)) :=
        .mapM fun c _ => checks_exitGuard s.depth c
      have hbody : Checks _
          (lowerAll (s.enter (Shape.ofBody (!increment.isEmpty) body)) body).result :=
        checks_lowerAll fun n hn => checks_lower (s.enter _) n
      simp only [Site.parts, Node.lower, Traced.result_bind, Traced.result_report,
        Traced.result_silently, Traced.result_pure, List.flatMap_append, List.append_assoc,
        List.flatMap_map]
      refine (checks_assignments init).bind fun _ _ => hguard.bind fun _ _ => ?_
      rw [List.flatMap_map] at hbody
      exact hbody.bind fun _ _ => (checks_assignments increment).bind_ok fun _ _ => ⟨_, rfl⟩
  | ifElse p c yes no =>
      refine .walk_of_sound (sound_statement (by simp [Node.form])) ?_
      have hyes : Checks _ (lowerAll s.deeper yes).result :=
        checks_lowerAll fun n hn => checks_lower s.deeper n
      have hno : Checks _ (lowerBranch s.deeper no).result :=
        checks_lowerBranch fun n hn => checks_lower s.deeper n
      simp only [Site.parts, Node.lower, Traced.result_bind, Traced.result_silently,
        Traced.result_pure, List.flatMap_append, List.flatMap_cons, List.append_assoc]
      exact (checks_truthTest c).bind fun _ _ =>
        hyes.bind fun _ _ => hno.bind_ok fun _ _ => ⟨_, rfl⟩
  | global | get => exact .walk_of_breaks rfl (.form (by simp [Role.forms]))
  | _ => exact .walk_of_breaks rfl (.form (by simp [Role.forms, Node.form]))
termination_by sizeOf n
decreasing_by all_goals exact Node.sizeOf_lt_of_mem_children (by simp [Node.children, hn])

end Statements

/-! ## Functions and modules -/

theorem checks_declaration (n : Node) : Checks (Site.walk ⟨.declaration, n⟩) n.declaration := by
  cases n with
  | localVar p x k =>
      refine .walk_of_kind (s := ⟨.declaration, .localVar p x k⟩) ?_ rfl nofun ?_
      · simp [Role.valued, Node.form]
      · rintro t rfl
        refine .walk_of_sound (sound_of_form ?_ ?_ ?_) (.nil _) <;>
          simp [Role.forms, Node.form, Node.numericKind?, NumericKind.isValue]
  | global | get | set => exact .walk_of_breaks rfl (.form (by simp [Role.forms]))
  | _ => exact .walk_of_breaks rfl (.form (by simp [Role.forms, Node.form]))

theorem checks_declarations (ns : List Node) :
    Checks (ns.flatMap fun n => Site.walk ⟨.declaration, n⟩) (ns.mapM Node.declaration) :=
  .mapM fun n _ => checks_declaration n

theorem checks_parameters (name : String) (n : Node) :
    Checks (Site.walk ⟨.parameters name, n⟩) (n.parameters name) := by
  cases n with
  | paramList p items =>
      have hitems : Checks ((items.map (Site.mk .declaration)).flatMap Site.walk)
          (Node.parameters name (.paramList p items)) := by
        rw [List.flatMap_map]
        exact checks_declarations items
      refine .walk_of_sound (sound_of_form ?_ ?_ ?_) hitems <;>
        simp [Role.forms, Role.valued, Node.form]
  | global | get | set => exact .walk_of_breaks rfl (.form (by simp [Role.forms]))
  | _ => exact .walk_of_breaks rfl (.form (by simp [Role.forms, Node.form]))

theorem checks_resultTypeAt (p : Position) (name : String) (result : NumericKind) (params : Node)
    (body : List Node) :
    Checks (Site.walk ⟨.result, .function p name result params body⟩)
      (result.resultTypeAt (.function p name result params body)) := by
  have hform : (Node.function p name result params body).form ∈ Role.valued .result := by
    simp [Role.valued, Node.form]
  cases result with
  | notApplicable => exact .walk_of_breaks rfl (.kind hform rfl rfl (by simp))
  | value t =>
      refine .walk_of_sound (sound_of_form ?_ ?_ ?_) (.nil _) <;>
        simp [Role.forms, Node.form, Node.numericKind?, NumericKind.isValue]
  | void =>
      refine .walk_of_sound (sound_of_form ?_ ?_ ?_) (.nil _) <;>
        simp [Role.forms, Node.form, Node.numericKind?]

theorem checks_lowerItem (n : Node) : Checks (Site.walk ⟨.item, n⟩) n.lowerItem.result := by
  cases n with
  | global p mutable name k init =>
      refine .walk_of_kind (s := ⟨.item, .global p mutable name k init⟩) ?_ rfl nofun ?_
      · cases mutable <;> simp [Role.valued]
      · rintro t rfl
        refine .walk_of_sound (sound_of_form ?_ ?_ ?_) ?_
        · cases mutable <;> simp [Role.forms]
        · simp [Node.numericKind?, NumericKind.isValue]
        · simp
        · simp only [Site.parts, List.flatMap_singleton]
          cases init with
          | number q k literal =>
              refine .walk_of_sound (sound_of_form ?_ ?_ ?_) (.nil _) <;>
                simp [Role.forms, Role.valued, Node.form]
          | global | get | set => exact .walk_of_breaks rfl (.form (by simp [Role.forms]))
          | _ => exact .walk_of_breaks rfl (.form (by simp [Role.forms, Node.form]))
  | exportFunc p name exported =>
      refine .walk_of_sound (sound_of_form ?_ ?_ ?_) (.nil _) <;>
        simp [Role.forms, Role.valued, Node.form]
  | function p name result params body =>
      refine .walk_of_sound (sound_of_form ?_ ?_ ?_) ?_
      · simp [Role.forms, Node.form]
      · simp [Role.valued, Node.form]
      · simp [Node.form]
      · simp only [Site.parts, Node.lowerItem, Traced.result_bind, Traced.result_report,
          Traced.result_silently, Traced.result_pure, List.flatMap_append, List.flatMap_cons,
          List.cons_append]
        refine (checks_parameters name params).bind fun _ _ => ?_
        refine (checks_resultTypeAt p name result params body).bind fun r hr => ?_
        obtain ⟨rfl, -⟩ := NumericKind.resultTypeAt_eq_ok_iff.mp hr
        rw [List.flatMap_map]
        refine (checks_declarations _).bind fun _ _ => ?_
        exact (checks_lowerAll fun n _ => checks_lower (.ofFunction result.valueType?) n).bind_ok
          fun _ _ => ⟨_, rfl⟩
  | get | set => exact .walk_of_breaks rfl (.form (by simp [Role.forms]))
  | _ => exact .walk_of_breaks rfl (.form (by simp [Role.forms, Node.form]))

theorem checks_lowerModule (program : Node) :
    Checks (Site.walk ⟨.program, program⟩) program.lowerModule.result := by
  cases program with
  | module p items =>
      refine .walk_of_sound (sound_of_form ?_ ?_ ?_) ?_
      · simp [Role.forms, Node.form]
      · simp [Role.valued]
      · simp [Node.form]
      · simp only [Site.parts, Node.lowerModule, Traced.result_bind, Traced.result_report,
          Traced.result_mapM, Traced.result_pure, List.flatMap_map]
        exact (Checks.mapM fun n _ => checks_lowerItem n).bind_ok fun _ _ => ⟨_, rfl⟩
  | global | get | set => exact .walk_of_breaks rfl (.form (by simp [Role.forms]))
  | _ => exact .walk_of_breaks rfl (.form (by simp [Role.forms, Node.form]))

/-- What is looked at in a program, in the order of the lowering. -/
def Node.sites (program : Node) : List Site := Site.walk ⟨.program, program⟩

theorem checks_generate (o : Options) (program : Node) :
    Checks program.sites (generate o program).result := by
  rw [generate, Traced.result_map]
  exact (checks_lowerModule program).map

/-! ## The first violation -/

section Unique

variable {role : Role} {n : Node} {category category' : Category} {text text' : String}

theorem Role.mem_forms_of_mem_valued {form : Form} (h : form ∈ role.valued) :
    form ∈ role.forms := by
  cases role <;> simp only [valued, forms, List.mem_cons, List.not_mem_nil, or_false] at h ⊢ <;>
    tauto

/-- A node of the wrong form breaks no other rule. -/
theorem Breaks.eq_of_form (h : Breaks role n category text) (hform : n.form ∉ role.forms) :
    category = role.category ∧ text = role.misplaced n := by
  cases h with
  | form => exact ⟨rfl, rfl⟩
  | kind hvalued => exact absurd (Role.mem_forms_of_mem_valued hvalued) hform
  | outsideLoop hlevels =>
      obtain h | h := Node.form_of_levels? hlevels <;> simp [Role.forms, h] at hform
  | noSuchLoop hlevels =>
      obtain h | h := Node.form_of_levels? hlevels <;> simp [Role.forms, h] at hform
  | _ => simp [Role.forms, Node.form] at hform

/-- Nor does one whose kind has no values. -/
theorem Breaks.eq_of_kind (h : Breaks role n category text) {k : NumericKind}
    (hvalued : n.form ∈ role.valued) (hk : n.numericKind? = some k) (hvalue : k.isValue = false) :
    category = .unsupportedNumericKind ∧ text = "`" ++ k.name ++ "` is not a value type" := by
  cases h with
  | form hform => exact absurd (Role.mem_forms_of_mem_valued hvalued) hform
  | kind _ hk' =>
      cases hk.symm.trans hk'
      exact ⟨rfl, rfl⟩
  | operator =>
      cases hk
      cases hvalue
  | _ => simp [Role.valued, Node.form] at hvalued

/-- **No node breaks two rules in one role.** -/
theorem Breaks.unique (h : Breaks role n category text) (h' : Breaks role n category' text') :
    category = category' ∧ text = text' := by
  by_cases hform : n.form ∈ role.forms
  · by_cases hkind : ∃ k, n.form ∈ role.valued ∧ n.numericKind? = some k ∧ k.isValue = false
    · obtain ⟨k, hvalued, hk, hvalue⟩ := hkind
      obtain ⟨rfl, rfl⟩ := h.eq_of_kind hvalued hk hvalue
      obtain ⟨rfl, rfl⟩ := h'.eq_of_kind hvalued hk hvalue
      exact ⟨rfl, rfl⟩
    · -- what is left are the rules for single forms
      cases h <;> cases h' <;> simp_all [Node.levels?]
  · obtain ⟨rfl, rfl⟩ := h.eq_of_form hform
    obtain ⟨rfl, rfl⟩ := h'.eq_of_form hform
    exact ⟨rfl, rfl⟩

/-- There is at most one first violation. -/
theorem FirstViolation.unique {sites : List Site} {d d' : Diagnostic} (h : FirstViolation sites d)
    (h' : FirstViolation sites d') : d = d' := by
  obtain ⟨before, site, after, category, text, rfl, hbefore, hbreaks, rfl⟩ := h
  obtain ⟨before', site', after', category', text', hsites, hbefore', hbreaks', rfl⟩ := h'
  -- one of the two lists of sound sites begins with the other, and neither holds a broken one
  induction before generalizing before' with
  | nil =>
      cases before' with
      | nil =>
          cases hsites
          obtain ⟨rfl, rfl⟩ := hbreaks.unique hbreaks'
          rfl
      | cons first before' =>
          cases hsites
          exact absurd hbreaks ((List.forall_mem_cons.mp hbefore').1 _ _)
  | cons first before ih =>
      cases before' with
      | nil =>
          cases hsites
          exact absurd hbreaks' ((List.forall_mem_cons.mp hbefore).1 _ _)
      | cons first' before' =>
          rw [List.forall_mem_cons] at hbefore hbefore'
          exact ih hbefore.2 before' (List.tail_eq_of_cons_eq hsites) hbefore'.2

end Unique

/-- **The diagnostic is that of the first violation.**  A program is reported with a diagnostic
exactly if it is that of the first node, in the order of the lowering, that breaks a rule: it has
the category and the text of the rule, and the position and the summary of the node. -/
theorem reports_iff_first_violation {o : Options} {program : Node} {d : Diagnostic} :
    (∃ f, (generate o program).result = .error f ∧ f.diagnostic = d)
      ↔ ∃ before site after category text,
          program.sites = before ++ site :: after ∧ (∀ earlier ∈ before, earlier.Sound) ∧
            Breaks site.role site.node category text ∧ site.node ∈ program.nodes ∧
            d = .of category text site.node := by
  have hchecks := checks_generate o program
  constructor
  · rintro ⟨f, hf, rfl⟩
    rw [hf] at hchecks
    obtain ⟨before, site, after, category, text, hsites, hbefore, hbreaks, hd⟩ := hchecks
    have hsite : site ∈ program.sites := by simp [hsites]
    exact ⟨before, site, after, category, text, hsites, hbefore, hbreaks,
      Site.node_mem_nodes hsite, hd⟩
  · rintro ⟨before, site, after, category, text, hsites, hbefore, hbreaks, -, rfl⟩
    have hsite : site ∈ program.sites := by simp [hsites]
    cases hresult : (generate o program).result with
    | ok text =>
        rw [hresult] at hchecks
        exact absurd hbreaks (hchecks site hsite _ _)
    | error f =>
        rw [hresult] at hchecks
        exact ⟨f, rfl, FirstViolation.unique hchecks
          ⟨before, site, after, category, text, hsites, hbefore, hbreaks, rfl⟩⟩

-- the body and the condition of this `do` are both wrong, and the body comes first
example :
    (generate .standard (.module .unplaced [.function .unplaced "f" .void (.paramList .unplaced [])
      [.doLoop .unplaced [.brk ⟨1, 2⟩ (some 2)] (.number .unplaced .void "0")]])).result
      = .error ⟨.noSuchLoop 2, .brk ⟨1, 2⟩ (some 2)⟩ :=
  rfl

end WatLowering
