import WatLowering.Proofs.Unseen

/-!
# Positions and annotations do not reach the code

A tree carries two things besides what it says: where each node was read, and what kind each
expression is thought to have.  Both are handed through the whole lowering, positions into every
fault and message, annotations into whatever asks for the kind of an expression.  Here two trees are
compared that differ in nothing else.

* `Alike` — trees that are equal up to positions, or up to positions and annotations.
* `Corresponds` — nodes at the same place of two trees.
* `AlikeAt` — nodes that are alike, at the same place of two trees; the lowering does not see what
  they differ in (`unseen_alikeAt`).
* **`positions_and_annotations_are_inert`** — alike trees have the same text, or are refused for the
  same reason at corresponding nodes.

Both runs are followed in `Proofs/Unseen`; what is left to do here is to keep track of places.
-/

namespace WatLowering

/-! ## Trees that differ in nothing else -/

/-- The trees are equal except for the positions of nodes and, if `annotations` is set, for the
kinds that expressions state for themselves. -/
inductive Alike (annotations : Bool) : Node → Node → Prop where
  | module {p q : Position} {items items' : List Node} :
      List.Forall₂ (Alike annotations) items items' →
      Alike annotations (.module p items) (.module q items')
  | global {p q : Position} {mutable : Bool} {name : String} {kind : NumericKind}
      {init init' : Node} :
      Alike annotations init init' →
      Alike annotations (.global p mutable name kind init) (.global q mutable name kind init')
  | exportFunc {p q : Position} {name exported : String} :
      Alike annotations (.exportFunc p name exported) (.exportFunc q name exported)
  | function {p q : Position} {name : String} {result : NumericKind} {params params' : Node}
      {body body' : List Node} :
      Alike annotations params params' → List.Forall₂ (Alike annotations) body body' →
      Alike annotations (.function p name result params body)
        (.function q name result params' body')
  | paramList {p q : Position} {items items' : List Node} :
      List.Forall₂ (Alike annotations) items items' →
      Alike annotations (.paramList p items) (.paramList q items')
  | localVar {p q : Position} {name : String} {kind : NumericKind} :
      Alike annotations (.localVar p name kind) (.localVar q name kind)
  | get {p q : Position} {storage : Storage} {name : String} {kind : NumericKind} :
      Alike annotations (.get p storage name kind) (.get q storage name kind)
  | set {p q : Position} {storage : Storage} {name : String} {value value' : Node} :
      Alike annotations value value' →
      Alike annotations (.set p storage name value) (.set q storage name value')
  | number {p q : Position} {kind : NumericKind} {literal : String} :
      Alike annotations (.number p kind literal) (.number q kind literal)
  | expression {p q : Position} {kind kind' : NumericKind} {terms terms' : List Node} :
      (annotations = false → kind = kind') → List.Forall₂ (Alike annotations) terms terms' →
      Alike annotations (.expression p kind terms) (.expression q kind' terms')
  | operator {p q : Position} {kind : NumericKind} {symbol : String} :
      Alike annotations (.operator p kind symbol) (.operator q kind symbol)
  | cast {p q : Position} {source target : NumericKind} :
      Alike annotations (.cast p source target) (.cast q source target)
  | ret {p q : Position} {value value' : Option Node} :
      Option.Rel (Alike annotations) value value' → Alike annotations (.ret p value) (.ret q value')
  | brk {p q : Position} {levels : Option Nat} : Alike annotations (.brk p levels) (.brk q levels)
  | cont {p q : Position} {levels : Option Nat} :
      Alike annotations (.cont p levels) (.cont q levels)
  | forLoop {p q : Position} {init init' : List Node} {condition condition' : Option Node}
      {increment increment' body body' : List Node} :
      List.Forall₂ (Alike annotations) init init' →
      Option.Rel (Alike annotations) condition condition' →
      List.Forall₂ (Alike annotations) increment increment' →
      List.Forall₂ (Alike annotations) body body' →
      Alike annotations (.forLoop p init condition increment body)
        (.forLoop q init' condition' increment' body')
  | doLoop {p q : Position} {body body' : List Node} {condition condition' : Node} :
      List.Forall₂ (Alike annotations) body body' → Alike annotations condition condition' →
      Alike annotations (.doLoop p body condition) (.doLoop q body' condition')
  | whileLoop {p q : Position} {condition condition' : Node} {body body' : List Node} :
      Alike annotations condition condition' → List.Forall₂ (Alike annotations) body body' →
      Alike annotations (.whileLoop p condition body) (.whileLoop q condition' body')
  | ifElse {p q : Position} {condition condition' : Node} {yes yes' : List Node}
      {no no' : Option (List Node)} :
      Alike annotations condition condition' → List.Forall₂ (Alike annotations) yes yes' →
      Option.Rel (List.Forall₂ (Alike annotations)) no no' →
      Alike annotations (.ifElse p condition yes no) (.ifElse q condition' yes' no')

/-- Nodes at the same place of two trees. -/
inductive Corresponds : Node → Node → Node → Node → Prop where
  | root {m n : Node} : Corresponds m n m n
  | child {m n c c' a b : Node} :
      (c, c') ∈ m.children.zip n.children → Corresponds c c' a b → Corresponds m n a b

namespace Alike

variable {annotations : Bool} {m n : Node}

theorem form_eq (h : Alike annotations m n) : m.form = n.form := by
  cases h with
  | @global p q mutable => cases mutable <;> rfl
  | @get p q storage => cases storage <;> rfl
  | @set p q storage => cases storage <;> rfl
  | _ => rfl

/-- Trees that differ in positions only look the same to a diagnostic. -/
theorem summary_eq (h : Alike false m n) : Summary.of m = Summary.of n := by
  have hkind : m.numericKind? = n.numericKind? := by
    cases h with
    | expression hkind _ => rw [hkind rfl]; rfl
    | _ => rfl
  have hlabel : m.label? = n.label? := by cases h <;> rfl
  rw [Summary.of, Summary.of, h.form_eq, hkind, hlabel]

/-- The children of alike trees are alike, place by place. -/
theorem children (h : Alike annotations m n) :
    List.Forall₂ (Alike annotations) m.children n.children := by
  cases h with
  | module hitems => exact hitems
  | global hinit => exact .cons hinit .nil
  | function hparams hbody => exact .cons hparams hbody
  | paramList hitems => exact hitems
  | set hvalue => exact .cons hvalue .nil
  | expression _ hterms => exact hterms
  | ret hvalue => exact forall₂_toList hvalue
  | forLoop hinit hcondition hincrement hbody =>
      exact List.rel_append
        (List.rel_append (List.rel_append hinit (forall₂_toList hcondition)) hincrement) hbody
  | doLoop hbody hcondition => exact List.rel_append hbody (.cons hcondition .nil)
  | whileLoop hcondition hbody => exact .cons hcondition hbody
  | ifElse hcondition hyes hno =>
      refine .cons hcondition (List.rel_append hyes ?_)
      cases hno with
      | some hno => exact hno
      | none => exact .nil
  | _ => exact .nil

theorem of_corresponds {a b : Node} (hab : Corresponds m n a b) (h : Alike annotations m n) :
    Alike annotations a b := by
  induction hab with
  | root => exact h
  | child hplace _ ih => exact ih ((List.forall₂_iff_zip.mp h.children).2 hplace)

end Alike

/-! ## Alike nodes at the same place -/

/-- The nodes are alike, and stand at the same place of the trees `r` and `r'`. -/
structure AlikeAt (r r' m n : Node) : Prop where
  alike : Alike true m n
  place : Corresponds r r' m n

theorem Corresponds.snoc {r r' m n a b : Node} (h : Corresponds r r' m n)
    (hplace : (a, b) ∈ m.children.zip n.children) : Corresponds r r' a b := by
  induction h with
  | root => exact .child hplace .root
  | child hc _ ih => exact .child hc (ih hplace)

namespace AlikeAt

variable {r r' m n : Node}

theorem child (h : AlikeAt r r' m n) {a b : Node} (hab : Alike true a b)
    (hplace : (a, b) ∈ m.children.zip n.children) : AlikeAt r r' a b :=
  ⟨hab, h.place.snoc hplace⟩

/-- Lists that are alike one by one, and stand at the same places below. -/
theorem children (h : AlikeAt r r' m n) {xs ys : List Node} (hxy : List.Forall₂ (Alike true) xs ys)
    (hplaces : xs.zip ys ⊆ m.children.zip n.children) : List.Forall₂ (AlikeAt r r') xs ys := by
  obtain ⟨hlength, halike⟩ := List.forall₂_iff_zip.mp hxy
  exact List.forall₂_iff_zip.mpr ⟨hlength, fun hab => h.child (halike hab) (hplaces hab)⟩

theorem option (h : AlikeAt r r' m n) {x y : Option Node} (hxy : Option.Rel (Alike true) x y)
    (hplaces : x.toList.zip y.toList ⊆ m.children.zip n.children) :
    Option.Rel (AlikeAt r r') x y := by
  cases hxy with
  | none => exact .none
  | some hab => exact .some (h.child hab (hplaces (by simp)))

/-- The declarations in front of alike statements are as many, and alike. -/
theorem span_isDeclaration {xs ys : List Node} (h : List.Forall₂ (AlikeAt r r') xs ys) :
    List.Forall₂ (AlikeAt r r') (xs.takeWhile Node.isDeclaration)
        (ys.takeWhile Node.isDeclaration) ∧
      List.Forall₂ (AlikeAt r r') (xs.dropWhile Node.isDeclaration)
        (ys.dropWhile Node.isDeclaration) := by
  induction h with
  | nil => exact ⟨.nil, .nil⟩
  | @cons a b xs ys hab hxy ih =>
      have hdeclares : a.isDeclaration = b.isDeclaration := by cases hab.alike <;> rfl
      rw [List.takeWhile_cons, List.takeWhile_cons, List.dropWhile_cons, List.dropWhile_cons,
        hdeclares]
      split
      · exact ⟨.cons hab ih.1, ih.2⟩
      · exact ⟨.nil, .cons hab hxy⟩

/-- Alike nodes match, and what stands below is alike at the same place again. -/
theorem matches_below (h : AlikeAt r r' m n) : Matches (AlikeAt r r') m n := by
  cases h.alike with
  | module hitems => exact .module (h.children hitems (List.Subset.refl _))
  | global hinit => exact .global (h.child hinit (by simp [Node.children]))
  | exportFunc => exact .exportFunc
  | function hparams hbody =>
      obtain ⟨hlocals, hstatements⟩ :=
        span_isDeclaration (h.children hbody (by simp [Node.children]))
      exact .function (h.child hparams (by simp [Node.children])) hlocals (.of_forall₂ hstatements)
  | paramList hitems => exact .paramList (h.children hitems (List.Subset.refl _))
  | localVar => exact .localVar
  | get => exact .get
  | set hvalue => exact .set (h.child hvalue (by simp [Node.children]))
  | number => exact .number
  | expression _ hterms => exact .expression (h.children hterms (List.Subset.refl _))
  | operator => exact .operator
  | cast => exact .cast
  | ret hvalue => exact .ret (h.option hvalue (List.Subset.refl _))
  | brk => exact .brk
  | cont => exact .cont
  | @forLoop p q init init' c c' increment increment' body body' hinit hcondition hincrement
      hbody =>
      -- the parts of the loop are its children, in an order of their own
      have hplaces : (Node.forLoop p init c increment body).children.zip
            (Node.forLoop q init' c' increment' body').children
          = init.zip init' ++ c.toList.zip c'.toList ++ increment.zip increment'
            ++ body.zip body' := by
        have hfront := List.rel_append hinit (forall₂_toList hcondition)
        have hheader := List.rel_append hfront hincrement
        rw [Node.children, Node.children, List.zip_append hheader.length_eq,
          List.zip_append hfront.length_eq, List.zip_append hinit.length_eq]
      refine .forLoop (h.children hinit ?_) (h.option hcondition ?_) (h.children hincrement ?_)
        (.of_forall₂ (h.children hbody ?_))
      all_goals
        intro pair hpair
        simp [hplaces, hpair]
  | doLoop hbody hcondition =>
      refine .doLoop (.of_forall₂ (h.children hbody ?_)) (h.child hcondition ?_)
      · simp [Node.children, List.zip_append hbody.length_eq]
      · simp [Node.children, List.zip_append hbody.length_eq]
  | whileLoop hcondition hbody =>
      refine .whileLoop (h.child hcondition ?_) (.of_forall₂ (h.children hbody ?_))
      · simp [Node.children]
      · simp [Node.children]
  | @ifElse p q c c' yes yes' no no' hcondition hyes hno =>
      have hplaces : (Node.ifElse p c yes no).children.zip (Node.ifElse q c' yes' no').children
          = (c, c') :: (yes.zip yes' ++ (no.getD []).zip (no'.getD [])) := by
        rw [Node.children, Node.children, List.cons_append, List.cons_append,
          List.zip_cons_cons, List.zip_append hyes.length_eq]
      refine .ifElse (h.child hcondition ?_) (.of_forall₂ (h.children hyes ?_)) ?_
      · simp [hplaces]
      · simp [hplaces]
      · cases hno with
        | none => exact .none
        | some hno => exact .some (.of_forall₂ (h.children hno (by simp [hplaces])))

end AlikeAt

/-- **Positions and annotations are not seen.**  Where one tree is refused the other one is too, by
the same rule and at the same place. -/
theorem unseen_alikeAt (r r' : Node) :
    Unseen (AlikeAt r r')
      fun f f' => f.violation = f'.violation ∧ Corresponds r r' f.node f'.node where
  below h := h.matches_below
  fault h _ := ⟨rfl, h.place⟩

/-! ## Generating -/

/-- **Positions and annotations never influence code.**  Two trees that are equal except for the
positions of their nodes and the kinds that their expressions state have the same text under all
options; or both are refused, in the same category and with the same words, and the nodes to blame
stand at the same place.  If the trees differ in positions only, the reports also summarise the
blamed nodes in the same way. -/
theorem positions_and_annotations_are_inert (o : Options) {m n : Node} (h : Alike true m n) :
    (∃ text, (generate o m).result = .ok text ∧ (generate o n).result = .ok text) ∨
    ∃ f f', (generate o m).result = .error f ∧ (generate o n).result = .error f' ∧
      f.diagnostic.category = f'.diagnostic.category ∧
      f.diagnostic.detail = f'.diagnostic.detail ∧
      Corresponds m n f.node f'.node ∧
      (Alike false m n → f.diagnostic.summary = f'.diagnostic.summary) := by
  have hsame := (unseen_alikeAt m n).same_generate ⟨h, .root⟩ o
  generalize (generate o m).result = x at hsame ⊢
  generalize (generate o n).result = y at hsame ⊢
  cases hsame with
  | ok text => exact .inl ⟨text, rfl, rfl⟩
  | @error f f' hff' =>
      obtain ⟨violation, a⟩ := f
      obtain ⟨_, b⟩ := f'
      obtain ⟨rfl, hab⟩ := hff'
      have hform : a.form = b.form := (h.of_corresponds hab).form_eq
      refine .inr ⟨_, _, rfl, rfl, rfl, ?_, hab, fun hpositions => ?_⟩
      · show Fault.detail ⟨violation, a⟩ = Fault.detail ⟨violation, b⟩
        rw [Fault.detail, Fault.detail, hform]
      · exact (Alike.of_corresponds hab hpositions).summary_eq

/-- A loop whose condition has no terms, all of it read at one place. -/
def emptyCondition (p : Position) (kind : NumericKind) : Node :=
  .module p [.function p "f" .void (.paramList p [])
    [.whileLoop p (.expression p kind []) [.cont p none]]]

/-- Read at other places and with another annotation, the empty condition is refused in the same
words. -/
theorem emptyCondition_refused_alike :
    ∃ f f', (generate .standard (emptyCondition ⟨3, 7⟩ (.value .i64))).result = .error f ∧
      (generate .standard (emptyCondition .unplaced .void)).result = .error f' ∧
      f.node = .expression ⟨3, 7⟩ (.value .i64) [] ∧ f'.node = .expression .unplaced .void [] ∧
      f.diagnostic.detail = f'.diagnostic.detail := by
  have halike : Alike true (emptyCondition ⟨3, 7⟩ (.value .i64)) (emptyCondition .unplaced .void) :=
    .module (.cons (.function (.paramList .nil)
      (.cons (.whileLoop (.expression nofun .nil) (.cons .cont .nil)) .nil)) .nil)
  rcases positions_and_annotations_are_inert .standard halike with
    ⟨text, hm, -⟩ | ⟨f, f', hm, hn, -, hdetail, -, -⟩
  · cases hm
  · refine ⟨f, f', hm, hn, ?_, ?_, hdetail⟩
    · cases hm
      rfl
    · cases hn
      rfl

end WatLowering
