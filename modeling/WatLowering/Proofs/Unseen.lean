import WatLowering.Node.Walk
import WatLowering.Proofs.Rules

/-!
# What the lowering does not see

Some things in a tree never reach the code: where a node was read, what an expression says about its
own kind, a declaration that comes too late.  That the lowering does not see them is a statement
about two runs.  Here the two runs are followed once, for any relation between trees that leaves
alone what does reach the code.

* `Skips` — the second list of statements is the first without some of its declarations.
* `Matches R` — the trees have the same root, as far as the lowering looks at it, and `R` relates
  what stands below.
* `Unseen R F` — related trees match, and a rule broken at related nodes gives faults that `F`
  relates.
* `Same F` — two outcomes are the same value, or faults that `F` relates.  The rules `Same.bind` and
  `Same.mapM` put outcomes together, and there is one lemma for each function of the lowering.
* **`Unseen.same_generate`** — related trees have the same text, or related faults.

**Why the kind of an expression is harmless.**  What an expression says about its kind is looked at
only if the expression has no terms, and such an expression is refused before its kind is asked for.
So the kinds of matching expressions are known to be the same only if the expressions are accepted
(`Unseen.resultKind_eq`).
-/

namespace WatLowering

/-! ## Lists without some declarations -/

/-- The second list is the first without some of its declarations; `R` relates what is kept. -/
inductive Skips (R : Node → Node → Prop) : List Node → List Node → Prop where
  | nil : Skips R [] []
  | skip {p : Position} {x : String} {k : NumericKind} {xs ys : List Node} :
      Skips R xs ys → Skips R (.localVar p x k :: xs) ys
  | keep {a b : Node} {xs ys : List Node} : R a b → Skips R xs ys → Skips R (a :: xs) (b :: ys)

namespace Skips

variable {R S : Node → Node → Prop} {xs ys : List Node}

theorem imp_mem (h : Skips R xs ys) (hRS : ∀ a ∈ xs, ∀ b, R a b → S a b) : Skips S xs ys := by
  induction h with
  | nil => exact .nil
  | skip _ ih => exact .skip (ih (List.forall_mem_cons.mp hRS).2)
  | keep hab _ ih =>
      obtain ⟨hhead, htail⟩ := List.forall_mem_cons.mp hRS
      exact .keep (hhead _ hab) (ih htail)

/-- Nothing has to be left out. -/
theorem of_forall₂ (h : List.Forall₂ R xs ys) : Skips R xs ys := by
  induction h with
  | nil => exact .nil
  | cons hab _ ih => exact .keep hab ih

theorem refl (hR : ∀ n, R n n) (xs : List Node) : Skips R xs xs :=
  .of_forall₂ (List.forall₂_same.mpr fun n _ => hR n)

end Skips

theorem forall₂_imp_mem {R S : Node → Node → Prop} {xs ys : List Node} (h : List.Forall₂ R xs ys)
    (hRS : ∀ a ∈ xs, ∀ b, R a b → S a b) : List.Forall₂ S xs ys :=
  ((List.forall₂_and_left xs ys).mpr ⟨fun _ ha => ha, h⟩).imp fun a b hab => hRS a hab.1 b hab.2

theorem forall₂_toList {α β : Type} {R : α → β → Prop} {x : Option α} {y : Option β}
    (h : Option.Rel R x y) : List.Forall₂ R x.toList y.toList := by
  cases h with
  | some h => exact .cons h .nil
  | none => exact .nil

theorem optionRel_refl {α : Type} {R : α → α → Prop} (hR : ∀ a, R a a) (x : Option α) :
    Option.Rel R x x := by
  cases x with
  | none => exact .none
  | some a => exact .some (hR a)

/-! ## Trees that look the same from above -/

/-- The trees have the same root, positions and the kinds of expressions aside, and what stands
below is related by `R`.  Among statements some declarations may be missing in the second tree, but
none of those in front of the first statement of a function. -/
inductive Matches (R : Node → Node → Prop) : Node → Node → Prop where
  | module {p q : Position} {items items' : List Node} :
      List.Forall₂ R items items' → Matches R (.module p items) (.module q items')
  | global {p q : Position} {mutable : Bool} {name : String} {kind : NumericKind}
      {init init' : Node} :
      R init init' →
      Matches R (.global p mutable name kind init) (.global q mutable name kind init')
  | exportFunc {p q : Position} {name exported : String} :
      Matches R (.exportFunc p name exported) (.exportFunc q name exported)
  | function {p q : Position} {name : String} {result : NumericKind} {params params' : Node}
      {body body' : List Node} :
      R params params' →
      List.Forall₂ R (body.takeWhile Node.isDeclaration) (body'.takeWhile Node.isDeclaration) →
      Skips R (body.dropWhile Node.isDeclaration) (body'.dropWhile Node.isDeclaration) →
      Matches R (.function p name result params body) (.function q name result params' body')
  | paramList {p q : Position} {items items' : List Node} :
      List.Forall₂ R items items' → Matches R (.paramList p items) (.paramList q items')
  | localVar {p q : Position} {name : String} {kind : NumericKind} :
      Matches R (.localVar p name kind) (.localVar q name kind)
  | get {p q : Position} {storage : Storage} {name : String} {kind : NumericKind} :
      Matches R (.get p storage name kind) (.get q storage name kind)
  | set {p q : Position} {storage : Storage} {name : String} {value value' : Node} :
      R value value' → Matches R (.set p storage name value) (.set q storage name value')
  | number {p q : Position} {kind : NumericKind} {literal : String} :
      Matches R (.number p kind literal) (.number q kind literal)
  | expression {p q : Position} {kind kind' : NumericKind} {terms terms' : List Node} :
      List.Forall₂ R terms terms' →
      Matches R (.expression p kind terms) (.expression q kind' terms')
  | operator {p q : Position} {kind : NumericKind} {symbol : String} :
      Matches R (.operator p kind symbol) (.operator q kind symbol)
  | cast {p q : Position} {source target : NumericKind} :
      Matches R (.cast p source target) (.cast q source target)
  | ret {p q : Position} {value value' : Option Node} :
      Option.Rel R value value' → Matches R (.ret p value) (.ret q value')
  | brk {p q : Position} {levels : Option Nat} : Matches R (.brk p levels) (.brk q levels)
  | cont {p q : Position} {levels : Option Nat} : Matches R (.cont p levels) (.cont q levels)
  | forLoop {p q : Position} {init init' : List Node} {condition condition' : Option Node}
      {increment increment' body body' : List Node} :
      List.Forall₂ R init init' → Option.Rel R condition condition' →
      List.Forall₂ R increment increment' → Skips R body body' →
      Matches R (.forLoop p init condition increment body)
        (.forLoop q init' condition' increment' body')
  | doLoop {p q : Position} {body body' : List Node} {condition condition' : Node} :
      Skips R body body' → R condition condition' →
      Matches R (.doLoop p body condition) (.doLoop q body' condition')
  | whileLoop {p q : Position} {condition condition' : Node} {body body' : List Node} :
      R condition condition' → Skips R body body' →
      Matches R (.whileLoop p condition body) (.whileLoop q condition' body')
  | ifElse {p q : Position} {condition condition' : Node} {yes yes' : List Node}
      {no no' : Option (List Node)} :
      R condition condition' → Skips R yes yes' → Option.Rel (Skips R) no no' →
      Matches R (.ifElse p condition yes no) (.ifElse q condition' yes' no')

/-- A tree matches itself. -/
theorem Matches.refl {R : Node → Node → Prop} (hR : ∀ n, R n n) (n : Node) : Matches R n n := by
  have hall : ∀ xs : List Node, List.Forall₂ R xs xs := fun xs =>
    List.forall₂_same.mpr fun x _ => hR x
  have hstmts : ∀ xs : List Node, Skips R xs xs := Skips.refl hR
  cases n with
  | module => exact .module (hall _)
  | global => exact .global (hR _)
  | exportFunc => exact .exportFunc
  | function => exact .function (hR _) (hall _) (hstmts _)
  | paramList => exact .paramList (hall _)
  | localVar => exact .localVar
  | get => exact .get
  | set => exact .set (hR _)
  | number => exact .number
  | expression => exact .expression (hall _)
  | operator => exact .operator
  | cast => exact .cast
  | ret => exact .ret (optionRel_refl hR _)
  | brk => exact .brk
  | cont => exact .cont
  | forLoop => exact .forLoop (hall _) (optionRel_refl hR _) (hall _) (hstmts _)
  | doLoop => exact .doLoop (hstmts _) (hR _)
  | whileLoop => exact .whileLoop (hR _) (hstmts _)
  | ifElse => exact .ifElse (hR _) (hstmts _) (optionRel_refl hstmts _)

/-- What related trees differ in is not seen by the lowering: they match, all the way down, and a
rule that is broken at related nodes gives related faults. -/
structure Unseen (R : Node → Node → Prop) (F : Fault → Fault → Prop) : Prop where
  below {m n : Node} : R m n → Matches R m n
  fault {m n : Node} : R m n → ∀ violation, F ⟨violation, m⟩ ⟨violation, n⟩

/-! ## Outcomes that are the same -/

/-- Two outcomes: the same value, or faults that `F` relates. -/
inductive Same (F : Fault → Fault → Prop) {α : Type} : Except Fault α → Except Fault α → Prop where
  | ok (a : α) : Same F (.ok a) (.ok a)
  | error {f g : Fault} : F f g → Same F (.error f) (.error g)

namespace Same

variable {F : Fault → Fault → Prop} {α β γ : Type}

theorem bind {x y : Except Fault α} {f g : α → Except Fault β} (hx : Same F x y)
    (hf : ∀ a, x = .ok a → Same F (f a) (g a)) : Same F (x >>= f) (y >>= g) := by
  cases hx with
  | ok a => exact hf a rfl
  | error hfault => exact .error hfault

theorem map {x y : Except Fault α} (f : α → β) (hx : Same F x y) : Same F (f <$> x) (f <$> y) := by
  cases hx with
  | ok a => exact .ok (f a)
  | error hfault => exact .error hfault

/-- Steps that report go on as their results do. -/
theorem step {x y : Traced α} {f g : α → Traced β} (hx : Same F x.result y.result)
    (hf : ∀ a, Same F (f a).result (g a).result) : Same F (x >>= f).result (y >>= g).result := by
  rw [Traced.result_bind, Traced.result_bind]
  exact hx.bind fun a _ => hf a

theorem mapM {f : γ → Except Fault β} {xs ys : List γ}
    (h : List.Forall₂ (fun a b => Same F (f a) (f b)) xs ys) :
    Same F (xs.mapM f) (ys.mapM f) := by
  induction h with
  | nil => exact .ok []
  | cons hx _ ih =>
      rw [List.mapM_cons, List.mapM_cons]
      exact hx.bind fun a _ => ih.bind fun as _ => .ok (a :: as)

/-- **A skipped declaration adds no code** and stops nothing. -/
theorem lowerAll_of_skips {s : Scope} {xs ys : List Node}
    (h : Skips (fun a b => Same F (a.lower s).result (b.lower s).result) xs ys) :
    Same F (lowerAll s xs).result (lowerAll s ys).result := by
  induction h with
  | nil => exact .ok []
  | @skip p x k xs ys _ ih =>
      have hskip : (lowerAll s (.localVar p x k :: xs)).result = (lowerAll s xs).result := by
        simp only [lowerAll, Node.lower, bind_assoc, pure_bind, List.nil_append, bind_pure,
          Traced.result_bind]
        rfl
      rw [hskip]
      exact ih
  | keep hab _ ih =>
      rw [lowerAll, lowerAll]
      exact .step hab fun first => .step ih fun others => .ok _

end Same

/-- The last of some terms decides on the kind, if there is one. -/
theorem lastKind_eq_of_forall₂ {xs ys : List Node}
    (h : List.Forall₂ (fun a b => a.resultKind = b.resultKind) xs ys) {k k' : NumericKind}
    (hk : xs ≠ [] ∨ k = k') : lastKind k xs = lastKind k' ys := by
  induction h generalizing k k' with
  | nil => exact hk.resolve_left fun hne => hne rfl
  | cons hx _ ih => exact ih (.inr hx)

/-- A declaration does not continue a loop. -/
theorem anyContinuesTo_eq_of_skips {nesting : Nat} {xs ys : List Node}
    (h : Skips (fun a b => a.continuesTo nesting = b.continuesTo nesting) xs ys) :
    anyContinuesTo nesting xs = anyContinuesTo nesting ys := by
  induction h with
  | nil => rfl
  | skip _ ih => simpa [anyContinuesTo, Node.continuesTo] using ih
  | keep hab _ ih => rw [anyContinuesTo, hab, ih, anyContinuesTo]

namespace Unseen

variable {R : Node → Node → Prop} {F : Fault → Fault → Prop} (hR : Unseen R F) {m n : Node}

include hR

/-! ## Expressions -/

theorem same_fault (h : R m n) {α : Type} (violation : Violation) :
    Same F (.error ⟨violation, m⟩ : Except Fault α) (.error ⟨violation, n⟩) :=
  .error (hR.fault h violation)

theorem same_valueTypeAt (h : R m n) (k : NumericKind) :
    Same F (k.valueTypeAt m) (k.valueTypeAt n) := by
  rw [NumericKind.valueTypeAt, NumericKind.valueTypeAt]
  cases k.valueType? with
  | none => exact hR.same_fault h _
  | some t => exact .ok t

theorem same_leaf (h : R m n) : Same F m.leaf n.leaf := by
  cases hR.below h with
  | number => exact (hR.same_valueTypeAt h _).bind fun t _ => .ok _
  | get => exact (hR.same_valueTypeAt h _).bind fun t _ => .ok _
  | operator =>
      refine (hR.same_valueTypeAt h _).bind fun t _ => ?_
      split
      · exact .ok _
      · exact hR.same_fault h _
  | cast =>
      rw [Node.leaf, Node.leaf]
      split
      · exact .ok _
      · exact .ok _
      · exact hR.same_fault h _
  | _ => exact hR.same_fault h _

theorem same_operands (m : Node) : ∀ n, R m n → Same F m.operands n.operands := by
  induction m using Node.childInduction with
  | node m ih =>
      intro n h
      have hleaf : Same F (m.leaf.map Option.toList) (n.leaf.map Option.toList) :=
        (hR.same_leaf h).map Option.toList
      cases hR.below h with
      | expression hterms =>
          have hmapM := Same.mapM (forall₂_imp_mem hterms ih)
          rw [Node.operands, Node.operands, operandsAll_eq_mapM, operandsAll_eq_mapM]
          cases hterms with
          | nil => exact hR.same_fault h _
          | cons _ _ => exact hmapM.map List.flatten
      | _ => exact hleaf

/-- **What an expression says about its kind is not looked at** where the expression is accepted. -/
theorem resultKind_eq (m : Node) :
    ∀ n, R m n → ∀ ops, m.operands = .ok ops → m.resultKind = n.resultKind := by
  induction m using Node.childInduction with
  | node m ih =>
      intro n h ops hops
      cases hR.below h with
      | @expression p q k k' terms terms' hterms =>
          have hne : terms ≠ [] := by
            rintro rfl
            cases hops
          rw [Node.operands, if_neg (by simpa using hne), operandsAll_eq_mapM,
            map_eq_ok_iff] at hops
          obtain ⟨parts, hparts, -⟩ := hops
          have haccepted : ∀ term ∈ terms, ∃ ops, term.operands = .ok ops :=
            exists_mapM_eq_ok_iff.mp ⟨parts, hparts⟩
          refine lastKind_eq_of_forall₂ (forall₂_imp_mem hterms fun term hmem term' hrel => ?_)
            (.inl hne)
          obtain ⟨ops', hops'⟩ := haccepted term hmem
          exact ih term hmem term' hrel ops' hops'
      | _ => rfl

/-- What a condition becomes depends on its instructions and on the type that is read off it. -/
theorem same_condition (h : R m n) {α : Type} (f : ValueType → List Instr → α) :
    Same F
      (do let ops ← m.operands; let t ← m.resultKind.valueTypeAt m; return f t ops)
      (do let ops ← n.operands; let t ← n.resultKind.valueTypeAt n; return f t ops) := by
  refine (hR.same_operands m n h).bind fun ops hops => ?_
  -- only now the kind is asked for, and the expression is known to have terms
  rw [← hR.resultKind_eq m n h ops hops]
  exact (hR.same_valueTypeAt h _).bind fun t _ => .ok _

theorem same_truthTest (h : R m n) : Same F m.truthTest n.truthTest :=
  hR.same_condition h Test.truth

theorem same_exitGuard (depth : Nat) (h : R m n) : Same F (m.exitGuard depth) (n.exitGuard depth) :=
  hR.same_condition h fun t ops => Code.brIf (.exit depth) (.exit t ops)

/-! ## Statements -/

theorem same_assignment (h : R m n) : Same F m.assignment n.assignment := by
  cases hR.below h with
  | set hvalue => exact .bind (hR.same_operands _ _ hvalue) fun ops _ => .ok _
  | _ => exact hR.same_fault h _

theorem same_assignments {xs ys : List Node} (h : List.Forall₂ R xs ys) :
    Same F (xs.mapM Node.assignment) (ys.mapM Node.assignment) :=
  .mapM (h.imp fun _ _ hab => hR.same_assignment hab)

theorem same_target (h : R m n) (s : Scope) (levels : Option Nat) :
    Same F (s.target levels m) (s.target levels n) := by
  rw [Scope.target, Scope.target]
  cases s.loop? (levels.getD 1) with
  | none => exact hR.same_fault h _
  | some d => exact .ok d

theorem same_returnJump (h : R m n) (s : Scope) {value value' : Option Node}
    (hvalue : Option.Rel R value value') :
    Same F (s.returnJump value m) (s.returnJump value' n) := by
  cases hvalue with
  | none =>
      cases hresult : s.result with
      | none => simpa [Scope.returnJump, hresult] using Same.ok _
      | some t => simpa [Scope.returnJump, hresult] using hR.same_fault h _
  | some hvalue =>
      cases hresult : s.result with
      | none => simpa [Scope.returnJump, hresult] using hR.same_fault h _
      | some t =>
          simp only [Scope.returnJump, hresult]
          exact .bind (hR.same_operands _ _ hvalue) fun ops _ => .ok _

theorem continuesTo_eq (m : Node) :
    ∀ n, R m n → ∀ nesting, m.continuesTo nesting = n.continuesTo nesting := by
  induction m using Node.childInduction with
  | node m ih =>
      intro n h nesting
      have hlist : ∀ (k : Nat) (xs ys : List Node), Skips R xs ys →
          (∀ x ∈ xs, x ∈ m.children) → anyContinuesTo k xs = anyContinuesTo k ys := by
        intro k xs ys hxy hsub
        exact anyContinuesTo_eq_of_skips (hxy.imp_mem fun a ha b hab => ih a (hsub a ha) b hab k)
      cases hR.below h with
      | whileLoop _ hbody => exact hlist _ _ _ hbody fun _ => List.mem_cons_of_mem _
      | doLoop hbody _ => exact hlist _ _ _ hbody (by simp +contextual [Node.children])
      | forLoop _ _ _ hbody => exact hlist _ _ _ hbody (by simp +contextual [Node.children])
      | ifElse _ hyes hno =>
          have hyes := hlist nesting _ _ hyes (by simp +contextual [Node.children])
          rw [Node.continuesTo, Node.continuesTo, hyes]
          cases hno with
          | none => rfl
          | some hno =>
              rw [branchContinuesTo, branchContinuesTo,
                hlist nesting _ _ hno (by simp +contextual [Node.children])]
      | _ => rfl

/-- Related bodies ask for the same shape. -/
theorem shape_eq (between : Bool) {body body' : List Node} (h : Skips R body body') :
    Shape.ofBody between body = Shape.ofBody between body' := by
  have hany : anyContinuesTo 0 body = anyContinuesTo 0 body' :=
    anyContinuesTo_eq_of_skips (h.imp_mem fun a _ b hab => hR.continuesTo_eq a b hab 0)
  rw [Shape.ofBody, Shape.ofBody, hany]

/-- **Related statements become the same code**, or fail with related faults. -/
theorem same_lower (m : Node) : ∀ n, R m n → ∀ s, Same F (m.lower s).result (n.lower s).result := by
  induction m using Node.childInduction with
  | node m ih =>
      intro n h s
      have hall : ∀ {s' : Scope} {xs ys : List Node}, Skips R xs ys →
          (∀ x ∈ xs, x ∈ m.children) →
          Same F (lowerAll s' xs).result (lowerAll s' ys).result := by
        intro s' xs ys hxy hsub
        exact .lowerAll_of_skips (hxy.imp_mem fun a ha b hab => ih a (hsub a ha) b hab s')
      cases hR.below h with
      | localVar => exact .ok []
      | set =>
          rw [Node.lower, Node.lower]
          exact .step (hR.same_assignment h) fun code => .ok _
      | ret hvalue =>
          rw [Node.lower, Node.lower]
          exact .step (hR.same_returnJump h s hvalue) fun code => .ok _
      | brk =>
          rw [Node.lower, Node.lower]
          exact .step (hR.same_target h s _) fun d => .ok _
      | cont =>
          rw [Node.lower, Node.lower]
          exact .step (hR.same_target h s _) fun d => .ok _
      | whileLoop hcondition hbody =>
          rw [Node.lower, Node.lower]
          exact .step (.ok ()) fun _ => .step (hR.same_exitGuard _ hcondition) fun guard =>
            .step (hall hbody (by simp +contextual [Node.children])) fun inner => .ok _
      | doLoop hbody hcondition =>
          rw [Node.lower, Node.lower, hR.shape_eq true hbody]
          exact .step (.ok ()) fun _ =>
            .step (hall hbody (by simp +contextual [Node.children])) fun inner =>
            .step (hR.same_truthTest hcondition) fun test => .ok _
      | @forLoop p q init init' c c' increment increment' body body' hinit hcondition hincrement
          hbody =>
          have hempty : increment.isEmpty = increment'.isEmpty := by cases hincrement <;> rfl
          have hguard : Same F (c.toList.mapM (Node.exitGuard s.depth))
              (c'.toList.mapM (Node.exitGuard s.depth)) :=
            .mapM ((forall₂_toList hcondition).imp fun _ _ hab => hR.same_exitGuard _ hab)
          rw [Node.lower, Node.lower, hempty, hR.shape_eq _ hbody]
          exact .step (hR.same_assignments hinit) fun first => .step (.ok ()) fun _ =>
            .step hguard fun guard =>
            .step (hall hbody (by simp +contextual [Node.children])) fun inner =>
            .step (hR.same_assignments hincrement) fun step => .ok _
      | ifElse hcondition hyes hno =>
          rw [Node.lower, Node.lower]
          refine .step (hR.same_truthTest hcondition) fun test =>
            .step (hall hyes (by simp +contextual [Node.children])) fun yes =>
            .step ?_ fun no => .ok _
          cases hno with
          | none => exact .ok none
          | some hno =>
              rw [lowerBranch, lowerBranch]
              exact .step (hall hno (by simp +contextual [Node.children])) fun branch => .ok _
      | _ => exact hR.same_fault h _

/-! ## Functions and modules -/

theorem same_declaration (h : R m n) : Same F m.declaration n.declaration := by
  cases hR.below h with
  | localVar => exact (hR.same_valueTypeAt h _).bind fun t _ => .ok _
  | _ => exact hR.same_fault h _

theorem same_parameters (h : R m n) (name : String) :
    Same F (m.parameters name) (n.parameters name) := by
  cases hR.below h with
  | paramList hitems => exact .mapM (hitems.imp fun _ _ hab => hR.same_declaration hab)
  | _ => exact hR.same_fault h _

theorem same_resultTypeAt (h : R m n) (k : NumericKind) :
    Same F (k.resultTypeAt m) (k.resultTypeAt n) := by
  rw [NumericKind.resultTypeAt, NumericKind.resultTypeAt]
  split
  · exact .ok none
  · exact (hR.same_valueTypeAt h k).map some

/-- **Related items become the same item**, or fail with related faults. -/
theorem same_lowerItem (h : R m n) : Same F m.lowerItem.result n.lowerItem.result := by
  cases hR.below h with
  | global hinit =>
      rw [Node.lowerItem, Node.lowerItem, Traced.result_silently, Traced.result_silently]
      refine (hR.same_valueTypeAt h _).bind fun t _ => ?_
      -- whatever else stands in the place of the literal is to blame
      cases hR.below hinit with
      | number => exact .ok _
      | _ => exact hR.same_fault hinit _
  | exportFunc => exact .ok _
  | function hparams hlocals hstatements =>
      rw [Node.lowerItem, Node.lowerItem]
      exact .step (.ok ()) fun _ => .step (hR.same_parameters hparams _) fun ps =>
        .step (hR.same_resultTypeAt h _) fun r =>
        .step (.mapM (hlocals.imp fun _ _ hab => hR.same_declaration hab)) fun locals =>
        .step (.lowerAll_of_skips (hstatements.imp_mem fun a _ b hab => hR.same_lower a b hab _))
          fun code => .ok _
  | _ => exact hR.same_fault h _

theorem same_lowerModule (h : R m n) : Same F m.lowerModule.result n.lowerModule.result := by
  cases hR.below h with
  | module hitems =>
      rw [Node.lowerModule, Node.lowerModule]
      refine .step (.ok ()) fun _ => .step ?_ fun items => .ok _
      rw [Traced.result_mapM, Traced.result_mapM]
      exact .mapM (hitems.imp fun _ _ hab => hR.same_lowerItem hab)
  | _ => exact hR.same_fault h _

/-- **Related trees have the same text**, or fail with related faults. -/
theorem same_generate (h : R m n) (o : Options) :
    Same F (generate o m).result (generate o n).result := by
  rw [generate, generate, Traced.result_map, Traced.result_map]
  exact (hR.same_lowerModule h).map (Module.render o)

end Unseen

end WatLowering
