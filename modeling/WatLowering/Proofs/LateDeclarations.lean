import WatLowering.Proofs.LocalVariables
import WatLowering.Proofs.Unseen

/-!
# Declarations that come too late

A declaration in front of the first statement of a function is a local variable.  Anywhere else
among statements it is skipped.

* `Thins` — the second tree is the first without some of the declarations that come too late, at any
  depth and in any number.  What stands in front of the first statement of a function stays.
* `told` — what a caller learns about an outcome: a value, or a diagnostic.  Two outcomes that agree
  in it may still differ in the tree below the blamed node.
* `unseen_thins` — the lowering does not see what is left out: statements become the same code with
  and without late declarations, loops of the same shapes included, or the same fault is reported.
* **`hoisting_is_exact`** — a function has one line for each declaration in front of its first
  statement, and no other local variable; and leaving out late declarations changes nothing.

**Deleting is not reporting.**  A late declaration is mentioned in the log, so the log is the one
thing that does change.
-/

namespace WatLowering

/-! ## Trees without some late declarations -/

/-- The second tree is the first without some of the declarations among the statements of a
function, a loop or a conditional, those in front of the first statement of a function excepted. -/
inductive Thins : Node → Node → Prop where
  | same (n : Node) : Thins n n
  | module {p : Position} {items items' : List Node} :
      List.Forall₂ Thins items items' → Thins (.module p items) (.module p items')
  | global {p : Position} {mutable : Bool} {name : String} {kind : NumericKind}
      {init init' : Node} :
      Thins init init' →
      Thins (.global p mutable name kind init) (.global p mutable name kind init')
  | function {p : Position} {name : String} {result : NumericKind} {params params' : Node}
      {body rest : List Node} :
      Thins params params' → Skips Thins (body.dropWhile Node.isDeclaration) rest →
      Thins (.function p name result params body)
        (.function p name result params' (body.takeWhile Node.isDeclaration ++ rest))
  | paramList {p : Position} {items items' : List Node} :
      List.Forall₂ Thins items items' → Thins (.paramList p items) (.paramList p items')
  | set {p : Position} {storage : Storage} {name : String} {value value' : Node} :
      Thins value value' → Thins (.set p storage name value) (.set p storage name value')
  | expression {p : Position} {kind : NumericKind} {terms terms' : List Node} :
      List.Forall₂ Thins terms terms' →
      Thins (.expression p kind terms) (.expression p kind terms')
  | ret {p : Position} {value value' : Node} :
      Thins value value' → Thins (.ret p (some value)) (.ret p (some value'))
  | forLoop {p : Position} {init init' : List Node} {condition condition' : Option Node}
      {increment increment' body body' : List Node} :
      List.Forall₂ Thins init init' → Option.Rel Thins condition condition' →
      List.Forall₂ Thins increment increment' → Skips Thins body body' →
      Thins (.forLoop p init condition increment body)
        (.forLoop p init' condition' increment' body')
  | doLoop {p : Position} {body body' : List Node} {condition condition' : Node} :
      Skips Thins body body' → Thins condition condition' →
      Thins (.doLoop p body condition) (.doLoop p body' condition')
  | whileLoop {p : Position} {condition condition' : Node} {body body' : List Node} :
      Thins condition condition' → Skips Thins body body' →
      Thins (.whileLoop p condition body) (.whileLoop p condition' body')
  | ifElse {p : Position} {condition condition' : Node} {yes yes' : List Node}
      {no no' : Option (List Node)} :
      Thins condition condition' → Skips Thins yes yes' → Option.Rel (Skips Thins) no no' →
      Thins (.ifElse p condition yes no) (.ifElse p condition' yes' no')

theorem Thins.isDeclaration_eq {m n : Node} (h : Thins m n) :
    m.isDeclaration = n.isDeclaration := by
  cases h <;> rfl

/-- A diagnostic shows nothing of what stands below the blamed node. -/
theorem Thins.diagnostic_eq {m n : Node} (h : Thins m n) (violation : Violation) :
    Fault.diagnostic ⟨violation, m⟩ = Fault.diagnostic ⟨violation, n⟩ := by
  cases h with
  | @global p mutable => cases mutable <;> rfl
  | @set p storage => cases storage <;> rfl
  | _ => rfl

/-- The declarations in front of the first statement are all that were there before. -/
theorem span_isDeclaration_of_skips {body rest : List Node}
    (h : Skips Thins (body.dropWhile Node.isDeclaration) rest) :
    (body.takeWhile Node.isDeclaration ++ rest).takeWhile Node.isDeclaration
        = body.takeWhile Node.isDeclaration ∧
      (body.takeWhile Node.isDeclaration ++ rest).dropWhile Node.isDeclaration = rest := by
  have htaken : ∀ a ∈ body.takeWhile Node.isDeclaration, a.isDeclaration = true :=
    fun a ha => List.mem_takeWhile_imp ha
  -- the first statement itself cannot be skipped, and stays in front
  have hhead := List.head?_dropWhile_not Node.isDeclaration body
  have hrest : rest.takeWhile Node.isDeclaration = []
      ∧ rest.dropWhile Node.isDeclaration = rest := by
    generalize body.dropWhile Node.isDeclaration = stmts at h hhead
    cases h with
    | nil => exact ⟨rfl, rfl⟩
    | skip _ => cases hhead
    | keep hab _ =>
        have hfirst := hab.isDeclaration_eq.symm.trans hhead
        simp [hfirst]
  rw [List.takeWhile_append_of_pos htaken, List.dropWhile_append_of_pos htaken, hrest.1, hrest.2,
    List.append_nil]
  exact ⟨rfl, rfl⟩

/-! ## What a caller learns -/

/-- What a caller learns about an outcome: the value, or the report of the fault. -/
def told {α : Type} (x : Except Fault α) : Except Diagnostic α := x.mapError Fault.diagnostic

theorem Same.told_eq {α : Type} {x y : Except Fault α}
    (h : Same (fun f g => f.diagnostic = g.diagnostic) x y) : told x = told y := by
  cases h with
  | ok a => rfl
  | error hfault => exact congrArg Except.error hfault

theorem Thins.matches_below {m n : Node} (h : Thins m n) : Matches Thins m n := by
  cases h with
  | same => exact .refl Thins.same _
  | module hitems => exact .module hitems
  | global hinit => exact .global hinit
  | function hparams hbody =>
      obtain ⟨htaken, hdropped⟩ := span_isDeclaration_of_skips hbody
      refine .function hparams ?_ ?_
      · rw [htaken]
        exact List.forall₂_same.mpr fun n _ => .same n
      · rw [hdropped]
        exact hbody
  | paramList hitems => exact .paramList hitems
  | set hvalue => exact .set hvalue
  | expression hterms => exact .expression hterms
  | ret hvalue => exact .ret (.some hvalue)
  | forLoop hinit hcondition hincrement hbody =>
      exact .forLoop hinit hcondition hincrement hbody
  | doLoop hbody hcondition => exact .doLoop hbody hcondition
  | whileLoop hcondition hbody => exact .whileLoop hcondition hbody
  | ifElse hcondition hyes hno => exact .ifElse hcondition hyes hno

/-- **Late declarations are not seen.** -/
theorem unseen_thins : Unseen Thins fun f g => f.diagnostic = g.diagnostic where
  below h := h.matches_below
  fault h := h.diagnostic_eq

/-! ## Hoisting -/

/-- **Hoisting is exact, and late declarations are inert.**

* In the text of an accepted program, what stands between the first line of a function and the line
  that opens its return block is one line for each declaration in front of its first statement, in
  their order, and no other line of the function begins like a declaration.  If names can be read as
  tokens, then wherever in the function a list begins with `local`, it is one of these.
* Any program, accepted or not, has the same text or the same report without any of its late
  declarations. -/
theorem hoisting_is_exact (o : Options) (program : Node) :
    (∀ text, (generate o program).result = .ok text →
      ∃ (p : Position) (items : List Node) (m : Module), program = .module p items ∧
        program.lowerModule.result = .ok m ∧ m.render o = text ∧
        text = (if m.items.isEmpty then "(module)"
          else "(module\n" ++ renderLines o m.lines ++ ")") ∧
        ∀ (i : Nat) (q : Position) (name : String) (result : NumericKind) (params : Node)
          (body : List Node), items[i]? = some (.function q name result params body) →
          ∃ (f : Func) (locals rest : List Line), m.items[i]? = some (.func f) ∧
            f.lines 1 = .ofText 1 f.header :: locals ++ f.returnLine 1 :: rest ∧
            List.Forall₂ (fun n line => ∃ p x t, n = .localVar p x (.value t) ∧
                line = Line.ofText 2 ("(local $" ++ x ++ " " ++ t.name ++ ")"))
              (body.takeWhile Node.isDeclaration) locals ∧
            (∀ l ∈ .ofText 1 f.header :: f.returnLine 1 :: rest, ¬ l.DeclaresLocal o) ∧
            (IsToken o.returnLabel → (Node.function q name result params body).Legible →
              ∃ tree, SExpr.read (renderLines o (f.lines 1)) = some tree ∧
                tree.clauses "local"
                  = (body.takeWhile Node.isDeclaration).map (Node.declarationTree "local"))) ∧
    ∀ thinned, Thins program thinned →
      told (generate o thinned).result = told (generate o program).result := by
  refine ⟨?_, fun thinned h => (unseen_thins.same_generate h o).told_eq.symm⟩
  intro text htext
  obtain ⟨m, hm, hrender⟩ := generate_eq_ok_iff.mp htext
  obtain ⟨p, items, rfl, hitems⟩ := lowerModule_eq_ok_iff.mp hm
  refine ⟨p, items, m, rfl, hm, hrender, hrender ▸ m.render_eq o, ?_⟩
  intro i q name result params body hi
  obtain ⟨f, hf, hlowers⟩ := exists_func_of_getElem? hitems hi
  obtain ⟨rest, hlines, hothers⟩ := f.exists_lines_eq (o := o) 1
  refine ⟨f, _, rest, hf, hlines, forall₂_localLines hlowers.locals_eq 2, hothers, ?_⟩
  intro ho hlegible
  obtain ⟨q', params, rfl, -⟩ := Node.parameters_eq_ok_iff.mp hlowers.params_eq
  exact ⟨_, (hlowers.spells ho hlegible 1).read_eq, clauses_itemTree o.returnLabel⟩

/-- A program with declarations in all places where one can be skipped, in front of one more
statement. -/
def lateDeclarations (last : Node) : Node :=
  let x (kind : NumericKind) : Node := .localVar .unplaced "x" kind
  .module .unplaced
    [.function .unplaced "f" .void (.paramList .unplaced [])
      [x (.value .i32),
        .doLoop .unplaced [x .void, .cont .unplaced none, x .notApplicable]
          (.number .unplaced (.value .i32) "0"),
        x (.value .f64),
        .ifElse .unplaced (.number .unplaced (.value .i32) "1") [x .void] (some [x .void]),
        last]]

/-- The same program without the declarations that are skipped. -/
def noLateDeclarations (last : Node) : Node :=
  .module .unplaced
    [.function .unplaced "f" .void (.paramList .unplaced [])
      [.localVar .unplaced "x" (.value .i32),
        .doLoop .unplaced [.cont .unplaced none] (.number .unplaced (.value .i32) "0"),
        .ifElse .unplaced (.number .unplaced (.value .i32) "1") [] (some []),
        last]]

theorem thins_lateDeclarations (last : Node) :
    Thins (lateDeclarations last) (noLateDeclarations last) := by
  have hloop : Skips Thins
      [.localVar .unplaced "x" .void, .cont .unplaced none, .localVar .unplaced "x" .notApplicable]
      [.cont .unplaced none] := .skip (.keep (.same _) (.skip .nil))
  have hbranch : Skips Thins [.localVar .unplaced "x" .void] [] := .skip .nil
  refine .module (.cons (.function (.same _) ?_) .nil)
  exact .keep (.doLoop hloop (.same _))
    (.skip (.keep (.ifElse (.same _) hbranch (.some hbranch)) (.keep (.same _) .nil)))

/-- The program has one local variable, declared in front of its first statement, and without its
late declarations it has the same text.  With a jump behind them to a loop that is not there, the
same error is reported. -/
theorem lateDeclarations_inert :
    (∃ (text : String) (m : Module) (f : Func) (rest : List Line),
      told (generate .standard (lateDeclarations (.ret .unplaced none))).result = .ok text ∧
      told (generate .standard (noLateDeclarations (.ret .unplaced none))).result = .ok text ∧
      (lateDeclarations (.ret .unplaced none)).lowerModule.result = .ok m ∧
      m.items[0]? = some (.func f) ∧
      f.lines 1 = [.ofText 1 f.header, .ofText 2 "(local $x i32)", f.returnLine 1] ++ rest ∧
      ∀ l ∈ rest, ¬ l.DeclaresLocal .standard) ∧
    told (generate .standard (noLateDeclarations (.brk ⟨4, 2⟩ none))).result
      = .error ⟨.malformedStatement, "Break outside of a loop", ⟨4, 2⟩, ⟨.brk, none, none⟩⟩ := by
  refine ⟨?_, ?_⟩
  · obtain ⟨hexact, hinert⟩ := hoisting_is_exact .standard (lateDeclarations (.ret .unplaced none))
    have haccepted : (generate .standard (lateDeclarations (.ret .unplaced none))).result
        = .ok _ := rfl
    obtain ⟨p, items, m, hprogram, hm, -, -, hfunctions⟩ := hexact _ haccepted
    cases hprogram
    obtain ⟨f, locals, rest, hf, hlines, hlocals, hothers, -⟩ := hfunctions 0 _ _ _ _ _ rfl
    refine ⟨_, m, f, rest, rfl, hinert _ (thins_lateDeclarations _), hm, hf, ?_,
      fun l hl => hothers l (.tail _ (.tail _ hl))⟩
    obtain ⟨line, _, ⟨_, x, t, hx, rfl⟩, hnil, rfl⟩ := List.forall₂_cons_left_iff.mp hlocals
    obtain rfl := List.forall₂_nil_left_iff.mp hnil
    cases hx
    exact hlines
  · rw [(hoisting_is_exact .standard _).2 _ (thins_lateDeclarations _)]
    rfl

end WatLowering
