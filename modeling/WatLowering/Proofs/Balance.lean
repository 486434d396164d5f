import WatLowering.Node.Walk
import WatLowering.Proofs.LabelNames

/-!
# Generated text is one parenthesised form

Parentheses are opened and closed by different lines: a loop opens two on two lines and closes both
on one, a line `)(else` closes one and opens the next, and the block around the body of a loop is
there or not depending on the shape of the loop.  What makes it work out is that every construct
closes what it has opened and nothing else.

* `Nests a b s` — the text `s` closes `a` of the parentheses that are open in front of it and leaves
  `b` open, and never closes more than these `a` and its own.  Texts that nest are put together by
  `Nests.append`; `Balanced` is the case of a text that keeps to itself.
* `Node.ParenFree` — no name, literal or alias in a source tree has a parenthesis.
* `Lowers.balanced` — the lines of each lowered statement are balanced.
* **`generated_text_is_form`** — a generated text is exactly one form: its first character opens the
  parenthesis that its last character closes.

Names and literals are written as they stand in the source, and so is the return label.  This is why
the theorem asks that there are no parentheses in them.
-/

namespace WatLowering

/-! ## Counting open parentheses -/

/-- The number of open parentheses behind a character, with `d` of them open in front of it.  There
must be one for a closing one to close. -/
def openBehind (d : Nat) (c : Char) : Option Nat :=
  if c = '(' then some (d + 1)
  else if c = ')' then
    match d with
    | 0 => none
    | d + 1 => some d
  else some d

/-- The text closes `a` open parentheses and leaves `b` open, whatever else is open around it. -/
def Nests (a b : Nat) (s : String) : Prop :=
  ∀ d, s.toList.foldlM openBehind (d + a) = some (d + b)

/-- The text closes all it opens and nothing else. -/
abbrev Balanced (s : String) : Prop := Nests 0 0 s

/-- There is no parenthesis in the text. -/
def ParenFree (s : String) : Prop := ∀ c ∈ s.toList, c ≠ '(' ∧ c ≠ ')'

instance (s : String) : Decidable (ParenFree s) :=
  decidable_of_iff ((s.toList.all fun c => c ≠ '(' && c ≠ ')') = true) (by simp [ParenFree])

theorem parenFree_append {s t : String} (hs : ParenFree s) (ht : ParenFree t) :
    ParenFree (s ++ t) := by
  intro c hc
  rw [String.toList_append, List.mem_append] at hc
  exact hc.elim (hs c) (ht c)

theorem parenFree_repr (n : Nat) : ParenFree n.repr := by
  intro c hc
  rw [Nat.toList_repr] at hc
  have hdigit := Nat.isDigit_of_mem_toDigits (by decide) (by decide) hc
  constructor <;>
    · rintro rfl
      exact absurd hdigit (by decide)

theorem nests_open : Nests 0 1 "(" := fun _ => rfl

theorem nests_close : Nests 1 0 ")" := fun _ => rfl

theorem ParenFree.nests {s : String} (h : ParenFree s) (a : Nat) : Nests a a s := by
  intro d
  rw [ParenFree] at h
  generalize s.toList = cs at h ⊢
  induction cs with
  | nil => rfl
  | cons c cs ih =>
      rw [List.forall_mem_cons] at h
      have hc : openBehind (d + a) c = some (d + a) := by simp [openBehind, h.1]
      rw [List.foldlM_cons, hc]
      exact ih h.2

namespace Nests

variable {a b c : Nat} {s t : String}

/-- **One text after the other**: what the first leaves open is open in front of the second. -/
theorem append (hs : Nests a b s) (ht : Nests b c t) : Nests a c (s ++ t) := by
  intro d
  rw [String.toList_append, List.foldlM_append, hs d]
  exact ht d

theorem free (hs : Nests a b s) (ht : ParenFree t) : Nests a b (s ++ t) := hs.append (ht.nests b)

/-- More may be open around a text than what the text is about. -/
theorem within (hs : Nests a b s) (k : Nat) : Nests (k + a) (k + b) s := by
  intro d
  rw [← Nat.add_assoc, ← Nat.add_assoc]
  exact hs (d + k)

/-- A text in parentheses of its own. -/
theorem close (hs : Nests a (b + 1) s) (ht : Balanced t) : Nests a b (s ++ t ++ ")") := by
  have hclose : Nests (b + 1) b ")" := nests_close.within b
  exact (hs.append (ht.within (b + 1))).append hclose

theorem join_nil : Nests a a (String.join []) := fun _ => rfl

theorem join_cons {ss : List String} (hs : Nests a b s) (hss : Nests b c (String.join ss)) :
    Nests a c (String.join (s :: ss)) := by
  rw [String.join_cons]
  exact hs.append hss

end Nests

theorem balanced_join {ss : List String} (h : ∀ s ∈ ss, Balanced s) :
    Balanced (String.join ss) := by
  induction ss with
  | nil => exact .join_nil
  | cons s ss ih =>
      rw [List.forall_mem_cons] at h
      exact h.1.join_cons (ih h.2)

/-! ## Instructions and tests -/

theorem ValueType.parenFree_name (t : ValueType) : ParenFree t.name := by
  cases t <;> decide

theorem Storage.parenFree_name (storage : Storage) : ParenFree storage.name := by
  cases storage <;> decide

namespace Instr

theorem balanced_const {t : ValueType} {literal : String} (h : ParenFree literal) :
    Balanced (const t literal).text :=
  (((nests_open.free t.parenFree_name).free (by decide)).free h).append nests_close

theorem balanced_get {storage : Storage} {name : String} (h : ParenFree name) :
    Balanced (get storage name).text :=
  (((nests_open.free storage.parenFree_name).free (by decide)).free h).append nests_close

theorem balanced_numeric (op : NumericOp) (t : ValueType) : Balanced (numeric op t).text := by
  have hop : ParenFree op.name := by cases op <;> decide
  have hdot : ParenFree (t.name ++ ".") := parenFree_append t.parenFree_name (by decide)
  exact (nests_open.free (parenFree_append hdot hop)).append nests_close

theorem balanced_convert (conversion : Conversion) : Balanced (convert conversion).text := by
  have hname : ParenFree conversion.mnemonic := by cases conversion <;> decide
  exact (nests_open.free hname).append nests_close

theorem balanced_seq {instrs : List Instr} (h : ∀ i ∈ instrs, Balanced i.text) :
    Balanced (seq instrs) := by
  induction instrs with
  | nil => exact .join_nil
  | cons i rest ih =>
      rw [List.forall_mem_cons] at h
      cases rest with
      | nil =>
          rw [seq_singleton]
          exact h.1
      | cons j rest =>
          rw [seq_cons_cons]
          exact (h.1.free (by decide)).append (ih h.2)

end Instr

namespace Test

variable {t : ValueType} {operands : List Instr}

theorem balanced_againstZero (op : NumericOp) (h : ∀ i ∈ operands, Balanced i.text) :
    Balanced (againstZero op t operands).text := by
  have hzero : Balanced (Instr.seq [.const t "0", .numeric op t]) := by
    refine Instr.balanced_seq fun i hi => ?_
    simp only [List.mem_cons, List.not_mem_nil, or_false] at hi
    rcases hi with rfl | rfl
    · exact Instr.balanced_const (by decide)
    · exact Instr.balanced_numeric op t
  exact ((Instr.balanced_seq h).free (by decide)).append hzero

theorem balanced_isZero (h : ∀ i ∈ operands, Balanced i.text) :
    Balanced (isZero t operands).text :=
  ((nests_open.free t.parenFree_name).free (by decide)).close (Instr.balanced_seq h)

theorem balanced_truth (h : ∀ i ∈ operands, Balanced i.text) :
    Balanced (truth t operands).text := by
  cases t with
  | i32 => exact Instr.balanced_seq h
  | i64 | f32 | f64 => exact balanced_againstZero .ne h

theorem balanced_exit (h : ∀ i ∈ operands, Balanced i.text) :
    Balanced (exit t operands).text := by
  cases t with
  | i32 | i64 => exact balanced_isZero h
  | f32 | f64 => exact balanced_againstZero .eq h

end Test

/-! ## Lines -/

section Lines

variable {o : Options} {a b c depth : Nat}

/-- The lines, one after the other, close `a` open parentheses and leave `b` open. -/
def LinesNest (o : Options) (a b : Nat) (lines : List Line) : Prop :=
  Nests a b (String.join (lines.map (Line.render o)))

theorem linesNest_nil : LinesNest o a a [] := Nests.join_nil

/-- Indentation and line end do not matter: a line nests as its pieces do. -/
theorem LinesNest.cons {pieces : List Piece} {lines : List Line}
    (hline : Nests a b (String.join (pieces.map (Piece.render o)))) (h : LinesNest o b c lines) :
    LinesNest o a c (⟨depth, pieces⟩ :: lines) := by
  have hindent : ParenFree (String.ofList (List.replicate (depth * o.indentWidth) ' ')) := by
    intro ch hch
    rw [String.toList_ofList] at hch
    rw [List.eq_of_mem_replicate hch]
    decide
  have hrender : Nests a b (Line.render o ⟨depth, pieces⟩) :=
    ((hindent.nests a).append hline).free (by decide)
  exact hrender.join_cons h

theorem LinesNest.consText {s : String} {lines : List Line} (hs : Nests a b s)
    (h : LinesNest o b c lines) : LinesNest o a c (.ofText depth s :: lines) :=
  .cons (hs.join_cons .join_nil) h

theorem LinesNest.append {xs ys : List Line} (hxs : LinesNest o a b xs)
    (hys : LinesNest o b c ys) : LinesNest o a c (xs ++ ys) := by
  rw [LinesNest, List.map_append, String.join_append]
  exact Nests.append hxs hys

theorem LinesNest.within {lines : List Line} (h : LinesNest o a b lines) (k : Nat) :
    LinesNest o (k + a) (k + b) lines :=
  Nests.within h k

theorem linesNest_flatMap {α : Type} {f : α → List Line} {xs : List α}
    (h : ∀ x ∈ xs, LinesNest o 0 0 (f x)) : LinesNest o 0 0 (xs.flatMap f) := by
  induction xs with
  | nil => exact linesNest_nil
  | cons x xs ih =>
      rw [List.forall_mem_cons] at h
      rw [List.flatMap_cons]
      exact h.1.append (ih h.2)

end Lines

/-! ## Code -/

/-- The lines of a construct close all they open and nothing else, wherever the construct stands. -/
def Code.Balanced (o : Options) (c : Code) : Prop := ∀ depth, LinesNest o 0 0 (c.lines depth)

theorem linesNest_linesAll {o : Options} {code : List Code} (h : ∀ c ∈ code, c.Balanced o)
    (depth : Nat) : LinesNest o 0 0 (linesAll depth code) := by
  rw [linesAll_eq_flatMap]
  exact linesNest_flatMap fun c hc => h c hc depth

section Code

variable {o : Options} (ho : ParenFree o.returnLabel)

include ho in
theorem Label.parenFree_name (l : Label) : ParenFree (l.name o) := by
  cases l with
  | ret => exact ho
  | exit d => exact parenFree_append (by decide) (parenFree_repr d)
  | next d => exact parenFree_append (by decide) (parenFree_repr d)
  | head d => exact parenFree_append (by decide) (parenFree_repr d)

namespace Code

theorem balanced_set {storage : Storage} {name : String} {operands : List Instr}
    (hname : ParenFree name) (h : ∀ i ∈ operands, WatLowering.Balanced i.text) :
    (set storage name operands).Balanced o := by
  intro depth
  have hhead : Nests 0 1 ("(" ++ storage.name ++ ".set $" ++ name ++ " ") :=
    (((nests_open.free storage.parenFree_name).free (by decide)).free hname).free (by decide)
  exact .consText (hhead.close (Instr.balanced_seq h)) linesNest_nil

include ho in
/-- A line that opens one parenthesis in front of a label. -/
theorem nests_label {head : String} (hhead : Nests 0 1 head) (l : Label) {rest : List Piece}
    {b : Nat} (hrest : Nests 1 b (String.join (rest.map (Piece.render o)))) :
    Nests 0 b (String.join ((.text head :: l.piece :: rest).map (Piece.render o))) :=
  hhead.join_cons (((Label.parenFree_name ho l).nests 1).join_cons hrest)

/-- What follows the label of a jump: a space, a balanced text, and the end of the jump. -/
theorem nests_rest {s : String} (h : WatLowering.Balanced s) :
    Nests 1 0 (String.join ([.text (" " ++ s ++ ")")].map (Piece.render o))) := by
  have hspace : Nests 1 1 " " := fun _ => rfl
  exact (hspace.close h).join_cons .join_nil

include ho in
theorem balanced_jump (target : Label) : (br target none).Balanced o := fun _ =>
  .cons (nests_label ho (fun _ => rfl) target (nests_close.join_cons .join_nil)) linesNest_nil

include ho in
theorem balanced_returnValue (target : Label) {operands : List Instr}
    (h : ∀ i ∈ operands, WatLowering.Balanced i.text) :
    (br target (some operands)).Balanced o := fun _ =>
  .cons (nests_label ho (fun _ => rfl) target (nests_rest (Instr.balanced_seq h))) linesNest_nil

include ho in
theorem balanced_brIf (target : Label) {test : Test} (h : WatLowering.Balanced test.text) :
    (brIf target test).Balanced o := fun _ =>
  .cons (nests_label ho (fun _ => rfl) target (nests_rest h)) linesNest_nil

include ho in
theorem balanced_block (label : Label) {body : List Code} (h : ∀ c ∈ body, c.Balanced o) :
    (block label body).Balanced o := by
  intro depth
  have hbody := (linesNest_linesAll h (depth + 1)).within 1
  have hopen : Nests 0 1 (String.join ([.text "(block $", label.piece].map (Piece.render o))) :=
    nests_label ho (fun _ => rfl) label .join_nil
  exact (LinesNest.cons hopen hbody).append (.consText nests_close linesNest_nil)

include ho in
/-- A loop opens two parentheses on two lines and closes both at once. -/
theorem balanced_loop (exit head : Label) {body : List Code} (h : ∀ c ∈ body, c.Balanced o) :
    (loop exit head body).Balanced o := by
  intro depth
  have hbody := (linesNest_linesAll h (depth + 1)).within 2
  have hblock : Nests 0 1 (String.join ([.text "(block $", exit.piece].map (Piece.render o))) :=
    nests_label ho (fun _ => rfl) exit .join_nil
  have hloop : Nests 0 1 (String.join ([.text "(loop  $", head.piece].map (Piece.render o))) :=
    nests_label ho (fun _ => rfl) head .join_nil
  have hclose : Nests 2 0 "))" := fun _ => rfl
  exact (LinesNest.cons hblock (.cons (hloop.within 1) hbody)).append
    (.consText hclose linesNest_nil)

/-- Two parentheses are open in either branch; the line between the branches closes one and opens
another. -/
theorem balanced_ifThen {test : Test} {thenBranch : List Code} {elseBranch : Option (List Code)}
    (htest : WatLowering.Balanced test.text) (hthen : ∀ c ∈ thenBranch, c.Balanced o)
    (helse : ∀ branch ∈ elseBranch, ∀ c ∈ branch, c.Balanced o) :
    (ifThen test thenBranch elseBranch).Balanced o := by
  intro depth
  have hyes := (linesNest_linesAll hthen (depth + 1)).within 2
  have hno : LinesNest o 2 2 (elseLines depth elseBranch) := by
    cases elseBranch with
    | none => exact linesNest_nil
    | some branch =>
        have hbranch := (linesNest_linesAll (helse branch rfl) (depth + 1)).within 2
        have hbetween : Nests 2 2 ")(else" := fun _ => rfl
        exact .consText hbetween hbranch
  have hopen : Nests 0 2 "(if (then" := fun _ => rfl
  have hclose : Nests 2 0 "))" := fun _ => rfl
  have hconditional : LinesNest o 0 2 (.ofText depth test.text :: .ofText depth "(if (then"
      :: linesAll (depth + 1) thenBranch) := .consText htest (.consText hopen hyes)
  exact (hconditional.append hno).append (.consText hclose linesNest_nil)

end Code

include ho in
/-- With or without a block of its own, the body of a loop is balanced. -/
theorem balanced_wrap (shape : Shape) (depth : Nat) {body : List Code}
    (h : ∀ c ∈ body, c.Balanced o) : ∀ c ∈ shape.wrap depth body, c.Balanced o := by
  cases shape with
  | plain => exact h
  | wrapped => simpa [Shape.wrap] using Code.balanced_block ho (.next depth) h

end Code

/-! ## Source trees without parentheses -/

namespace Node

/-- The names, literals and aliases that a node itself has.  Symbols of operators are not among
them, since they are looked up and never written. -/
def texts : Node → List String
  | .global _ _ name _ _ => [name]
  | .exportFunc _ name exported => [name, exported]
  | .function _ name _ _ _ => [name]
  | .localVar _ name _ => [name]
  | .get _ _ name _ => [name]
  | .set _ _ name _ => [name]
  | .number _ _ literal => [literal]
  | _ => []

/-- No name, literal or alias in the tree has a parenthesis. -/
def ParenFree (n : Node) : Prop := ∀ m ∈ n.nodes, ∀ s ∈ m.texts, WatLowering.ParenFree s

theorem parenFree_iff {n : Node} :
    n.ParenFree ↔ (∀ s ∈ n.texts, WatLowering.ParenFree s) ∧ ∀ c ∈ n.children, c.ParenFree :=
  forall_mem_nodes_iff

end Node

theorem Selects.balanced {n : Node} {i : Option Instr} (h : Selects n i) (hn : n.ParenFree) :
    ∀ instr ∈ i.toList, Balanced instr.text := by
  rw [Node.parenFree_iff] at hn
  cases h with
  | number => simpa using Instr.balanced_const (hn.1 _ List.mem_cons_self)
  | get => simpa using Instr.balanced_get (hn.1 _ List.mem_cons_self)
  | operator => simpa using Instr.balanced_numeric _ _
  | identity => simp
  | convert => simpa using Instr.balanced_convert _

theorem Computes.balanced {terms : List Node} {ops : List Instr} (h : Computes terms ops)
    (hterms : ∀ n ∈ terms, n.ParenFree) : ∀ i ∈ ops, Balanced i.text := by
  induction h with
  | nil => simp
  | leaf hi _ ih =>
      rw [List.forall_mem_cons] at hterms
      exact List.forall_mem_append.mpr ⟨hi.balanced hterms.1, ih hterms.2⟩
  | expression _ _ _ ihterms ih =>
      rw [List.forall_mem_cons, Node.parenFree_iff] at hterms
      exact List.forall_mem_append.mpr ⟨ihterms hterms.1.2, ih hterms.2⟩

theorem balanced_operands {n : Node} {ops : List Instr} (h : n.operands = .ok ops)
    (hn : n.ParenFree) : ∀ i ∈ ops, Balanced i.text :=
  (operands_eq_ok_iff.mp h).balanced (by simpa using hn)

theorem balanced_truthTest {c : Node} {test : Test} (h : c.truthTest = .ok test)
    (hc : c.ParenFree) : Balanced test.text := by
  obtain ⟨ops, t, hops, -, rfl⟩ := Node.truthTest_eq_ok_iff.mp h
  exact Test.balanced_truth (balanced_operands hops hc)

/-! ## Statements -/

section Statements

variable {o : Options}

theorem balanced_assignments {ns : List Node} {code : List Code}
    (h : ns.mapM Node.assignment = .ok code) (hns : ∀ n ∈ ns, n.ParenFree) :
    ∀ c ∈ code, c.Balanced o := by
  refine forall_mem_of_forall₂ (mapM_eq_ok_iff.mp h) fun n hn c hc => ?_
  obtain ⟨p, storage, x, v, ops, rfl, hops, rfl⟩ := Node.assignment_eq_ok_iff.mp hc
  obtain ⟨hx, hv⟩ := Node.parenFree_iff.mp (hns _ hn)
  have hops := balanced_operands hops (hv v List.mem_cons_self)
  exact Code.balanced_set (hx x List.mem_cons_self) hops

theorem balanced_guard (ho : ParenFree o.returnLabel) {condition : Option Node} {depth : Nat}
    {guard : List Code} (h : condition.toList.mapM (Node.exitGuard depth) = .ok guard)
    (hcondition : ∀ c ∈ condition, c.ParenFree) : ∀ c ∈ guard, c.Balanced o := by
  obtain ⟨-, rfl⟩ | ⟨c, ops, t, rfl, hops, -, rfl⟩ := Node.guard_eq_ok_iff.mp h
  · simp
  · have htest := Test.balanced_exit (t := t) (balanced_operands hops (hcondition c rfl))
    simpa using Code.balanced_brIf ho (.exit depth) htest

/-- **Statements become balanced code**, if their names and literals have no parentheses. -/
theorem Lowers.balanced (ho : ParenFree o.returnLabel) {s : Scope} {stmts : List Node}
    {code : List Code} (h : Lowers s stmts code) (hstmts : ∀ n ∈ stmts, n.ParenFree) :
    ∀ c ∈ code, c.Balanced o := by
  induction h with
  | nil => simp
  | declaration _ ih => exact ih (List.forall_mem_cons.mp hstmts).2
  | assignment hops _ ih =>
      rw [List.forall_mem_cons, Node.parenFree_iff] at hstmts
      obtain ⟨⟨hx, hv⟩, hrest⟩ := hstmts
      have hops := balanced_operands hops (hv _ List.mem_cons_self)
      exact List.forall_mem_cons.mpr ⟨Code.balanced_set (hx _ List.mem_cons_self) hops, ih hrest⟩
  | returnValue _ hops _ ih =>
      rw [List.forall_mem_cons, Node.parenFree_iff] at hstmts
      have hops := balanced_operands hops (hstmts.1.2 _ List.mem_cons_self)
      exact List.forall_mem_cons.mpr ⟨Code.balanced_returnValue ho .ret hops, ih hstmts.2⟩
  | returnVoid _ _ ih =>
      exact List.forall_mem_cons.mpr
        ⟨Code.balanced_jump ho .ret, ih (List.forall_mem_cons.mp hstmts).2⟩
  | @brk _ _ _ d _ _ _ _ ih =>
      exact List.forall_mem_cons.mpr
        ⟨Code.balanced_jump ho (.exit d), ih (List.forall_mem_cons.mp hstmts).2⟩
  | @cont _ _ _ d _ _ _ _ ih =>
      exact List.forall_mem_cons.mpr
        ⟨Code.balanced_jump ho (.next d), ih (List.forall_mem_cons.mp hstmts).2⟩
  | whileLoop _ ih =>
      refine ih ?_
      rw [List.forall_mem_cons, Node.parenFree_iff] at hstmts ⊢
      simpa [Node.texts, Node.children] using hstmts
  | @forLoop s p init condition increment body rest shape first guard inner step code _ hinit hguard
      _ hstep _ ihbody ih =>
      rw [List.forall_mem_cons, Node.parenFree_iff] at hstmts
      simp only [Node.children, List.forall_mem_append, Option.mem_toList] at hstmts
      obtain ⟨⟨-, ⟨⟨hfreeInit, hfreeCondition⟩, hfreeStep⟩, hfreeBody⟩, hrest⟩ := hstmts
      have hbody : ∀ c ∈ guard ++ shape.wrap s.depth inner ++ step
          ++ [.br (shape.headLabel s.depth) none], c.Balanced o := by
        simp only [List.forall_mem_append, List.forall_mem_singleton]
        exact ⟨⟨⟨balanced_guard ho hguard hfreeCondition,
          balanced_wrap ho shape s.depth (ihbody hfreeBody)⟩,
          balanced_assignments hstep hfreeStep⟩, Code.balanced_jump ho _⟩
      rw [List.forall_mem_append, List.forall_mem_cons]
      exact ⟨balanced_assignments hinit hfreeInit, Code.balanced_loop ho _ _ hbody, ih hrest⟩
  | @doLoop s p c body rest shape test inner code _ _ htest _ ihbody ih =>
      rw [List.forall_mem_cons, Node.parenFree_iff] at hstmts
      simp only [Node.children, List.forall_mem_append, List.forall_mem_singleton] at hstmts
      obtain ⟨⟨-, hfreeBody, hfreeCondition⟩, hrest⟩ := hstmts
      have hbody : ∀ c ∈ shape.wrap s.depth inner ++ [.brIf (shape.headLabel s.depth) test],
          c.Balanced o := by
        rw [List.forall_mem_append, List.forall_mem_singleton]
        exact ⟨balanced_wrap ho shape s.depth (ihbody hfreeBody),
          Code.balanced_brIf ho _ (balanced_truthTest htest hfreeCondition)⟩
      exact List.forall_mem_cons.mpr ⟨Code.balanced_loop ho _ _ hbody, ih hrest⟩
  | ifThen htest _ _ ihyes ih =>
      rw [List.forall_mem_cons, Node.parenFree_iff] at hstmts
      simp only [Node.children, Option.getD_none, List.append_nil, List.forall_mem_cons] at hstmts
      obtain ⟨⟨-, hcondition, hyes⟩, hrest⟩ := hstmts
      have htest := balanced_truthTest htest hcondition
      exact List.forall_mem_cons.mpr
        ⟨Code.balanced_ifThen htest (ihyes hyes) (by simp), ih hrest⟩
  | ifElse htest _ _ _ ihyes ihno ih =>
      rw [List.forall_mem_cons, Node.parenFree_iff] at hstmts
      simp only [Node.children, Option.getD_some, List.forall_mem_append, List.forall_mem_cons]
        at hstmts
      obtain ⟨⟨-, ⟨hcondition, hyes⟩, hno⟩, hrest⟩ := hstmts
      have htest := balanced_truthTest htest hcondition
      exact List.forall_mem_cons.mpr
        ⟨Code.balanced_ifThen htest (ihyes hyes) (by simpa using ihno hno), ih hrest⟩

end Statements

/-! ## Functions and modules -/

section Modules

variable {o : Options}

theorem parenFree_of_declarations {ns : List Node} {vars : List Variable}
    (h : ns.mapM Node.declaration = .ok vars) (hns : ∀ n ∈ ns, n.ParenFree) :
    ∀ v ∈ vars, ParenFree v.1 := by
  refine forall_mem_of_forall₂ (mapM_eq_ok_iff.mp h) fun n hn v hv => ?_
  obtain ⟨p, rfl⟩ := Node.declaration_eq_ok_iff.mp hv
  exact (Node.parenFree_iff.mp (hns _ hn)).1 v.1 List.mem_cons_self

theorem Variable.balanced_text {v : Variable} {keyword : String} (hkeyword : ParenFree keyword)
    (hv : ParenFree v.1) : Balanced (v.text keyword) :=
  (((((nests_open.free hkeyword).free (by decide)).free hv).free (by decide)).free
    v.2.parenFree_name).append nests_close

theorem balanced_resultClause (result : Option ValueType) : Balanced (resultClause result) := by
  cases result with
  | none => exact .join_nil
  | some t =>
      have hopen : Nests 0 1 " (result " := fun _ => rfl
      exact (hopen.free t.parenFree_name).append nests_close

theorem Func.nests_header {f : Func} (hname : ParenFree f.name)
    (hparams : ∀ v ∈ f.params, ParenFree v.1) : Nests 0 1 f.header := by
  have hopen : Nests 0 1 "(func $" := fun _ => rfl
  have hspace : Balanced " " := fun _ => rfl
  have htexts : Balanced (String.join (f.params.map fun v => " " ++ v.text "param")) := by
    refine balanced_join fun s hs => ?_
    obtain ⟨v, hv, rfl⟩ := List.mem_map.mp hs
    exact hspace.append (Variable.balanced_text (by decide) (hparams v hv))
  exact ((hopen.free hname).append (htexts.within 1)).append
    ((balanced_resultClause f.result).within 1)

theorem Func.linesNest (ho : ParenFree o.returnLabel) {f : Func} (hname : ParenFree f.name)
    (hparams : ∀ v ∈ f.params, ParenFree v.1) (hlocals : ∀ v ∈ f.locals, ParenFree v.1)
    (hbody : ∀ c ∈ f.body, c.Balanced o) (depth : Nat) : LinesNest o 0 0 (f.lines depth) := by
  have hdeclared : LinesNest o 0 0
      (f.locals.map fun v => .ofText (depth + 1) (v.text "local")) := by
    rw [List.map_eq_flatMap]
    exact linesNest_flatMap fun v hv =>
      .consText (Variable.balanced_text (by decide) (hlocals v hv)) linesNest_nil
  have hfront : LinesNest o 0 1 (.ofText depth f.header
      :: f.locals.map fun v => .ofText (depth + 1) (v.text "local")) :=
    .consText (f.nests_header hname hparams) (hdeclared.within 1)
  have hblock : Nests 0 1 (String.join
      ([.text "(block $", Label.ret.piece, .text (resultClause f.result)].map (Piece.render o))) :=
    Code.nests_label ho (fun _ => rfl) .ret
      (((balanced_resultClause f.result).within 1).join_cons .join_nil)
  have hinner : LinesNest o 1 2 (⟨depth + 1, [.text "(block $", Label.ret.piece,
      .text (resultClause f.result)]⟩ :: linesAll (depth + 2) f.body) :=
    .cons (hblock.within 1) ((linesNest_linesAll hbody (depth + 2)).within 2)
  have hclose : LinesNest o 2 0 [.ofText (depth + 1) ")", .ofText depth ")"] :=
    .consText (nests_close.within 1) (.consText nests_close linesNest_nil)
  exact (hfront.append hinner).append hclose

theorem FunctionLowers.linesNest (ho : ParenFree o.returnLabel) {p : Position} {name : String}
    {result : NumericKind} {params : Node} {body : List Node} {f : Func}
    (h : FunctionLowers name result params body f)
    (hfree : (Node.function p name result params body).ParenFree) (depth : Nat) :
    LinesNest o 0 0 (f.lines depth) := by
  rw [Node.parenFree_iff] at hfree
  simp only [Node.texts, Node.children, List.forall_mem_cons] at hfree
  obtain ⟨⟨hname, -⟩, hparams, hbody⟩ := hfree
  obtain ⟨q, items, rfl, hitems⟩ := Node.parameters_eq_ok_iff.mp h.params_eq
  refine f.linesNest ho (h.name_eq ▸ hname) ?_ ?_ ?_ depth
  · exact parenFree_of_declarations hitems (Node.parenFree_iff.mp hparams).2
  · exact parenFree_of_declarations h.locals_eq fun n hn => hbody n (List.takeWhile_subset _ hn)
  · exact h.lowers.balanced ho fun n hn => hbody n (List.dropWhile_subset _ hn)

/-- Each item of a module is balanced by itself. -/
theorem linesNest_of_lowerItem (ho : ParenFree o.returnLabel) {n : Node} {item : Item}
    (h : n.lowerItem.result = .ok item) (hn : n.ParenFree) (depth : Nat) :
    LinesNest o 0 0 (item.lines depth) := by
  cases n with
  | global p mutable name kind init =>
      obtain ⟨t, q, k, literal, rfl, rfl, rfl⟩ := lowerItem_global_eq_ok_iff.mp h
      rw [Node.parenFree_iff] at hn
      have hname : ParenFree name := hn.1 name List.mem_cons_self
      have hinit := hn.2 _ List.mem_cons_self
      have hliteral : ParenFree literal := (Node.parenFree_iff.mp hinit).1 _ List.mem_cons_self
      have hopen : Nests 0 1 "(global $" := fun _ => rfl
      have hdeclared : Balanced (if mutable then "(mut " ++ t.name ++ ")" else t.name) := by
        have hmut : Nests 0 1 "(mut " := fun _ => rfl
        split
        · exact (hmut.free t.parenFree_name).append nests_close
        · exact t.parenFree_name.nests 0
      have hfront := ((hopen.free hname).free (t := " ") (by decide)).append (hdeclared.within 1)
      have hconst := Instr.balanced_const (t := t) hliteral
      exact .consText ((hfront.free (by decide)).close hconst) linesNest_nil
  | exportFunc p name exported =>
      obtain rfl : Item.exportFunc name exported = item := by simpa [Node.lowerItem] using h
      rw [Node.parenFree_iff] at hn
      simp only [Node.texts, List.forall_mem_cons] at hn
      obtain ⟨⟨hname, hexported, -⟩, -⟩ := hn
      have hopen : Nests 0 1 "(export \"" := fun _ => rfl
      have hfunc : Nests 1 2 "\" (func $" := fun _ => rfl
      have hclose : Nests 2 0 "))" := fun _ => rfl
      exact .consText ((((hopen.free hexported).append hfunc).free hname).append hclose)
        linesNest_nil
  | function p name result params body =>
      obtain ⟨f, rfl, hf⟩ := lowerItem_function_eq_ok_iff.mp h
      exact hf.linesNest ho hn depth
  | _ => simp [Node.lowerItem] at h

/-- A generated text is a balanced text in one pair of parentheses. -/
theorem exists_balanced_of_generate (ho : ParenFree o.returnLabel) {program : Node} {text : String}
    (h : (generate o program).result = .ok text) (hprogram : program.ParenFree) :
    ∃ inner, text = "(" ++ inner ++ ")" ∧ Balanced inner := by
  obtain ⟨m, hm, rfl⟩ := generate_eq_ok_iff.mp h
  obtain ⟨p, items, rfl, hitems⟩ := lowerModule_eq_ok_iff.mp hm
  have hlines : LinesNest o 0 0 m.lines := by
    refine linesNest_flatMap (forall_mem_of_forall₂ hitems fun n hn item hitem => ?_)
    exact linesNest_of_lowerItem ho hitem ((Node.parenFree_iff.mp hprogram).2 n hn) 1
  by_cases hempty : m.items.isEmpty = true
  · refine ⟨"module", ?_, fun _ => rfl⟩
    rw [Module.render, if_pos hempty]
    rfl
  · refine ⟨"module\n" ++ String.join (m.lines.map (Line.render o)), ?_, ?_⟩
    · rw [Module.render, if_neg hempty, ← String.append_assoc]
      rfl
    · have hword : Balanced "module\n" := fun _ => rfl
      exact hword.append hlines

end Modules

/-! ## One form -/

/-- The text is a single parenthesised form: the first character opens a parenthesis, which stays
open until the last character closes it. -/
structure IsForm (text : String) : Prop where
  opens : text.toList.head? = some '('
  closes : text.toList.getLast? = some ')'
  count_eq : text.toList.count '(' = text.toList.count ')'
  open_before_end : ∀ front, front <+: text.toList → front ≠ [] → front ≠ text.toList →
    front.count ')' < front.count '('

theorem count_of_openBehind {d e : Nat} {c : Char} (h : openBehind d c = some e) :
    d + [c].count '(' = e + [c].count ')' := by
  by_cases hopen : c = '('
  · subst hopen
    simpa [openBehind] using h
  · by_cases hclose : c = ')'
    · subst hclose
      cases d with
      | zero => simp [openBehind] at h
      | succ d => simpa [openBehind] using h
    · simpa [openBehind, hopen, hclose] using h

/-- Open at the end are the parentheses that were open before, and those opened and not closed
since. -/
theorem count_of_foldlM {cs : List Char} {d e : Nat} (h : cs.foldlM openBehind d = some e) :
    d + cs.count '(' = e + cs.count ')' := by
  induction cs generalizing d with
  | nil => simpa using h
  | cons c cs ih =>
      rw [List.foldlM_cons] at h
      obtain ⟨d', hd', h⟩ := Option.bind_eq_some_iff.mp h
      have hfirst := count_of_openBehind hd'
      have hrest := ih h
      rw [← List.singleton_append, List.count_append, List.count_append]
      omega

/-- At no place has a text closed more than was open in front of it. -/
theorem count_le_of_prefix {front cs : List Char} {d e : Nat}
    (h : cs.foldlM openBehind d = some e) (hfront : front <+: cs) :
    front.count ')' ≤ d + front.count '(' := by
  obtain ⟨rest, rfl⟩ := hfront
  rw [List.foldlM_append] at h
  obtain ⟨d', hd', -⟩ := Option.bind_eq_some_iff.mp h
  have := count_of_foldlM hd'
  omega

theorem isForm_of_balanced {inner : String} (h : Balanced inner) :
    IsForm ("(" ++ inner ++ ")") := by
  have htext : ("(" ++ inner ++ ")").toList = '(' :: (inner.toList ++ [')']) := by simp
  have hscan : inner.toList.foldlM openBehind 0 = some 0 := h 0
  constructor
  · rw [htext, List.head?_cons]
  · rw [htext, ← List.cons_append, List.getLast?_concat]
  · have := count_of_foldlM hscan
    rw [htext]
    simp only [List.count_cons, List.count_append, List.count_nil]
    simpa using this
  · intro front hfront hne hproper
    rw [htext] at hfront hproper
    obtain rfl | ⟨front, rfl, hprefix⟩ := List.prefix_cons_iff.mp hfront
    · exact absurd rfl hne
    · obtain rfl | hprefix := List.prefix_concat_iff.mp hprefix
      · exact absurd rfl hproper
      · -- behind the first character stands the beginning of a text that keeps to itself
        have := count_le_of_prefix hscan hprefix
        rw [List.count_cons_self, List.count_cons_of_ne (by decide)]
        omega

/-- **Generated text is one form.**  Whatever the options, if neither the return label nor any name,
literal or alias of the program has a parenthesis, then the text of the program opens as many
parentheses as it closes, and at each place between its first and its last character more have been
opened than closed. -/
theorem generated_text_is_form {o : Options} {program : Node} {text : String}
    (h : (generate o program).result = .ok text) (hprogram : program.ParenFree)
    (ho : ParenFree o.returnLabel) : IsForm text := by
  obtain ⟨inner, rfl, hinner⟩ := exists_balanced_of_generate ho h hprogram
  exact isForm_of_balanced hinner

/-- A program with every kind of item, a loop whose body has a block of its own, and a conditional
with both branches. -/
def nestedForms : Node :=
  let i64 : NumericKind := .value .i64
  let n : Node := .get .unplaced .local "n" i64
  let total : Node := .get .unplaced .global "total" i64
  let step : Node := .set .unplaced .local "n" (.expression .unplaced i64
    [n, .number .unplaced i64 "1", .operator .unplaced i64 "-"])
  .module .unplaced
    [.global .unplaced true "total" i64 (.number .unplaced i64 "0"),
      .exportFunc .unplaced "sum" "run",
      .function .unplaced "sum" i64 (.paramList .unplaced [.localVar .unplaced "n" i64])
        [.forLoop .unplaced [] (some n) [step]
          [.ifElse .unplaced n [.cont .unplaced none]
            (some [.set .unplaced .global "total" n])],
        .ret .unplaced (some total)]]

theorem nestedForms_parenFree : nestedForms.ParenFree := by
  simp only [Node.ParenFree, nestedForms, Node.nodes_eq, Node.children, Option.toList,
    Option.getD_some, List.flatMap_cons, List.flatMap_nil, List.append_nil, List.nil_append,
    List.cons_append, List.forall_mem_cons, Node.texts, List.not_mem_nil, false_implies,
    implies_true, and_true]
  decide

/-- Its text is one form, with any indentation and under another return label. -/
theorem nestedForms_text_is_form :
    ∃ text, (generate ⟨2, "done"⟩ nestedForms).result = .ok text ∧ nestedForms.ParenFree ∧
      ParenFree "done" ∧ IsForm text := by
  have haccepted : (generate ⟨2, "done"⟩ nestedForms).result = .ok _ := rfl
  have hlabel : ParenFree "done" := by decide
  exact ⟨_, haccepted, nestedForms_parenFree, hlabel,
    generated_text_is_form haccepted nestedForms_parenFree hlabel⟩

end WatLowering
