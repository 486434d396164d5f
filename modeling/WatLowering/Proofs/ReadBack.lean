import WatLowering.Proofs.Balance
import WatLowering.Proofs.IntendedTree
import WatLowering.Proofs.OnePass

/-!
# Generated text reads back

A text is glued together from keywords, names, operands, indentation and line ends, and lists are
opened and closed by different lines.  Here it is shown that nothing runs together and nothing gets
lost: a reader that knows atoms, strings and parentheses finds in the text of a program the tree
that `Node.moduleTree` says should be there.

* `Instr.spells_seq`, `Test.spells_truth`, `Test.spells_exit` — operands and tests, also where no
  instruction is left to compute them.
* `CodeSpells` — at every depth the lines of some code spell the given trees.  There is one lemma
  for each construct; they are put together by `CodeSpells.append`.
* `Node.Legible` — all names and literals of a source tree are tokens, and its aliases can stand in
  strings.
* `Lowers.codeSpells` — the code of lowered statements spells the trees of the statements.
* **`generated_text_reads_back`** — a generated text spells exactly the tree of its program.

Layout plays no part in the tree: `reads_line` drops the indentation of each line, so no width of
it, not even none at all, makes a difference.
-/

namespace WatLowering

open SExpr (clause ident const)

/-! ## Instructions and tests -/

theorem Reader.endWord_ident (done : List SExpr) (name : String) :
    endWord done ('$' :: name.toList) = done ++ [ident name] := by
  have hname : String.ofList ('$' :: name.toList) = "$" ++ name := by
    rw [← String.toList_inj]
    simp
  rw [endWord, hname]
  rfl

theorem ValueType.isToken_name (t : ValueType) : IsToken t.name := by
  cases t <;> decide

/-- A list that holds nothing but an atom. -/
theorem spells_bare {s : String} (h : IsToken s) : Spells ("(" ++ s ++ ")") [clause s []] := by
  have hopen : OpensList "(" [] [] := fun _ _ => rfl
  have hclose := (hopen.word h.unbroken).close
  rwa [List.nil_append, Reader.endWord_toList h.ne_empty] at hclose

namespace Instr

theorem spells_const {t : ValueType} {literal : String} (h : IsToken literal) :
    Spells (Instr.const t literal).text [SExpr.const (.value t) literal] := by
  have hopen : OpensList ("(" ++ t.name ++ ".const ") [.atom (t.name ++ ".const")] [] := by
    cases t <;> exact fun _ _ => rfl
  have hclose := (hopen.word h.unbroken).close
  rwa [List.nil_append, Reader.endWord_toList h.ne_empty] at hclose

theorem spells_get {storage : Storage} {name : String} (h : IsToken name) :
    Spells (Instr.get storage name).text [clause (storage.name ++ ".get") [ident name]] := by
  have hopen : OpensList ("(" ++ storage.name ++ ".get $")
      [.atom (storage.name ++ ".get")] ['$'] := by
    cases storage <;> exact fun _ _ => rfl
  have hclose := (hopen.word h.unbroken).close
  rwa [List.singleton_append, Reader.endWord_ident] at hclose

theorem spells_numeric (op : NumericOp) (t : ValueType) :
    Spells (numeric op t).text [clause (op.mnemonic t) []] := by
  have hop : Unbroken op.name := by cases op <;> decide
  exact spells_bare ((t.isToken_name.append (by decide)).append hop)

theorem spells_convert (c : Conversion) : Spells (convert c).text [clause c.mnemonic []] :=
  spells_bare (by cases c <;> decide)

/-- The instructions of a sequence are read one after the other. -/
theorem spells_seq {ops : List Instr} {trees : List SExpr}
    (h : List.Forall₂ (fun i tree => Spells i.text [tree]) ops trees) : Spells (seq ops) trees := by
  induction h with
  | nil => exact .empty
  | @cons i tree ops trees hi hops ih =>
      cases hops with
      | nil =>
          rw [seq_singleton]
          exact hi
      | cons _ _ =>
          rw [seq_cons_cons]
          exact (hi.append .space).append ih

end Instr

namespace Test

variable {t : ValueType} {operands : List Instr} {c : Node}

theorem spells_againstZero (op : NumericOp) (hkind : c.resultKind = .value t)
    (h : Spells (Instr.seq operands) c.operandTrees) :
    Spells (againstZero op t operands).text (c.againstZero op.name) := by
  have hzero : Spells (Instr.seq [.const t "0", .numeric op t])
      [SExpr.const (.value t) "0", clause (op.mnemonic t) []] :=
    Instr.spells_seq (.cons (Instr.spells_const (by decide))
      (.cons (Instr.spells_numeric op t) .nil))
  have htest := (h.append .space).append hzero
  rw [List.append_nil] at htest
  rw [Node.againstZero, hkind]
  exact htest

theorem spells_isZero (h : Spells (Instr.seq operands) c.operandTrees) :
    Spells (isZero t operands).text [clause (t.name ++ ".eqz") c.operandTrees] := by
  have hopen : OpensList ("(" ++ t.name ++ ".eqz ") [.atom (t.name ++ ".eqz")] [] := by
    cases t <;> exact fun _ _ => rfl
  exact (hopen.spells h).close

theorem spells_truth (hkind : c.resultKind = .value t)
    (h : Spells (Instr.seq operands) c.operandTrees) :
    Spells (truth t operands).text c.truthTrees := by
  rw [Node.truthTrees, hkind]
  cases t with
  | i32 => exact h
  | i64 | f32 | f64 => exact spells_againstZero .ne hkind h

theorem spells_exit (hkind : c.resultKind = .value t)
    (h : Spells (Instr.seq operands) c.operandTrees) :
    Spells (exit t operands).text c.exitTrees := by
  rw [Node.exitTrees, hkind]
  cases t with
  | i32 | i64 => exact spells_isZero h
  | f32 | f64 => exact spells_againstZero .eq hkind h

end Test

/-! ## Lines -/

section Lines

variable {o : Options} {r r' r'' : Reader} {done done' items trees more : List SExpr}
  {outer outer' : List (List SExpr)} {front : List Char} {lines : List Line} {s : String}

/-- Indentation and line end only separate: a line reads as its pieces do, up to its end. -/
theorem reads_line {pieces : List Piece}
    (h : Reads (.gap done outer) (String.join (pieces.map (Piece.render o)))
      ⟨.word front, done', outer'⟩) (depth : Nat) :
    Reads (.gap done outer) (Line.render o ⟨depth, pieces⟩)
      (.gap (Reader.endWord done' front) outer') :=
  ((reads_spaces _).append h).append reads_newline

theorem reads_ofText (h : Reads (.gap done outer) s ⟨.word front, done', outer'⟩) (depth : Nat) :
    Reads (.gap done outer) (Line.render o (.ofText depth s))
      (.gap (Reader.endWord done' front) outer') := by
  have hline : Reads (.gap done outer) (String.join ([.text s].map (Piece.render o)))
      ⟨.word front, done', outer'⟩ := h.join_singleton
  exact reads_line hline depth

theorem reads_lines_cons {l : Line} (hl : Reads r (l.render o) r')
    (h : Reads r' (renderLines o lines) r'') : Reads r (renderLines o (l :: lines)) r'' :=
  hl.join_cons h

theorem spells_lines_append {xs ys : List Line} (hxs : Spells (renderLines o xs) trees)
    (hys : Spells (renderLines o ys) more) : Spells (renderLines o (xs ++ ys)) (trees ++ more) := by
  rw [renderLines_append]
  exact hxs.append hys

theorem spells_line {pieces : List Piece}
    (h : Spells (String.join (pieces.map (Piece.render o))) trees) (depth : Nat) :
    Spells (renderLines o [⟨depth, pieces⟩]) trees :=
  fun done outer => reads_lines_cons (reads_line (h done outer) depth) reads_empty

theorem spells_ofText (h : Spells s trees) (depth : Nat) :
    Spells (renderLines o [.ofText depth s]) trees :=
  fun done outer => reads_lines_cons (reads_ofText (h done outer) depth) reads_empty

theorem OpensList.line {pieces : List Piece}
    (h : OpensList (String.join (pieces.map (Piece.render o))) items front) (depth : Nat) :
    OpensList (Line.render o ⟨depth, pieces⟩) (Reader.endWord items front) [] :=
  fun done outer => reads_line (h done outer) depth

/-- A line that opens a list and goes on with what can stand behind an atom. -/
theorem OpensList.line_behind {t : String} (hs : OpensList s items front)
    (ht : SpellsBehind t trees) (depth : Nat) :
    OpensList (Line.render o (.ofText depth (s ++ t)))
      (Reader.endWord items front ++ trees) [] := by
  intro done outer
  obtain ⟨front', done', hread, hdone⟩ := ht front items (done :: outer)
  rw [← hdone]
  exact reads_ofText ((hs done outer).append hread) depth

/-- A line that opens a list, lines inside it, and a line that closes it. -/
theorem spells_enclosed {l : Line} (hopen : OpensList (l.render o) items [])
    (h : Spells (renderLines o lines) trees) (depth : Nat) :
    Spells (renderLines o (l :: lines ++ [.ofText depth ")"])) [.list (items ++ trees)] := by
  intro done outer
  rw [renderLines_append]
  refine (reads_lines_cons (hopen done outer) (h _ (done :: outer))).append ?_
  exact reads_lines_cons (reads_ofText reads_close depth) reads_empty

/-- A line that closes two lists. -/
theorem reads_closeBoth (depth : Nat) :
    Reads (.gap items (done' :: done :: outer)) (renderLines o [.ofText depth "))"])
      (.gap (done ++ [.list (done' ++ [.list items])]) outer) :=
  reads_lines_cons (reads_ofText (reads_close.append reads_close) depth) reads_empty

end Lines

/-! ## Code -/

section Code

variable {o : Options} {trees more : List SExpr} {xs ys : List Code}

/-- At every depth the lines of the code spell the trees. -/
def CodeSpells (o : Options) (code : List Code) (trees : List SExpr) : Prop :=
  ∀ depth, Spells (renderLines o (linesAll depth code)) trees

theorem codeSpells_nil : CodeSpells o [] [] := fun _ => .empty

theorem CodeSpells.append (hxs : CodeSpells o xs trees) (hys : CodeSpells o ys more) :
    CodeSpells o (xs ++ ys) (trees ++ more) := by
  intro depth
  rw [linesAll_append]
  exact spells_lines_append (hxs depth) (hys depth)

theorem codeSpells_singleton {c : Code}
    (h : ∀ depth, Spells (renderLines o (c.lines depth)) trees) : CodeSpells o [c] trees := by
  intro depth
  rw [linesAll, linesAll, List.append_nil]
  exact h depth

theorem codeSpells_set {storage : Storage} {name : String} {operands : List Instr}
    (hname : IsToken name) (h : Spells (Instr.seq operands) trees) :
    CodeSpells o [.set storage name operands]
      [clause (storage.name ++ ".set") (ident name :: trees)] := by
  have hopen : OpensList ("(" ++ storage.name ++ ".set $")
      [.atom (storage.name ++ ".set")] ['$'] := by
    cases storage <;> exact fun _ _ => rfl
  have hclause := ((hopen.word hname.unbroken).space.spells h).close
  rw [List.singleton_append, Reader.endWord_ident] at hclause
  exact codeSpells_singleton fun depth => spells_ofText hclause depth

variable (ho : IsToken o.returnLabel)

include ho in
theorem Label.unbroken_name (l : Label) : Unbroken (l.name o) := by
  cases l with
  | ret => exact ho.unbroken
  | exit d => exact Unbroken.append (by decide) (unbroken_repr d)
  | next d => exact Unbroken.append (by decide) (unbroken_repr d)
  | head d => exact Unbroken.append (by decide) (unbroken_repr d)

/-- An atom that consists of a label refers to the label. -/
theorem Label.endWord_name (done : List SExpr) (l : Label) :
    Reader.endWord done ('$' :: (l.name o).toList) = done ++ [l.tree o.returnLabel] := by
  rw [Reader.endWord_ident]
  cases l <;> rfl

include ho in
/-- The front of a line, and what follows the label. -/
theorem reads_label {head keyword tail : String} (hhead : OpensList head [.atom keyword] ['$'])
    (l : Label) {done : List SExpr} {outer : List (List SExpr)} {r : Reader}
    (htail : Reads ⟨.word ('$' :: (l.name o).toList), [.atom keyword], done :: outer⟩ tail r) :
    Reads (.gap done outer)
      (String.join ([.text head, l.piece, .text tail].map (Piece.render o))) r :=
  (hhead done outer).join_cons ((reads_word (l.unbroken_name ho)).join_cons htail.join_singleton)

include ho in
/-- A line that opens a list with a keyword and a label. -/
theorem opensList_label {head keyword : String} (hhead : OpensList head [.atom keyword] ['$'])
    (l : Label) (depth : Nat) :
    OpensList (Line.render o ⟨depth, [.text head, l.piece]⟩)
      [.atom keyword, l.tree o.returnLabel] [] := by
  have hfront : OpensList (String.join ([.text head, l.piece].map (Piece.render o)))
      [.atom keyword] ('$' :: (l.name o).toList) := fun done outer =>
    (hhead done outer).join_cons (reads_word (l.unbroken_name ho)).join_singleton
  have hline := hfront.line depth
  rwa [Label.endWord_name] at hline

include ho in
theorem codeSpells_jump (target : Label) :
    CodeSpells o [.br target none] [jumpTree o.returnLabel target []] := by
  refine codeSpells_singleton fun depth => spells_line (fun done outer => ?_) depth
  have hhead : OpensList "(br $" [.atom "br"] ['$'] := fun _ _ => rfl
  have hclose : Reads ⟨.word ('$' :: (target.name o).toList), [.atom "br"], done :: outer⟩ ")" _ :=
    reads_close
  rw [Label.endWord_name] at hclose
  exact reads_label ho hhead target hclose

include ho in
/-- A list that has a label and operands. -/
theorem spells_labelled {head keyword s : String} (hhead : OpensList head [.atom keyword] ['$'])
    (l : Label) (h : Spells s trees) (depth : Nat) :
    Spells (renderLines o [⟨depth, [.text head, l.piece, .text (" " ++ s ++ ")")]⟩])
      [clause keyword (l.tree o.returnLabel :: trees)] := by
  refine spells_line (fun done outer => ?_) depth
  have hline := reads_label ho hhead l
    ((reads_space.append (h _ (done :: outer))).append reads_close)
  rw [Label.endWord_name] at hline
  exact hline

include ho in
theorem codeSpells_returnValue (target : Label) {operands : List Instr}
    (h : Spells (Instr.seq operands) trees) :
    CodeSpells o [.br target (some operands)] [jumpTree o.returnLabel target trees] := by
  have hhead : OpensList "(br $" [.atom "br"] ['$'] := fun _ _ => rfl
  exact codeSpells_singleton (spells_labelled ho hhead target h)

include ho in
theorem codeSpells_brIf (target : Label) {test : Test} (h : Spells test.text trees) :
    CodeSpells o [.brIf target test] [jumpIfTree o.returnLabel target trees] := by
  have hhead : OpensList "(br_if $" [.atom "br_if"] ['$'] := fun _ _ => rfl
  exact codeSpells_singleton (spells_labelled ho hhead target h)

include ho in
theorem codeSpells_block (label : Label) (h : CodeSpells o xs trees) :
    CodeSpells o [.block label xs] [blockTree o.returnLabel label trees] := by
  refine codeSpells_singleton fun depth => ?_
  have hhead : OpensList "(block $" [.atom "block"] ['$'] := fun _ _ => rfl
  exact spells_enclosed (opensList_label ho hhead label depth) (h (depth + 1)) depth

include ho in
/-- A loop opens two lists on two lines, and one line closes both. -/
theorem codeSpells_loop (d : Nat) (head : Label) (h : CodeSpells o xs trees) :
    CodeSpells o [.loop (.exit d) head xs] [loopTree o.returnLabel d head trees] := by
  refine codeSpells_singleton fun depth done outer => ?_
  have hblock : OpensList "(block $" [.atom "block"] ['$'] := fun _ _ => rfl
  have hloop : OpensList "(loop  $" [.atom "loop"] ['$'] := fun _ _ => rfl
  have hblockLine := opensList_label ho hblock (.exit d) depth done outer
  have hloopLine := opensList_label ho hloop head depth
  rw [Code.lines, renderLines_append]
  refine (reads_lines_cons hblockLine
    (reads_lines_cons (hloopLine _ (done :: outer)) (h (depth + 1) _ _))).append ?_
  exact reads_closeBoth depth

/-- A conditional is its test, a line that opens two lists, the first branch inside them, and what
turns the two open lists into the tree. -/
theorem codeSpells_conditional {test : Test} {no : Option (List Code)} {tests : List SExpr}
    {tree : SExpr} (htest : Spells test.text tests) (hyes : CodeSpells o xs trees)
    (hno : ∀ depth done outer, Reads (.gap (.atom "then" :: trees) ([.atom "if"] :: done :: outer))
      (renderLines o (elseLines depth no ++ [.ofText depth "))"])) (.gap (done ++ [tree]) outer)) :
    CodeSpells o [.ifThen test xs no] (tests ++ [tree]) := by
  refine codeSpells_singleton fun depth => ?_
  have hlines : Code.lines depth (.ifThen test xs no) = [.ofText depth test.text]
      ++ ((.ofText depth "(if (then" :: linesAll (depth + 1) xs)
        ++ (elseLines depth no ++ [.ofText depth "))"])) := by
    simp only [Code.lines, List.cons_append, List.append_assoc, List.nil_append]
  rw [hlines]
  refine spells_lines_append (spells_ofText htest depth) fun done outer => ?_
  have hopen : Reads (.gap done outer) "(if (then"
      ⟨.word "then".toList, [], [.atom "if"] :: done :: outer⟩ := rfl
  rw [renderLines_append]
  exact (reads_lines_cons (reads_ofText hopen depth) (hyes (depth + 1) _ _)).append
    (hno depth done outer)

theorem codeSpells_ifThen {test : Test} {tests : List SExpr} (htest : Spells test.text tests)
    (hyes : CodeSpells o xs trees) :
    CodeSpells o [.ifThen test xs none] (tests ++ [clause "if" [clause "then" trees]]) := by
  refine codeSpells_conditional htest hyes fun depth done outer => ?_
  rw [elseLines, List.nil_append]
  exact reads_closeBoth depth

/-- The line between two branches closes one list and opens another. -/
theorem codeSpells_ifElse {test : Test} {tests : List SExpr} (htest : Spells test.text tests)
    (hyes : CodeSpells o xs trees) (hno : CodeSpells o ys more) :
    CodeSpells o [.ifThen test xs (some ys)]
      (tests ++ [clause "if" [clause "then" trees, clause "else" more]]) := by
  refine codeSpells_conditional htest hyes fun depth done outer => ?_
  -- the first branch is complete here, and the `if` waits for the second
  have hbetween : Reads (.gap (.atom "then" :: trees) ([.atom "if"] :: done :: outer)) ")(else"
      ⟨.word "else".toList, [], [.atom "if", clause "then" trees] :: done :: outer⟩ := rfl
  rw [elseLines, renderLines_append]
  refine (reads_lines_cons (reads_ofText hbetween depth) (hno (depth + 1) _ _)).append ?_
  exact reads_closeBoth depth

include ho in
theorem codeSpells_wrap (shape : Shape) (d : Nat) (h : CodeSpells o xs trees) :
    CodeSpells o (shape.wrap d xs) (shape.bodyTrees o.returnLabel d trees) := by
  cases shape with
  | plain => exact h
  | wrapped => exact codeSpells_block ho (.next d) h

end Code

/-! ## Legible source trees -/

namespace Node

/-- The names and literals that a node itself has; an alias is not among them. -/
def words : Node → List String
  | .exportFunc _ name _ => [name]
  | n => n.texts

/-- The alias that a node itself has. -/
def alias? : Node → Option String
  | .exportFunc _ _ exported => some exported
  | _ => none

/-- Each name and each literal in the tree is a token, and each alias can stand in a string. -/
def Legible (n : Node) : Prop :=
  ∀ m ∈ n.nodes, (∀ s ∈ m.words, IsToken s) ∧ ∀ s ∈ m.alias?, QuoteFree s

theorem legible_iff {n : Node} :
    n.Legible ↔ ((∀ s ∈ n.words, IsToken s) ∧ ∀ s ∈ n.alias?, QuoteFree s)
      ∧ ∀ c ∈ n.children, c.Legible :=
  forall_mem_nodes_iff

theorem Legible.isToken {n : Node} (h : n.Legible) {s : String} (hs : s ∈ n.words) : IsToken s :=
  (legible_iff.mp h).1.1 s hs

theorem Legible.child {n c : Node} (h : n.Legible) (hc : c ∈ n.children) : c.Legible :=
  (legible_iff.mp h).2 c hc

end Node

/-! ## Expressions -/

theorem Selects.spells {n : Node} {i : Option Instr} (h : Selects n i) (hn : n.Legible) :
    List.Forall₂ (fun i tree => Spells i.text [tree]) i.toList n.operandTrees := by
  cases h with
  | number => exact .cons (Instr.spells_const (hn.isToken List.mem_cons_self)) .nil
  | get => exact .cons (Instr.spells_get (hn.isToken List.mem_cons_self)) .nil
  | @operator p op t i hselect =>
      have htrees : (Node.operator p (.value t) op.symbol).operandTrees
          = [clause (i.mnemonic t) []] := by
        simp [Node.operandTrees, BinaryOp.mnemonic?, hselect]
      rw [htrees]
      exact .cons (Instr.spells_numeric i t) .nil
  | @identity p t =>
      have hplan : castPlan? (.value t) (.value t) = some .identity :=
        congrArg some (castPlan_eq_identity_iff.mpr rfl)
      rw [Node.operandTrees, hplan]
      exact .nil
  | @convert p c =>
      have hplan : castPlan? (.value c.source) (.value c.target) = some (.convert c) :=
        congrArg some (castPlan_eq_convert_iff.mpr ⟨rfl, rfl⟩)
      rw [Node.operandTrees, hplan]
      exact .cons (Instr.spells_convert c) .nil

theorem Computes.spells {terms : List Node} {ops : List Instr} (h : Computes terms ops)
    (hterms : ∀ n ∈ terms, n.Legible) :
    List.Forall₂ (fun i tree => Spells i.text [tree]) ops (operandTreesAll terms) := by
  induction h with
  | nil => exact .nil
  | leaf hi _ ih =>
      rw [List.forall_mem_cons] at hterms
      exact List.rel_append (hi.spells hterms.1) (ih hterms.2)
  | expression _ _ _ ihterms ih =>
      rw [List.forall_mem_cons] at hterms
      exact List.rel_append (ihterms fun _ => hterms.1.child) (ih hterms.2)

theorem spells_operands {n : Node} {ops : List Instr} (h : n.operands = .ok ops)
    (hn : n.Legible) : Spells (Instr.seq ops) n.operandTrees := by
  have hops := (operands_eq_ok_iff.mp h).spells (by simpa using hn)
  rw [operandTreesAll, operandTreesAll, List.append_nil] at hops
  exact Instr.spells_seq hops

theorem spells_truthTest {c : Node} {test : Test} (h : c.truthTest = .ok test)
    (hc : c.Legible) : Spells test.text c.truthTrees := by
  obtain ⟨ops, t, hops, hkind, rfl⟩ := Node.truthTest_eq_ok_iff.mp h
  exact Test.spells_truth hkind (spells_operands hops hc)

/-! ## Statements -/

section Statements

variable {o : Options}

theorem codeSpells_assignments {ns : List Node} {code : List Code}
    (h : ns.mapM Node.assignment = .ok code) (hns : ∀ n ∈ ns, n.Legible) :
    CodeSpells o code (ns.map Node.assignmentTree) := by
  rw [mapM_eq_ok_iff] at h
  induction h with
  | nil => exact codeSpells_nil
  | cons hc _ ih =>
      rw [List.forall_mem_cons] at hns
      obtain ⟨p, storage, x, v, ops, rfl, hops, rfl⟩ := Node.assignment_eq_ok_iff.mp hc
      have hops := spells_operands hops (hns.1.child List.mem_cons_self)
      exact (codeSpells_set (hns.1.isToken List.mem_cons_self) hops).append (ih hns.2)

theorem codeSpells_guard (ho : IsToken o.returnLabel) {condition : Option Node} {d : Nat}
    {guard : List Code} (h : condition.toList.mapM (Node.exitGuard d) = .ok guard)
    (hcondition : ∀ c ∈ condition, c.Legible) :
    CodeSpells o guard
      (condition.toList.map fun c => jumpIfTree o.returnLabel (.exit d) c.exitTrees) := by
  obtain ⟨rfl, rfl⟩ | ⟨c, ops, t, rfl, hops, hkind, rfl⟩ := Node.guard_eq_ok_iff.mp h
  · exact codeSpells_nil
  · have htest := Test.spells_exit hkind (spells_operands hops (hcondition c rfl))
    exact codeSpells_brIf ho (.exit d) htest

/-- The tree of a `while` loop is that of a `for` loop which has only a condition. -/
theorem statementTrees_whileLoop (returnLabel : String) (s : Scope) (p : Position) (c : Node)
    (body : List Node) :
    (Node.whileLoop p c body).statementTrees returnLabel s
      = (Node.forLoop p [] (some c) [] body).statementTrees returnLabel s := by
  have hshape : Shape.ofBody false body = .plain := rfl
  simp [Node.statementTrees, hshape, Shape.bodyTrees, Shape.headLabel]

/-- **Statements become code that spells their trees**, by induction over the rules. -/
theorem Lowers.codeSpells (ho : IsToken o.returnLabel) {s : Scope} {stmts : List Node}
    {code : List Code} (h : Lowers s stmts code) (hstmts : ∀ n ∈ stmts, n.Legible) :
    CodeSpells o code (statementTreesAll o.returnLabel s stmts) := by
  induction h with
  | nil => exact codeSpells_nil
  | declaration _ ih => exact ih (List.forall_mem_cons.mp hstmts).2
  | assignment hops _ ih =>
      rw [List.forall_mem_cons] at hstmts
      have hops := spells_operands hops (hstmts.1.child List.mem_cons_self)
      exact (codeSpells_set (hstmts.1.isToken List.mem_cons_self) hops).append (ih hstmts.2)
  | returnValue _ hops _ ih =>
      rw [List.forall_mem_cons] at hstmts
      have hops := spells_operands hops (hstmts.1.child List.mem_cons_self)
      exact (codeSpells_returnValue ho .ret hops).append (ih hstmts.2)
  | returnVoid _ _ ih =>
      exact (codeSpells_jump ho .ret).append (ih (List.forall_mem_cons.mp hstmts).2)
  | @brk _ _ _ d _ _ hd _ ih =>
      rw [statementTreesAll, Node.statementTrees, hd]
      exact (codeSpells_jump ho (.exit d)).append (ih (List.forall_mem_cons.mp hstmts).2)
  | @cont _ _ _ d _ _ hd _ ih =>
      rw [statementTreesAll, Node.statementTrees, hd]
      exact (codeSpells_jump ho (.next d)).append (ih (List.forall_mem_cons.mp hstmts).2)
  | whileLoop _ ih =>
      rw [List.forall_mem_cons, Node.legible_iff] at hstmts
      rw [statementTreesAll, statementTrees_whileLoop]
      refine ih ?_
      rw [List.forall_mem_cons, Node.legible_iff]
      simpa [Node.words, Node.texts, Node.alias?, Node.children] using hstmts
  | @forLoop s p init condition increment body rest shape first guard inner step code hshape hinit
      hguard _ hstep _ ihbody ih =>
      rw [List.forall_mem_cons, Node.legible_iff] at hstmts
      simp only [Node.children, List.forall_mem_append, Option.mem_toList] at hstmts
      obtain ⟨⟨-, ⟨⟨hlegibleInit, hlegibleCondition⟩, hlegibleStep⟩, hlegibleBody⟩, hrest⟩ := hstmts
      have hbody := codeSpells_wrap ho shape s.depth (ihbody hlegibleBody)
      have hpass := (((codeSpells_guard ho hguard hlegibleCondition).append hbody).append
        (codeSpells_assignments hstep hlegibleStep)).append
          (codeSpells_jump ho (shape.headLabel s.depth))
      have hloop := codeSpells_loop ho s.depth (shape.headLabel s.depth) hpass
      -- the first assignments stand in front of the loop, and are read apart from it
      have hall := (codeSpells_assignments hinit hlegibleInit).append (hloop.append (ih hrest))
      rw [statementTreesAll, Node.statementTrees, ← hshape,
        List.append_assoc (init.map Node.assignmentTree)]
      exact hall
  | @doLoop s p c body rest shape test inner code hshape _ htest _ ihbody ih =>
      rw [List.forall_mem_cons, Node.legible_iff] at hstmts
      simp only [Node.children, List.forall_mem_append, List.forall_mem_singleton] at hstmts
      obtain ⟨⟨-, hlegibleBody, hlegibleCondition⟩, hrest⟩ := hstmts
      have hbody := codeSpells_wrap ho shape s.depth (ihbody hlegibleBody)
      have hpass := hbody.append
        (codeSpells_brIf ho (shape.headLabel s.depth) (spells_truthTest htest hlegibleCondition))
      rw [statementTreesAll, Node.statementTrees, ← hshape]
      exact (codeSpells_loop ho s.depth (shape.headLabel s.depth) hpass).append (ih hrest)
  | ifThen htest _ _ ihyes ih =>
      rw [List.forall_mem_cons, Node.legible_iff] at hstmts
      simp only [Node.children, Option.getD_none, List.append_nil, List.forall_mem_cons] at hstmts
      obtain ⟨⟨-, hcondition, hyes⟩, hrest⟩ := hstmts
      have htest := spells_truthTest htest hcondition
      exact (codeSpells_ifThen htest (ihyes hyes)).append (ih hrest)
  | ifElse htest _ _ _ ihyes ihno ih =>
      rw [List.forall_mem_cons, Node.legible_iff] at hstmts
      simp only [Node.children, Option.getD_some, List.forall_mem_append, List.forall_mem_cons]
        at hstmts
      obtain ⟨⟨-, ⟨hcondition, hyes⟩, hno⟩, hrest⟩ := hstmts
      have htest := spells_truthTest htest hcondition
      exact (codeSpells_ifElse htest (ihyes hyes) (ihno hno)).append (ih hrest)

end Statements

/-! ## Functions and modules -/

section Modules

variable {o : Options}

theorem spells_declaration {keyword : String}
    (hkeyword : OpensList ("(" ++ keyword ++ " $") [.atom keyword] ['$']) {n : Node} {v : Variable}
    (h : n.declaration = .ok v) (hn : n.Legible) :
    Spells (v.text keyword) [n.declarationTree keyword] := by
  obtain ⟨p, rfl⟩ := Node.declaration_eq_ok_iff.mp h
  have hname : IsToken v.1 := hn.isToken List.mem_cons_self
  have hclause := ((hkeyword.word hname.unbroken).space.word v.2.isToken_name.unbroken).close
  rw [List.singleton_append, Reader.endWord_ident, List.nil_append,
    Reader.endWord_toList v.2.isToken_name.ne_empty] at hclause
  exact hclause

/-- The parameters in the header of a function. -/
theorem spells_parameters {ns : List Node} {vars : List Variable}
    (h : ns.mapM Node.declaration = .ok vars) (hns : ∀ n ∈ ns, n.Legible) :
    SpellsBehind (String.join (vars.map fun v => " " ++ v.text "param"))
      (ns.map (Node.declarationTree "param")) := by
  rw [mapM_eq_ok_iff] at h
  induction h with
  | nil => exact .empty
  | cons hv _ ih =>
      rw [List.forall_mem_cons] at hns
      have hkeyword : OpensList ("(" ++ "param" ++ " $") [.atom "param"] ['$'] := fun _ _ => rfl
      rw [List.map_cons, String.join_cons]
      exact (spells_declaration hkeyword hv hns.1).behind.append (ih hns.2)

/-- The lines of local variables. -/
theorem spells_locals {ns : List Node} {vars : List Variable}
    (h : ns.mapM Node.declaration = .ok vars) (hns : ∀ n ∈ ns, n.Legible) (depth : Nat) :
    Spells (renderLines o (vars.map fun v => .ofText depth (v.text "local")))
      (ns.map (Node.declarationTree "local")) := by
  rw [mapM_eq_ok_iff] at h
  induction h with
  | nil => exact .empty
  | cons hv _ ih =>
      rw [List.forall_mem_cons] at hns
      have hkeyword : OpensList ("(" ++ "local" ++ " $") [.atom "local"] ['$'] := fun _ _ => rfl
      rw [List.map_cons, List.map_cons, ← List.singleton_append, ← List.singleton_append]
      exact spells_lines_append (spells_ofText (spells_declaration hkeyword hv hns.1) depth)
        (ih hns.2)

theorem spells_resultClause (k : NumericKind) :
    SpellsBehind (resultClause k.valueType?) k.resultTrees := by
  cases k with
  | value t =>
      have hclause : Spells ("(result " ++ t.name ++ ")") [clause "result" [.atom t.name]] := by
        cases t <;> exact fun _ _ => rfl
      have htext : " " ++ ("(result " ++ t.name ++ ")") = resultClause (some t) := by
        cases t <;> rfl
      exact htext ▸ hclause.behind
  | void => exact .empty
  | notApplicable => exact .empty

/-- The line that opens the block around the body of a function. -/
theorem opensList_returnBlock (ho : IsToken o.returnLabel) (result : NumericKind) (depth : Nat) :
    OpensList (Line.render o ⟨depth, [.text "(block $", Label.ret.piece,
        .text (resultClause result.valueType?)]⟩)
      (.atom "block" :: Label.ret.tree o.returnLabel :: result.resultTrees) [] := by
  intro done outer
  have hhead : OpensList "(block $" [.atom "block"] ['$'] := fun _ _ => rfl
  obtain ⟨front, done', hread, hdone⟩ :=
    spells_resultClause result ('$' :: (Label.ret.name o).toList) [.atom "block"] (done :: outer)
  have hline := reads_line (reads_label ho hhead .ret hread) depth
  rw [hdone, Label.endWord_name] at hline
  exact hline

/-- The first line of a function. -/
theorem FunctionLowers.opensList_header {name : String} {result : NumericKind} {q : Position}
    {params body : List Node} {f : Func}
    (h : FunctionLowers name result (.paramList q params) body f) (hname : IsToken name)
    (hparams : ∀ n ∈ params, n.Legible) (depth : Nat) :
    OpensList (Line.render o (.ofText depth f.header))
      (.atom "func" :: ident name :: params.map (Node.declarationTree "param")
        ++ result.resultTrees) [] := by
  have hhead : OpensList "(func $" [.atom "func"] ['$'] := fun _ _ => rfl
  have hvars : params.mapM Node.declaration = .ok f.params := h.params_eq
  have hline := (hhead.word hname.unbroken).line_behind (o := o)
    ((spells_parameters hvars hparams).append (spells_resultClause result)) depth
  rw [List.singleton_append, Reader.endWord_ident, h.result_eq, ← String.append_assoc] at hline
  rw [Func.header, h.name_eq]
  exact hline

/-- The body of a function, in its block. -/
theorem FunctionLowers.spells_body (ho : IsToken o.returnLabel) {name : String}
    {result : NumericKind} {params : Node} {body : List Node} {f : Func}
    (h : FunctionLowers name result params body f) (hbody : ∀ n ∈ body, n.Legible) (depth : Nat) :
    Spells (renderLines o (Line.mk depth [.text "(block $", Label.ret.piece,
        .text (resultClause f.result)] :: linesAll (depth + 1) f.body ++ [Line.ofText depth ")"]))
      [blockTree o.returnLabel .ret (result.resultTrees
        ++ statementTreesAll o.returnLabel (.ofFunction result.valueType?) body)] := by
  have hcode := h.lowers.codeSpells ho fun n hn => hbody n (List.dropWhile_subset _ hn)
  have hskip : statementTreesAll o.returnLabel (.ofFunction f.result)
      (body.dropWhile Node.isDeclaration)
        = statementTreesAll o.returnLabel (.ofFunction f.result) body :=
    apply_dropWhile_isDeclaration (fun _ _ _ _ => rfl) body
  rw [h.result_eq, ← hskip]
  have hopen := opensList_returnBlock ho result depth
  rw [h.result_eq] at hopen
  exact spells_enclosed hopen (hcode (depth + 1)) depth

theorem Func.lines_eq (f : Func) (depth : Nat) :
    f.lines depth = Line.ofText depth f.header
      :: (f.locals.map (fun v => Line.ofText (depth + 1) (v.text "local"))
        ++ (Line.mk (depth + 1) [.text "(block $", Label.ret.piece, .text (resultClause f.result)]
          :: linesAll (depth + 2) f.body ++ [Line.ofText (depth + 1) ")"]))
      ++ [Line.ofText depth ")"] := by
  simp only [Func.lines, List.cons_append, List.append_assoc, List.nil_append]

/-- **A function spells its tree.** -/
theorem FunctionLowers.spells (ho : IsToken o.returnLabel) {p : Position} {name : String}
    {result : NumericKind} {params : Node} {body : List Node} {f : Func}
    (h : FunctionLowers name result params body f)
    (hn : (Node.function p name result params body).Legible) (depth : Nat) :
    Spells (renderLines o (f.lines depth))
      [(Node.function p name result params body).itemTree o.returnLabel] := by
  obtain ⟨q, items, rfl, -⟩ := Node.parameters_eq_ok_iff.mp h.params_eq
  have hparams : ∀ n ∈ items, n.Legible := fun _ =>
    (hn.child (c := .paramList q items) List.mem_cons_self).child
  have hbody : ∀ n ∈ body, n.Legible := fun _ hmem => hn.child (List.mem_cons_of_mem _ hmem)
  have hheader := h.opensList_header (o := o) (hn.isToken List.mem_cons_self) hparams depth
  have hlocals := spells_locals (o := o) h.locals_eq
    (fun n hmem => hbody n (List.takeWhile_subset _ hmem)) (depth + 1)
  have hblock := h.spells_body ho hbody (depth + 1)
  have hfunc := spells_enclosed hheader (spells_lines_append hlocals hblock) depth
  -- the lines are grouped by what encloses them, the tree lists them one after the other
  rw [← List.append_assoc (_ ++ _)] at hfunc
  rw [f.lines_eq]
  exact hfunc

/-- **An item spells its tree.** -/
theorem spells_of_lowerItem (ho : IsToken o.returnLabel) {n : Node} {item : Item}
    (h : n.lowerItem.result = .ok item) (hn : n.Legible) (depth : Nat) :
    Spells (renderLines o (item.lines depth)) [n.itemTree o.returnLabel] := by
  cases n with
  | global p mutable name kind init =>
      obtain ⟨t, q, k, literal, rfl, rfl, rfl⟩ := lowerItem_global_eq_ok_iff.mp h
      have hname : IsToken name := hn.isToken List.mem_cons_self
      have hinit := hn.child (c := .number q k literal) List.mem_cons_self
      have hconst := Instr.spells_const (t := t) (hinit.isToken List.mem_cons_self)
      have hhead : OpensList "(global $" [.atom "global"] ['$'] := fun _ _ => rfl
      have hfront := (hhead.word hname.unbroken).space
      rw [List.singleton_append, Reader.endWord_ident] at hfront
      refine spells_ofText ?_ depth
      cases mutable with
      | true =>
          have hmut : Spells ("(mut " ++ t.name ++ ")") [clause "mut" [.atom t.name]] := by
            cases t <;> exact fun _ _ => rfl
          exact ((hfront.spells hmut).space.spells hconst).close
      | false =>
          have hfront := (hfront.word t.isToken_name.unbroken).space
          rw [List.nil_append, Reader.endWord_toList t.isToken_name.ne_empty] at hfront
          exact (hfront.spells hconst).close
  | exportFunc p name exported =>
      obtain rfl : Item.exportFunc name exported = item := by simpa [Node.lowerItem] using h
      have hname : IsToken name := hn.isToken List.mem_cons_self
      have hexported : QuoteFree exported := (Node.legible_iff.mp hn).1.2 exported rfl
      refine spells_ofText (fun done outer => ?_) depth
      have hopen : Reads (.gap done outer) "(export \""
          ⟨.quote [], [.atom "export"], done :: outer⟩ := rfl
      have hfunc : Reads ⟨.quote exported.toList, [.atom "export"], done :: outer⟩ "\" (func $"
          ⟨.word ['$'], [.atom "func"], [.atom "export", .quoted (.ofList exported.toList)]
            :: done :: outer⟩ := rfl
      have hclose : Reads ⟨.word ('$' :: name.toList), [.atom "func"],
          [.atom "export", .quoted exported] :: done :: outer⟩ "))" _ :=
        reads_close.append reads_close
      rw [String.ofList_toList] at hfunc
      rw [Reader.endWord_ident] at hclose
      exact (((hopen.append (reads_quote hexported)).append hfunc).append
        (reads_word hname.unbroken)).append hclose
  | function p name result params body =>
      obtain ⟨f, rfl, hf⟩ := lowerItem_function_eq_ok_iff.mp h
      exact hf.spells ho hn depth
  | _ => simp [Node.lowerItem] at h

theorem spells_of_lowered (ho : IsToken o.returnLabel) {items : List Node} {lowered : List Item}
    (h : List.Forall₂ (fun n item => n.lowerItem.result = .ok item) items lowered)
    (hitems : ∀ n ∈ items, n.Legible) :
    Spells (renderLines o (lowered.flatMap (Item.lines 1)))
      (items.map (Node.itemTree o.returnLabel)) := by
  induction h with
  | nil => exact .empty
  | cons hitem _ ih =>
      rw [List.forall_mem_cons] at hitems
      rw [List.flatMap_cons]
      exact spells_lines_append (spells_of_lowerItem ho hitem hitems.1 1) (ih hitems.2)

/-- **Generated text reads back.**  Whatever the options, if the return label and all names and
literals of the program are tokens, and all its aliases can stand in strings, then the text of the
program spells exactly one tree, which is the tree of the program. -/
theorem generated_text_reads_back {o : Options} {program : Node} {text : String}
    (h : (generate o program).result = .ok text) (hprogram : program.Legible)
    (ho : IsToken o.returnLabel) :
    SExpr.read text = some (program.moduleTree o.returnLabel) := by
  obtain ⟨m, hm, rfl⟩ := generate_eq_ok_iff.mp h
  obtain ⟨p, items, rfl, hitems⟩ := lowerModule_eq_ok_iff.mp hm
  have hlines := spells_of_lowered ho hitems fun _ => hprogram.child
  have hopen : OpensList "(module\n" [.atom "module"] [] := fun _ _ => rfl
  have hempty : Spells "(module)" [clause "module" []] := fun _ _ => rfl
  obtain ⟨lowered⟩ := m
  refine Spells.read_eq ?_
  cases hitems with
  | nil => exact hempty
  | cons _ _ => exact (hopen.spells hlines).close

/-- A program in which everything that can be empty is: branches and bodies have no statements, and
expressions consist of casts that need no instruction.  Its alias has characters that end atoms. -/
def sparse : Node :=
  let same (t : ValueType) : Node := .cast .unplaced (.value t) (.value t)
  .module .unplaced
    [.function .unplaced "f" .void (.paramList .unplaced [])
        [.localVar .unplaced "x" (.value .i64),
          .set .unplaced .local "x" (same .i64),
          .ifElse .unplaced (same .i32) [] (some []),
          .whileLoop .unplaced (same .i64) []],
      .exportFunc .unplaced "f" "run (f); twice"]

theorem sparse_legible : sparse.Legible := by
  simp only [Node.Legible, sparse, Node.nodes_eq, Node.children, Option.getD_some,
    List.flatMap_cons, List.flatMap_nil, List.append_nil, List.nil_append, List.cons_append,
    List.forall_mem_cons, Node.words, Node.alias?, Node.texts, List.not_mem_nil, false_implies,
    implies_true, and_true]
  decide

set_option maxRecDepth 2048 in
/-- Without indentation its lines still keep everything apart. -/
theorem sparse_reads_back :
    let text := "(module\n(func $f\n(local $x i64)\n(block $done\n(local.set $x )\n\n"
      ++ "(if (then\n)(else\n))\n(block $break_3\n(loop  $continue_3\n"
      ++ "(br_if $break_3 (i64.eqz ))\n(br $continue_3)\n))\n)\n)\n"
      ++ "(export \"run (f); twice\" (func $f))\n)"
    (generate ⟨0, "done"⟩ sparse).result = .ok text ∧ sparse.Legible ∧ IsToken "done" ∧
      SExpr.read text = some (sparse.moduleTree "done") := by
  intro text
  have haccepted : (generate ⟨0, "done"⟩ sparse).result = .ok text := rfl
  have hlabel : IsToken "done" := by decide
  exact ⟨haccepted, sparse_legible, hlabel,
    generated_text_reads_back haccepted sparse_legible hlabel⟩

end Modules

end WatLowering
