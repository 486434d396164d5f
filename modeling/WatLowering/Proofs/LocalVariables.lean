import WatLowering.Proofs.ReadBack
import WatLowering.Proofs.Reports

/-!
# Where local variables are declared

A function declares its local variables behind its first line, and there is no other place for them.
This file looks for declarations in the written form of a function, in two ways.

* `Line.DeclaresLocal` — the line begins like a declaration.  `Func.exists_lines_eq`: the lines
  between the first line of a function and the line that opens its return block are the only ones.
* `SExpr.clauses` — the lists that begin with a keyword, anywhere in a tree.  `clauses_itemTree`: in
  the tree of a function they are the declarations in front of its first statement.

**Names can be anything**, and so the text of one may look like a declaration.  Lines are judged by
how they begin, where no name has a place yet; trees are there only where names can be read.
-/

namespace WatLowering

/-! ## Lines that declare local variables -/

/-- The line begins like the declaration of a local variable. -/
def Line.DeclaresLocal (o : Options) (l : Line) : Prop :=
  "(local $".toList <+: (l.written o).toList

/-- The line that opens the return block of a function at `depth`. -/
def Func.returnLine (depth : Nat) (f : Func) : Line :=
  ⟨depth + 1, [.text "(block $", .returnLabel, .text (resultClause f.result)]⟩

section Lines

variable {o : Options}

theorem not_declaresLocal_ofText {depth : Nat} {s : String}
    (h : ¬ "(local $".toList <+: s.toList) : ¬ (Line.ofText depth s).DeclaresLocal o := by
  simpa [Line.DeclaresLocal] using h

/-- A line that begins with a settled piece declares no local variable if the piece begins with
something else. -/
theorem not_declaresLocal_of_text {depth : Nat} {s : String} {pieces : List Piece}
    (h : ∀ rest : List Char, ¬ "(local $".toList <+: s.toList ++ rest) :
    ¬ (Line.mk depth (.text s :: pieces)).DeclaresLocal o := by
  simpa [Line.DeclaresLocal, Line.written, Piece.render, String.join_cons] using h _

mutual

/-- **Code declares no local variables.** -/
theorem Code.not_declaresLocal : ∀ (c : Code) (depth : Nat),
    ∀ l ∈ c.lines depth, ¬ l.DeclaresLocal o
  | .set storage name ops, depth => by
      simp only [Code.lines, List.forall_mem_singleton]
      cases storage <;> exact not_declaresLocal_ofText (by simp [Storage.name])
  | .br target none, depth => by
      simp only [Code.lines, List.forall_mem_singleton]
      exact not_declaresLocal_of_text (by simp)
  | .br target (some ops), depth => by
      simp only [Code.lines, List.forall_mem_singleton]
      exact not_declaresLocal_of_text (by simp)
  | .brIf target test, depth => by
      simp only [Code.lines, List.forall_mem_singleton]
      exact not_declaresLocal_of_text (by simp)
  | .block label body, depth => by
      simp only [Code.lines, List.forall_mem_append, List.forall_mem_cons, List.not_mem_nil,
        false_implies, implies_true, and_true]
      exact ⟨⟨not_declaresLocal_of_text (by simp), not_declaresLocal_linesAll body _⟩,
        not_declaresLocal_ofText (by simp)⟩
  | .loop exit head body, depth => by
      simp only [Code.lines, List.forall_mem_append, List.forall_mem_cons, List.not_mem_nil,
        false_implies, implies_true, and_true]
      exact ⟨⟨not_declaresLocal_of_text (by simp), not_declaresLocal_of_text (by simp),
        not_declaresLocal_linesAll body _⟩, not_declaresLocal_ofText (by simp)⟩
  | .ifThen test yes no, depth => by
      simp only [Code.lines, List.forall_mem_append, List.forall_mem_cons, List.not_mem_nil,
        false_implies, implies_true, and_true]
      have htest : IsForeign "(local $" := by decide
      exact ⟨⟨⟨not_declaresLocal_ofText (test.not_prefix_text htest),
        not_declaresLocal_ofText (by simp),
        not_declaresLocal_linesAll yes _⟩, not_declaresLocal_elseLines no _⟩,
        not_declaresLocal_ofText (by simp)⟩

theorem not_declaresLocal_linesAll : ∀ (code : List Code) (depth : Nat),
    ∀ l ∈ linesAll depth code, ¬ l.DeclaresLocal o
  | [], _ => by simp [linesAll]
  | c :: rest, depth => by
      rw [linesAll, List.forall_mem_append]
      exact ⟨c.not_declaresLocal depth, not_declaresLocal_linesAll rest depth⟩

theorem not_declaresLocal_elseLines : ∀ (no : Option (List Code)) (depth : Nat),
    ∀ l ∈ elseLines depth no, ¬ l.DeclaresLocal o
  | none, _ => by simp [elseLines]
  | some branch, depth => by
      rw [elseLines, List.forall_mem_cons]
      exact ⟨not_declaresLocal_ofText (by simp), not_declaresLocal_linesAll branch _⟩

end

/-- **The local variables of a function** stand between its first line and the line that opens the
return block, and neither these two nor the lines behind them declare one. -/
theorem Func.exists_lines_eq (f : Func) (depth : Nat) :
    ∃ rest, f.lines depth = .ofText depth f.header
        :: f.locals.map (fun v => Line.ofText (depth + 1) (v.text "local"))
        ++ f.returnLine depth :: rest ∧
      ∀ l ∈ .ofText depth f.header :: f.returnLine depth :: rest, ¬ l.DeclaresLocal o := by
  refine ⟨linesAll (depth + 2) f.body ++ [.ofText (depth + 1) ")", .ofText depth ")"], ?_, ?_⟩
  · simp [Func.lines, Func.returnLine, Label.piece]
  · simp only [List.forall_mem_append, List.forall_mem_cons, List.not_mem_nil, false_implies,
      implies_true, and_true]
    exact ⟨not_declaresLocal_ofText (by simp [Func.header]), not_declaresLocal_of_text (by simp),
      not_declaresLocal_linesAll f.body _, not_declaresLocal_ofText (by simp),
      not_declaresLocal_ofText (by simp)⟩

end Lines

/-! ## Local variables in the tree of a text -/

/-- The list begins with the keyword. -/
def SExpr.isClause (keyword : String) : SExpr → Bool
  | .list (.atom head :: _) => head == keyword
  | _ => false

mutual

/-- The lists anywhere in a tree that begin with the keyword. -/
def SExpr.clauses (keyword : String) : SExpr → List SExpr
  | tree@(.list items) =>
      (if tree.isClause keyword then [tree] else []) ++ clausesAll keyword items
  | _ => []

/-- The same for several trees, one after the other. -/
def clausesAll (keyword : String) : List SExpr → List SExpr
  | [] => []
  | tree :: rest => tree.clauses keyword ++ clausesAll keyword rest

end

@[simp] theorem clausesAll_append (keyword : String) (trees others : List SExpr) :
    clausesAll keyword (trees ++ others)
      = clausesAll keyword trees ++ clausesAll keyword others := by
  induction trees with
  | nil => rfl
  | cons tree rest ih => simp [clausesAll, ih]

@[simp] theorem clausesAll_nil (keyword : String) : clausesAll keyword [] = [] := rfl

@[simp] theorem clausesAll_cons (keyword : String) (tree : SExpr) (rest : List SExpr) :
    clausesAll keyword (tree :: rest) = tree.clauses keyword ++ clausesAll keyword rest := rfl

@[simp] theorem SExpr.clauses_atom (keyword s : String) : (SExpr.atom s).clauses keyword = [] := rfl

@[simp] theorem SExpr.clauses_ident (keyword s : String) : (SExpr.ident s).clauses keyword = [] :=
  rfl

theorem SExpr.clauses_clause (keyword head : String) (items : List SExpr) :
    (SExpr.clause head items).clauses keyword
      = (if head = keyword then [SExpr.clause head items] else []) ++ clausesAll keyword items := by
  simp [SExpr.clause, SExpr.clauses, SExpr.isClause]

theorem SExpr.clauses_clause_of_ne {keyword head : String} (h : head ≠ keyword)
    (items : List SExpr) :
    (SExpr.clause head items).clauses keyword = clausesAll keyword items := by
  simp [SExpr.clauses_clause, h]

/-- What has a dot in it does not say `local`. -/
theorem ne_local_of_dot {s : String} (h : '.' ∈ s.toList) : s ≠ "local" := by
  rintro rfl
  simp at h

theorem Conversion.dot_mem_mnemonic (c : Conversion) : '.' ∈ c.mnemonic.toList := by
  cases c <;> decide

theorem SExpr.clauses_const (kind : NumericKind) (literal : String) :
    (SExpr.const kind literal).clauses "local" = [] := by
  rw [SExpr.const, SExpr.clauses_clause_of_ne (ne_local_of_dot (by simp))]
  rfl

theorem BinaryOp.dot_mem_mnemonic {op : BinaryOp} {kind : NumericKind} {s : String}
    (h : op.mnemonic? kind = some s) : '.' ∈ s.toList := by
  simp only [BinaryOp.mnemonic?, Option.bind_eq_bind, Option.bind_eq_some_iff] at h
  obtain ⟨t, -, chosen, -, hs⟩ := h
  obtain rfl : chosen.mnemonic t = s := Option.some.inj hs
  simp [NumericOp.mnemonic]

/-- **Instructions declare nothing.** -/
theorem clauses_operandTrees (n : Node) : clausesAll "local" n.operandTrees = [] := by
  induction n using Node.childInduction with
  | node n ih =>
      cases n with
      | number p kind literal => simp [Node.operandTrees, SExpr.clauses_const]
      | get p storage name kind =>
          simp [Node.operandTrees, SExpr.clauses_clause_of_ne (ne_local_of_dot _)]
      | operator p kind symbol =>
          rw [Node.operandTrees]
          cases hop : (BinaryOp.ofSymbol? symbol).bind (·.mnemonic? kind) with
          | none => rfl
          | some s =>
              obtain ⟨op, -, hs⟩ := Option.bind_eq_some_iff.mp hop
              simp [SExpr.clauses_clause_of_ne (ne_local_of_dot (op.dot_mem_mnemonic hs))]
      | cast p source target =>
          rw [Node.operandTrees]
          split
          · next c _ => simp [SExpr.clauses_clause_of_ne (ne_local_of_dot c.dot_mem_mnemonic)]
          · rfl
      | expression p kind terms =>
          rw [Node.operandTrees]
          change ∀ term ∈ terms, _ at ih
          induction terms with
          | nil => rfl
          | cons term rest ihrest =>
              rw [List.forall_mem_cons] at ih
              rw [operandTreesAll, clausesAll_append, ih.1, ihrest ih.2]
              rfl
      | _ => rfl

theorem clauses_againstZero (comparison : String) (n : Node) :
    clausesAll "local" (n.againstZero comparison) = [] := by
  simp [Node.againstZero, clauses_operandTrees, SExpr.clauses_const,
    SExpr.clauses_clause_of_ne (ne_local_of_dot _)]

theorem clauses_truthTrees (n : Node) : clausesAll "local" n.truthTrees = [] := by
  rw [Node.truthTrees]
  split
  · exact clauses_operandTrees n
  · exact clauses_againstZero "ne" n

theorem clauses_exitTrees (n : Node) : clausesAll "local" n.exitTrees = [] := by
  rw [Node.exitTrees]
  split
  · simp [clauses_operandTrees, SExpr.clauses_clause_of_ne (ne_local_of_dot _)]
  · exact clauses_againstZero "eq" n

theorem clauses_assignmentTree (n : Node) : n.assignmentTree.clauses "local" = [] := by
  cases n with
  | set p storage name value =>
      simp [Node.assignmentTree, clauses_operandTrees,
        SExpr.clauses_clause_of_ne (ne_local_of_dot _)]
  | _ => rfl

theorem clauses_assignmentTrees (ns : List Node) :
    clausesAll "local" (ns.map Node.assignmentTree) = [] := by
  induction ns with
  | nil => rfl
  | cons n rest ih => simp [clauses_assignmentTree, ih]

section Trees

variable (returnLabel : String)

@[simp] theorem Label.clauses_tree (keyword : String) (target : Label) :
    (target.tree returnLabel).clauses keyword = [] := by
  cases target <;> rfl

@[simp] theorem clauses_jumpTree (target : Label) (operands : List SExpr) :
    (jumpTree returnLabel target operands).clauses "local" = clausesAll "local" operands := by
  simp [jumpTree, SExpr.clauses_clause]

@[simp] theorem clauses_jumpIfTree (target : Label) (test : List SExpr) :
    (jumpIfTree returnLabel target test).clauses "local" = clausesAll "local" test := by
  simp [jumpIfTree, SExpr.clauses_clause]

@[simp] theorem clauses_blockTree (label : Label) (items : List SExpr) :
    (blockTree returnLabel label items).clauses "local" = clausesAll "local" items := by
  simp [blockTree, SExpr.clauses_clause]

@[simp] theorem clauses_loopTree (depth : Nat) (head : Label) (items : List SExpr) :
    (loopTree returnLabel depth head items).clauses "local" = clausesAll "local" items := by
  simp [loopTree, SExpr.clauses_clause]

@[simp] theorem Shape.clauses_bodyTrees (depth : Nat) (body : List SExpr) (shape : Shape) :
    clausesAll "local" (shape.bodyTrees returnLabel depth body) = clausesAll "local" body := by
  cases shape <;> simp [Shape.bodyTrees]

theorem clauses_statementTreesAll {stmts : List Node}
    (h : ∀ stmt ∈ stmts, ∀ s, clausesAll "local" (stmt.statementTrees returnLabel s) = [])
    (s : Scope) : clausesAll "local" (statementTreesAll returnLabel s stmts) = [] := by
  induction stmts with
  | nil => rfl
  | cons stmt rest ih =>
      obtain ⟨hstmt, hrest⟩ := List.forall_mem_cons.mp h
      rw [statementTreesAll, clausesAll_append, hstmt, ih hrest]
      rfl

/-- **Statements declare nothing**, whatever stands inside them. -/
theorem clauses_statementTrees (n : Node) :
    ∀ s, clausesAll "local" (n.statementTrees returnLabel s) = [] := by
  induction n using Node.childInduction with
  | node n ih =>
      intro s
      have hall : ∀ (s : Scope) (stmts : List Node), (∀ stmt ∈ stmts, stmt ∈ n.children) →
          clausesAll "local" (statementTreesAll returnLabel s stmts) = [] := by
        intro s stmts hsub
        exact clauses_statementTreesAll returnLabel (fun stmt hmem => ih stmt (hsub stmt hmem)) s
      cases n with
      | set => simp [Node.statementTrees, clauses_assignmentTree]
      | ret p value => cases value <;> simp [Node.statementTrees, clauses_operandTrees]
      | brk p levels =>
          rw [Node.statementTrees]
          cases s.loop? (levels.getD 1) <;> simp
      | cont p levels =>
          rw [Node.statementTrees]
          cases s.loop? (levels.getD 1) <;> simp
      | whileLoop p condition body =>
          have hbody := hall (s.enter .plain) body (by simp +contextual [Node.children])
          simp [Node.statementTrees, clauses_exitTrees, hbody]
      | doLoop p body condition =>
          have hbody := hall (s.enter (.ofBody true body)) body
            (by simp +contextual [Node.children])
          simp [Node.statementTrees, clauses_truthTrees, hbody]
      | forLoop p init condition increment body =>
          have hbody := hall (s.enter (.ofBody (!increment.isEmpty) body)) body
            (by simp +contextual [Node.children])
          cases condition <;>
            simp [Node.statementTrees, clauses_exitTrees, clauses_assignmentTrees, hbody]
      | ifElse p condition yes no =>
          have hyes := hall s.deeper yes (by simp +contextual [Node.children])
          cases no with
          | none =>
              simp [Node.statementTrees, elseTrees, clauses_truthTrees, SExpr.clauses_clause, hyes]
          | some branch =>
              have hno := hall s.deeper branch (by simp +contextual [Node.children])
              simp [Node.statementTrees, elseTrees, clauses_truthTrees, SExpr.clauses_clause, hyes,
                hno]
      | _ => rfl

theorem clauses_parameterTrees (params : List Node) :
    clausesAll "local" (params.map (Node.declarationTree "param")) = [] := by
  induction params with
  | nil => rfl
  | cons n rest ih =>
      have hn : (n.declarationTree "param").clauses "local" = [] := by cases n <;> rfl
      simp [hn, ih]

theorem clauses_localTrees {declarations : List Node}
    (h : ∀ n ∈ declarations, n.isDeclaration = true) :
    clausesAll "local" (declarations.map (Node.declarationTree "local"))
      = declarations.map (Node.declarationTree "local") := by
  induction declarations with
  | nil => rfl
  | cons n rest ih =>
      obtain ⟨hn, hrest⟩ := List.forall_mem_cons.mp h
      have hclause : (n.declarationTree "local").clauses "local" = [n.declarationTree "local"] := by
        cases n with
        | localVar => rfl
        | _ => cases hn
      simp [hclause, ih hrest]

/-- **A function declares the variables in front of its first statement**, once each and in their
order, and no others. -/
theorem clauses_itemTree {p q : Position} {name : String} {result : NumericKind}
    {params body : List Node} :
    ((Node.function p name result (.paramList q params) body).itemTree returnLabel).clauses "local"
      = (body.takeWhile Node.isDeclaration).map (Node.declarationTree "local") := by
  have hresult : clausesAll "local" result.resultTrees = [] := by cases result <;> rfl
  have hlocals : ∀ n ∈ body.takeWhile Node.isDeclaration, n.isDeclaration = true :=
    fun n hn => List.mem_takeWhile_imp hn
  have hbody : ∀ stmt ∈ body, ∀ s, clausesAll "local" (stmt.statementTrees returnLabel s) = [] :=
    fun stmt _ => clauses_statementTrees returnLabel stmt
  simp [Node.itemTree, SExpr.clauses_clause, clauses_parameterTrees, hresult,
    clauses_localTrees hlocals, clauses_statementTreesAll returnLabel hbody]

end Trees

/-! ## The lines of declarations -/

/-- The lines of the local variables are those of the declarations, in their order. -/
theorem forall₂_localLines {declarations : List Node} {locals : List Variable}
    (h : declarations.mapM Node.declaration = .ok locals) (depth : Nat) :
    List.Forall₂ (fun n line => ∃ p x t, n = .localVar p x (.value t) ∧
        line = Line.ofText depth ("(local $" ++ x ++ " " ++ t.name ++ ")"))
      declarations (locals.map fun v => Line.ofText depth (v.text "local")) := by
  rw [List.forall₂_map_right_iff]
  refine (mapM_eq_ok_iff.mp h).imp ?_
  rintro n ⟨x, t⟩ hn
  obtain ⟨p, rfl⟩ := Node.declaration_eq_ok_iff.mp hn
  exact ⟨p, x, t, rfl, rfl⟩

end WatLowering
