import WatLowering.Proofs.LabelNames
import WatLowering.Proofs.OnePass

/-!
# What the options can change

The options are at hand whenever a session writes a line, so each line could depend on them in any
way.  It does not: the lines of a program are settled up to the return label and the width of the
indentation, and neither has a say in whether a program is accepted or in what is wrong with it.

* `openPieces` — the lines of a text that leave the return label open.
* `Node.returnBranches`, `Node.labelUses` — where a source tree asks for the return label: once for
  each function, and once for each of its `return`s.
* `Lowers.openPieces_eq` — the lines of lowered statements leave the label open in the branches of
  the `return`s and nowhere else.
* **`options_lay_out_and_label`** — a program has either one fault under all options, or one list of
  lines, in which the options fill in the label and the indentation.
-/

namespace WatLowering

/-! ## Lines that wait for the label -/

/-- Does the line leave the return label open? -/
def Line.isOpen (l : Line) : Bool := l.pieces.contains .returnLabel

/-- The lines that leave the return label open, without their depths. -/
def openPieces (lines : List Line) : List (List Piece) :=
  (lines.filter Line.isOpen).map Line.pieces

@[simp] theorem openPieces_nil : openPieces [] = [] := rfl

@[simp] theorem openPieces_append (xs ys : List Line) :
    openPieces (xs ++ ys) = openPieces xs ++ openPieces ys := by
  simp [openPieces]

theorem openPieces_cons_of_open {l : Line} (h : l.isOpen = true) (lines : List Line) :
    openPieces (l :: lines) = l.pieces :: openPieces lines := by
  simp [openPieces, h]

theorem openPieces_cons_of_settled {l : Line} (h : l.isOpen = false) (lines : List Line) :
    openPieces (l :: lines) = openPieces lines := by
  simp [openPieces, h]

@[simp] theorem openPieces_ofText (depth : Nat) (text : String) (lines : List Line) :
    openPieces (.ofText depth text :: lines) = openPieces lines :=
  openPieces_cons_of_settled rfl lines

/-- A line with the label of a loop in it is settled. -/
theorem isOpen_label {l : Label} (h : l ≠ .ret) (depth : Nat) (front : String)
    (rest : List Piece) (hrest : .returnLabel ∉ rest) :
    Line.isOpen ⟨depth, .text front :: l.piece :: rest⟩ = false := by
  cases l with
  | ret => exact absurd rfl h
  | _ => simpa [Line.isOpen, Label.piece] using hrest

/-! ## Where a source tree asks for the label -/

/-- The written form of the instructions of an expression. -/
def Node.operandText (n : Node) : String :=
  match n.operands with
  | .ok ops => Instr.seq ops
  | .error _ => ""

mutual

/-- The branches of the `return`s of a statement, in the order in which they stand. -/
def Node.returnBranches : Node → List (List Piece)
  | .ret _ none => [[.text "(br $", .returnLabel, .text ")"]]
  | .ret _ (some value) =>
      [[.text "(br $", .returnLabel, .text (" " ++ value.operandText ++ ")")]]
  | .whileLoop _ _ body => returnBranchesAll body
  | .doLoop _ body _ => returnBranchesAll body
  | .forLoop _ _ _ _ body => returnBranchesAll body
  | .ifElse _ _ thenBranch elseBranch =>
      returnBranchesAll thenBranch ++ returnBranchesElse elseBranch
  | _ => []

/-- The branches of several statements. -/
def returnBranchesAll : List Node → List (List Piece)
  | [] => []
  | stmt :: rest => stmt.returnBranches ++ returnBranchesAll rest

/-- The branches of an `else` branch, if there is one. -/
def returnBranchesElse : Option (List Node) → List (List Piece)
  | none => []
  | some branch => returnBranchesAll branch

end

/-- The lines of an item that wait for the return label: in a function the one that opens the block
around its body, and the branches of its `return`s. -/
def Node.labelUses : Node → List (List Piece)
  | .function _ _ result _ body =>
      [.text "(block $", .returnLabel, .text (resultClause result.valueType?)]
        :: returnBranchesAll body
  | _ => []

/-! ## Statements -/

theorem openPieces_linesAll (depth : Nat) (code : List Code) :
    openPieces (linesAll depth code) = code.flatMap fun c => openPieces (c.lines depth) := by
  induction code with
  | nil => rfl
  | cons c code ih => rw [linesAll, openPieces_append, ih, List.flatMap_cons]

theorem openPieces_assignments {ns : List Node} {code : List Code}
    (h : ns.mapM Node.assignment = .ok code) (depth : Nat) :
    openPieces (linesAll depth code) = [] := by
  rw [openPieces_linesAll]
  exact Node.flatMap_assignments (fun _ _ _ => rfl) h

theorem openPieces_brIf {target : Label} (h : target ≠ .ret) (test : Test) (depth : Nat) :
    openPieces ((Code.brIf target test).lines depth) = [] :=
  openPieces_cons_of_settled (isOpen_label h depth _ _ (by simp)) []

theorem openPieces_jump {target : Label} (h : target ≠ .ret) (depth : Nat) :
    openPieces ((Code.br target none).lines depth) = [] :=
  openPieces_cons_of_settled (isOpen_label h depth _ _ (by simp)) []

theorem openPieces_guard {condition : Option Node} {guard : List Code} {d : Nat}
    (h : condition.toList.mapM (Node.exitGuard d) = .ok guard) (depth : Nat) :
    openPieces (linesAll depth guard) = [] := by
  rcases Node.guard_eq_ok_iff.mp h with ⟨-, rfl⟩ | ⟨c, ops, t, -, -, -, rfl⟩ <;> rfl

theorem openPieces_block {label : Label} (h : label ≠ .ret) (depth : Nat) (body : List Code) :
    openPieces ((Code.block label body).lines depth) = openPieces (linesAll (depth + 1) body) := by
  rw [Code.lines, List.cons_append,
    openPieces_cons_of_settled (isOpen_label h depth _ _ (by simp))]
  simp

theorem openPieces_loop {exit head : Label} (hexit : exit ≠ .ret) (hhead : head ≠ .ret)
    (depth : Nat) (body : List Code) :
    openPieces ((Code.loop exit head body).lines depth)
      = openPieces (linesAll (depth + 1) body) := by
  rw [Code.lines, List.cons_append, List.cons_append,
    openPieces_cons_of_settled (isOpen_label hexit depth _ _ (by simp)),
    openPieces_cons_of_settled (isOpen_label hhead depth _ _ (by simp))]
  simp

theorem openPieces_wrap (shape : Shape) (d : Nat) {inner : List Code} {uses : List (List Piece)}
    (h : ∀ depth, openPieces (linesAll depth inner) = uses) (depth : Nat) :
    openPieces (linesAll depth (shape.wrap d inner)) = uses := by
  cases shape with
  | plain => exact h depth
  | wrapped =>
      rw [Shape.wrap, linesAll, linesAll, List.append_nil, openPieces_block (by simp), h]

/-- **Statements ask for the label in their `return`s only**, by induction over the rules. -/
theorem Lowers.openPieces_eq {s : Scope} {stmts : List Node} {code : List Code}
    (h : Lowers s stmts code) (depth : Nat) :
    openPieces (linesAll depth code) = returnBranchesAll stmts := by
  induction h generalizing depth with
  | nil => rfl
  | declaration _ ih => exact ih depth
  | assignment _ _ ih =>
      rw [linesAll, openPieces_append, ih]
      rfl
  | returnValue _ hops _ ih =>
      rw [linesAll, openPieces_append, ih, returnBranchesAll, Node.returnBranches,
        Node.operandText, hops]
      rfl
  | returnVoid _ _ ih =>
      rw [linesAll, openPieces_append, ih]
      rfl
  | brk _ _ ih =>
      rw [linesAll, openPieces_append, ih, openPieces_jump (by simp)]
      rfl
  | cont _ _ ih =>
      rw [linesAll, openPieces_append, ih, openPieces_jump (by simp)]
      rfl
  | whileLoop _ ih => exact ih depth
  | @forLoop s p init condition increment body rest shape first guard inner step code _ hinit hguard
      _ hstep _ ihbody ih =>
      have hhead := shape.headLabel_ne_ret s.depth
      rw [linesAll_append, openPieces_append, openPieces_assignments hinit, linesAll,
        openPieces_append, openPieces_loop (by simp) hhead, ih]
      simp only [linesAll_append, openPieces_append, openPieces_guard hguard,
        openPieces_wrap shape s.depth ihbody, openPieces_assignments hstep, linesAll,
        openPieces_jump hhead]
      simp [returnBranchesAll, Node.returnBranches]
  | @doLoop s p c body rest shape test inner code _ _ htest _ ihbody ih =>
      have hhead := shape.headLabel_ne_ret s.depth
      rw [linesAll, openPieces_append, openPieces_loop (by simp) hhead, ih]
      simp only [linesAll_append, openPieces_append, openPieces_wrap shape s.depth ihbody,
        linesAll, openPieces_brIf hhead]
      simp [returnBranchesAll, Node.returnBranches]
  | ifThen _ _ _ ihyes ih =>
      rw [linesAll, openPieces_append, ih]
      simp [Code.lines, elseLines, ihyes, returnBranchesAll, Node.returnBranches,
        returnBranchesElse]
  | ifElse _ _ _ _ ihyes ihno ih =>
      rw [linesAll, openPieces_append, ih]
      simp [Code.lines, elseLines, ihyes, ihno, returnBranchesAll, Node.returnBranches,
        returnBranchesElse]

/-! ## Items and modules -/

theorem FunctionLowers.openPieces_eq {p : Position} {name : String} {result : NumericKind}
    {params : Node} {body : List Node} {f : Func} (h : FunctionLowers name result params body f)
    (depth : Nat) :
    openPieces (f.lines depth) = (Node.function p name result params body).labelUses := by
  have hlocals : openPieces (f.locals.map fun v => .ofText (depth + 1) (v.text "local")) = [] := by
    induction f.locals with
    | nil => rfl
    | cons v vars ih => rw [List.map_cons, openPieces_ofText, ih]
  have hskip : returnBranchesAll (body.dropWhile Node.isDeclaration) = returnBranchesAll body :=
    apply_dropWhile_isDeclaration (fun _ _ _ _ => rfl) body
  have hbody := h.lowers.openPieces_eq (depth + 2)
  rw [hskip] at hbody
  rw [Func.lines, List.cons_append, List.cons_append, openPieces_ofText, openPieces_append,
    openPieces_append, hlocals, List.nil_append, openPieces_cons_of_open rfl, hbody,
    Node.labelUses, h.result_eq]
  simp [Label.piece]

/-- An item asks for the label if it is a function, and then in its own lines only. -/
theorem openPieces_of_lowerItem {n : Node} {item : Item} (h : n.lowerItem.result = .ok item)
    (depth : Nat) : openPieces (item.lines depth) = n.labelUses := by
  cases n with
  | global p mutable name kind init =>
      obtain ⟨t, q, k, literal, rfl, rfl, rfl⟩ := lowerItem_global_eq_ok_iff.mp h
      rfl
  | exportFunc p name exported =>
      obtain rfl : Item.exportFunc name exported = item := by simpa [Node.lowerItem] using h
      rfl
  | function p name result params body =>
      obtain ⟨f, rfl, hf⟩ := lowerItem_function_eq_ok_iff.mp h
      exact hf.openPieces_eq depth
  | _ => simp [Node.lowerItem] at h

theorem openPieces_of_lowered {items : List Node} {lowered : List Item}
    (h : List.Forall₂ (fun n item => n.lowerItem.result = .ok item) items lowered) :
    openPieces (lowered.flatMap (Item.lines 1)) = items.flatMap Node.labelUses := by
  induction h with
  | nil => rfl
  | cons hitem _ ih =>
      rw [List.flatMap_cons, openPieces_append, openPieces_of_lowerItem hitem, ih,
        List.flatMap_cons]

/-- **The options lay out the text and name the return block, and that is all.**  Of every program
one of two things is true.  Either it has a fault, which every session finds, whatever its options.
Or it is a module with certain lines, and every session writes these: each indented by its depth
times the width, with the return label in its open places, and ended by a line break.  Open places
are in the line that opens the return block of each function, and in the branches of its
`return`s. -/
theorem options_lay_out_and_label (program : Node) :
    (∃ fault, ∀ s : Session, (s.generate program).1 = .error fault) ∨
    ∃ (pos : Position) (items : List Node) (lines : List Line), program = .module pos items ∧
      (∀ s : Session, (s.generate program).1
        = .ok (if items.isEmpty then "(module)"
            else "(module\n" ++ String.join (lines.map (Line.render s.options)) ++ ")")) ∧
      (lines.filter Line.isOpen).map Line.pieces = items.flatMap Node.labelUses := by
  have hgenerated : ∀ s : Session, (s.generate program).1
      = Module.render s.options <$> program.lowerModule.result := by
    intro s
    obtain ⟨e, h⟩ := s.generate_eq program
    rw [h, generate, Traced.result_map]
  cases hm : program.lowerModule.result with
  | error fault =>
      refine .inl ⟨fault, fun s => ?_⟩
      rw [hgenerated, hm]
      rfl
  | ok m =>
      obtain ⟨pos, items, rfl, hitems⟩ := lowerModule_eq_ok_iff.mp hm
      obtain ⟨lowered⟩ := m
      have hempty : lowered.isEmpty = items.isEmpty := by
        cases hitems <;> rfl
      refine .inr ⟨pos, items, _, rfl, fun s => ?_, openPieces_of_lowered hitems⟩
      rw [hgenerated, hm, ← hempty]
      rfl

end WatLowering
