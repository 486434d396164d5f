import WatLowering.Proofs.OnePass
import WatLowering.Proofs.StatementOrder

/-!
# The log tells what the output shows

Messages are sent while statements are lowered: some before a part of a statement is checked, some
after it, and a fault can come between any two of them.  This file says which messages a tree has to
tell about without running anything, and proves that the log is this list, or the beginning of it.

* `Node.events` — the events of a tree in the order in which a reader meets what they are about.
* `Tells events x` — the computation `x` reports a beginning of `events`, and all of them if it
  succeeds; the rules `Tells.bind` and `Tells.mapM` put computations together.
* `loopHeaders` — the lines of a text that open a loop, each with the line before it.
* `Shows` — the loops that the lines of some code show; there is one rule for each sort of line.
* `IsForeign` — a keyword that no test begins with, whatever names and literals are in it.
* **`log_mirrors_loop_headers`** — the log is the list of events, and the loops in it are those that
  the text shows, with the same numbers and labels that agree with the reported shapes.
-/

namespace WatLowering

/-! ## The events of a tree -/

/-- What is reported about a statement where it stands, those inside it left aside. -/
def Placed.event? (p : Placed) : Option Event :=
  match p.stmt with
  | .localVar pos name _ => some (.lateDeclaration pos name)
  | .whileLoop pos _ _ => some (.whileLoop pos p.scope.depth)
  | .doLoop pos body _ => some (.doLoop pos p.scope.depth (.ofBody true body))
  | .forLoop pos _ _ increment body =>
      some (.forLoop pos p.scope.depth (.ofBody (!increment.isEmpty) body))
  | _ => none

/-- The events of a module item: only functions have any. -/
def Node.itemEvents : Node → List Event
  | .function _ name result _ body =>
      .functionStarted name
        :: (placedAll (.ofFunction result.valueType?)
            (body.dropWhile isDeclaration)).filterMap Placed.event?
  | _ => []

/-- **The events of a program**, in the order in which a reader meets what they are about. -/
def Node.events : Node → List Event
  | .module _ items => .moduleStarted items.length :: items.flatMap itemEvents
  | _ => []

/-! ## Reporting a list of events -/

/-- The computation reports a beginning of the events, and all of them if it succeeds. -/
structure Tells {α : Type} (events : List Event) (x : Traced α) : Prop where
  begins : x.log <+: events
  complete : ∀ a, x.result = .ok a → x.log = events

namespace Tells

variable {α β : Type} {es fs : List Event} {x : Traced α}

theorem pure (a : α) : Tells [] (pure a : Traced α) := ⟨List.nil_prefix, fun _ _ => rfl⟩

theorem silently (x : Except Fault α) : Tells [] (Traced.silently x) :=
  ⟨List.nil_prefix, fun _ _ => rfl⟩

/-- One computation after the other tells the one list of events after the other. -/
theorem bind {f : α → Traced β} (hx : Tells es x)
    (hf : ∀ a, x.result = .ok a → Tells fs (f a)) : Tells (es ++ fs) (x >>= f) := by
  cases hresult : x.result with
  | error fault =>
      refine ⟨?_, fun b hb => ?_⟩
      · rw [Traced.log_bind_of_error hresult]
        exact hx.begins.trans (List.prefix_append es fs)
      · rw [Traced.result_bind, hresult] at hb
        cases hb
  | ok a =>
      have hall : (x >>= f).log = es ++ (f a).log := by
        rw [Traced.log_bind_of_ok hresult, hx.complete a hresult]
      refine ⟨?_, fun b hb => ?_⟩
      · rw [hall]
        exact (List.prefix_append_right_inj es).mpr (hf a hresult).begins
      · rw [Traced.result_bind, hresult] at hb
        rw [hall, (hf a hresult).complete b hb]

/-- A report in front is the first thing told. -/
theorem report {e : Event} {f : Unit → Traced β} (hf : Tells es (f ())) :
    Tells (e :: es) (Traced.report e >>= f) := by
  have he : Tells [e] (Traced.report e) := ⟨List.prefix_rfl, fun _ _ => rfl⟩
  exact he.bind fun _ _ => hf

/-- A check in front adds nothing. -/
theorem check {c : Except Fault α} {f : α → Traced β} (hf : ∀ a, c = .ok a → Tells es (f a)) :
    Tells es (Traced.silently c >>= f) :=
  (Tells.silently c).bind hf

theorem map (f : α → β) (hx : Tells es x) : Tells es (f <$> x) := by
  refine ⟨by simpa using hx.begins, fun b hb => ?_⟩
  rw [Traced.result_map, map_eq_ok_iff] at hb
  obtain ⟨a, ha, -⟩ := hb
  simpa using hx.complete a ha

theorem bind_pure (f : α → β) (hx : Tells es x) : Tells es (x >>= fun a => Pure.pure (f a)) := by
  simpa using hx.map f

/-- A list tells what its elements tell, one after the other. -/
theorem mapM {f : α → Traced β} {told : α → List Event} (as : List α)
    (h : ∀ a ∈ as, Tells (told a) (f a)) : Tells (as.flatMap told) (as.mapM f) := by
  induction as with
  | nil => exact .pure []
  | cons a as ih =>
      rw [List.forall_mem_cons] at h
      rw [List.mapM_cons, List.flatMap_cons]
      refine h.1.bind fun b _ => ?_
      have hmap := (ih h.2).map (b :: ·)
      simpa using hmap

end Tells

/-! ## The log of a program -/

/-- Statements one after the other tell their events one after the other. -/
theorem tells_lowerAll {s : Scope} {stmts : List Node}
    (h : ∀ stmt ∈ stmts, Tells ((stmt.placed s).filterMap Placed.event?) (stmt.lower s)) :
    Tells ((placedAll s stmts).filterMap Placed.event?) (lowerAll s stmts) := by
  rw [placedAll_eq_flatMap, List.filterMap_flatMap, lowerAll_eq_mapM]
  exact .map _ (.mapM stmts h)

/-- **A statement tells its own events and those of the statements inside it.** -/
theorem Node.tells_lower (n : Node) :
    ∀ s, Tells ((n.placed s).filterMap Placed.event?) (n.lower s) := by
  induction n using Node.childInduction with
  | node n ih =>
      intro s
      have hlist : ∀ s' (stmts : List Node), (∀ stmt ∈ stmts, stmt ∈ n.children) →
          Tells ((placedAll s' stmts).filterMap Placed.event?) (lowerAll s' stmts) :=
        fun s' stmts hsub => tells_lowerAll fun stmt hstmt => ih stmt (hsub stmt hstmt) s'
      cases n with
      | localVar p x k => exact .report (.pure [])
      | set p storage x v => exact .bind_pure _ (.silently _)
      | ret p v => exact .bind_pure _ (.silently _)
      | brk p levels => exact .bind_pure _ (.silently _)
      | cont p levels => exact .bind_pure _ (.silently _)
      | whileLoop p c body =>
          rw [Node.lower, Node.placed]
          refine .report (.check fun guard _ => .bind_pure _ ?_)
          exact hlist _ body fun _ => List.mem_cons_of_mem c
      | doLoop p body c =>
          have hbody := hlist (s.enter (.ofBody true body)) body
            (by simp +contextual [Node.children])
          rw [Node.lower, Node.placed]
          refine .report ?_
          simpa using hbody.bind fun inner _ => .bind_pure _ (.silently _)
      | forLoop p init c increment body =>
          have hbody := hlist (s.enter (.ofBody (!increment.isEmpty) body)) body
            (by simp +contextual [Node.children])
          rw [Node.lower, Node.placed]
          refine .check fun first _ => .report (.check fun guard _ => ?_)
          simpa using hbody.bind fun inner _ => .bind_pure _ (.silently _)
      | ifElse p c yes no =>
          have hyes := hlist s.deeper yes (by simp +contextual [Node.children])
          have hno : Tells ((placedElse s.deeper no).filterMap Placed.event?)
              (lowerBranch s.deeper no) := by
            cases no with
            | none => exact .pure none
            | some branch =>
                exact .bind_pure _ (hlist s.deeper branch (by simp +contextual [Node.children]))
          rw [Node.lower, Node.placed, List.filterMap_cons_none rfl, List.filterMap_append]
          exact .check fun test _ => hyes.bind fun _ _ => .bind_pure _ hno
      | _ => exact .silently _

theorem Node.tells_lowerItem (n : Node) : Tells n.itemEvents n.lowerItem := by
  cases n with
  | global p mutable name k init => exact .silently _
  | exportFunc p name exported => exact .pure _
  | function p name result params body =>
      rw [Node.lowerItem, Node.itemEvents]
      refine .report (.check fun ps _ => .check fun r hr => .check fun locals _ => .bind_pure _ ?_)
      -- the result is known by now, and it is the one in whose scope the events were listed
      obtain ⟨rfl, -⟩ := NumericKind.resultTypeAt_eq_ok_iff.mp hr
      exact tells_lowerAll fun stmt _ => stmt.tells_lower _
  | _ => exact .silently _

theorem Node.tells_lowerModule (program : Node) : Tells program.events program.lowerModule := by
  cases program with
  | module p items =>
      rw [Node.lowerModule, Node.events]
      exact .report (.bind_pure _ (.mapM items fun n _ => n.tells_lowerItem))
  | _ => exact .silently _

/-! ## The loops that a text shows -/

/-- The text of a line, without its indentation. -/
def Line.written (o : Options) (l : Line) : String := String.join (l.pieces.map (Piece.render o))

@[simp] theorem Line.written_ofText (o : Options) (depth : Nat) (s : String) :
    (Line.ofText depth s).written o = s := by
  simp [written, ofText, Piece.render]

/-- Does the line open a loop? -/
def opensLoop (line : String) : Bool := "(loop".toList.isPrefixOf line.toList

/-- The lines that open a loop, each with the line in front of it; `previous` is the one in front of
all of them. -/
def loopHeaders (previous : String) : List String → List (String × String)
  | [] => []
  | line :: rest =>
      if opensLoop line then (previous, line) :: loopHeaders line rest else loopHeaders line rest

theorem loopHeaders_append (previous : String) (xs ys : List String) :
    loopHeaders previous (xs ++ ys)
      = loopHeaders previous xs ++ loopHeaders (xs.getLastD previous) ys := by
  induction xs generalizing previous with
  | nil => rfl
  | cons line xs ih =>
      rw [List.cons_append, loopHeaders, loopHeaders, ih line, List.getLastD_cons]
      split <;> rfl

/-- The lines show these loops, whatever stands in front of them. -/
def Shows (o : Options) (lines : List Line) (headers : List (String × String)) : Prop :=
  ∀ previous, loopHeaders previous (lines.map (Line.written o)) = headers

namespace Shows

variable {o : Options} {xs ys : List Line} {hs ks : List (String × String)}

theorem nil : Shows o [] [] := fun _ => rfl

theorem append (hx : Shows o xs hs) (hy : Shows o ys ks) : Shows o (xs ++ ys) (hs ++ ks) := by
  intro previous
  rw [List.map_append, loopHeaders_append, hx, hy]

theorem cons {l : Line} (hl : opensLoop (l.written o) = false) (hx : Shows o xs hs) :
    Shows o (l :: xs) hs := by
  intro previous
  rw [List.map_cons, loopHeaders, hl, if_neg (by simp)]
  exact hx _

theorem text {depth : Nat} {s : String} (hs' : opensLoop s = false) (hx : Shows o xs hs) :
    Shows o (.ofText depth s :: xs) hs := by
  refine .cons ?_ hx
  rwa [Line.written_ofText]

/-- A line with the name of a label in it opens no loop if it starts with another word. -/
theorem label {depth : Nat} {front : String} {l : Label} {rest : List Piece}
    (hfront : ∀ t, opensLoop (front ++ t) = false) (hx : Shows o xs hs) :
    Shows o (⟨depth, .text front :: l.piece :: rest⟩ :: xs) hs := by
  refine .cons ?_ hx
  simpa [Line.written, Piece.render] using hfront _

end Shows

/-! ## How the line of a test begins

Of all lines, only that of a test can begin with the instructions of an expression.  Whether such a
line begins with a keyword is settled by the first few characters, before a name or a literal has
its place. -/

/-- What the line of a test can begin with: a type, or the storage of a variable.  A comparison of
nothing with zero begins with a space. -/
def testFronts : List String := [" ", "(i32.", "(i64.", "(f32.", "(f64.", "(local.", "(global."]

/-- The keyword differs from all that tests begin with before either ends. -/
def IsForeign (keyword : String) : Prop :=
  ∀ front ∈ testFronts, ¬ keyword.toList <+: front.toList ∧ ¬ front.toList <+: keyword.toList

instance (keyword : String) : Decidable (IsForeign keyword) :=
  inferInstanceAs (Decidable (∀ front ∈ testFronts, _))

theorem Instr.exists_front (i : Instr) : ∃ front ∈ testFronts, front.toList <+: i.text.toList := by
  cases i with
  | const t literal => cases t <;> simp [testFronts, text, ValueType.name]
  | get storage name => cases storage <;> simp [testFronts, text, Storage.name]
  | numeric op t => cases t <;> simp [testFronts, text, NumericOp.mnemonic, ValueType.name]
  | convert c => cases c <;> simp [testFronts, text, Conversion.mnemonic]
  | eqz t => cases t <;> simp [testFronts, text, ValueType.name]

theorem Instr.text_prefix_seq (i : Instr) (ops : List Instr) :
    i.text.toList <+: (seq (i :: ops)).toList := by
  cases ops with
  | nil => rw [seq_singleton]
  | cons j ops =>
      rw [seq_cons_cons, String.append_assoc, String.toList_append]
      exact List.prefix_append _ _

theorem Test.text_begins (test : Test) :
    test.text = "" ∨ ∃ front ∈ testFronts, front.toList <+: test.text.toList := by
  match test with
  | .value [] => exact .inl rfl
  | .value (i :: ops) =>
      obtain ⟨front, hmem, hfront⟩ := i.exists_front
      exact .inr ⟨front, hmem, hfront.trans (i.text_prefix_seq ops)⟩
  | .againstZero op t [] => exact .inr ⟨" ", by simp [testFronts], by simp [text]⟩
  | .againstZero op t (i :: ops) =>
      obtain ⟨front, hmem, hfront⟩ := i.exists_front
      refine .inr ⟨front, hmem, (hfront.trans (i.text_prefix_seq ops)).trans ?_⟩
      rw [text, String.append_assoc, String.toList_append]
      exact List.prefix_append _ _
  | .isZero t ops => cases t <;> simp [testFronts, text, ValueType.name]

/-- **No test begins with a foreign keyword.** -/
theorem Test.not_prefix_text {keyword : String} (hk : IsForeign keyword) (test : Test) :
    ¬ keyword.toList <+: test.text.toList := by
  intro hkeyword
  rcases test.text_begins with hempty | ⟨front, hmem, hfront⟩
  · -- only the empty word begins an empty text, and it begins everything else too
    rw [hempty] at hkeyword
    exact (hk " " (by simp [testFronts])).1 (hkeyword.trans List.nil_prefix)
  · obtain ⟨hlong, hshort⟩ := hk front hmem
    rcases List.prefix_or_prefix_of_prefix hkeyword hfront with h | h
    · exact hlong h
    · exact hshort h

theorem Test.opensLoop_text (test : Test) : opensLoop test.text = false := by
  have hloop : IsForeign "(loop" := by decide
  rw [opensLoop, ← Bool.not_eq_true, List.isPrefixOf_iff_prefix]
  exact test.not_prefix_text hloop

/-! ## The loops that code shows -/

/-- The two lines that open a loop. -/
def LoopCode.header (o : Options) (l : LoopCode) : String × String :=
  ("(block $" ++ l.exit.name o, "(loop  $" ++ l.head.name o)

theorem Shows.loop {o : Options} {xs : List Line} {hs : List (String × String)} (l : LoopCode)
    (depth : Nat) (hx : Shows o xs hs) :
    Shows o (⟨depth, [.text "(block $", l.exit.piece]⟩ :: ⟨depth, [.text "(loop  $", l.head.piece]⟩
      :: xs) (l.header o :: hs) := by
  have hblock : opensLoop (Line.written o ⟨depth, [.text "(block $", l.exit.piece]⟩) = false := by
    simp [opensLoop, List.isPrefixOf, Line.written, Piece.render]
  have hloop : opensLoop (Line.written o ⟨depth, [.text "(loop  $", l.head.piece]⟩) = true := by
    simp [opensLoop, List.isPrefixOf, Line.written, Piece.render]
  intro previous
  rw [List.map_cons, List.map_cons, loopHeaders, hblock, if_neg (by simp), loopHeaders, hloop,
    if_pos rfl, hx]
  simp [Line.written, LoopCode.header, Label.name, Piece.render]

mutual

/-- **Code shows its loops**, and takes no other line for one. -/
theorem Code.shows_lines (o : Options) (depth : Nat) :
    ∀ c : Code, Shows o (c.lines depth) (c.loops.map (LoopCode.header o))
  | .set storage x ops => by
      refine .text ?_ .nil
      cases storage <;> simp [opensLoop, List.isPrefixOf, Storage.name]
  | .br target none => .label (by simp [opensLoop, List.isPrefixOf]) .nil
  | .br target (some ops) => .label (by simp [opensLoop, List.isPrefixOf]) .nil
  | .brIf target test => .label (by simp [opensLoop, List.isPrefixOf]) .nil
  | .block label body => by
      have hbody := shows_linesAll o (depth + 1) body
      have hclose : Shows o [.ofText depth ")"] [] := .text (by decide) .nil
      rw [Code.lines, Code.loops, ← List.append_nil (List.map _ _)]
      exact .label (by simp [opensLoop, List.isPrefixOf]) (hbody.append hclose)
  | .loop exit head body => by
      have hbody := shows_linesAll o (depth + 1) body
      have hclose : Shows o [.ofText depth "))"] [] := .text (by decide) .nil
      simpa [Code.lines, Code.loops] using
        Shows.loop ⟨exit, head, body⟩ depth (hbody.append hclose)
  | .ifThen test yes no => by
      have hyes := shows_linesAll o (depth + 1) yes
      have hno := shows_elseLines o depth no
      have hclose : Shows o [.ofText depth "))"] [] := .text (by decide) .nil
      simpa [Code.lines, Code.loops] using
        Shows.text test.opensLoop_text (.text (by decide) (hyes.append (hno.append hclose)))

theorem shows_linesAll (o : Options) (depth : Nat) :
    ∀ code : List Code, Shows o (linesAll depth code) ((loopsAll code).map (LoopCode.header o))
  | [] => .nil
  | c :: rest => by
      rw [linesAll, loopsAll, List.map_append]
      exact (Code.shows_lines o depth c).append (shows_linesAll o depth rest)

theorem shows_elseLines (o : Options) (depth : Nat) :
    ∀ branch : Option (List Code),
      Shows o (elseLines depth branch) ((loopsElse branch).map (LoopCode.header o))
  | none => .nil
  | some branch => .text (by decide) (shows_linesAll o (depth + 1) branch)

end

/-- The loops of an item. -/
def Item.loops : Item → List LoopCode
  | .func f => loopsAll f.body
  | _ => []

theorem shows_locals (o : Options) (depth : Nat) (locals : List Variable) :
    Shows o (locals.map fun v => .ofText depth (v.text "local")) [] := by
  induction locals with
  | nil => exact .nil
  | cons v locals ih =>
      exact .text (by simp [opensLoop, List.isPrefixOf, Variable.text]) ih

theorem Item.shows_lines (o : Options) (depth : Nat) (item : Item) :
    Shows o (item.lines depth) (item.loops.map (LoopCode.header o)) := by
  cases item with
  | global mutable name t literal => exact .text (by simp [opensLoop, List.isPrefixOf]) .nil
  | exportFunc name exported => exact .text (by simp [opensLoop, List.isPrefixOf]) .nil
  | func f =>
      have hlocals := shows_locals o (depth + 1) f.locals
      have hbody := shows_linesAll o (depth + 2) f.body
      have hclose : Shows o [.ofText (depth + 1) ")", .ofText depth ")"] [] :=
        .text (by decide) (.text (by decide) .nil)
      simp only [Item.lines, Func.lines, Item.loops, List.cons_append, List.append_assoc]
      refine .text (by simp [opensLoop, List.isPrefixOf, Func.header]) (hlocals.append ?_)
      rw [← List.append_nil (List.map _ _)]
      exact .label (by simp [opensLoop, List.isPrefixOf]) (hbody.append hclose)

/-! ## The loops that are reported -/

/-- The event reports the loop with this header: under its number, and as a loop that is continued
at its head exactly if the head bears the label for it. -/
def Event.Heads (e : Event) (header : String × String) : Prop :=
  match e with
  | .whileLoop _ depth =>
      header = ("(block $break_" ++ toString depth, "(loop  $continue_" ++ toString depth)
  | .doLoop _ depth shape | .forLoop _ depth shape =>
      header.1 = "(block $break_" ++ toString depth
        ∧ (shape = .plain ↔ header.2 = "(loop  $continue_" ++ toString depth)
        ∧ (shape = .wrapped ↔ header.2 = "(loop  $loop_" ++ toString depth)
  | _ => False

/-- The messages about loops. -/
def loopEvents (events : List Event) : List Event := events.filter fun e => e.level = .trace

theorem loopEvents_append (es fs : List Event) :
    loopEvents (es ++ fs) = loopEvents es ++ loopEvents fs :=
  List.filter_append es fs

theorem block_exit (o : Options) (d : Nat) :
    "(block $" ++ (Label.exit d).name o = "(block $break_" ++ toString d := by
  rw [Label.name_exit, ← String.append_assoc]
  rfl

theorem loop_next (o : Options) (d : Nat) :
    "(loop  $" ++ (Label.next d).name o = "(loop  $continue_" ++ toString d := by
  rw [Label.name_next, ← String.append_assoc]
  rfl

theorem loop_head (o : Options) (d : Nat) :
    "(loop  $" ++ (Label.head d).name o = "(loop  $loop_" ++ toString d := by
  rw [Label.name_head, ← String.append_assoc]
  rfl

/-- The label on the head of a loop says which shape it has. -/
theorem Shape.loop_headLabel_iff (o : Options) (shape : Shape) (d : Nat) :
    (shape = .plain ↔ "(loop  $" ++ (shape.headLabel d).name o = "(loop  $continue_" ++ toString d)
      ∧ (shape = .wrapped
          ↔ "(loop  $" ++ (shape.headLabel d).name o = "(loop  $loop_" ++ toString d) := by
  rw [← loop_next o, ← loop_head o, String.append_right_inj, String.append_right_inj,
    Label.name_eq_iff_of_ne_ret (shape.headLabel_ne_ret d) (by simp),
    Label.name_eq_iff_of_ne_ret (shape.headLabel_ne_ret d) (by simp)]
  cases shape <;> simp [Shape.headLabel]

/-- A loop is reported under its number and its shape, and both can be read off its header. -/
theorem LoopLowers.exists_event {p : Placed} {code : LoopCode} (h : LoopLowers p code)
    (o : Options) :
    ∃ e, p.event? = some e ∧ e.level = .trace ∧ e.Heads (code.header o) := by
  cases h with
  | whileLoop h =>
      cases h with
      | forLoop hshape _ _ _ =>
          subst hshape
          exact ⟨_, rfl, rfl, Prod.ext (block_exit o _) (loop_next o _)⟩
  | forLoop hshape _ _ _ =>
      subst hshape
      exact ⟨_, rfl, rfl, block_exit o _, Shape.loop_headLabel_iff o _ _⟩
  | doLoop hshape _ _ =>
      subst hshape
      exact ⟨_, rfl, rfl, block_exit o _, Shape.loop_headLabel_iff o _ _⟩

/-- What is reported about other statements are not loops. -/
theorem Placed.level_ne_trace {p : Placed} {e : Event} (hp : p.stmt.loopShape? = none)
    (he : p.event? = some e) : e.level ≠ .trace := by
  obtain ⟨s, n⟩ := p
  cases n with
  | localVar pos x k =>
      obtain rfl : Event.lateDeclaration pos x = e := by simpa [Placed.event?] using he
      simp [Event.level]
  | whileLoop | doLoop | forLoop => cases hp
  | _ => cases he

theorem forall₂_heads (o : Options) {ps : List Placed} {codes : List LoopCode}
    (h : List.Forall₂ LoopLowers (loopsAmong ps) codes) :
    List.Forall₂ Event.Heads (loopEvents (ps.filterMap Placed.event?))
      (codes.map (LoopCode.header o)) := by
  induction ps generalizing codes with
  | nil =>
      obtain rfl := List.forall₂_nil_left_iff.mp h
      exact .nil
  | cons p ps ih =>
      cases hp : p.stmt.loopShape? with
      | none =>
          rw [loopsAmong_cons_of_none hp] at h
          cases he : p.event? with
          | none =>
              rw [List.filterMap_cons_none he]
              exact ih h
          | some e =>
              have hlevel := Placed.level_ne_trace hp he
              rw [List.filterMap_cons_some he, loopEvents, List.filter_cons_of_neg (by simpa)]
              exact ih h
      | some shape =>
          rw [loopsAmong_cons_of_loop (by simp [hp])] at h
          obtain ⟨code, others, hcode, hothers, rfl⟩ := List.forall₂_cons_left_iff.mp h
          obtain ⟨e, he, hlevel, hheads⟩ := hcode.exists_event o
          rw [List.filterMap_cons_some he, loopEvents, List.filter_cons_of_pos (by simpa)]
          exact .cons hheads (ih hothers)

theorem FunctionLowers.heads {name : String} {result : NumericKind} {params : Node}
    {body : List Node} {f : Func} (h : FunctionLowers name result params body f) (o : Options)
    (p : Position) :
    List.Forall₂ Event.Heads (loopEvents (Node.function p name result params body).itemEvents)
      ((loopsAll f.body).map (LoopCode.header o)) := by
  have hloops := h.lowers.loops_forall₂
  rw [← h.result_eq] at hloops
  exact forall₂_heads o hloops

/-- The loops that are reported of an item are those that its lines show. -/
theorem heads_of_lowerItem (o : Options) {n : Node} {item : Item}
    (h : n.lowerItem.result = .ok item) :
    List.Forall₂ Event.Heads (loopEvents n.itemEvents) (item.loops.map (LoopCode.header o)) := by
  cases n with
  | global p mutable name k init =>
      obtain ⟨t, q, k', literal, rfl, rfl, rfl⟩ := lowerItem_global_eq_ok_iff.mp h
      exact .nil
  | exportFunc p name exported =>
      obtain rfl : Item.exportFunc name exported = item := by simpa [Node.lowerItem] using h
      exact .nil
  | function p name result params body =>
      obtain ⟨f, rfl, hf⟩ := lowerItem_function_eq_ok_iff.mp h
      exact hf.heads o p
  | _ => simp [Node.lowerItem] at h

theorem heads_of_lowered (o : Options) {items : List Node} {lowered : List Item}
    (h : List.Forall₂ (fun n item => n.lowerItem.result = .ok item) items lowered) :
    ∃ headers, Shows o (lowered.flatMap (Item.lines 1)) headers ∧
      List.Forall₂ Event.Heads (loopEvents (items.flatMap Node.itemEvents)) headers := by
  induction h with
  | nil => exact ⟨[], .nil, .nil⟩
  | @cons n item _ _ hitem _ ih =>
      obtain ⟨headers, hshows, hheads⟩ := ih
      refine ⟨item.loops.map (LoopCode.header o) ++ headers, ?_, ?_⟩
      · rw [List.flatMap_cons]
        exact (item.shows_lines o 1).append hshows
      · rw [List.flatMap_cons, loopEvents_append]
        exact List.rel_append (heads_of_lowerItem o hitem) hheads

/-- **The log tells the same story as the output.**  Whatever the options, the log of a program is a
beginning of its events; it is empty if the program is not a module, and if a text is generated it
is all of them.  The loops it reports are then the loops whose headers are among the lines of the
text, one for one and in order, with the same numbers; a loop is reported as wrapped exactly if its
header names it so. -/
theorem log_mirrors_loop_headers (o : Options) (program : Node) :
    (generate o program).log <+: program.events ∧
    (program.form ≠ .module → (generate o program).log = []) ∧
    ∀ text, (generate o program).result = .ok text →
      (generate o program).log = program.events ∧
      ∃ m : Module, program.lowerModule.result = .ok m ∧ m.render o = text ∧
        text = (if m.items.isEmpty then "(module)"
          else "(module\n" ++ renderLines o m.lines ++ ")") ∧
        List.Forall₂ Event.Heads ((generate o program).log.filter fun e => e.level = .trace)
          (loopHeaders "(module" (m.lines.map (Line.written o))) := by
  have htells : Tells program.events (generate o program) :=
    program.tells_lowerModule.map (Module.render o)
  refine ⟨htells.begins, fun hroot => ?_, fun text htext => ?_⟩
  · have hnone : program.events = [] := by
      cases program with
      | module => exact absurd rfl hroot
      | _ => rfl
    exact List.prefix_nil.mp (hnone ▸ htells.begins)
  · have hlog := htells.complete text htext
    obtain ⟨m, hm, hrender⟩ := generate_eq_ok_iff.mp htext
    obtain ⟨p, items, rfl, hitems⟩ := lowerModule_eq_ok_iff.mp hm
    obtain ⟨headers, hshows, hheads⟩ := heads_of_lowered o hitems
    refine ⟨hlog, m, hm, hrender, hrender ▸ m.render_eq o, ?_⟩
    rw [hlog, Module.lines, hshows]
    exact hheads

/-- A `do` loop with a `continue`, a late declaration and another loop in it. -/
def reportedLoops : Node :=
  let x : Node := .get .unplaced .local "x" (.value .i32)
  .module .unplaced [.function .unplaced "f" .void (.paramList .unplaced [])
    [.localVar ⟨1, 3⟩ "x" (.value .i32),
      .doLoop ⟨2, 3⟩
        [.ifElse ⟨3, 5⟩ x [.cont ⟨3, 9⟩ none] none,
          .localVar ⟨4, 5⟩ "y" (.value .i64),
          .whileLoop ⟨5, 5⟩ x []]
        x]]

/-- The outer loop is wrapped, so that the inner one stands two deeper; only the declaration behind
a statement is reported.  The two loops that are reported are the two that the text shows. -/
theorem reportedLoops_log :
    ∃ (text : String) (m : Module), (generate .standard reportedLoops).result = .ok text ∧
      (generate .standard reportedLoops).log
        = [.moduleStarted 1, .functionStarted "f", .doLoop ⟨2, 3⟩ 3 .wrapped,
            .lateDeclaration ⟨4, 5⟩ "y", .whileLoop ⟨5, 5⟩ 5] ∧
      reportedLoops.lowerModule.result = .ok m ∧
      text = "(module\n" ++ renderLines .standard m.lines ++ ")" ∧
      loopHeaders "(module" (m.lines.map (Line.written .standard))
        = [("(block $break_3", "(loop  $loop_3"), ("(block $break_5", "(loop  $continue_5")] := by
  have haccepted : (generate .standard reportedLoops).result = .ok _ := rfl
  obtain ⟨-, -, hsuccess⟩ := log_mirrors_loop_headers .standard reportedLoops
  obtain ⟨hlog, m, hm, -, htext, hheads⟩ := hsuccess _ haccepted
  have hitems : m.items.isEmpty = false := by
    cases hm
    rfl
  rw [hitems] at htext
  refine ⟨_, m, haccepted, hlog, hm, htext, ?_⟩
  -- what the two reports say about their headers leaves no choice
  obtain ⟨⟨block, head⟩, _, houter, hrest, hheaders⟩ := List.forall₂_cons_left_iff.mp hheads
  obtain ⟨inner, _, hinner, hnil, rfl⟩ := List.forall₂_cons_left_iff.mp hrest
  obtain rfl := List.forall₂_nil_left_iff.mp hnil
  obtain ⟨rfl, -, hwrapped⟩ := houter
  obtain rfl := hwrapped.mp rfl
  obtain rfl := hinner
  exact hheaders

end WatLowering
