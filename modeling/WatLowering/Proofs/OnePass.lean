import WatLowering.Proofs.Rules

/-!
# Writing while checking comes to the same as lowering first

A session writes into a buffer that it shares between all statements, functions and programs, and
what it writes is interleaved with its checks and its messages.  `generate` knows no buffer: it
lowers a program completely and then writes it.  This file proves that the two agree.

* `Follows x t` — in every session the step `x` has the outcome and the messages of `t`, keeps the
  options, and only appends to the buffer; if it succeeds, then what it appends are the lines that
  `t` results in.  Nothing is said about what a failed step has appended.
* `Follows.seq`, `follows_check`, `follows_forM` — steps are put together as what they follow is.
* `follows_emit` — a statement, by recursion over the tree.
* **`Session.generate_eq`** — what a session answers depends on its options only, and is what
  `generate` says.

**Why the lines on failure are left open.**  They are never seen: each program starts by emptying
the buffer.  That nothing written before can reach a later text is the point of
`Session.generate_eq`, which asks nothing of the session it is about.
-/

namespace WatLowering

open Emission (runIn check report raw write writeCode clear takeOutput)
open Traced (silently)

/-! ## Sessions that grow -/

/-- The lines as they stand in the text. -/
def renderLines (o : Options) (lines : List Line) : String :=
  String.join (lines.map (Line.render o))

@[simp] theorem renderLines_nil (o : Options) : renderLines o [] = "" := rfl

@[simp] theorem renderLines_append (o : Options) (xs ys : List Line) :
    renderLines o (xs ++ ys) = renderLines o xs ++ renderLines o ys := by
  rw [renderLines, List.map_append, String.join_append]
  rfl

/-- The text of a module is its lines between a first and a last one, if there are items. -/
theorem Module.render_eq (o : Options) (m : Module) :
    m.render o = if m.items.isEmpty then "(module)"
      else "(module\n" ++ renderLines o m.lines ++ ")" := rfl

namespace Traced

variable {α β : Type}

@[simp] theorem log_map (f : α → β) (x : Traced α) : (f <$> x).log = x.log := by
  obtain ⟨log, result⟩ := x
  cases result <;> simp [Functor.map]

theorem silently_map (f : α → β) (x : Except Fault α) : silently (f <$> x) = f <$> silently x := by
  cases x <;> rfl

/-- A series of checks reports as little as each of them. -/
theorem silently_bind (x : Except Fault α) (f : α → Except Fault β) :
    silently (x >>= f) = silently x >>= fun a => silently (f a) := by
  cases x <;> rfl

theorem mapM_silently (f : α → Except Fault β) (as : List α) :
    as.mapM (fun a => silently (f a)) = silently (as.mapM f) := by
  induction as with
  | nil => rfl
  | cons a as ih => simp [ih, silently_bind, silently_map]

end Traced

namespace Session

/-- The session after `text` was written and `events` were reported. -/
def extend (s : Session) (text : String) (events : List Event) : Session :=
  { s with emitter := s.emitter.append text, log := s.log ++ events }

@[simp] theorem extend_nil (s : Session) : s.extend "" [] = s := by
  simp [extend, Emitter.append]

@[simp] theorem extend_extend (s : Session) (text more : String) (events later : List Event) :
    (s.extend text events).extend more later = s.extend (text ++ more) (events ++ later) := by
  simp [extend, Emitter.append, String.append_assoc]

@[simp] theorem options_extend (s : Session) (text : String) (events : List Event) :
    (s.extend text events).options = s.options := rfl

@[simp] theorem log_extend (s : Session) (text : String) (events : List Event) :
    (s.extend text events).log = s.log ++ events := rfl

@[simp] theorem output_extend (s : Session) (text : String) (events : List Event) :
    (s.extend text events).emitter.output = s.emitter.output ++ text := rfl

/-- The buffer indents as the options say. -/
def Ready (s : Session) : Prop := s.emitter.indentWidth = s.options.indentWidth

theorem Ready.extend {s : Session} (h : s.Ready) (text : String) (events : List Event) :
    (s.extend text events).Ready := h

end Session

namespace Emission

variable {α β : Type}

/-- Steps run one after the other, each in the session that the one before it left. -/
theorem runIn_bind (x : Emission α) (f : α → Emission β) (s : Session) :
    (x >>= f).runIn s = match x.runIn s with
      | (.ok a, next) => (f a).runIn next
      | (.error fault, next) => (.error fault, next) := by
  simp only [runIn, ExceptT.run_bind, StateT.run_bind]
  obtain ⟨result, next⟩ := (ExceptT.run x).run s
  cases result <;> rfl

end Emission

/-! ## Following a specification -/

/-- The step has the outcome and the messages of `t`, and it appends to the buffer; on success it
appends the lines that `t` results in. -/
def Follows (x : Emission Unit) (t : Traced (List Line)) : Prop :=
  ∀ s : Session, s.Ready → ∃ text,
    x.runIn s = (t.result.map fun _ => (), s.extend text t.log) ∧
      ∀ lines, t.result = .ok lines → text = renderLines s.options lines

section Follows

variable {α : Type} {x y : Emission Unit} {t u : Traced (List Line)}

theorem Follows.of_eq (h : Follows x t) (htu : t = u) : Follows x u := htu ▸ h

/-- A step that cannot fail follows a specification as soon as it appends the right text. -/
theorem follows_of_runIn {log : List Event} {lines : List Line}
    (h : ∀ s : Session, s.Ready →
      x.runIn s = (.ok (), s.extend (renderLines s.options lines) log)) :
    Follows x ⟨log, .ok lines⟩ := by
  intro s hs
  refine ⟨renderLines s.options lines, h s hs, ?_⟩
  rintro _ ⟨rfl⟩
  rfl

theorem follows_pure : Follows (pure ()) (pure []) :=
  follows_of_runIn fun s _ => by
    rw [renderLines_nil, Session.extend_nil]
    rfl

theorem follows_report (e : Event) : Follows (report e) (do Traced.report e; return []) :=
  follows_of_runIn fun s _ => by
    simp only [Session.extend, Emitter.append, renderLines_nil, String.append_empty]
    rfl

theorem follows_write (l : Line) : Follows (write l) (pure [l]) :=
  follows_of_runIn fun s hs => by
    have hline : s.emitter.emit l.depth (String.join (l.pieces.map (Piece.render s.options)))
        = s.emitter.append (renderLines s.options [l]) := by
      rw [Emitter.emit, hs]
      simp [renderLines, Line.render]
    simp only [Session.extend, ← hline, List.append_nil]
    rfl

theorem follows_fault (fault : Fault) : Follows (check (.error fault)) ⟨[], .error fault⟩ := by
  intro s _
  refine ⟨"", ?_, by rintro _ ⟨⟩⟩
  rw [Session.extend_nil]
  rfl

/-- **One step after the other** follows the one specification after the other. -/
theorem Follows.seq (hx : Follows x t) (hy : Follows y u) :
    Follows (do x; y) (do let first ← t; let others ← u; return first ++ others) := by
  intro s hs
  obtain ⟨text, hrun, htext⟩ := hx s hs
  obtain ⟨log, result⟩ := t
  rw [Emission.runIn_bind, hrun]
  cases result with
  | error fault => exact ⟨text, rfl, by rintro _ ⟨⟩⟩
  | ok first =>
      obtain ⟨more, hrun', hmore⟩ := hy (s.extend text log) (hs.extend text log)
      obtain ⟨log', result'⟩ := u
      refine ⟨text ++ more, ?_, ?_⟩
      · show y.runIn (s.extend text log) = _
        rw [hrun', Session.extend_extend]
        cases result' with
        | error fault => rfl
        | ok others => simp [bind, pure, Except.map]
      · intro lines hlines
        cases result' with
        | error fault => cases hlines
        | ok others =>
            obtain rfl : first ++ others = lines := by simpa [bind, Except.bind] using hlines
            rw [htext first rfl, hmore others rfl, renderLines_append]
            rfl

/-- What a check gives is handed on, and nothing is written if it fails. -/
theorem follows_check {c : Except Fault α} {f : α → Emission Unit} {g : α → Traced (List Line)}
    (h : ∀ a, Follows (f a) (g a)) :
    Follows (do let a ← check c; f a) (do let a ← silently c; g a) := by
  intro s hs
  rw [Emission.runIn_bind]
  cases c with
  | error fault => exact follows_fault fault s hs
  | ok a => exact h a s hs

/-- Elements that are handled one by one, each writing the lines of what it results in. -/
theorem follows_forM {β : Type} {f : α → Emission Unit} {g : α → Traced β} {lines : β → List Line}
    (as : List α) (h : ∀ a, Follows (f a) (lines <$> g a)) :
    Follows (as.forM f) ((fun bs => bs.flatMap lines) <$> as.mapM g) := by
  induction as with
  | nil => exact follows_pure
  | cons a as ih =>
      refine ((h a).seq ih).of_eq ?_
      simp

/-- Elements that are checked and written one by one, where all checks could be made first. -/
theorem follows_forM_check {β : Type} {f : α → Except Fault β} {w : β → Emission Unit}
    {lines : β → List Line} (as : List α) (h : ∀ b, Follows (w b) (pure (lines b))) :
    Follows (as.forM fun a => do let b ← check (f a); w b)
      ((fun bs => bs.flatMap lines) <$> silently (as.mapM f)) := by
  rw [← Traced.mapM_silently]
  refine follows_forM as fun a => (follows_check fun b => h b).of_eq ?_
  rw [map_eq_pure_bind]

end Follows

/-! ## Statements -/

theorem linesAll_append (depth : Nat) (xs ys : List Code) :
    linesAll depth (xs ++ ys) = linesAll depth xs ++ linesAll depth ys := by
  rw [linesAll_eq_flatMap, List.flatMap_append, ← linesAll_eq_flatMap, ← linesAll_eq_flatMap]

theorem follows_writeLines (lines : List Line) : Follows (lines.forM write) (pure lines) := by
  induction lines with
  | nil => exact follows_pure
  | cons l lines ih => exact ((follows_write l).seq ih).of_eq (by simp)

theorem follows_writeCode (depth : Nat) (code : List Code) :
    Follows (writeCode depth code) (pure (linesAll depth code)) :=
  follows_writeLines _

theorem follows_emitAssignments (depth : Nat) (ns : List Node) :
    Follows (emitAssignments depth ns) (linesAll depth <$> silently (ns.mapM Node.assignment)) := by
  refine (follows_forM_check ns fun code => follows_writeCode depth [code]).of_eq ?_
  simp only [funext (linesAll_eq_flatMap depth), List.flatMap_singleton]

theorem follows_openLoop (depth : Nat) (head : Label) :
    Follows (openLoop depth head)
      (pure [⟨depth, [.text "(block $", (Label.exit depth).piece]⟩,
        ⟨depth, [.text "(loop  $", head.piece]⟩]) := by
  refine ((follows_write _).seq (follows_write _)).of_eq ?_
  simp

theorem Follows.enclose {x : Emission Unit} {shape : Shape} {s : Scope} {t : Traced (List Code)}
    (h : Follows x (linesAll (s.enter shape).depth <$> t)) :
    Follows (shape.enclose s.depth x)
      ((fun inner => linesAll (s.depth + 1) (shape.wrap s.depth inner)) <$> t) := by
  cases shape with
  | plain => exact h
  | wrapped =>
      refine ((follows_write _).seq (h.seq (follows_write _))).of_eq ?_
      simp [Shape.wrap, linesAll, Code.lines, Scope.enter]

mutual

/-- **A statement is written as it is lowered.** -/
theorem follows_emit : ∀ (n : Node) (s : Scope), Follows (n.emit s) (linesAll s.depth <$> n.lower s)
  | .localVar pos name _, s => (follows_report _).of_eq (by simp [Node.lower, linesAll])
  | .set p storage name value, s =>
      (follows_check fun code => follows_writeCode s.depth [code]).of_eq (by simp [Node.lower])
  | .ret p value, s =>
      (follows_check fun code => follows_writeCode s.depth [code]).of_eq (by simp [Node.lower])
  | .brk p levels, s =>
      (follows_check fun depth => follows_writeCode s.depth [.br (.exit depth) none]).of_eq
        (by simp [Node.lower])
  | .cont p levels, s =>
      (follows_check fun depth => follows_writeCode s.depth [.br (.next depth) none]).of_eq
        (by simp [Node.lower])
  | .whileLoop pos condition body, s => by
      have hbody := follows_emitAll body (s.enter .plain)
      refine ((follows_report _).seq ((follows_openLoop _ _).seq (follows_check fun guard =>
        (follows_writeCode _ [guard]).seq (hbody.seq
          ((follows_writeCode _ [.br (.next s.depth) none]).seq (follows_write _)))))).of_eq ?_
      simp [Node.lower, linesAll, Code.lines, linesAll_append, Scope.enter]
  | .doLoop pos body condition, s => by
      have hbody := (follows_emitAll body (s.enter (.ofBody true body))).enclose
      refine ((follows_report _).seq ((follows_openLoop _ _).seq (hbody.seq
        (follows_check fun test => (follows_writeCode _ [.brIf _ test]).seq
          (follows_write _))))).of_eq ?_
      simp [Node.lower, linesAll, Code.lines, linesAll_append]
  | .forLoop pos init condition increment body, s => by
      have hbody := (follows_emitAll body
        (s.enter (.ofBody (!increment.isEmpty) body))).enclose
      refine ((follows_emitAssignments _ _).seq ((follows_report _).seq
        ((follows_openLoop _ _).seq (follows_check fun guard =>
        (follows_writeCode _ guard).seq (hbody.seq ((follows_emitAssignments _ _).seq
          ((follows_writeCode _ [.br _ none]).seq (follows_write _)))))))).of_eq ?_
      simp [Node.lower, linesAll, Code.lines, linesAll_append]
  | .ifElse p condition thenBranch elseBranch, s => by
      refine (follows_check fun test => (follows_write _).seq ((follows_write _).seq
        ((follows_emitAll thenBranch s.deeper).seq ((follows_emitBranch elseBranch s).seq
          (follows_write _))))).of_eq ?_
      simp [Node.lower, linesAll, Code.lines, Scope.deeper]
  | .module _ _, _ | .global _ _ _ _ _, _ | .exportFunc _ _ _, _ | .function _ _ _ _ _, _
  | .paramList _ _, _ | .get _ _ _ _, _ | .number _ _ _, _ | .expression _ _ _, _
  | .operator _ _ _, _ | .cast _ _ _, _ => follows_fault _

theorem follows_emitAll : ∀ (stmts : List Node) (s : Scope),
    Follows (emitAll s stmts) (linesAll s.depth <$> lowerAll s stmts)
  | [], s => follows_pure.of_eq (by simp [lowerAll, linesAll])
  | stmt :: rest, s => ((follows_emit stmt s).seq (follows_emitAll rest s)).of_eq (by
      simp [lowerAll, linesAll_append])

theorem follows_emitBranch : ∀ (branch : Option (List Node)) (s : Scope),
    Follows (emitBranch s branch) (elseLines s.depth <$> lowerBranch s.deeper branch)
  | none, s => follows_pure.of_eq (by simp [lowerBranch, elseLines])
  | some branch, s => ((follows_write _).seq (follows_emitAll branch s.deeper)).of_eq (by
      simp [lowerBranch, elseLines, Scope.deeper])

end

/-! ## Items and modules -/

theorem follows_emitLocals (depth : Nat) (ns : List Node) :
    Follows (emitLocals depth ns)
      ((fun vars => vars.map fun v => .ofText depth (v.text "local"))
        <$> silently (ns.mapM Node.declaration)) := by
  have h := follows_forM_check (f := Node.declaration) ns fun v : Variable =>
    follows_write (.ofText depth (v.text "local"))
  exact h.of_eq (by simp only [List.map_eq_flatMap])

/-- An item is written as it is lowered. -/
theorem follows_emitItem (n : Node) : Follows n.emitItem (Item.lines 1 <$> n.lowerItem) := by
  cases n with
  | function p name result params body =>
      refine ((follows_report _).seq (follows_check fun params => follows_check fun result =>
        (follows_write _).seq ((follows_emitLocals _ _).seq ((follows_write _).seq
          ((follows_emitAll _ (.ofFunction result)).seq ((follows_write _).seq
            (follows_write _))))))).of_eq ?_
      simp [Node.lowerItem, Item.lines, Func.lines, Func.header, Scope.ofFunction]
  | _ =>
      refine (follows_check fun item : Item => follows_writeLines (item.lines 1)).of_eq ?_
      rw [map_eq_pure_bind]
      rfl

namespace Session

theorem runIn_raw (s : Session) (text : String) :
    (raw text).runIn s = (.ok (), s.extend text []) := by
  simp only [extend, List.append_nil]
  rfl

theorem runIn_report (s : Session) (e : Event) :
    (report e).runIn s = (.ok (), s.extend "" [e]) := by
  simp only [extend, Emitter.append, String.append_empty]
  rfl

/-- The session that starts over with an empty buffer. -/
def cleared (s : Session) : Session := { s with emitter := .empty s.options.indentWidth }

theorem ready_cleared (s : Session) : s.cleared.Ready := rfl

theorem runIn_takeOutput (s : Session) :
    takeOutput.runIn s = (.ok s.emitter.output, s.cleared) := rfl

/-- The text of a module is written around the lines of its items. -/
theorem runIn_emitItems (s : Session) (hs : s.Ready) (items : List Node) :
    ∃ text, (emitItems items).runIn s
        = ((items.mapM Node.lowerItem).result.map fun _ => (),
            s.extend text (items.mapM Node.lowerItem).log) ∧
      ∀ lowered, (items.mapM Node.lowerItem).result = .ok lowered →
        text = Module.render s.options ⟨lowered⟩ := by
  cases items with
  | nil =>
      refine ⟨"(module)", ?_, ?_⟩
      · have hparts : emitItems [] = (do raw "(module"; raw ")") := rfl
        rw [hparts, Emission.runIn_bind, runIn_raw]
        show (raw ")").runIn _ = _
        rw [runIn_raw, extend_extend]
        rfl
      · rintro _ ⟨rfl⟩
        rfl
  | cons n items =>
      have hparts : emitItems (n :: items)
          = (do raw "(module"; raw "\n"; (n :: items).forM Node.emitItem; raw ")") := rfl
      obtain ⟨text, hrun, htext⟩ := follows_forM (n :: items) follows_emitItem
        ((s.extend "(module" []).extend "\n" []) hs
      simp only [hparts, Emission.runIn_bind, runIn_raw, hrun, Traced.log_map]
      simp only [extend_extend]
      have hne : ∀ lowered, (List.mapM Node.lowerItem (n :: items)).result = .ok lowered →
          lowered.isEmpty = false := by
        intro lowered hlowered
        rw [Traced.result_mapM, mapM_eq_ok_iff] at hlowered
        cases hlowered
        rfl
      generalize List.mapM Node.lowerItem (n :: items) = t at htext hne ⊢
      obtain ⟨log, result⟩ := t
      cases result with
      | error fault => exact ⟨_, rfl, by rintro _ ⟨⟩⟩
      | ok lowered =>
          have hlines : text = renderLines s.options (Module.lines ⟨lowered⟩) := htext _ rfl
          refine ⟨"(module\n" ++ text ++ ")", ?_, ?_⟩
          · simp [Traced.result_map, Except.map]
          · rintro _ ⟨rfl⟩
            rw [Module.render, if_neg (by simpa using hne lowered rfl), hlines]
            rfl

/-- **A session answers as `generate` does.**  Nothing of what it did before matters but its
options, and these stay as they are.  What is left in the buffer is not said. -/
theorem generate_eq (s : Session) (program : Node) :
    ∃ e : Emitter, s.generate program
      = ((WatLowering.generate s.options program).result,
          ⟨s.options, e, s.log ++ (WatLowering.generate s.options program).log⟩) := by
  cases program with
  | module p items =>
      have hparts : s.generate (.module p items)
          = (do report (.moduleStarted items.length); emitItems items; takeOutput
              : Emission String).runIn s.cleared := rfl
      obtain ⟨text, hrun, htext⟩ :=
        (s.cleared.extend "" [.moduleStarted items.length]).runIn_emitItems s.ready_cleared items
      have hspec : WatLowering.generate s.options (.module p items) = (do
          Traced.report (.moduleStarted items.length)
          let lowered ← items.mapM Node.lowerItem
          return Module.render s.options ⟨lowered⟩) := by
        simp [WatLowering.generate, Node.lowerModule]
      simp only [hparts, hspec, Emission.runIn_bind, runIn_report, hrun]
      generalize items.mapM Node.lowerItem = t at htext ⊢
      obtain ⟨log, result⟩ := t
      cases result with
      | error fault =>
          refine ⟨s.cleared.emitter.append text, ?_⟩
          rw [extend_extend, String.empty_append]
          rfl
      | ok lowered =>
          obtain rfl := htext lowered rfl
          refine ⟨s.cleared.emitter, ?_⟩
          show takeOutput.runIn _ = _
          rw [runIn_takeOutput, extend_extend]
          simp [cleared, Emitter.empty, Traced.report, bind]
  | _ =>
      refine ⟨s.cleared.emitter, ?_⟩
      rw [show (WatLowering.generate s.options _).log = [] from rfl, List.append_nil]
      rfl

end Session

end WatLowering
