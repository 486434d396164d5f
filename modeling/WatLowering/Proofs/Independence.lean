import WatLowering.Proofs.OnePass

/-!
# What a generator does not remember

One generator serves many programs, and within a program one buffer serves all items.  Nothing
passes through it from one to the next.

* **Between programs.**  `Session.answer_eq` is what one request does to a session, and
  `Session.answerAll_eq` what a series of requests does, by induction over the series.
  **`reused_session_answers_like_fresh`**: every answer is the one that a new session with the same
  options gives, whatever was asked before and however it ended.
* **Between items.**  `generate_module_eq` takes the text of a module apart into what its items
  contribute.  **`items_are_generated_apart`**: a module is accepted exactly if each of its items is
  accepted alone, its text is made of their texts, and its fault is that of the first item that has
  one.
-/

namespace WatLowering

/-! ## Between programs -/

namespace Session

/-- What a session has done before matters neither to an answer nor to the messages that come with
it; the messages are added to the log. -/
theorem answer_eq (s : Session) (r : Request) :
    ∃ e : Emitter, s.answer r
      = (((start s.options).answer r).1,
          ⟨s.options, e, s.log ++ ((start s.options).answer r).2.log⟩) := by
  cases r with
  | options => exact ⟨s.emitter, by simp [answer, start]⟩
  | generate program =>
      obtain ⟨e, hs⟩ := s.generate_eq program
      obtain ⟨_, hstart⟩ := (start s.options).generate_eq program
      refine ⟨e, ?_⟩
      simp only [answer, hs, hstart]
      rfl

/-- What a series of requests does, from the step: the answers are given one by one, and their
messages stand in the log in order. -/
theorem answerAll_eq (s : Session) (requests : List Request) :
    ∃ e : Emitter, s.answerAll requests
      = (requests.map fun r => ((start s.options).answer r).1,
          ⟨s.options, e,
            s.log ++ requests.flatMap fun r => ((start s.options).answer r).2.log⟩) := by
  induction requests generalizing s with
  | nil => exact ⟨s.emitter, by simp [answerAll]⟩
  | cons r rest ih =>
      obtain ⟨e, hanswer⟩ := s.answer_eq r
      obtain ⟨last, hrest⟩ := ih (s.answer r).2
      refine ⟨last, ?_⟩
      rw [hanswer] at hrest
      simp only [answerAll, hanswer, hrest, List.map_cons, List.flatMap_cons, List.append_assoc]

end Session

/-- **A session that is used again answers like a new one.**  However many requests came before,
and whether they succeeded, failed half-way or were no modules at all: the answers to a series of
requests are those of sessions that were never asked before, each request adds the messages that it
sends to a new session, and the options stay as they were.  What a new session answers is what
`generate` says. -/
theorem reused_session_answers_like_fresh (o : Options) :
    (∀ requests : List Request, ((Session.start o).answerAll requests).1
      = requests.map fun r => ((Session.start o).answer r).1) ∧
    (∀ (before : List Request) (r : Request),
      let s := ((Session.start o).answerAll before).2
      s.options = o ∧ (s.answer r).2.options = o ∧
        (s.answer r).2.log = s.log ++ ((Session.start o).answer r).2.log) ∧
    (∀ program : Node,
      ((Session.start o).answer (.generate program)).1
          = .generated (generate o program).result ∧
        ((Session.start o).answer (.generate program)).2.log = (generate o program).log) := by
  refine ⟨fun requests => ?_, fun before r => ?_, fun program => ?_⟩
  · obtain ⟨e, h⟩ := (Session.start o).answerAll_eq requests
    rw [h]
    rfl
  · obtain ⟨e, hbefore⟩ := (Session.start o).answerAll_eq before
    obtain ⟨e', hr⟩ := ((Session.start o).answerAll before).2.answer_eq r
    have hoptions : ((Session.start o).answerAll before).2.options = o := by rw [hbefore]; rfl
    simp only [hr, hoptions, and_self]
  · obtain ⟨e, h⟩ := (Session.start o).generate_eq program
    simp only [Session.answer, h]
    exact ⟨rfl, rfl⟩

/-- A program that fails in the middle of a function does leave something behind: the lines up to
the statement that is at fault are still in the buffer when the next program comes. -/
example :
    ((Session.start ⟨2, "out"⟩).answer (.generate (.module .unplaced
        [.function .unplaced "f" .void (.paramList .unplaced []) [.brk .unplaced none]]))
      ).2.emitter.output = "(module\n  (func $f\n    (block $out\n" := by
  rfl

/-! ## Between items -/

section Series

variable {ε α β γ : Type}

theorem map_eq_error_iff {x : Except ε α} {f : α → β} {e : ε} :
    f <$> x = .error e ↔ x = .error e := by
  cases x <;> simp [Functor.map, Except.map]

theorem mapM_map_eq (f : α → Except ε β) (g : β → γ) (as : List α) :
    as.mapM (fun a => g <$> f a) = List.map g <$> as.mapM f := by
  induction as with
  | nil => rfl
  | cons a as ih => simp [ih]

theorem mapM_cons_of_error {f : α → Except ε β} {a : α} {e : ε} (h : f a = .error e)
    (as : List α) : (a :: as).mapM f = .error e := by
  rw [List.mapM_cons, h]
  rfl

theorem mapM_cons_eq_error_iff {f : α → Except ε β} {a : α} {y : β} (h : f a = .ok y) {e : ε}
    (as : List α) : (a :: as).mapM f = .error e ↔ as.mapM f = .error e := by
  rw [List.mapM_cons, h]
  cases as.mapM f <;> simp [bind, Except.bind, pure, Except.pure]

/-- **A series of steps fails as the first of them that fails.** -/
theorem mapM_eq_error_iff {f : α → Except ε β} {as : List α} {e : ε} :
    as.mapM f = .error e
      ↔ ∃ before a after, as = before ++ a :: after ∧ (∀ b ∈ before, ∃ y, f b = .ok y) ∧
          f a = .error e := by
  constructor
  · intro h
    induction as with
    | nil => cases h
    | cons a as ih =>
        cases ha : f a with
        | error e' =>
            rw [mapM_cons_of_error ha] at h
            cases h
            exact ⟨[], a, as, rfl, by simp, ha⟩
        | ok y =>
            obtain ⟨before, b, after, rfl, hbefore, hb⟩ := ih ((mapM_cons_eq_error_iff ha as).mp h)
            exact ⟨a :: before, b, after, rfl, List.forall_mem_cons.mpr ⟨⟨y, ha⟩, hbefore⟩, hb⟩
  · rintro ⟨before, a, after, rfl, hbefore, ha⟩
    induction before with
    | nil => exact mapM_cons_of_error ha after
    | cons b before ih =>
        obtain ⟨⟨y, hb⟩, hbefore⟩ := List.forall_mem_cons.mp hbefore
        exact (mapM_cons_eq_error_iff hb _).mpr (ih hbefore)

/-- If all steps succeed, then each result depends on its own element only. -/
theorem eq_map_of_mapM_eq_ok {f : α → Except ε β} {as : List α} {ys : List β} (d : β)
    (h : as.mapM f = .ok ys) : ys = as.map fun a => (f a).toOption.getD d := by
  rw [mapM_eq_ok_iff] at h
  induction h with
  | nil => rfl
  | cons ha _ ih => rw [List.map_cons, ha, ← ih]; rfl

end Series

/-- What an item contributes to the text of its module. -/
def Node.itemText (o : Options) (n : Node) : Except Fault String :=
  (fun item => renderLines o (item.lines 1)) <$> n.lowerItem.result

theorem renderLines_flatMap {α : Type} (o : Options) (f : α → List Line) (as : List α) :
    renderLines o (as.flatMap f) = String.join (as.map fun a => renderLines o (f a)) := by
  induction as with
  | nil => rfl
  | cons a as ih => rw [List.flatMap_cons, renderLines_append, ih, List.map_cons, String.join_cons]

/-- The text of a module with items is what its items contribute, in order. -/
theorem generate_module_eq (o : Options) (pos : Position) {items : List Node} (hne : items ≠ []) :
    (generate o (.module pos items)).result
      = (fun texts => "(module\n" ++ String.join texts ++ ")")
          <$> items.mapM (Node.itemText o) := by
  have hitems : items.mapM (Node.itemText o)
      = List.map (fun item => renderLines o (item.lines 1))
          <$> items.mapM fun n => n.lowerItem.result :=
    mapM_map_eq _ _ items
  rw [hitems]
  simp only [generate, Node.lowerModule, Traced.result_map, Traced.result_bind,
    Traced.result_report, Traced.result_mapM]
  cases hlowered : items.mapM fun n => n.lowerItem.result with
  | error fault => rfl
  | ok lowered =>
      have hlowered : lowered ≠ [] := by
        rintro rfl
        exact hne (List.forall₂_nil_right_iff.mp (mapM_eq_ok_iff.mp hlowered))
      have hrender : Module.render o ⟨lowered⟩
          = "(module\n" ++ renderLines o (lowered.flatMap (Item.lines 1)) ++ ")" := by
        rw [Module.render, if_neg (by simpa using hlowered)]
        rfl
      rw [renderLines_flatMap] at hrender
      exact congrArg Except.ok hrender

/-- The text of a module with one item. -/
theorem generate_singleton_eq (o : Options) (pos : Position) (x : Node) :
    (generate o (.module pos [x])).result
      = (fun text => "(module\n" ++ text ++ ")") <$> x.itemText o := by
  rw [generate_module_eq o pos (List.cons_ne_nil x [])]
  simp only [List.mapM_cons, List.mapM_nil]
  cases x.itemText o with
  | error fault => rfl
  | ok text => simp [bind, Except.bind, pure, Except.pure, Functor.map, Except.map]

/-- An item is accepted alone exactly if it contributes something. -/
theorem exists_generate_singleton_iff {o : Options} {pos : Position} {x : Node} :
    (∃ text, (generate o (.module pos [x])).result = .ok text)
      ↔ ∃ text, x.itemText o = .ok text := by
  simp only [generate_singleton_eq, map_eq_ok_iff]
  constructor
  · rintro ⟨_, text, htext, -⟩
    exact ⟨text, htext⟩
  · rintro ⟨text, htext⟩
    exact ⟨_, text, htext, rfl⟩

/-- **Items are generated apart.**  To each item belongs a segment of text, which is what stands
between the first and the last line if the item is the only one.  A module with several items is
accepted exactly if each of them is accepted alone; then its text is made of their segments, in the
order of the items, and another order of the items is another order of the same segments.  Otherwise
the fault is the one that the first refused item has alone. -/
theorem items_are_generated_apart (o : Options) :
    ∃ segment : Node → String, ∀ (s : Session) (pos : Position), s.options = o →
      let generated (items : List Node) := (s.generate (.module pos items)).1
      (∀ x text, generated [x] = .ok text → text = "(module\n" ++ segment x ++ ")") ∧
      ∀ items : List Node, items ≠ [] →
        ((∃ text, generated items = .ok text) ↔ ∀ x ∈ items, ∃ text, generated [x] = .ok text) ∧
        (∀ text, generated items = .ok text →
          text = "(module\n" ++ String.join (items.map segment) ++ ")") ∧
        (∀ fault, generated items = .error fault ↔
          ∃ before x after, items = before ++ x :: after ∧
            (∀ y ∈ before, ∃ text, generated [y] = .ok text) ∧ generated [x] = .error fault) ∧
        (∀ reordered, items.Perm reordered → (∃ text, generated items = .ok text) →
          generated reordered
            = .ok ("(module\n" ++ String.join (reordered.map segment) ++ ")")) := by
  refine ⟨fun x => (x.itemText o).toOption.getD "", fun s pos hs => ?_⟩
  have hgenerated : ∀ items, (s.generate (.module pos items)).1
      = (generate o (.module pos items)).result := by
    intro items
    obtain ⟨e, h⟩ := s.generate_eq (.module pos items)
    rw [h, hs]
  simp only [hgenerated]
  have htext : ∀ items : List Node, items ≠ [] → ∀ text,
      (generate o (.module pos items)).result = .ok text →
        text = "(module\n"
          ++ String.join (items.map fun x => (x.itemText o).toOption.getD "") ++ ")" := by
    intro items hne text h
    rw [generate_module_eq o pos hne, map_eq_ok_iff] at h
    obtain ⟨texts, htexts, rfl⟩ := h
    rw [eq_map_of_mapM_eq_ok "" htexts]
  have haccepted : ∀ items : List Node, items ≠ [] →
      ((∃ text, (generate o (.module pos items)).result = .ok text)
        ↔ ∀ x ∈ items, ∃ text, (generate o (.module pos [x])).result = .ok text) := by
    intro items hne
    simp only [exists_generate_singleton_iff, ← exists_mapM_eq_ok_iff]
    simp only [generate_module_eq o pos hne, map_eq_ok_iff]
    constructor
    · rintro ⟨_, texts, htexts, -⟩
      exact ⟨texts, htexts⟩
    · rintro ⟨texts, htexts⟩
      exact ⟨_, texts, htexts, rfl⟩
  refine ⟨fun x text h => ?_, fun items hne => ⟨haccepted items hne, htext items hne, ?_, ?_⟩⟩
  · simpa using htext [x] (List.cons_ne_nil x []) text h
  · intro fault
    simp only [exists_generate_singleton_iff]
    rw [generate_module_eq o pos hne, map_eq_error_iff, mapM_eq_error_iff]
    simp only [generate_singleton_eq, map_eq_error_iff]
  · intro reordered hperm h
    have hne' : reordered ≠ [] := by
      rintro rfl
      exact hne hperm.eq_nil
    obtain ⟨text, htext'⟩ := (haccepted reordered hne').mpr fun x hx =>
      (haccepted items hne).mp h x (hperm.mem_iff.mpr hx)
    rw [htext', htext reordered hne' text htext']

/-- A module variable that starts from `9`. -/
def counter : Node :=
  .global .unplaced true "n" (.value .i32) (.number .unplaced (.value .i32) "9")

/-- A function that counts it down to `0` in one pass of a loop. -/
def countOnce : Node :=
  .function .unplaced "once" .void (.paramList .unplaced [])
    [.whileLoop .unplaced (.get .unplaced .global "n" (.value .i32))
      [.set .unplaced .global "n" (.number .unplaced (.value .i32) "0")]]

/-- The two are accepted in either order, and the order of their texts follows. -/
theorem counter_and_countOnce_apart :
    ∃ first second : String,
      let generated (items : List Node) :=
        ((Session.start .standard).generate (.module .unplaced items)).1
      generated [counter] = .ok ("(module\n" ++ first ++ ")") ∧
      generated [countOnce] = .ok ("(module\n" ++ second ++ ")") ∧
      generated [counter, countOnce] = .ok ("(module\n" ++ (first ++ second) ++ ")") ∧
      generated [countOnce, counter] = .ok ("(module\n" ++ (second ++ first) ++ ")") := by
  obtain ⟨segment, h⟩ := items_are_generated_apart .standard
  obtain ⟨-, hitems⟩ := h (Session.start .standard) .unplaced rfl
  -- each of the four modules is accepted, so its text is made of the segments of its items
  have htext : ∀ items text, items ≠ [] →
      ((Session.start .standard).generate (.module .unplaced items)).1 = .ok text →
        ((Session.start .standard).generate (.module .unplaced items)).1
          = .ok ("(module\n" ++ String.join (items.map segment) ++ ")") := by
    intro items text hne haccepted
    rw [haccepted, (hitems items hne).2.1 text haccepted]
  refine ⟨segment counter, segment countOnce, ?_, ?_, ?_, ?_⟩
  · simpa using htext [counter] _ (by simp) rfl
  · simpa using htext [countOnce] _ (by simp) rfl
  · simpa using htext [counter, countOnce] _ (by simp) rfl
  · simpa using htext [countOnce, counter] _ (by simp) rfl

end WatLowering
