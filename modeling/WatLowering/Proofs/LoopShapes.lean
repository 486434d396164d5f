import WatLowering.Proofs.StatementOrder

/-!
# Loops are wrapped exactly where it is needed

Two walks have to agree.  Before a loop is lowered, `anyContinuesTo` looks through its body and
counts inner loops upwards; if a `continue` matches the count, the body gets a block of its own.
Later, when that `continue` is lowered, `Scope.target` walks the enclosing loops outwards.  If the
first walk overlooked a `continue` that the second leads to the loop, the `continue` would go to the
head of the loop, past whatever the loop has to do between two passes.

* `Scope.Ordered` — enclosing loops stand at different depths, so a depth names one of them.
* `Placed.ContinuesAt` — a `continue` that the second walk leads to the loop at some depth.
* `Node.continuesTo_iff` — the two walks agree.
* `Lowers.allAskedFor` — code jumps to the `next` of a loop further out only where a `continue` asks
  for it, and never to its head.
* **`loops_wrapped_iff_continued`** — the loops of generated functions are wrapped exactly if they
  have something to run between two passes and are continued from somewhere inside; and then no jump
  in the body leads past it.
-/

namespace WatLowering

/-! ## Enclosing loops -/

/-- The enclosing loops stand at different depths, all smaller than that of the statement. -/
structure Scope.Ordered (s : Scope) : Prop where
  nested : s.Nested
  nodup : s.loops.Nodup

namespace Scope

theorem ordered_ofFunction (result : Option ValueType) : (ofFunction result).Ordered :=
  ⟨nested_ofFunction result, List.nodup_nil⟩

theorem Ordered.deeper {s : Scope} (h : s.Ordered) : s.deeper.Ordered := ⟨h.nested.deeper, h.nodup⟩

theorem Ordered.enter {s : Scope} (h : s.Ordered) (shape : Shape) : (s.enter shape).Ordered := by
  refine ⟨h.nested.enter shape, List.nodup_cons.mpr ⟨fun hmem => ?_, h.nodup⟩⟩
  exact absurd (h.nested _ hmem) (Nat.lt_irrefl _)

/-- Only one level leads to an enclosing loop. -/
theorem Ordered.loop?_inj {s : Scope} (h : s.Ordered) {n m d : Nat} (hn : s.loop? n = some d)
    (hm : s.loop? m = some d) : n = m := by
  cases n with
  | zero => cases hn
  | succ n =>
      cases m with
      | zero => cases hm
      | succ m =>
          obtain ⟨hlt, -⟩ := List.getElem?_eq_some_iff.mp hn
          have heq : s.loops[n]? = s.loops[m]? := Eq.trans hn (Eq.symm hm)
          rw [(List.getElem?_inj hlt h.nodup).mp heq]

theorem loop?_enter_one (s : Scope) (shape : Shape) :
    (s.enter shape).loop? 1 = some s.depth := rfl

theorem depth_lt_enter (s : Scope) (shape : Shape) : s.depth < (s.enter shape).depth := by
  cases shape <;> simp [enter]

end Scope

/-! ## Finding a `continue` and resolving it -/

/-- The statement is a `continue`, and from where it stands its level leads to the loop at depth
`d`. -/
def Placed.ContinuesAt (c : Placed) (d : Nat) : Prop :=
  ∃ pos levels, c.stmt = .cont pos levels ∧ c.scope.target levels c.stmt = .ok d

theorem continuesAt_cont_iff {s : Scope} {p : Position} {levels : Option Nat} {d : Nat} :
    Placed.ContinuesAt ⟨s, .cont p levels⟩ d ↔ s.loop? (levels.getD 1) = some d := by
  constructor
  · rintro ⟨_, _, ⟨rfl, rfl⟩, h⟩
    exact Scope.target_eq_ok_iff.mp h
  · intro h
    exact ⟨p, levels, rfl, Scope.target_eq_ok_iff.mpr h⟩

theorem not_continuesAt {s : Scope} {n : Node} (h : ∀ p levels, n ≠ .cont p levels) (d : Nat) :
    ¬ Placed.ContinuesAt ⟨s, n⟩ d := by
  rintro ⟨p, levels, hn, -⟩
  exact h p levels hn

/-- What holds of each statement on its own holds of several. -/
theorem anyContinuesTo_iff_of {s : Scope} {nesting d : Nat} {stmts : List Node}
    (h : ∀ stmt ∈ stmts, (stmt.continuesTo nesting = true ↔ ∃ c ∈ stmt.placed s, c.ContinuesAt d)) :
    anyContinuesTo nesting stmts = true ↔ ∃ c ∈ placedAll s stmts, c.ContinuesAt d := by
  rw [anyContinuesTo_eq_any, List.any_eq_true, placedAll_eq_flatMap]
  simp only [List.mem_flatMap]
  constructor
  · rintro ⟨stmt, hstmt, hfound⟩
    obtain ⟨c, hc, hcont⟩ := (h stmt hstmt).mp hfound
    exact ⟨c, ⟨stmt, hstmt, hc⟩, hcont⟩
  · rintro ⟨c, ⟨stmt, hstmt, hc⟩, hcont⟩
    exact ⟨stmt, hstmt, (h stmt hstmt).mpr ⟨c, hc, hcont⟩⟩

/-- **The two walks agree**: counting loops on the way in finds a `continue` for the loop at depth
`d` exactly if one is resolved to it. -/
theorem Node.continuesTo_iff (n : Node) :
    ∀ {s : Scope} {nesting d : Nat}, s.Ordered → s.loop? (nesting + 1) = some d →
      (n.continuesTo nesting = true ↔ ∃ c ∈ n.placed s, c.ContinuesAt d) := by
  induction n using Node.childInduction with
  | node n ih =>
      intro s nesting d hs hd
      -- the same for a list of statements that are children of `n`
      have hlist : ∀ {s' : Scope} {k : Nat}, s'.Ordered → s'.loop? (k + 1) = some d →
          ∀ stmts : List Node, (∀ stmt ∈ stmts, stmt ∈ n.children) →
            (anyContinuesTo k stmts = true ↔ ∃ c ∈ placedAll s' stmts, c.ContinuesAt d) := by
        intro s' k hs' hd' stmts hsub
        exact anyContinuesTo_iff_of fun stmt hstmt => ih stmt (hsub stmt hstmt) hs' hd'
      -- a loop does not itself continue, and its body counts one loop more
      have hloop : (∀ p levels, n ≠ .cont p levels) → ∀ (shape : Shape) (body : List Node),
          (∀ stmt ∈ body, stmt ∈ n.children) →
          (anyContinuesTo (nesting + 1) body = true
            ↔ ∃ c ∈ ⟨s, n⟩ :: placedAll (s.enter shape) body, c.ContinuesAt d) := by
        intro hn shape body hsub
        have hd' : (s.enter shape).loop? (nesting + 1 + 1) = some d := hd
        rw [hlist (hs.enter shape) hd' body hsub, List.exists_mem_cons_iff,
          or_iff_right (not_continuesAt hn d)]
      cases n with
      | cont p levels =>
          have hlevel : levels.getD 1 = nesting + 1 ↔ s.loop? (levels.getD 1) = some d :=
            ⟨fun h => h ▸ hd, fun h => hs.loop?_inj h hd⟩
          simp [Node.continuesTo, Node.placed, continuesAt_cont_iff, hlevel]
      | whileLoop p c body => exact hloop (by simp) .plain body fun _ => List.mem_cons_of_mem c
      | doLoop p body c => exact hloop (by simp) _ body (by simp +contextual [Node.children])
      | forLoop p init c increment body =>
          exact hloop (by simp) _ body (by simp +contextual [Node.children])
      | ifElse p c yes no =>
          have hyes := hlist hs.deeper (by rwa [Scope.loop?_deeper]) yes
            (by simp +contextual [Node.children])
          have hno : branchContinuesTo nesting no = true
              ↔ ∃ c ∈ placedElse s.deeper no, c.ContinuesAt d := by
            cases no with
            | none => simp [branchContinuesTo, placedElse]
            | some branch =>
                exact hlist hs.deeper (by rwa [Scope.loop?_deeper]) branch
                  (by simp +contextual [Node.children])
          rw [Node.continuesTo, Node.placed, Bool.or_eq_true, hyes, hno, List.exists_mem_cons_iff,
            or_iff_right (not_continuesAt (by simp) d)]
          simp only [List.mem_append, or_and_right, exists_or]
      | _ => simpa [Node.continuesTo, Node.placed] using not_continuesAt (by simp) d

/-! ## The jumps of code -/

mutual

/-- Where the jumps of a construct go, those inside it included. -/
def Code.targets : Code → List Label
  | .set _ _ _ => []
  | .br target _ => [target]
  | .brIf target _ => [target]
  | .block _ body => targetsAll body
  | .loop _ _ body => targetsAll body
  | .ifThen _ yes no => targetsAll yes ++ targetsElse no

def targetsAll : List Code → List Label
  | [] => []
  | c :: rest => c.targets ++ targetsAll rest

def targetsElse : Option (List Code) → List Label
  | none => []
  | some branch => targetsAll branch

end

theorem targetsAll_eq_flatMap (code : List Code) : targetsAll code = code.flatMap Code.targets := by
  induction code with
  | nil => rfl
  | cons c code ih => rw [targetsAll, ih, List.flatMap_cons]

@[simp] theorem targetsAll_append (xs ys : List Code) :
    targetsAll (xs ++ ys) = targetsAll xs ++ targetsAll ys := by
  simp only [targetsAll_eq_flatMap, List.flatMap_append]

@[simp] theorem targetsAll_wrap (shape : Shape) (d : Nat) (inner : List Code) :
    targetsAll (shape.wrap d inner) = targetsAll inner := by
  cases shape with
  | plain => rfl
  | wrapped => simp [Shape.wrap, targetsAll, Code.targets]

/-- For the loop at depth `d`, a jump to this label is no way to its next pass, or it is one that a
`continue` among the statements asks for. -/
structure Label.AskedFor (d : Nat) (ps : List Placed) (l : Label) : Prop where
  continues : l = .next d → ∃ c ∈ ps, c.ContinuesAt d
  ne_head : l ≠ .head d

/-- So are all jumps of the code. -/
def AllAskedFor (d : Nat) (ps : List Placed) (code : List Code) : Prop :=
  ∀ l ∈ targetsAll code, l.AskedFor d ps

section AskedFor

variable {d : Nat} {ps qs : List Placed}

theorem Label.AskedFor.mono {l : Label} (h : l.AskedFor d ps) (hsub : ps ⊆ qs) :
    l.AskedFor d qs := by
  refine ⟨fun hl => ?_, h.ne_head⟩
  obtain ⟨c, hc, hcont⟩ := h.continues hl
  exact ⟨c, hsub hc, hcont⟩

theorem Label.AskedFor.ret : Label.ret.AskedFor d ps := ⟨nofun, nofun⟩

theorem Label.AskedFor.exit (d' : Nat) : (Label.exit d').AskedFor d ps := ⟨nofun, nofun⟩

/-- The jumps back of other loops are of no concern. -/
theorem Shape.askedFor_headLabel (shape : Shape) {d' : Nat} (h : d ≠ d') :
    (shape.headLabel d').AskedFor d ps := by
  cases shape <;> constructor <;> simp [Shape.headLabel, h.symm]

theorem allAskedFor_nil : AllAskedFor d [] [] := by simp [AllAskedFor, targetsAll]

theorem allAskedFor_assignments {ns : List Node} {code : List Code}
    (h : ns.mapM Node.assignment = .ok code) : AllAskedFor d [] code := by
  have hnone : code.flatMap Code.targets = [] := Node.flatMap_assignments (fun _ _ _ => rfl) h
  simp [AllAskedFor, targetsAll_eq_flatMap, hnone]

theorem allAskedFor_jump {l : Label} (h : l.AskedFor d ps) (value : Option (List Instr)) :
    AllAskedFor d ps [.br l value] := by
  simpa [AllAskedFor, targetsAll, Code.targets] using h

theorem allAskedFor_brIf {l : Label} (h : l.AskedFor d ps) (test : Test) :
    AllAskedFor d ps [.brIf l test] := by
  simpa [AllAskedFor, targetsAll, Code.targets] using h

theorem AllAskedFor.mono {code : List Code} (h : AllAskedFor d ps code) (hsub : ps ⊆ qs) :
    AllAskedFor d qs code :=
  fun l hl => (h l hl).mono hsub

/-- What is not itself a `continue` asks for nothing. -/
theorem AllAskedFor.of_cons {p : Placed} {code : List Code} (h : AllAskedFor d (p :: ps) code)
    (hp : ¬ p.ContinuesAt d) : AllAskedFor d ps code := by
  intro l hl
  refine ⟨fun hnext => ?_, (h l hl).ne_head⟩
  obtain ⟨c, hc, hcont⟩ := (h l hl).continues hnext
  rcases List.mem_cons.mp hc with rfl | hc
  · exact absurd hcont hp
  · exact ⟨c, hc, hcont⟩

theorem AllAskedFor.append {xs ys : List Code} (hx : AllAskedFor d ps xs)
    (hy : AllAskedFor d qs ys) : AllAskedFor d (ps ++ qs) (xs ++ ys) := by
  rw [AllAskedFor, targetsAll_append, List.forall_mem_append]
  exact ⟨hx.mono (List.subset_append_left ps qs), hy.mono (List.subset_append_right ps qs)⟩

theorem allAskedFor_guard {condition : Option Node} {guard : List Code} {d' : Nat}
    (h : condition.toList.mapM (Node.exitGuard d') = .ok guard) : AllAskedFor d [] guard := by
  rcases Node.guard_eq_ok_iff.mp h with ⟨-, rfl⟩ | ⟨c, ops, t, -, -, -, rfl⟩
  · exact allAskedFor_nil
  · exact allAskedFor_brIf (.exit d') _

/-- The jumps of a loop are those of its guard, of its body, and one back to its head. -/
theorem AllAskedFor.loop {n : Node} {s : Scope} {shape : Shape} {exit : Label}
    {guard inner latch : List Code} (hguard : AllAskedFor d [] guard)
    (hinner : AllAskedFor d ps inner) (hlatch : AllAskedFor d [] latch) :
    AllAskedFor d (⟨s, n⟩ :: ps)
      [.loop exit (shape.headLabel s.depth) (guard ++ shape.wrap s.depth inner ++ latch)] := by
  have hwrap : AllAskedFor d ps (shape.wrap s.depth inner) := by
    rwa [AllAskedFor, targetsAll_wrap]
  have hall := (hguard.append hwrap).append hlatch
  rw [List.append_nil, List.nil_append] at hall
  simpa [AllAskedFor, targetsAll, Code.targets] using hall.mono (List.subset_cons_self ⟨s, n⟩ ps)

theorem AllAskedFor.conditional {n : Node} {s : Scope} {test : Test} {yes : List Code}
    {no : Option (List Code)} (hyes : AllAskedFor d ps yes) (hno : AllAskedFor d qs (no.getD [])) :
    AllAskedFor d (⟨s, n⟩ :: (ps ++ qs)) [.ifThen test yes no] := by
  have hall := (hyes.append hno).mono (List.subset_cons_self ⟨s, n⟩ _)
  cases no <;> simpa [AllAskedFor, targetsAll, Code.targets, targetsElse] using hall

end AskedFor

/-- **Jumps to the loops further out**: no code inside a loop jumps to its head, and where some
jumps to its `next`, a `continue` asks for it. -/
theorem Lowers.allAskedFor {s : Scope} {stmts : List Node} {code : List Code}
    (h : Lowers s stmts code) {d : Nat} (hd : d < s.depth) :
    AllAskedFor d (placedAll s stmts) code := by
  induction h with
  | nil => exact allAskedFor_nil
  | declaration _ ih => exact (ih hd).mono (List.subset_append_right _ _)
  | assignment _ _ ih => exact (ih hd).mono (List.subset_append_right _ _)
  | returnValue _ _ _ ih => exact (allAskedFor_jump .ret _).append (ih hd)
  | returnVoid _ _ ih => exact (allAskedFor_jump .ret _).append (ih hd)
  | brk _ _ ih => exact (allAskedFor_jump (.exit _) _).append (ih hd)
  | @cont s p levels d' _ _ hlevel _ ih =>
      have hasked : (Label.next d').AskedFor d [⟨s, .cont p levels⟩] := by
        refine ⟨fun hnext => ?_, nofun⟩
        obtain rfl : d' = d := by simpa using hnext
        exact ⟨_, List.mem_singleton.mpr rfl, continuesAt_cont_iff.mpr hlevel⟩
      exact (allAskedFor_jump hasked none).append (ih hd)
  | whileLoop _ ih =>
      exact ((ih hd).of_cons (not_continuesAt (by simp) d)).mono (List.subset_cons_self _ _)
  | @forLoop s _ _ _ _ _ _ shape first guard inner step code hshape hinit hguard _ hstep _ ihbody
      ih =>
      have hinner := ihbody (hd.trans (s.depth_lt_enter shape))
      have hback : AllAskedFor d [] [.br (shape.headLabel s.depth) none] :=
        allAskedFor_jump (shape.askedFor_headLabel hd.ne) none
      have hlatch := (allAskedFor_assignments hstep).append hback
      subst hshape
      rw [List.append_assoc _ step]
      exact (allAskedFor_assignments hinit).append
        (((allAskedFor_guard hguard).loop hinner hlatch).append (ih hd))
  | @doLoop s _ _ _ _ shape test _ _ hshape _ htest _ ihbody ih =>
      have hinner := ihbody (hd.trans (s.depth_lt_enter shape))
      have hback : AllAskedFor d [] [.brIf (shape.headLabel s.depth) test] :=
        allAskedFor_brIf (shape.askedFor_headLabel hd.ne) test
      subst hshape
      exact (allAskedFor_nil.loop hinner hback).append (ih hd)
  | ifThen _ _ _ ihyes ih =>
      exact (AllAskedFor.conditional (ihyes (Nat.lt_succ_of_lt hd)) allAskedFor_nil).append (ih hd)
  | ifElse _ _ _ _ ihyes ihno ih =>
      have hno := ihno (Nat.lt_succ_of_lt hd)
      exact (AllAskedFor.conditional (ihyes (Nat.lt_succ_of_lt hd)) hno).append (ih hd)

/-! ## The shape of a loop -/

namespace Node

/-- Does the loop have something to run between two passes?  A `do` has its condition there, a `for`
its increments. -/
def runsBetweenPasses : Node → Bool
  | .doLoop _ _ _ => true
  | .forLoop _ _ _ increment _ => !increment.isEmpty
  | _ => false

/-- The statements of a loop. -/
def loopBody : Node → List Node
  | .whileLoop _ _ body | .doLoop _ body _ | .forLoop _ _ _ _ body => body
  | _ => []

end Node

/-- What stands behind the body of a loop: what is to be run between two passes, and a jump back to
the head. -/
inductive Latch (head : Label) : Node → List Code → Prop where
  | whileLoop {p : Position} {c : Node} {body : List Node} :
      Latch head (.whileLoop p c body) [.br head none]
  | forLoop {p : Position} {init : List Node} {c : Option Node} {increment body : List Node}
      {step : List Code} :
      increment.mapM Node.assignment = .ok step →
      Latch head (.forLoop p init c increment body) (step ++ [.br head none])
  | doLoop {p : Position} {body : List Node} {c : Node} {test : Test} :
      c.truthTest = .ok test → Latch head (.doLoop p body c) [.brIf head test]

/-- The code is that of the loop in the given shape: a guard, the body, in a block of its own if the
loop is wrapped, and the latch.  If there is something to run between two passes, then nothing in
front of the latch jumps to the head. -/
def EmittedAs (shape : Shape) (loop : Placed) (code : LoopCode) : Prop :=
  let d := loop.scope.depth
  ∃ guard inner latch, code = ⟨.exit d, shape.headLabel d, guard ++ shape.wrap d inner ++ latch⟩ ∧
    Lowers (loop.scope.enter shape) loop.stmt.loopBody inner ∧
    Latch (shape.headLabel d) loop.stmt latch ∧
    (loop.stmt.runsBetweenPasses = true →
      shape.headLabel d ∉ targetsAll (guard ++ shape.wrap d inner))

/-- **The loop has the shape it needs**: it is wrapped exactly if it has something to run between
two passes and a `continue` inside is resolved to it. -/
def ShapedAsNeeded (loop : Placed) (code : LoopCode) : Prop :=
  ∃ shape, EmittedAs shape loop code ∧
    (shape = .wrapped ↔ loop.stmt.runsBetweenPasses = true
      ∧ ∃ c ∈ loop.inside, c.ContinuesAt loop.scope.depth)

theorem Shape.ofBody_eq_wrapped_iff {s : Scope} (hs : s.Ordered) (between : Bool)
    (body : List Node) (shape : Shape) :
    Shape.ofBody between body = .wrapped
      ↔ between = true ∧ ∃ c ∈ placedAll (s.enter shape) body, c.ContinuesAt s.depth := by
  rw [← anyContinuesTo_iff_of fun stmt _ =>
    stmt.continuesTo_iff (hs.enter shape) (s.loop?_enter_one shape)]
  simp [Shape.ofBody]

/-- A loop in the shape that a look through its body gives has the shape it needs. -/
theorem shapedAsNeeded_ofBody {loop : Placed} (hs : loop.scope.Ordered) {shape : Shape}
    {guard inner latch : List Code}
    (hshape : shape = Shape.ofBody loop.stmt.runsBetweenPasses loop.stmt.loopBody)
    (hinside : loop.inside = placedAll (loop.scope.enter shape) loop.stmt.loopBody)
    (hguard : AllAskedFor loop.scope.depth [] guard)
    (hinner : Lowers (loop.scope.enter shape) loop.stmt.loopBody inner)
    (hlatch : Latch (shape.headLabel loop.scope.depth) loop.stmt latch) :
    ShapedAsNeeded loop ⟨.exit loop.scope.depth, shape.headLabel loop.scope.depth,
      guard ++ shape.wrap loop.scope.depth inner ++ latch⟩ := by
  have hneeded : shape = .wrapped ↔ loop.stmt.runsBetweenPasses = true
      ∧ ∃ c ∈ loop.inside, c.ContinuesAt loop.scope.depth := by
    rw [hinside, ← Shape.ofBody_eq_wrapped_iff hs, ← hshape]
  refine ⟨shape, ⟨guard, inner, latch, rfl, hinner, hlatch, fun hbetween hmem => ?_⟩, hneeded⟩
  -- a jump to the head would be asked for by a `continue`, and then the head is not its target
  rw [targetsAll_append, targetsAll_wrap, ← targetsAll_append] at hmem
  have hasked := hguard.append (hinner.allAskedFor (loop.scope.depth_lt_enter shape)) _ hmem
  rw [List.nil_append, ← hinside] at hasked
  cases shape with
  | plain => cases hneeded.mpr ⟨hbetween, hasked.continues rfl⟩
  | wrapped => exact hasked.ne_head rfl

theorem LoopLowers.shapedAsNeeded {loop : Placed} {code : LoopCode} (h : LoopLowers loop code)
    (hs : loop.scope.Ordered) : ShapedAsNeeded loop code := by
  induction h with
  | whileLoop _ ih =>
      obtain ⟨shape, ⟨guard, inner, latch, rfl, hinner, hlatch, -⟩, hshape⟩ := ih hs
      cases hlatch with
      | forLoop hstep =>
          obtain rfl := pure_eq_ok_iff.mp hstep
          exact ⟨shape, ⟨guard, inner, _, rfl, hinner, .whileLoop, nofun⟩, hshape⟩
  | forLoop hshape hguard hinner hstep =>
      subst hshape
      rw [List.append_assoc _ _ [_]]
      exact shapedAsNeeded_ofBody hs rfl rfl (allAskedFor_guard hguard) hinner (.forLoop hstep)
  | doLoop hshape hinner htest =>
      subst hshape
      exact shapedAsNeeded_ofBody hs rfl rfl allAskedFor_nil hinner (.doLoop htest)

/-! ## Generated functions -/

/-- The declarations in front of the first statement are not loops. -/
theorem loopsAmong_dropWhile_isDeclaration (s : Scope) (body : List Node) :
    loopsAmong (placedAll s (body.dropWhile Node.isDeclaration)) = loopsAmong (placedAll s body) :=
  apply_dropWhile_isDeclaration (F := fun stmts => loopsAmong (placedAll s stmts))
    (fun _ _ _ _ => rfl) body

/-- **Loops are wrapped when and only when it is needed.**  The loops in the code of each function
of an accepted program are its loops, one for one and in order, each in the shape it needs: a `do`,
or a `for` with increments, is wrapped exactly if some `continue` inside, however deep and with
whatever level, is resolved to it, and no other loop is wrapped.  So the jumps to the head of a loop
that has something to run between two passes stand behind what is to be run. -/
theorem loops_wrapped_iff_continued (o : Options) {pos : Position} {items : List Node}
    {text : String} (h : (generate o (.module pos items)).result = .ok text) :
    ∃ m : Module, (Node.module pos items).lowerModule.result = .ok m ∧ m.render o = text ∧
      ∀ (i : Nat) (p : Position) (name : String) (result : NumericKind) (params : Node)
        (body : List Node), items[i]? = some (.function p name result params body) →
        ∃ f : Func, m.items[i]? = some (.func f) ∧
          List.Forall₂ ShapedAsNeeded
            (loopsAmong (placedAll (.ofFunction result.valueType?) body)) (loopsAll f.body) := by
  obtain ⟨m, hm, htext, hitems⟩ := exists_module_of_generate h
  refine ⟨m, hm, htext, fun i p name result params body hi => ?_⟩
  obtain ⟨f, hf, hlowers⟩ := exists_func_of_getElem? hitems hi
  refine ⟨f, hf, ?_⟩
  have hloops := hlowers.lowers.loops_forall₂
  rw [← hlowers.result_eq, loopsAmong_dropWhile_isDeclaration] at hloops
  have hordered : ∀ loop ∈ loopsAmong (placedAll (.ofFunction result.valueType?) body),
      loop.scope.Ordered := by
    intro loop hloop
    exact forall_placedAll (fun _ shape hs => hs.enter shape) (fun _ hs => hs.deeper)
      (Scope.ordered_ofFunction _) body loop (List.mem_of_mem_filter hloop)
  exact ((List.forall₂_and_left _ _).mpr ⟨hordered, hloops⟩).imp
    fun _ _ ⟨hs, hlowers⟩ => hlowers.shapedAsNeeded hs

/-- A `do` loop in a `for` loop with an increment: the `continue` in the inner loop is for the outer
one. -/
def crossingLoops : Node :=
  let x : Node := .get .unplaced .local "x" (.value .i32)
  .function .unplaced "cross" .void (.paramList .unplaced [])
    [.localVar .unplaced "x" (.value .i32),
      .forLoop .unplaced [] none [.set .unplaced .local "x" x]
        [.doLoop .unplaced [.ifElse .unplaced x [.cont .unplaced (some 2)] none] x]]

/-- Of two loops with something to run between passes, the outer one is wrapped and the inner one is
not. -/
theorem crossingLoops_shapes :
    ∃ (m : Module) (f : Func) (outer inner : LoopCode),
      (Node.module .unplaced [crossingLoops]).lowerModule.result = .ok m ∧
      m.items[0]? = some (.func f) ∧
      loopsAll f.body = [outer, inner] ∧ outer.head = .head 3 ∧ inner.head = .next 5 := by
  have haccepted : (generate .standard (.module .unplaced [crossingLoops])).result = .ok _ := rfl
  obtain ⟨m, hlowered, -, hm⟩ := loops_wrapped_iff_continued .standard haccepted
  obtain ⟨f, hf, hshapes⟩ := hm 0 _ _ _ _ _ rfl
  obtain ⟨outer, _, ⟨shape, ⟨_, _, _, rfl, -⟩, hshape⟩, hrest, hloops⟩ :=
    List.forall₂_cons_left_iff.mp hshapes
  obtain ⟨inner, _, ⟨shape', ⟨_, _, _, rfl, -⟩, hshape'⟩, hnil, rfl⟩ :=
    List.forall₂_cons_left_iff.mp hrest
  obtain rfl := List.forall₂_nil_left_iff.mp hnil
  refine ⟨m, f, _, _, hlowered, hf, hloops, ?_, ?_⟩
  · have hcontinued : shape = .wrapped :=
      hshape.mpr ⟨rfl, _, .tail _ (.tail _ (.head _)), _, _, rfl, rfl⟩
    rw [hcontinued]
    rfl
  · have hplain : shape' ≠ .wrapped := by
      rw [Ne, hshape']
      rintro ⟨-, c, hc, hcont⟩
      simp only [Placed.inside, Node.placed, placedAll, placedElse, List.append_nil,
        List.tail_cons, List.mem_cons, List.not_mem_nil, or_false] at hc
      rcases hc with rfl | rfl
      · exact not_continuesAt (by simp) _ hcont
      · exact absurd (continuesAt_cont_iff.mp hcont) (by decide)
    cases shape' with
    | plain => rfl
    | wrapped => exact absurd rfl hplain

end WatLowering
