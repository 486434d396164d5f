import WatLowering.Proofs.LabelNames

/-!
# Where jumps lead

A jump in the text names its target, and the name means the innermost block or loop around the jump
that bears it.  Loops beside one another use the same names, so that every jump reaches the right
loop rests on what stands around it.  Here both sides are written down as trees of the same shape
and proved equal.

* `Construct` — the blocks and loops a jump can reach.  A loop is known by the number of loops
  around it, so among the loops that are open at one place no two have the same number.
* `Code.resolved` — the jumps of generated code, each with the construct that its name is resolved
  to.
* `Node.intended` — the jumps a statement asks for, each with the construct it should reach:
  `break n` and `continue n` count `n` loops outwards, a guard leaves its own loop, and a loop goes
  back to its own head.
* **`branches_reach_their_loops`** — in every generated function the two agree, and no name is borne
  by two of the constructs of loops that are open at the same place.

**Any return label will do.**  The block that a return leaves is the outermost one.  A loop label
that is sought inside its loop is found before the search gets there, so even a return label that
looks like the name of a loop cannot catch the jumps of a loop.
-/

namespace WatLowering

/-! ## Jumps with their targets -/

/-- What a jump can reach.  Loops are numbered from the outside, starting at 0. -/
inductive Construct where
  | returnBlock
  | breakBlock (loop : Nat)
  | loopHead (loop : Nat)
  | continueBlock (loop : Nat)
  deriving DecidableEq

/-- The jumps of a piece of code in their order, with the constructs that hold them.  A jump whose
name is not borne by anything around it has no target. -/
inductive Flow where
  | jump (target : Option Construct)
  /-- A return; where it leads is up to the return label. -/
  | ret
  | block (body : List Flow)
  | loop (body : List Flow)
  | fork (yes no : List Flow)

/-- The construct that a `continue` of a loop goes to. -/
def Shape.continueTarget (loop : Nat) : Shape → Construct
  | .plain => .loopHead loop
  | .wrapped => .continueBlock loop

/-- The place of a loop body in the flow of its loop. -/
def Shape.wrapFlow (body : List Flow) : Shape → List Flow
  | .plain => body
  | .wrapped => [.block body]

/-! ### What the names say -/

mutual

/-- The jumps of a construct, resolved by name among the constructs opened around it, innermost
first.  `loops` is the number of loops around it. -/
def Code.resolved (o : Options) (opened : List (String × Construct)) (loops : Nat) :
    Code → List Flow
  | .set _ _ _ => []
  | .br .ret _ => [.ret]
  | .br target _ => [.jump (opened.lookup (target.name o))]
  | .brIf target _ => [.jump (opened.lookup (target.name o))]
  | .block label body =>
      [.block (resolvedAll o ((label.name o, .continueBlock (loops - 1)) :: opened) loops body)]
  | .loop exit head body =>
      [.loop (resolvedAll o ((head.name o, .loopHead loops) :: (exit.name o, .breakBlock loops)
        :: opened) (loops + 1) body)]
  | .ifThen _ yes no => [.fork (resolvedAll o opened loops yes) (resolvedElse o opened loops no)]

def resolvedAll (o : Options) (opened : List (String × Construct)) (loops : Nat) :
    List Code → List Flow
  | [] => []
  | c :: rest => c.resolved o opened loops ++ resolvedAll o opened loops rest

def resolvedElse (o : Options) (opened : List (String × Construct)) (loops : Nat) :
    Option (List Code) → List Flow
  | none => []
  | some branch => resolvedAll o opened loops branch

end

/-- The jumps of a function, whose body lies in the return block. -/
def Func.resolved (o : Options) (f : Func) : List Flow :=
  resolvedAll o [(Label.ret.name o, .returnBlock)] 0 f.body

/-! ### What the statements mean -/

mutual

/-- The jumps of a statement that lies in loops of the given shapes, innermost first. -/
def Node.intended (shapes : List Shape) : Node → List Flow
  | .ret _ _ => [.ret]
  | .brk _ levels => [.jump (some (.breakBlock (shapes.length - levels.getD 1)))]
  | .cont _ levels =>
      [.jump (some ((shapes.getD (levels.getD 1 - 1) .plain).continueTarget
        (shapes.length - levels.getD 1)))]
  | .whileLoop _ _ body =>
      [.loop (.jump (some (.breakBlock shapes.length)) :: intendedAll (.plain :: shapes) body
        ++ [.jump (some (.loopHead shapes.length))])]
  | .doLoop _ body _ =>
      let shape := Shape.ofBody true body
      [.loop (shape.wrapFlow (intendedAll (shape :: shapes) body)
        ++ [.jump (some (.loopHead shapes.length))])]
  | .forLoop _ _ condition increment body =>
      let shape := Shape.ofBody (!increment.isEmpty) body
      [.loop (condition.toList.map (fun _ => .jump (some (.breakBlock shapes.length)))
        ++ shape.wrapFlow (intendedAll (shape :: shapes) body)
        ++ [.jump (some (.loopHead shapes.length))])]
  | .ifElse _ _ yes no => [.fork (intendedAll shapes yes) (intendedElse shapes no)]
  | _ => []

def intendedAll (shapes : List Shape) : List Node → List Flow
  | [] => []
  | stmt :: rest => stmt.intended shapes ++ intendedAll shapes rest

def intendedElse (shapes : List Shape) : Option (List Node) → List Flow
  | none => []
  | some branch => intendedAll shapes branch

end

/-! ### Names that are open together -/

mutual

/-- For each place inside a construct the names that loops have open there, innermost first. -/
def Code.openNames (o : Options) (opened : List String) : Code → List (List String)
  | .block label body =>
      (label.name o :: opened) :: openNamesAll o (label.name o :: opened) body
  | .loop exit head body =>
      (head.name o :: exit.name o :: opened)
        :: openNamesAll o (head.name o :: exit.name o :: opened) body
  | .ifThen _ yes no => openNamesAll o opened yes ++ openNamesElse o opened no
  | _ => []

def openNamesAll (o : Options) (opened : List String) : List Code → List (List String)
  | [] => []
  | c :: rest => c.openNames o opened ++ openNamesAll o opened rest

def openNamesElse (o : Options) (opened : List String) : Option (List Code) → List (List String)
  | none => []
  | some branch => openNamesAll o opened branch

end

/-! ## Sequences -/

section Sequences

variable {o : Options} {ns : List Node} {code : List Code}

section Resolved

variable {opened : List (String × Construct)} {loops : Nat}

theorem resolvedAll_eq_flatMap (code : List Code) :
    resolvedAll o opened loops code = code.flatMap (Code.resolved o opened loops) := by
  induction code with
  | nil => rfl
  | cons c code ih => rw [resolvedAll, ih, List.flatMap_cons]

theorem resolvedAll_append (xs ys : List Code) :
    resolvedAll o opened loops (xs ++ ys)
      = resolvedAll o opened loops xs ++ resolvedAll o opened loops ys := by
  simp only [resolvedAll_eq_flatMap, List.flatMap_append]

theorem resolvedAll_assignments (h : ns.mapM Node.assignment = .ok code) :
    resolvedAll o opened loops code = [] := by
  rw [resolvedAll_eq_flatMap]
  exact Node.flatMap_assignments (fun _ _ _ => rfl) h

end Resolved

section Opened

variable {opened : List String}

theorem openNamesAll_eq_flatMap (code : List Code) :
    openNamesAll o opened code = code.flatMap (Code.openNames o opened) := by
  induction code with
  | nil => rfl
  | cons c code ih => rw [openNamesAll, ih, List.flatMap_cons]

theorem openNamesAll_append (xs ys : List Code) :
    openNamesAll o opened (xs ++ ys) = openNamesAll o opened xs ++ openNamesAll o opened ys := by
  simp only [openNamesAll_eq_flatMap, List.flatMap_append]

theorem openNamesAll_assignments (h : ns.mapM Node.assignment = .ok code) :
    openNamesAll o opened code = [] := by
  rw [openNamesAll_eq_flatMap]
  exact Node.flatMap_assignments (fun _ _ _ => rfl) h

end Opened

end Sequences

/-! ## Resolving names -/

section Resolving

variable {o : Options} {opened : List (String × Construct)} {s : Scope} {shapes : List Shape}

theorem lookup_cons_of_ne {l l' : Label} (hl : l ≠ .ret) (hl' : l' ≠ .ret) (h : l ≠ l')
    (c : Construct) : ((l'.name o, c) :: opened).lookup (l.name o) = opened.lookup (l.name o) := by
  have hname : (l.name o == l'.name o) = false := by
    rw [beq_eq_false_iff_ne, Ne, Label.name_eq_iff_of_ne_ret hl hl']
    exact h
  rw [List.lookup_cons, hname]

/-- What a loop at depth `d` that lies in `loops` others opens around everything it holds. -/
def Shape.headOpens (o : Options) (d loops : Nat) (opened : List (String × Construct))
    (shape : Shape) : List (String × Construct) :=
  ((shape.headLabel d).name o, .loopHead loops) :: ((Label.exit d).name o, .breakBlock loops)
    :: opened

/-- What is opened around the body of that loop. -/
def Shape.opens (o : Options) (d loops : Nat) (opened : List (String × Construct)) :
    Shape → List (String × Construct)
  | .plain => Shape.plain.headOpens o d loops opened
  | .wrapped =>
      ((Label.next d).name o, .continueBlock loops) :: Shape.wrapped.headOpens o d loops opened

/-- What is opened around a statement serves the loops of its scope: each name finds the construct
of its own loop. -/
structure Opens (o : Options) (opened : List (String × Construct)) (s : Scope)
    (shapes : List Shape) : Prop where
  exit : ∀ {n d : Nat}, s.loop? n = some d →
    opened.lookup ((Label.exit d).name o) = some (.breakBlock (shapes.length - n))
  next : ∀ {n d : Nat}, s.loop? n = some d →
    opened.lookup ((Label.next d).name o)
      = some ((shapes.getD (n - 1) .plain).continueTarget (shapes.length - n))

theorem lookup_headOpens_head (shape : Shape) (d loops : Nat) :
    (shape.headOpens o d loops opened).lookup ((shape.headLabel d).name o)
      = some (.loopHead loops) :=
  List.lookup_cons_self

theorem lookup_headOpens_exit (shape : Shape) (d loops : Nat) :
    (shape.headOpens o d loops opened).lookup ((Label.exit d).name o)
      = some (.breakBlock loops) := by
  rw [Shape.headOpens, lookup_cons_of_ne (by simp) (shape.headLabel_ne_ret d)
    (shape.exit_ne_headLabel d), List.lookup_cons_self]

theorem lookup_headOpens_of_ne (shape : Shape) {d : Nat} {l : Label} (hret : l ≠ .ret)
    (hhead : l ≠ shape.headLabel d) (hexit : l ≠ .exit d) (loops : Nat) :
    (shape.headOpens o d loops opened).lookup (l.name o) = opened.lookup (l.name o) := by
  rw [Shape.headOpens, lookup_cons_of_ne hret (shape.headLabel_ne_ret d) hhead,
    lookup_cons_of_ne hret (by simp) hexit]

/-- A name of another depth is not caught by the constructs of a loop. -/
theorem lookup_opens_of_ne {shape : Shape} {d d' loops : Nat} (hd : d' ≠ d) {l : Label}
    (hl : l = .exit d' ∨ l = .next d') :
    (shape.opens o d loops opened).lookup (l.name o) = opened.lookup (l.name o) := by
  have hret : l ≠ .ret := by rcases hl with rfl | rfl <;> simp
  have hexit : l ≠ .exit d := by rcases hl with rfl | rfl <;> simp [hd]
  have hnext : l ≠ .next d := by rcases hl with rfl | rfl <;> simp [hd]
  have hhead : l ≠ .head d := by rcases hl with rfl | rfl <;> simp
  cases shape with
  | plain => exact lookup_headOpens_of_ne .plain hret hnext hexit loops
  | wrapped =>
      rw [Shape.opens, lookup_cons_of_ne hret (by simp) hnext,
        lookup_headOpens_of_ne .wrapped hret hhead hexit]

theorem lookup_opens_exit (shape : Shape) (d loops : Nat) :
    (shape.opens o d loops opened).lookup ((Label.exit d).name o) = some (.breakBlock loops) := by
  cases shape with
  | plain => exact lookup_headOpens_exit .plain d loops
  | wrapped =>
      rw [Shape.opens, lookup_cons_of_ne (by simp) (by simp) (by simp), lookup_headOpens_exit]

theorem lookup_opens_next (shape : Shape) (d loops : Nat) :
    (shape.opens o d loops opened).lookup ((Label.next d).name o)
      = some (shape.continueTarget loops) := by
  cases shape <;> exact List.lookup_cons_self

/-- **Entering a loop keeps the names right**: the loop's own constructs come first, and since all
loops around it stand at smaller depths, they hide none of the names in use. -/
theorem Opens.enter (h : Opens o opened s shapes) (hs : s.Nested) (shape : Shape) :
    Opens o (shape.opens o s.depth shapes.length opened) (s.enter shape) (shape :: shapes) := by
  constructor
  · intro n d hd
    match n with
    | 0 => cases hd
    | 1 =>
        cases hd
        exact lookup_opens_exit shape s.depth shapes.length
    | n + 2 =>
        rw [Scope.loop?_enter_succ] at hd
        rw [lookup_opens_of_ne (hs.ne_of_loop? hd) (.inl rfl), h.exit hd]
        simp
  · intro n d hd
    match n with
    | 0 => cases hd
    | 1 =>
        cases hd
        exact lookup_opens_next shape s.depth shapes.length
    | n + 2 =>
        rw [Scope.loop?_enter_succ] at hd
        rw [lookup_opens_of_ne (hs.ne_of_loop? hd) (.inr rfl), h.next hd]
        simp

theorem Opens.deeper (h : Opens o opened s shapes) : Opens o opened s.deeper shapes := by
  constructor
  · intro n d hd
    exact h.exit (s.loop?_deeper n ▸ hd)
  · intro n d hd
    exact h.next (s.loop?_deeper n ▸ hd)

/-! ## Statements -/

theorem resolved_br {target : Label} (h : target ≠ .ret) (loops : Nat) (v : Option (List Instr)) :
    (Code.br target v).resolved o opened loops = [.jump (opened.lookup (target.name o))] := by
  cases target with
  | ret => exact absurd rfl h
  | _ => rfl

theorem resolvedAll_wrap (shape : Shape) (d loops : Nat) (inner : List Code) :
    resolvedAll o (shape.headOpens o d loops opened) (loops + 1) (shape.wrap d inner)
      = shape.wrapFlow (resolvedAll o (shape.opens o d loops opened) (loops + 1) inner) := by
  cases shape <;> rfl

theorem resolvedAll_guard {condition : Option Node} {guard : List Code} {d loops : Nat}
    (h : condition.toList.mapM (Node.exitGuard d) = .ok guard) (shape : Shape) :
    resolvedAll o (shape.headOpens o d loops opened) (loops + 1) guard
      = condition.toList.map fun _ => .jump (some (.breakBlock loops)) := by
  rcases Node.guard_eq_ok_iff.mp h with ⟨rfl, rfl⟩ | ⟨c, ops, t, rfl, -, -, rfl⟩
  · rfl
  · simp only [resolvedAll, Code.resolved, List.append_nil, Option.toList, List.map_cons,
      List.map_nil, lookup_headOpens_exit]

/-- **The jumps of lowered statements lead where the statements ask.** -/
theorem Lowers.resolvedAll_eq {stmts : List Node} {code : List Code} (h : Lowers s stmts code)
    (hs : s.Nested) (hopen : Opens o opened s shapes) :
    resolvedAll o opened shapes.length code = intendedAll shapes stmts := by
  induction h generalizing opened shapes with
  | nil => rfl
  | declaration _ ih => rw [intendedAll, ih hs hopen]; rfl
  | assignment _ _ ih => rw [resolvedAll, ih hs hopen]; rfl
  | returnValue _ _ _ ih => rw [resolvedAll, ih hs hopen]; rfl
  | returnVoid _ _ ih => rw [resolvedAll, ih hs hopen]; rfl
  | brk hd _ ih => rw [resolvedAll, ih hs hopen, resolved_br (by simp), hopen.exit hd]; rfl
  | cont hd _ ih => rw [resolvedAll, ih hs hopen, resolved_br (by simp), hopen.next hd]; rfl
  | whileLoop _ ih =>
      rw [ih hs hopen, intendedAll, intendedAll]
      rfl
  | @forLoop s p init condition increment body rest shape first guard inner step code hshape hinit
      hguard _ hstep _ ihbody ih =>
      have hbody := ihbody (hs.enter shape) (hopen.enter hs shape)
      rw [resolvedAll_append, resolvedAll_assignments hinit, List.nil_append, resolvedAll,
        ih hs hopen, intendedAll, Code.resolved, Node.intended, ← hshape]
      change [Flow.loop (resolvedAll o (shape.headOpens o s.depth shapes.length opened)
        (shapes.length + 1) _)] ++ _ = _
      rw [resolvedAll_append, resolvedAll_append, resolvedAll_append, resolvedAll_guard hguard,
        resolvedAll_wrap, resolvedAll_assignments hstep, resolvedAll,
        resolved_br (shape.headLabel_ne_ret _), lookup_headOpens_head, ← hbody, List.append_nil]
      rfl
  | @doLoop s p c body rest shape test inner code hshape _ htest _ ihbody ih =>
      have hbody := ihbody (hs.enter shape) (hopen.enter hs shape)
      rw [resolvedAll, ih hs hopen, intendedAll, Code.resolved, Node.intended, ← hshape]
      change [Flow.loop (resolvedAll o (shape.headOpens o s.depth shapes.length opened)
        (shapes.length + 1) _)] ++ _ = _
      rw [resolvedAll_append, resolvedAll_wrap, resolvedAll, Code.resolved,
        lookup_headOpens_head, ← hbody]
      rfl
  | ifThen _ _ _ ihyes ih =>
      rw [resolvedAll, ih hs hopen, Code.resolved, ihyes hs.deeper hopen.deeper]
      rfl
  | ifElse _ _ _ _ ihyes ihno ih =>
      rw [resolvedAll, ih hs hopen, Code.resolved, ihyes hs.deeper hopen.deeper, resolvedElse,
        ihno hs.deeper hopen.deeper]
      rfl

end Resolving

/-! ## Names that are open together -/

section OpenNames

variable {o : Options} {s : Scope} {labels : List Label}

/-- The depth of the loop that a label belongs to. -/
def Label.depth? : Label → Option Nat
  | .ret => none
  | .exit d | .next d | .head d => some d

/-- The labels are those of the loops of a scope, each of them once. -/
structure LabelsOf (s : Scope) (labels : List Label) : Prop where
  nodup : labels.Nodup
  depth : ∀ l ∈ labels, ∃ d ∈ s.loops, l.depth? = some d

theorem LabelsOf.nodup_names (h : LabelsOf s labels) : (labels.map (Label.name o)).Nodup := by
  have hret : ∀ l ∈ labels, l ≠ .ret := by
    rintro l hl rfl
    obtain ⟨d, -, hd⟩ := h.depth _ hl
    cases hd
  refine h.nodup.map_on fun l hl l' hl' hname => ?_
  exact (Label.name_eq_iff_of_ne_ret (hret l hl) (hret l' hl')).mp hname

/-- No label of the depth of the scope itself is open yet. -/
theorem LabelsOf.not_mem (h : LabelsOf s labels) (hs : s.Nested) {l : Label}
    (hl : l.depth? = some s.depth) : l ∉ labels := by
  intro hmem
  obtain ⟨d, hd, hdepth⟩ := h.depth l hmem
  rw [hl, Option.some.injEq] at hdepth
  exact Nat.lt_irrefl _ (hdepth ▸ hs d hd)

theorem LabelsOf.deeper (h : LabelsOf s labels) : LabelsOf s.deeper labels :=
  ⟨h.nodup, h.depth⟩

/-- The labels that a loop opens around everything it holds are new. -/
theorem LabelsOf.enter_head (h : LabelsOf s labels) (hs : s.Nested) (shape : Shape) :
    LabelsOf (s.enter shape) (shape.headLabel s.depth :: .exit s.depth :: labels) := by
  have hhead : (shape.headLabel s.depth).depth? = some s.depth := by cases shape <;> rfl
  have hne := (shape.exit_ne_headLabel s.depth).symm
  constructor
  · refine List.nodup_cons.mpr ⟨?_, List.nodup_cons.mpr ⟨h.not_mem hs rfl, h.nodup⟩⟩
    rw [List.mem_cons, not_or]
    exact ⟨hne, h.not_mem hs hhead⟩
  · intro l hl
    rcases List.mem_cons.mp hl with rfl | hl
    · exact ⟨s.depth, List.mem_cons_self, hhead⟩
    rcases List.mem_cons.mp hl with rfl | hl
    · exact ⟨s.depth, List.mem_cons_self, rfl⟩
    · obtain ⟨d, hd, hdepth⟩ := h.depth l hl
      exact ⟨d, List.mem_cons_of_mem _ hd, hdepth⟩

theorem LabelsOf.enter_next (h : LabelsOf s labels) (hs : s.Nested) :
    LabelsOf (s.enter .wrapped) (.next s.depth :: .head s.depth :: .exit s.depth :: labels) := by
  have hhead := h.enter_head hs .wrapped
  constructor
  · refine List.nodup_cons.mpr ⟨?_, hhead.nodup⟩
    simp only [List.mem_cons, reduceCtorEq, false_or]
    exact h.not_mem hs rfl
  · exact List.forall_mem_cons.mpr ⟨⟨s.depth, List.mem_cons_self, rfl⟩, hhead.depth⟩

theorem openNamesAll_guard {condition : Option Node} {guard : List Code} {d : Nat}
    (h : condition.toList.mapM (Node.exitGuard d) = .ok guard) (opened : List String) :
    openNamesAll o opened guard = [] := by
  rcases Node.guard_eq_ok_iff.mp h with ⟨-, rfl⟩ | ⟨c, ops, t, -, -, -, rfl⟩ <;> rfl

/-- Names stay distinct in a loop, if they do in its body. -/
theorem nodup_openNames_wrap (h : LabelsOf s labels) (hs : s.Nested) (shape : Shape)
    {inner : List Code}
    (hinner : ∀ labels', LabelsOf (s.enter shape) labels' →
      ∀ names ∈ openNamesAll o (labels'.map (Label.name o)) inner, names.Nodup) :
    ∀ names ∈ openNamesAll o
        ((shape.headLabel s.depth :: .exit s.depth :: labels).map (Label.name o))
        (shape.wrap s.depth inner), names.Nodup := by
  cases shape with
  | plain => exact hinner _ (h.enter_head hs .plain)
  | wrapped =>
      have hnext := h.enter_next hs
      simp only [Shape.wrap, openNamesAll, Code.openNames, List.append_nil]
      exact List.forall_mem_cons.mpr ⟨hnext.nodup_names, hinner _ hnext⟩

/-- **Loops that are open together have different names.** -/
theorem Lowers.nodup_openNames {stmts : List Node} {code : List Code} (h : Lowers s stmts code)
    (hs : s.Nested) (hl : LabelsOf s labels) :
    ∀ names ∈ openNamesAll o (labels.map (Label.name o)) code, names.Nodup := by
  induction h generalizing labels with
  | nil => simp [openNamesAll]
  | declaration _ ih => exact ih hs hl
  | assignment _ _ ih => exact ih hs hl
  | returnValue _ _ _ ih => exact ih hs hl
  | returnVoid _ _ ih => exact ih hs hl
  | brk _ _ ih => exact ih hs hl
  | cont _ _ ih => exact ih hs hl
  | whileLoop _ ih => exact ih hs hl
  | @forLoop s _ _ _ _ _ _ shape _ _ _ _ _ _ hinit hguard _ hstep _ ihbody ih =>
      rw [openNamesAll_append, openNamesAll_assignments hinit, List.nil_append]
      have hwrap := nodup_openNames_wrap (o := o) hl hs shape fun labels' hl' =>
        ihbody (hs.enter shape) hl'
      refine List.forall_mem_append.mpr ⟨List.forall_mem_cons.mpr ⟨?_, ?_⟩, ih hs hl⟩
      · exact (hl.enter_head hs shape).nodup_names
      · change ∀ names ∈ openNamesAll o
          ((shape.headLabel s.depth :: .exit s.depth :: labels).map (Label.name o)) _, _
        rw [openNamesAll_append, openNamesAll_append, openNamesAll_append,
          openNamesAll_guard hguard, openNamesAll_assignments hstep, List.nil_append,
          List.append_nil]
        exact List.forall_mem_append.mpr ⟨hwrap, by simp [openNamesAll, Code.openNames]⟩
  | @doLoop s _ _ _ _ shape _ _ _ _ _ _ _ ihbody ih =>
      have hwrap := nodup_openNames_wrap (o := o) hl hs shape fun labels' hl' =>
        ihbody (hs.enter shape) hl'
      refine List.forall_mem_append.mpr ⟨List.forall_mem_cons.mpr ⟨?_, ?_⟩, ih hs hl⟩
      · exact (hl.enter_head hs shape).nodup_names
      · change ∀ names ∈ openNamesAll o
          ((shape.headLabel s.depth :: .exit s.depth :: labels).map (Label.name o)) _, _
        rw [openNamesAll_append]
        exact List.forall_mem_append.mpr ⟨hwrap, by simp [openNamesAll, Code.openNames]⟩
  | ifThen _ _ _ ihyes ih =>
      refine List.forall_mem_append.mpr ⟨List.forall_mem_append.mpr ⟨?_, ?_⟩, ih hs hl⟩
      · exact ihyes hs.deeper hl.deeper
      · simp [openNamesElse]
  | ifElse _ _ _ _ ihyes ihno ih =>
      refine List.forall_mem_append.mpr ⟨List.forall_mem_append.mpr ⟨?_, ?_⟩, ih hs hl⟩
      · exact ihyes hs.deeper hl.deeper
      · exact ihno hs.deeper hl.deeper

end OpenNames

/-! ## Generated functions -/

/-- The declarations in front of the first statement hold no jumps. -/
theorem intendedAll_dropWhile_isDeclaration (shapes : List Shape) (body : List Node) :
    intendedAll shapes (body.dropWhile Node.isDeclaration) = intendedAll shapes body :=
  apply_dropWhile_isDeclaration (fun _ _ _ _ => rfl) body

/-- **Every loop branch resolves to the right loop.**  Whatever the options, each function of an
accepted program stands in the module it is lowered to, with its jumps leading where its statements
ask, and names that loops have open at the same place are distinct. -/
theorem branches_reach_their_loops (o : Options) {pos : Position} {items : List Node}
    {text : String} (h : (generate o (.module pos items)).result = .ok text) :
    ∃ m : Module, (Node.module pos items).lowerModule.result = .ok m ∧ m.render o = text ∧
      ∀ (i : Nat) (p : Position) (name : String) (result : NumericKind) (params : Node)
        (body : List Node), items[i]? = some (.function p name result params body) →
        ∃ f : Func, m.items[i]? = some (.func f) ∧ f.resolved o = intendedAll [] body ∧
          ∀ names ∈ openNamesAll o [] f.body, names.Nodup := by
  obtain ⟨m, hm, htext, hitems⟩ := exists_module_of_generate h
  refine ⟨m, hm, htext, fun i p name result params body hi => ?_⟩
  obtain ⟨f, hf, hlowers⟩ := exists_func_of_getElem? hitems hi
  have hs := Scope.nested_ofFunction f.result
  refine ⟨f, hf, ?_, ?_⟩
  · have hopen : Opens o [(Label.ret.name o, .returnBlock)] (.ofFunction f.result) [] := by
      constructor <;>
        · intro n d hd
          cases n <;> cases hd
    rw [← intendedAll_dropWhile_isDeclaration]
    exact hlowers.lowers.resolvedAll_eq hs hopen
  · exact hlowers.lowers.nodup_openNames hs ⟨List.nodup_nil, by simp⟩

/-- A `while` loop in a `for` loop with an increment: one `continue` skips the inner loop. -/
def skippingLoops : Node :=
  let x : Node := .get .unplaced .local "x" (.value .i32)
  .function .unplaced "skip" .void (.paramList .unplaced [])
    [.localVar .unplaced "x" (.value .i32),
      .forLoop .unplaced [] none [.set .unplaced .local "x" x]
        [.whileLoop .unplaced x
          [.ifElse .unplaced x [.cont .unplaced (some 2)] (some [.brk .unplaced none])]]]

/-- Even with a return label that is the name of the outer loop, the `continue` reaches the block
around the outer body, and the `break` leaves the inner loop. -/
theorem skippingLoops_branches :
    ∃ (m : Module) (f : Func),
      (Node.module .unplaced [skippingLoops]).lowerModule.result = .ok m ∧
      m.items[0]? = some (.func f) ∧
      f.resolved ⟨4, "break_3"⟩ =
        [.loop [.block [.loop [.jump (some (.breakBlock 1)),
            .fork [.jump (some (.continueBlock 0))] [.jump (some (.breakBlock 1))],
            .jump (some (.loopHead 1))]],
          .jump (some (.loopHead 0))]] := by
  have haccepted : (generate ⟨4, "break_3"⟩ (.module .unplaced [skippingLoops])).result = .ok _ :=
    rfl
  obtain ⟨m, hlowered, -, hm⟩ := branches_reach_their_loops ⟨4, "break_3"⟩ haccepted
  obtain ⟨f, hf, hjumps, -⟩ := hm 0 _ _ _ _ _ rfl
  exact ⟨m, f, hlowered, hf, hjumps⟩

end WatLowering
