import WatLowering.Proofs.BranchTargets

/-!
# Where returns lead

A `return` jumps to the block around its function body, by the name that the options give to that
block.  Between the two stand the loops around the `return`, whose blocks have names of their own,
and the innermost construct that bears a name catches the jump.  So whether a `return` leaves the
function depends on the return label and on the depths and shapes of the loops it stands in.

* `Code.returnTargets` — the returns of generated code, each with the construct that its name is
  resolved to.
* `Node.returnLoops` — the returns of a statement, each with the loops around it.
* **`returns_leave_function_iff`** — a `return` reaches the return block exactly if no label of
  these loops bears the return label.  A return label that is no name of a loop is always safe.

**The return label is not checked.**  With the label `break_3` a `return` in the first loop of a
function ends that loop and nothing else (`return_caught_by_loop`).
-/

namespace WatLowering

/-! ## Returns with their targets -/

mutual

/-- What the returns of a construct lead to, resolved by name among the constructs opened around it,
innermost first.  `loops` is the number of loops around it. -/
def Code.returnTargets (o : Options) (opened : List (String × Construct)) (loops : Nat) :
    Code → List (Option Construct)
  | .br .ret _ => [opened.lookup (Label.ret.name o)]
  | .block label body =>
      returnTargetsAll o ((label.name o, .continueBlock (loops - 1)) :: opened) loops body
  | .loop exit head body =>
      returnTargetsAll o ((head.name o, .loopHead loops) :: (exit.name o, .breakBlock loops)
        :: opened) (loops + 1) body
  | .ifThen _ yes no => returnTargetsAll o opened loops yes ++ returnTargetsElse o opened loops no
  | _ => []

def returnTargetsAll (o : Options) (opened : List (String × Construct)) (loops : Nat) :
    List Code → List (Option Construct)
  | [] => []
  | c :: rest => c.returnTargets o opened loops ++ returnTargetsAll o opened loops rest

def returnTargetsElse (o : Options) (opened : List (String × Construct)) (loops : Nat) :
    Option (List Code) → List (Option Construct)
  | none => []
  | some branch => returnTargetsAll o opened loops branch

end

/-- What the returns of a function lead to. -/
def Func.returnTargets (o : Options) (f : Func) : List (Option Construct) :=
  returnTargetsAll o [(Label.ret.name o, .returnBlock)] 0 f.body

/-- The labels that a loop of this shape at depth `d` puts around its body, innermost first. -/
def Shape.labels (d : Nat) : Shape → List Label
  | .plain => [.next d, .exit d]
  | .wrapped => [.next d, .head d, .exit d]

mutual

/-- For each `return` of a statement the depths and shapes of the loops around it, innermost first;
`around` are the loops around the statement itself. -/
def Node.returnLoops (s : Scope) (around : List (Nat × Shape)) : Node → List (List (Nat × Shape))
  | .ret _ _ => [around]
  | .whileLoop _ _ body => returnLoopsAll (s.enter .plain) ((s.depth, .plain) :: around) body
  | .doLoop _ body _ =>
      let shape := Shape.ofBody true body
      returnLoopsAll (s.enter shape) ((s.depth, shape) :: around) body
  | .forLoop _ _ _ increment body =>
      let shape := Shape.ofBody (!increment.isEmpty) body
      returnLoopsAll (s.enter shape) ((s.depth, shape) :: around) body
  | .ifElse _ _ yes no => returnLoopsAll s.deeper around yes ++ returnLoopsElse s.deeper around no
  | _ => []

def returnLoopsAll (s : Scope) (around : List (Nat × Shape)) :
    List Node → List (List (Nat × Shape))
  | [] => []
  | stmt :: rest => stmt.returnLoops s around ++ returnLoopsAll s around rest

def returnLoopsElse (s : Scope) (around : List (Nat × Shape)) :
    Option (List Node) → List (List (Nat × Shape))
  | none => []
  | some branch => returnLoopsAll s around branch

end

/-- None of the loops has a label that bears the return label. -/
def LetPass (o : Options) (loops : List (Nat × Shape)) : Prop :=
  ∀ loop ∈ loops, ∀ l ∈ loop.2.labels loop.1, l.name o ≠ o.returnLabel

instance (o : Options) (loops : List (Nat × Shape)) : Decidable (LetPass o loops) :=
  inferInstanceAs (Decidable (∀ loop ∈ loops, ∀ l ∈ loop.2.labels loop.1, l.name o ≠ o.returnLabel))

theorem Shape.ne_ret_of_mem_labels {shape : Shape} {d : Nat} {l : Label} (h : l ∈ shape.labels d) :
    l ≠ .ret := by
  rintro rfl
  cases shape <;> simp [Shape.labels] at h

/-- A return label that is no name of a loop passes all loops. -/
theorem letPass_of_not_isLoopName {o : Options} (ho : ¬ IsLoopName o.returnLabel)
    (loops : List (Nat × Shape)) : LetPass o loops := by
  intro loop _ l hl hname
  exact ho (hname ▸ Label.isLoopName_name o (Shape.ne_ret_of_mem_labels hl))

/-! ## Sequences -/

section Sequences

variable {o : Options} {opened : List (String × Construct)} {loops : Nat}

theorem returnTargetsAll_eq_flatMap (code : List Code) :
    returnTargetsAll o opened loops code = code.flatMap (Code.returnTargets o opened loops) := by
  induction code with
  | nil => rfl
  | cons c code ih => rw [returnTargetsAll, ih, List.flatMap_cons]

theorem returnTargetsAll_append (xs ys : List Code) :
    returnTargetsAll o opened loops (xs ++ ys)
      = returnTargetsAll o opened loops xs ++ returnTargetsAll o opened loops ys := by
  simp only [returnTargetsAll_eq_flatMap, List.flatMap_append]

theorem returnTargetsAll_assignments {ns : List Node} {code : List Code}
    (h : ns.mapM Node.assignment = .ok code) : returnTargetsAll o opened loops code = [] := by
  rw [returnTargetsAll_eq_flatMap]
  exact Node.flatMap_assignments (fun _ _ _ => rfl) h

theorem returnTargetsAll_guard {condition : Option Node} {guard : List Code} {d : Nat}
    (h : condition.toList.mapM (Node.exitGuard d) = .ok guard) :
    returnTargetsAll o opened loops guard = [] := by
  rcases Node.guard_eq_ok_iff.mp h with ⟨-, rfl⟩ | ⟨c, ops, t, -, -, -, rfl⟩ <;> rfl

theorem returnTargets_br {target : Label} (h : target ≠ .ret) (v : Option (List Instr)) :
    (Code.br target v).returnTargets o opened loops = [] := by
  cases target with
  | ret => exact absurd rfl h
  | _ => rfl

end Sequences

/-! ## Loops in the way -/

section Loops

variable {o : Options} {opened : List (String × Construct)}

/-- A construct of a loop lets a return pass exactly if it does not bear the return label. -/
theorem lookup_cons_eq_returnBlock_iff {name : String} {c : Construct} (hc : c ≠ .returnBlock) :
    ((name, c) :: opened).lookup o.returnLabel = some .returnBlock
      ↔ name ≠ o.returnLabel ∧ opened.lookup o.returnLabel = some .returnBlock := by
  by_cases hname : name = o.returnLabel
  · subst hname
    simp [hc]
  · have hbeq : (o.returnLabel == name) = false := by
      rw [beq_eq_false_iff_ne]
      exact fun heq => hname heq.symm
    simp [List.lookup_cons, hbeq, hname]

/-- The constructs of a loop let a return pass exactly if none of its labels bears the return
label. -/
theorem lookup_opens_eq_returnBlock_iff (shape : Shape) (d loops : Nat) :
    (shape.opens o d loops opened).lookup o.returnLabel = some .returnBlock
      ↔ (∀ l ∈ shape.labels d, l.name o ≠ o.returnLabel)
        ∧ opened.lookup o.returnLabel = some .returnBlock := by
  cases shape with
  | plain => simp [Shape.opens, Shape.headOpens, Shape.headLabel, Shape.labels,
      lookup_cons_eq_returnBlock_iff, and_assoc]
  | wrapped => simp [Shape.opens, Shape.headOpens, Shape.headLabel, Shape.labels,
      lookup_cons_eq_returnBlock_iff, and_assoc]

/-- Going into a loop keeps track of what catches a return. -/
theorem lookup_opens_iff_letPass {around : List (Nat × Shape)}
    (h : opened.lookup o.returnLabel = some .returnBlock ↔ LetPass o around) (shape : Shape)
    (d loops : Nat) :
    (shape.opens o d loops opened).lookup o.returnLabel = some .returnBlock
      ↔ LetPass o ((d, shape) :: around) := by
  rw [lookup_opens_eq_returnBlock_iff, h, LetPass, LetPass, List.forall_mem_cons]

theorem returnTargetsAll_wrap (shape : Shape) (d loops : Nat) (inner : List Code) :
    returnTargetsAll o (shape.headOpens o d loops opened) (loops + 1) (shape.wrap d inner)
      = returnTargetsAll o (shape.opens o d loops opened) (loops + 1) inner := by
  cases shape with
  | plain => rfl
  | wrapped =>
      simp only [Shape.wrap, returnTargetsAll, Code.returnTargets, List.append_nil, Shape.opens,
        Nat.add_sub_cancel]

end Loops

/-! ## Statements -/

/-- Each `return` with its target, which is the return block exactly if the loops around the
`return` let it pass. -/
def LeaveUnlessCaught (o : Options) :
    List (List (Nat × Shape)) → List (Option Construct) → Prop :=
  List.Forall₂ fun loops target => target = some .returnBlock ↔ LetPass o loops

/-- **The returns of lowered statements**, by induction over the rules.  What is opened around the
statements catches a return exactly if the loops around them do. -/
theorem Lowers.leaveUnlessCaught {o : Options} {opened : List (String × Construct)} {s : Scope}
    {around : List (Nat × Shape)} {stmts : List Node} {code : List Code} (h : Lowers s stmts code)
    (hopen : opened.lookup o.returnLabel = some .returnBlock ↔ LetPass o around) (loops : Nat) :
    LeaveUnlessCaught o (returnLoopsAll s around stmts)
      (returnTargetsAll o opened loops code) := by
  induction h generalizing opened around loops with
  | nil => exact .nil
  | declaration _ ih => exact ih hopen loops
  | assignment _ _ ih => exact ih hopen loops
  | returnValue _ _ _ ih => exact .cons hopen (ih hopen loops)
  | returnVoid _ _ ih => exact .cons hopen (ih hopen loops)
  | brk _ _ ih => exact ih hopen loops
  | cont _ _ ih => exact ih hopen loops
  | whileLoop _ ih => exact ih hopen loops
  | @forLoop s p init condition increment body rest shape first guard inner step code hshape hinit
      hguard _ hstep _ ihbody ih =>
      have hbody := ihbody (lookup_opens_iff_letPass hopen shape s.depth loops) (loops + 1)
      rw [returnTargetsAll_append, returnTargetsAll_assignments hinit, List.nil_append,
        returnLoopsAll, returnTargetsAll, Node.returnLoops, ← hshape, Code.returnTargets]
      change LeaveUnlessCaught o _ (returnTargetsAll o (shape.headOpens o s.depth loops opened)
        (loops + 1) _ ++ _)
      rw [returnTargetsAll_append, returnTargetsAll_append, returnTargetsAll_append,
        returnTargetsAll_guard hguard, returnTargetsAll_wrap, returnTargetsAll_assignments hstep,
        returnTargetsAll, returnTargets_br (shape.headLabel_ne_ret _)]
      simp only [returnTargetsAll, List.nil_append, List.append_nil]
      exact List.rel_append hbody (ih hopen loops)
  | @doLoop s p c body rest shape test inner code hshape _ htest _ ihbody ih =>
      have hbody := ihbody (lookup_opens_iff_letPass hopen shape s.depth loops) (loops + 1)
      rw [returnLoopsAll, returnTargetsAll, Node.returnLoops, ← hshape, Code.returnTargets]
      change LeaveUnlessCaught o _ (returnTargetsAll o (shape.headOpens o s.depth loops opened)
        (loops + 1) _ ++ _)
      rw [returnTargetsAll_append, returnTargetsAll_wrap]
      simp only [returnTargetsAll, Code.returnTargets, List.append_nil]
      exact List.rel_append hbody (ih hopen loops)
  | ifThen _ _ _ ihyes ih =>
      refine List.rel_append ?_ (ih hopen loops)
      exact List.rel_append (ihyes hopen loops) .nil
  | ifElse _ _ _ _ ihyes ihno ih =>
      refine List.rel_append ?_ (ih hopen loops)
      exact List.rel_append (ihyes hopen loops) (ihno hopen loops)

/-! ## Generated functions -/

theorem FunctionLowers.leaveUnlessCaught {name : String} {result : NumericKind} {params : Node}
    {body : List Node} {f : Func} (h : FunctionLowers name result params body f) (o : Options) :
    LeaveUnlessCaught o (returnLoopsAll (.ofFunction result.valueType?) [] body)
      (f.returnTargets o) := by
  have hopen : [(Label.ret.name o, Construct.returnBlock)].lookup o.returnLabel
      = some .returnBlock ↔ LetPass o [] := by
    simp [LetPass]
  have hbody := h.lowers.leaveUnlessCaught hopen 0
  -- the declarations in front of the first statement hold no returns
  have hskip := apply_dropWhile_isDeclaration (F := returnLoopsAll (.ofFunction f.result) [])
    (fun _ _ _ _ => rfl) body
  rwa [hskip, ← h.result_eq] at hbody

/-- A return label that passes all loops leaves the function everywhere. -/
theorem LeaveUnlessCaught.eq_returnBlock {o : Options} {loops : List (List (Nat × Shape))}
    {targets : List (Option Construct)} (h : LeaveUnlessCaught o loops targets)
    (ho : ¬ IsLoopName o.returnLabel) : ∀ target ∈ targets, target = some .returnBlock := by
  induction h with
  | nil => simp
  | cons hreturn _ ih =>
      have hleaves := hreturn.mpr (letPass_of_not_isLoopName ho _)
      exact List.forall_mem_cons.mpr ⟨hleaves, ih⟩

/-- **A `return` leaves its function exactly if no loop around it has a label that bears the return
label.**  This holds for every `return` of every function of an accepted program, whatever the
options; so all of them leave their functions if the return label is no name of a loop. -/
theorem returns_leave_function_iff (o : Options) {pos : Position} {items : List Node}
    {text : String} (h : (generate o (.module pos items)).result = .ok text) :
    ∃ m : Module, (Node.module pos items).lowerModule.result = .ok m ∧ m.render o = text ∧
      ∀ (i : Nat) (p : Position) (name : String) (result : NumericKind) (params : Node)
        (body : List Node), items[i]? = some (.function p name result params body) →
        ∃ f : Func, m.items[i]? = some (.func f) ∧
          LeaveUnlessCaught o (returnLoopsAll (.ofFunction result.valueType?) [] body)
            (f.returnTargets o) ∧
          (¬ IsLoopName o.returnLabel →
            ∀ target ∈ f.returnTargets o, target = some .returnBlock) := by
  obtain ⟨m, hm, htext, hitems⟩ := exists_module_of_generate h
  refine ⟨m, hm, htext, fun i p name result params body hi => ?_⟩
  obtain ⟨f, hf, hlowers⟩ := exists_func_of_getElem? hitems hi
  have hreturns := hlowers.leaveUnlessCaught o
  exact ⟨f, hf, hreturns, hreturns.eq_returnBlock⟩

/-- Two returns in loops: one in a `while` loop, and one in a `do` loop inside of it.  Behind the
loops there is an assignment that the returns should skip. -/
def returningLoops : Node :=
  let i32 : NumericKind := .value .i32
  let x : Node := .get .unplaced .local "x" i32
  .function .unplaced "search" .void (.paramList .unplaced [.localVar .unplaced "x" i32])
    [.whileLoop .unplaced x
        [.ifElse .unplaced x [.ret .unplaced none] none,
          .doLoop .unplaced [.ret .unplaced none, .cont .unplaced none] x],
      .set .unplaced .local "x" (.number .unplaced i32 "0")]

/-- With the label `loop_4` the first `return` leaves the function.  The second does not: the `do`
loop holds a `continue`, so its head is called `loop_4`. -/
theorem returningLoops_leave :
    ∃ (m : Module) (f : Func) (caught : Option Construct),
      (Node.module .unplaced [returningLoops]).lowerModule.result = .ok m ∧
      m.items[0]? = some (.func f) ∧ f.returnTargets ⟨4, "loop_4"⟩ = [some .returnBlock, caught] ∧
      caught ≠ some .returnBlock := by
  have haccepted : (generate ⟨4, "loop_4"⟩ (.module .unplaced [returningLoops])).result = .ok _ :=
    rfl
  obtain ⟨m, hlowered, -, hm⟩ := returns_leave_function_iff ⟨4, "loop_4"⟩ haccepted
  obtain ⟨f, hf, hreturns, -⟩ := hm 0 _ _ _ _ _ rfl
  obtain ⟨first, _, hfirst, hrest, htargets⟩ := List.forall₂_cons_left_iff.mp hreturns
  obtain ⟨caught, _, hcaught, hnil, rfl⟩ := List.forall₂_cons_left_iff.mp hrest
  obtain rfl := List.forall₂_nil_left_iff.mp hnil
  obtain rfl := hfirst.mpr (by decide)
  refine ⟨m, f, caught, hlowered, hf, htargets, fun heq => ?_⟩
  exact absurd (hcaught.mp heq) (by decide)

/-- **Not every `return` leaves its function.**  With the label `break_3` both returns end the outer
loop instead, and the assignment behind it is run. -/
theorem return_caught_by_loop :
    ∃ (text : String) (m : Module) (f : Func),
      (generate ⟨4, "break_3"⟩ (.module .unplaced [returningLoops])).result = .ok text ∧
      (Node.module .unplaced [returningLoops]).lowerModule.result = .ok m ∧
      m.render ⟨4, "break_3"⟩ = text ∧ m.items[0]? = some (.func f) ∧
      f.returnTargets ⟨4, "break_3"⟩ = [some (.breakBlock 0), some (.breakBlock 0)] := by
  have hlowered : (Node.module .unplaced [returningLoops]).lowerModule.result = .ok _ := rfl
  exact ⟨_, _, _, generate_eq_ok_iff.mpr ⟨_, hlowered, rfl⟩, hlowered, rfl, rfl, by decide⟩

end WatLowering
