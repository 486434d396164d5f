import WatLowering.Node.Walk
import WatLowering.Proofs.LabelNames

/-!
# Statements and loops in order

Some facts are about every statement of a certain sort, however deep it is nested: every loop, every
`continue`, every declaration that comes too late.  What such a statement becomes depends on the
scope that the statements around it made for it.  This file lists the statements of a function in
the order in which a reader meets them, each with that scope, and the loops of generated code in the
order in which they are written.

* `Placed` — a statement with the scope in which it is lowered.
* `Node.placed` — a statement and everything in statement position inside it.
* `Node.forall_placed` — what going inwards keeps of a scope, all scopes inside have.
* `Code.loops` — the loops of generated code.
* **`Lowers.loops_forall₂`** — the two lists of loops go together: the code has one loop for each
  loop of the source, in the same order, and it is what the rules make of that loop.
-/

namespace WatLowering

/-! ## Statements -/

/-- A statement with the scope in which it is lowered. -/
structure Placed where
  scope : Scope
  stmt : Node

mutual

/-- The statement and those inside it.  Conditions, assigned values and the header of a `for` are
not in statement position. -/
def Node.placed (s : Scope) : Node → List Placed
  | n@(.whileLoop _ _ body) => ⟨s, n⟩ :: placedAll (s.enter .plain) body
  | n@(.doLoop _ body _) => ⟨s, n⟩ :: placedAll (s.enter (.ofBody true body)) body
  | n@(.forLoop _ _ _ increment body) =>
      ⟨s, n⟩ :: placedAll (s.enter (.ofBody (!increment.isEmpty) body)) body
  | n@(.ifElse _ _ thenBranch elseBranch) =>
      ⟨s, n⟩ :: (placedAll s.deeper thenBranch ++ placedElse s.deeper elseBranch)
  | n => [⟨s, n⟩]

def placedAll (s : Scope) : List Node → List Placed
  | [] => []
  | stmt :: rest => stmt.placed s ++ placedAll s rest

def placedElse (s : Scope) : Option (List Node) → List Placed
  | none => []
  | some branch => placedAll s branch

end

theorem placedAll_eq_flatMap (s : Scope) (stmts : List Node) :
    placedAll s stmts = stmts.flatMap (Node.placed s) := by
  induction stmts with
  | nil => rfl
  | cons stmt rest ih => rw [placedAll, ih, List.flatMap_cons]

theorem placedElse_eq_flatMap (s : Scope) (branch : Option (List Node)) :
    placedElse s branch = (branch.getD []).flatMap (Node.placed s) := by
  cases branch with
  | none => rfl
  | some branch => exact placedAll_eq_flatMap s branch

/-- What is in statement position inside a statement. -/
def Placed.inside (p : Placed) : List Placed := (p.stmt.placed p.scope).tail

/-- **What going inwards keeps**, all scopes inside a statement have. -/
theorem Node.forall_placed {P : Scope → Prop} (henter : ∀ s shape, P s → P (s.enter shape))
    (hdeeper : ∀ s, P s → P s.deeper) (n : Node) :
    ∀ s, P s → ∀ p ∈ n.placed s, P p.scope := by
  induction n using Node.childInduction with
  | node n ih =>
      intro s hs
      -- a list of statements that are children of `n`, in a scope of which `P` holds
      have hlist : ∀ s', P s' → ∀ stmts : List Node, (∀ stmt ∈ stmts, stmt ∈ n.children) →
          ∀ p ∈ stmts.flatMap (Node.placed s'), P p.scope := by
        intro s' hs' stmts hsub p hp
        obtain ⟨stmt, hstmt, hp⟩ := List.mem_flatMap.mp hp
        exact ih stmt (hsub stmt hstmt) s' hs' p hp
      cases n with
      | whileLoop pos c body =>
          rw [Node.placed, placedAll_eq_flatMap, List.forall_mem_cons]
          exact ⟨hs, hlist _ (henter s _ hs) body fun _ => List.mem_cons_of_mem c⟩
      | doLoop pos body c =>
          rw [Node.placed, placedAll_eq_flatMap, List.forall_mem_cons]
          exact ⟨hs, hlist _ (henter s _ hs) body (by simp +contextual [Node.children])⟩
      | forLoop pos init c increment body =>
          rw [Node.placed, placedAll_eq_flatMap, List.forall_mem_cons]
          exact ⟨hs, hlist _ (henter s _ hs) body (by simp +contextual [Node.children])⟩
      | ifElse pos c yes no =>
          rw [Node.placed, placedAll_eq_flatMap, placedElse_eq_flatMap, List.forall_mem_cons,
            List.forall_mem_append]
          exact ⟨hs, hlist _ (hdeeper s hs) yes (by simp +contextual [Node.children]),
            hlist _ (hdeeper s hs) _ (by simp +contextual [Node.children])⟩
      | _ => simpa [Node.placed] using hs

theorem forall_placedAll {P : Scope → Prop} (henter : ∀ s shape, P s → P (s.enter shape))
    (hdeeper : ∀ s, P s → P s.deeper) {s : Scope} (hs : P s) (stmts : List Node) :
    ∀ p ∈ placedAll s stmts, P p.scope := by
  intro p hp
  rw [placedAll_eq_flatMap] at hp
  obtain ⟨stmt, -, hp⟩ := List.mem_flatMap.mp hp
  exact stmt.forall_placed henter hdeeper s hs p hp

/-! ## Loops -/

/-- The shape of a loop; other statements have none. -/
def Node.loopShape? : Node → Option Shape
  | .whileLoop _ _ _ => some .plain
  | .doLoop _ body _ => some (.ofBody true body)
  | .forLoop _ _ _ increment body => some (.ofBody (!increment.isEmpty) body)
  | _ => none

/-- The loops among statements. -/
def loopsAmong (ps : List Placed) : List Placed := ps.filter fun p => p.stmt.loopShape?.isSome

@[simp] theorem loopsAmong_append (ps qs : List Placed) :
    loopsAmong (ps ++ qs) = loopsAmong ps ++ loopsAmong qs :=
  List.filter_append ps qs

theorem loopsAmong_cons_of_loop {s : Scope} {n : Node} (h : n.loopShape?.isSome = true)
    (ps : List Placed) : loopsAmong (⟨s, n⟩ :: ps) = ⟨s, n⟩ :: loopsAmong ps :=
  List.filter_cons_of_pos h

theorem loopsAmong_cons_of_none {s : Scope} {n : Node} (h : n.loopShape? = none)
    (ps : List Placed) : loopsAmong (⟨s, n⟩ :: ps) = loopsAmong ps :=
  List.filter_cons_of_neg (by simp [h])

/-- A loop of generated code, with the block around it. -/
structure LoopCode where
  exit : Label
  head : Label
  body : List Code

mutual

/-- The loops of a construct, each in front of those inside it. -/
def Code.loops : Code → List LoopCode
  | .block _ body => loopsAll body
  | .loop exit head body => ⟨exit, head, body⟩ :: loopsAll body
  | .ifThen _ yes no => loopsAll yes ++ loopsElse no
  | _ => []

def loopsAll : List Code → List LoopCode
  | [] => []
  | c :: rest => c.loops ++ loopsAll rest

def loopsElse : Option (List Code) → List LoopCode
  | none => []
  | some branch => loopsAll branch

end

theorem loopsAll_eq_flatMap (code : List Code) : loopsAll code = code.flatMap Code.loops := by
  induction code with
  | nil => rfl
  | cons c code ih => rw [loopsAll, ih, List.flatMap_cons]

@[simp] theorem loopsAll_append (xs ys : List Code) :
    loopsAll (xs ++ ys) = loopsAll xs ++ loopsAll ys := by
  simp only [loopsAll_eq_flatMap, List.flatMap_append]

theorem loopsAll_assignments {ns : List Node} {code : List Code}
    (h : ns.mapM Node.assignment = .ok code) : loopsAll code = [] := by
  rw [loopsAll_eq_flatMap]
  exact Node.flatMap_assignments (fun _ _ _ => rfl) h

theorem loopsAll_guard {condition : Option Node} {guard : List Code} {d : Nat}
    (h : condition.toList.mapM (Node.exitGuard d) = .ok guard) : loopsAll guard = [] := by
  rcases Node.guard_eq_ok_iff.mp h with ⟨-, rfl⟩ | ⟨c, ops, t, -, -, -, rfl⟩ <;> rfl

@[simp] theorem loopsAll_wrap (shape : Shape) (d : Nat) (inner : List Code) :
    loopsAll (shape.wrap d inner) = loopsAll inner := by
  cases shape with
  | plain => rfl
  | wrapped => simp [Shape.wrap, loopsAll, Code.loops]

/-! ## The loops of the source and of the code -/

/-- **What the rules make of a loop**, its initial assignments aside. -/
inductive LoopLowers : Placed → LoopCode → Prop where
  /-- A `while` loop is a `for` loop that has only a condition. -/
  | whileLoop {s : Scope} {p : Position} {c : Node} {body : List Node} {code : LoopCode} :
      LoopLowers ⟨s, .forLoop p [] (some c) [] body⟩ code →
      LoopLowers ⟨s, .whileLoop p c body⟩ code
  | forLoop {s : Scope} {p : Position} {init : List Node} {condition : Option Node}
      {increment body : List Node} {shape : Shape} {guard inner step : List Code} :
      shape = Shape.ofBody (!increment.isEmpty) body →
      condition.toList.mapM (Node.exitGuard s.depth) = .ok guard →
      Lowers (s.enter shape) body inner →
      increment.mapM Node.assignment = .ok step →
      LoopLowers ⟨s, .forLoop p init condition increment body⟩
        ⟨.exit s.depth, shape.headLabel s.depth,
          guard ++ shape.wrap s.depth inner ++ step ++ [.br (shape.headLabel s.depth) none]⟩
  | doLoop {s : Scope} {p : Position} {c : Node} {body : List Node} {shape : Shape} {test : Test}
      {inner : List Code} :
      shape = Shape.ofBody true body →
      Lowers (s.enter shape) body inner →
      c.truthTest = .ok test →
      LoopLowers ⟨s, .doLoop p body c⟩
        ⟨.exit s.depth, shape.headLabel s.depth,
          shape.wrap s.depth inner ++ [.brIf (shape.headLabel s.depth) test]⟩

/-- **The loops of the code are those of the source**, one for one and in order. -/
theorem Lowers.loops_forall₂ {s : Scope} {stmts : List Node} {code : List Code}
    (h : Lowers s stmts code) :
    List.Forall₂ LoopLowers (loopsAmong (placedAll s stmts)) (loopsAll code) := by
  induction h with
  | nil => exact .nil
  | declaration _ ih => exact ih
  | assignment _ _ ih => exact ih
  | returnValue _ _ _ ih => exact ih
  | returnVoid _ _ ih => exact ih
  | brk _ _ ih => exact ih
  | cont _ _ ih => exact ih
  | whileLoop _ ih =>
      -- the first loop of both lists is the one in question, the others are the same
      obtain ⟨loop, others, hloop, hothers, hcode⟩ := List.forall₂_cons_left_iff.mp ih
      rw [hcode]
      exact .cons (.whileLoop hloop) hothers
  | forLoop hshape hinit hguard hbody hstep _ ihbody ih =>
      subst hshape
      simp only [loopsAll_append, loopsAll_assignments hinit, loopsAll, Code.loops,
        loopsAll_guard hguard, loopsAll_wrap, loopsAll_assignments hstep, List.nil_append,
        List.append_nil]
      rw [placedAll, loopsAmong_append, Node.placed, loopsAmong_cons_of_loop rfl]
      exact List.rel_append (.cons (.forLoop rfl hguard hbody hstep) ihbody) ih
  | doLoop hshape hbody htest _ ihbody ih =>
      subst hshape
      simp only [loopsAll_append, loopsAll, Code.loops, loopsAll_wrap, List.append_nil]
      rw [placedAll, loopsAmong_append, Node.placed, loopsAmong_cons_of_loop rfl]
      exact List.rel_append (.cons (.doLoop rfl hbody htest) ihbody) ih
  | ifThen _ _ _ ihyes ih =>
      rw [placedAll, loopsAmong_append, Node.placed, loopsAmong_cons_of_none rfl,
        loopsAmong_append]
      exact List.rel_append (List.rel_append ihyes .nil) ih
  | ifElse _ _ _ _ ihyes ihno ih =>
      rw [placedAll, loopsAmong_append, Node.placed, loopsAmong_cons_of_none rfl,
        loopsAmong_append]
      exact List.rel_append (List.rel_append ihyes ihno) ih

end WatLowering
