import WatLowering.Node.Basic

/-!
# Walking a tree

`Node.children` lists what stands directly below a node, in the order in which a reader of the
source meets it; `Node.outline` is the walk in pre-order that follows from it, with each node
paired with its depth.  The walk ends because a child is smaller than its parent
(`sizeOf_lt_of_mem_children`).  `Node.nodes` forgets the depths: it lists what stands anywhere in
the tree.
-/

namespace WatLowering

namespace Node

/-- The nodes directly below a node.  A `for` is read header first: initial assignments, condition,
increments, and then the body. -/
def children : Node → List Node
  | .module _ items => items
  | .global _ _ _ _ init => [init]
  | .function _ _ _ params body => params :: body
  | .paramList _ items => items
  | .set _ _ _ value => [value]
  | .expression _ _ terms => terms
  | .ret _ value => value.toList
  | .forLoop _ init condition increment body => init ++ condition.toList ++ increment ++ body
  | .doLoop _ body condition => body ++ [condition]
  | .whileLoop _ condition body => condition :: body
  | .ifElse _ condition thenBranch elseBranch => condition :: thenBranch ++ elseBranch.getD []
  | _ => []

/-- A child is smaller than its parent, so walks that go from a node to its children end. -/
theorem sizeOf_lt_of_mem_children {child parent : Node} (h : child ∈ parent.children) :
    sizeOf child < sizeOf parent := by
  cases parent <;> simp only [children, List.mem_cons, List.mem_append, List.not_mem_nil,
    or_false, Option.mem_toList] at h
  case module p items =>
    have := List.sizeOf_lt_of_mem h
    simp only [module.sizeOf_spec]; omega
  case global => subst h; simp only [global.sizeOf_spec]; omega
  case function =>
    rcases h with rfl | h
    · simp only [function.sizeOf_spec]; omega
    · have := List.sizeOf_lt_of_mem h
      simp only [function.sizeOf_spec]; omega
  case paramList =>
    have := List.sizeOf_lt_of_mem h
    simp only [paramList.sizeOf_spec]; omega
  case set => subst h; simp only [set.sizeOf_spec]; omega
  case expression =>
    have := List.sizeOf_lt_of_mem h
    simp only [expression.sizeOf_spec]; omega
  case ret =>
    subst h
    simp only [ret.sizeOf_spec, Option.some.sizeOf_spec]; omega
  case forLoop =>
    simp only [forLoop.sizeOf_spec]
    rcases h with ((h | h) | h) | h
    · have := List.sizeOf_lt_of_mem h; omega
    · subst h; simp only [Option.some.sizeOf_spec]; omega
    · have := List.sizeOf_lt_of_mem h; omega
    · have := List.sizeOf_lt_of_mem h; omega
  case doLoop =>
    simp only [doLoop.sizeOf_spec]
    rcases h with h | rfl
    · have := List.sizeOf_lt_of_mem h; omega
    · omega
  case whileLoop =>
    simp only [whileLoop.sizeOf_spec]
    rcases h with rfl | h
    · omega
    · have := List.sizeOf_lt_of_mem h; omega
  case ifElse p c yes no =>
    simp only [ifElse.sizeOf_spec]
    rcases h with (rfl | h) | h
    · omega
    · have := List.sizeOf_lt_of_mem h; omega
    · cases no with
      | none => simp at h
      | some branch =>
          have := List.sizeOf_lt_of_mem (show child ∈ branch from h)
          simp only [Option.some.sizeOf_spec]; omega

/-- **Induction over trees**: what a node has as soon as its children have it, every node has. -/
@[elab_as_elim]
theorem childInduction {motive : Node → Prop}
    (node : ∀ n : Node, (∀ c ∈ n.children, motive c) → motive n) (n : Node) : motive n :=
  node n fun c _ => childInduction node c
termination_by sizeOf n
decreasing_by exact sizeOf_lt_of_mem_children ‹_›

/-- The tree in pre-order: each node with its depth, counted from `depth` at the root. -/
def outline (depth : Nat) (n : Node) : List (Nat × Node) :=
  (depth, n) :: n.children.attach.flatMap fun c => outline (depth + 1) c.1
termination_by sizeOf n
decreasing_by exact sizeOf_lt_of_mem_children c.2

/-- **Pre-order**: a node stands before everything below it, and its children's outlines follow one
another in order. -/
theorem outline_eq (depth : Nat) (n : Node) :
    n.outline depth = (depth, n) :: n.children.flatMap fun c => c.outline (depth + 1) := by
  rw [outline]
  simp [List.flatMap_subtype]

/-- The nodes of the tree in pre-order. -/
def nodes (n : Node) : List Node := (n.outline 0).map Prod.snd

/-- Depths do not influence which nodes an outline lists. -/
theorem map_snd_outline (depth : Nat) (n : Node) : (n.outline depth).map Prod.snd = n.nodes := by
  have hchildren : ∀ c ∈ n.children,
      (c.outline (depth + 1)).map Prod.snd = (c.outline 1).map Prod.snd := by
    intro c hc
    rw [map_snd_outline (depth + 1) c, map_snd_outline 1 c]
  rw [nodes, outline_eq, outline_eq 0, List.map_cons, List.map_cons, List.map_flatMap,
    List.map_flatMap, List.flatMap_def, List.flatMap_def, List.map_congr_left hchildren]
termination_by sizeOf n
decreasing_by all_goals exact sizeOf_lt_of_mem_children hc

/-- **The nodes of a tree** are its root and the nodes below each of its children. -/
theorem nodes_eq (n : Node) : n.nodes = n :: n.children.flatMap nodes := by
  rw [nodes, outline_eq, List.map_cons, List.map_flatMap]
  simp only [map_snd_outline]

theorem mem_nodes_self (n : Node) : n ∈ n.nodes := by
  rw [nodes_eq]
  exact List.mem_cons_self

theorem mem_nodes_of_child {n child parent : Node} (hchild : child ∈ parent.children)
    (hn : n ∈ child.nodes) : n ∈ parent.nodes := by
  rw [nodes_eq]
  exact List.mem_cons_of_mem _ (List.mem_flatMap.mpr ⟨child, hchild, hn⟩)

/-- What holds of all nodes of a tree holds of its root and of all nodes below each of its
children. -/
theorem forall_mem_nodes_iff {P : Node → Prop} {n : Node} :
    (∀ m ∈ n.nodes, P m) ↔ P n ∧ ∀ c ∈ n.children, ∀ m ∈ c.nodes, P m := by
  rw [nodes_eq, List.forall_mem_cons]
  simp only [List.mem_flatMap]
  constructor
  · rintro ⟨hn, h⟩
    exact ⟨hn, fun c hc m hm => h m ⟨c, hc, hm⟩⟩
  · rintro ⟨hn, h⟩
    refine ⟨hn, ?_⟩
    rintro m ⟨c, hc, hm⟩
    exact h c hc m hm

end Node

end WatLowering
