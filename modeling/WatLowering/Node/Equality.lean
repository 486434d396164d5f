import WatLowering.Node.Basic

/-!
# Equality of trees

Two trees are equal when they agree in every field of every node, positions included.  `Node.same`
decides that by comparing the two trees side by side, and `Node.same_iff` says that it decides
nothing but equality, which is all an instance of `DecidableEq` needs.
-/

namespace WatLowering

namespace Node

mutual

/-- Field by field comparison of two trees. -/
def same : Node → Node → Bool
  | .module p xs, .module q ys => p == q && sameAll xs ys
  | .global p m x k i, .global q n y l j => p == q && m == n && x == y && k == l && i.same j
  | .exportFunc p x e, .exportFunc q y f => p == q && x == y && e == f
  | .function p x r ps b, .function q y s qs c =>
      p == q && x == y && r == s && ps.same qs && sameAll b c
  | .paramList p xs, .paramList q ys => p == q && sameAll xs ys
  | .localVar p x k, .localVar q y l => p == q && x == y && k == l
  | .get p s x k, .get q t y l => p == q && s == t && x == y && k == l
  | .set p s x v, .set q t y w => p == q && s == t && x == y && v.same w
  | .number p k a, .number q l b => p == q && k == l && a == b
  | .expression p k xs, .expression q l ys => p == q && k == l && sameAll xs ys
  | .operator p k a, .operator q l b => p == q && k == l && a == b
  | .cast p s t, .cast q u v => p == q && s == u && t == v
  | .ret p v, .ret q w => p == q && sameValue v w
  | .brk p n, .brk q m => p == q && n == m
  | .cont p n, .cont q m => p == q && n == m
  | .forLoop p i c s b, .forLoop q j d t e =>
      p == q && sameAll i j && sameValue c d && sameAll s t && sameAll b e
  | .doLoop p b c, .doLoop q e d => p == q && sameAll b e && c.same d
  | .whileLoop p c b, .whileLoop q d e => p == q && c.same d && sameAll b e
  | .ifElse p c t e, .ifElse q d u f => p == q && c.same d && sameAll t u && sameBranch e f
  | _, _ => false

/-- Comparison of two lists of trees. -/
def sameAll : List Node → List Node → Bool
  | [], [] => true
  | x :: xs, y :: ys => x.same y && sameAll xs ys
  | _, _ => false

/-- Comparison of two trees either of which may be missing. -/
def sameValue : Option Node → Option Node → Bool
  | none, none => true
  | some x, some y => x.same y
  | _, _ => false

/-- Comparison of two branches either of which may be missing. -/
def sameBranch : Option (List Node) → Option (List Node) → Bool
  | none, none => true
  | some xs, some ys => sameAll xs ys
  | _, _ => false

end

mutual

/-- **The comparison decides equality.** -/
theorem same_iff : ∀ m n : Node, m.same n = true ↔ m = n
  | .module _ xs, n => by cases n <;> simp [same, sameAll_iff xs]
  | .global _ _ _ _ i, n => by cases n <;> simp [same, same_iff i, and_assoc]
  | .exportFunc _ _ _, n => by cases n <;> simp [same, and_assoc]
  | .function _ _ _ ps b, n => by cases n <;> simp [same, same_iff ps, sameAll_iff b, and_assoc]
  | .paramList _ xs, n => by cases n <;> simp [same, sameAll_iff xs]
  | .localVar _ _ _, n => by cases n <;> simp [same, and_assoc]
  | .get _ _ _ _, n => by cases n <;> simp [same, and_assoc]
  | .set _ _ _ v, n => by cases n <;> simp [same, same_iff v, and_assoc]
  | .number _ _ _, n => by cases n <;> simp [same, and_assoc]
  | .expression _ _ xs, n => by cases n <;> simp [same, sameAll_iff xs, and_assoc]
  | .operator _ _ _, n => by cases n <;> simp [same, and_assoc]
  | .cast _ _ _, n => by cases n <;> simp [same, and_assoc]
  | .ret _ v, n => by cases n <;> simp [same, sameValue_iff v]
  | .brk _ _, n => by cases n <;> simp [same]
  | .cont _ _, n => by cases n <;> simp [same]
  | .forLoop _ i c s b, n => by
      cases n <;>
        simp [same, sameAll_iff i, sameValue_iff c, sameAll_iff s, sameAll_iff b, and_assoc]
  | .doLoop _ b c, n => by cases n <;> simp [same, sameAll_iff b, same_iff c, and_assoc]
  | .whileLoop _ c b, n => by cases n <;> simp [same, same_iff c, sameAll_iff b, and_assoc]
  | .ifElse _ c t e, n => by
      cases n <;> simp [same, same_iff c, sameAll_iff t, sameBranch_iff e, and_assoc]

theorem sameAll_iff : ∀ xs ys : List Node, sameAll xs ys = true ↔ xs = ys
  | [], ys => by cases ys <;> simp [sameAll]
  | x :: xs, ys => by cases ys <;> simp [sameAll, x.same_iff, sameAll_iff xs]

theorem sameValue_iff : ∀ v w : Option Node, sameValue v w = true ↔ v = w
  | none, w => by cases w <;> simp [sameValue]
  | some x, w => by cases w <;> simp [sameValue, x.same_iff]

theorem sameBranch_iff : ∀ v w : Option (List Node), sameBranch v w = true ↔ v = w
  | none, w => by cases w <;> simp [sameBranch]
  | some xs, w => by cases w <;> simp [sameBranch, sameAll_iff xs]

end

instance : DecidableEq Node := fun m n => decidable_of_iff _ (m.same_iff n)

end Node

end WatLowering
