import WatLowering.Proofs.Independence
import WatLowering.Proofs.StatementOrder

/-!
# Faults over a `return`

Two of the rules compare a `return` with the function around it: a function without a result returns
nothing, and one with a result returns a value.  The function is not at hand when they are applied.
All that has come down to the `return`, through any number of loops and branches, is the result that
its scope knows.  This file shows that what is reported is nevertheless true of the function.

* `NumericKind.Yields` — the result that a scope knows is the one that the function states.  The
  check of the header establishes it, and going inwards keeps it.
* `Truthful` — if a step fails over a `return`, then this `return` is among its statements, and it
  does not fit the function.  There is one rule for each way of putting steps together.
* `truthful_lower` — a statement, by induction over the tree.
* **`foundIn_of_generate`** — a program.  The function is the first item that is not accepted.
-/

namespace WatLowering

/-! ## Checked results -/

/-- A function that states `k` has passed the check of its header, and its result is `r`. -/
def NumericKind.Yields (k : NumericKind) (r : Option ValueType) : Prop :=
  k.valueType? = r ∧ k ≠ .notApplicable

/-- There are two sorts of checked functions. -/
theorem NumericKind.Yields.cases_result {k : NumericKind} {r : Option ValueType}
    (h : k.Yields r) :
    (k = .void ∧ r = none) ∨ ∃ t, k = .value t ∧ r = some t := by
  obtain ⟨rfl, hne⟩ := h
  cases k with
  | value t => exact .inr ⟨t, rfl, rfl⟩
  | void => exact .inl ⟨rfl, rfl⟩
  | notApplicable => exact absurd rfl hne

/-! ## Steps that fail over a `return` -/

/-- Does the rule compare a `return` with its function? -/
def Violation.concernsReturn : Violation → Bool
  | .unexpectedValue | .missingValue _ => true
  | _ => false

/-- The `return` does not fit a function with this result, in the way that the violation says. -/
inductive Mismatch : Violation → NumericKind → Node → Prop where
  | unexpected {p : Position} {v : Node} : Mismatch .unexpectedValue .void (.ret p (some v))
  | missing {p : Position} {t : ValueType} : Mismatch (.missingValue t) (.value t) (.ret p none)

/-- If the step fails over a `return`, then this is one of the statements, and it does not fit a
function with the result `k`. -/
def Truthful {α : Type} (k : NumericKind) (ps : List Placed) (x : Except Fault α) : Prop :=
  ∀ f, x = .error f → f.violation.concernsReturn = true →
    (∃ s, ⟨s, f.node⟩ ∈ ps) ∧ Mismatch f.violation k f.node

namespace Truthful

variable {α β : Type} {k : NumericKind} {ps qs : List Placed} {x : Except Fault α}

theorem ok (a : α) : Truthful k ps (.ok a) := by
  intro f hf
  cases hf

theorem error {f : Fault} (hf : f.violation.concernsReturn = false) :
    Truthful k ps (.error f : Except Fault α) := by
  rintro _ ⟨rfl⟩ hreturn
  simp [hf] at hreturn

theorem mono (h : Truthful k ps x) (hsub : ps ⊆ qs) : Truthful k qs x := by
  intro f hf hreturn
  obtain ⟨⟨s, hs⟩, hmismatch⟩ := h f hf hreturn
  exact ⟨⟨s, hsub hs⟩, hmismatch⟩

theorem bind {g : α → Except Fault β} (hx : Truthful k ps x)
    (hg : ∀ a, x = .ok a → Truthful k ps (g a)) : Truthful k ps (x >>= g) := by
  cases x with
  | ok a => exact hg a rfl
  | error fault =>
      rintro _ ⟨rfl⟩
      exact hx fault rfl

theorem bind_ok {g : α → β} (hx : Truthful k ps x) : Truthful k ps (x >>= fun a => .ok (g a)) :=
  hx.bind fun a _ => ok (g a)

theorem map {g : α → β} (hx : Truthful k ps x) : Truthful k ps (g <$> x) := by
  rw [map_eq_pure_bind]
  exact hx.bind_ok

theorem mapM {γ : Type} {f : γ → Except Fault β} {cs : List γ}
    (h : ∀ c ∈ cs, Truthful k ps (f c)) : Truthful k ps (cs.mapM f) := by
  induction cs with
  | nil => exact ok []
  | cons c cs ih =>
      rw [List.forall_mem_cons] at h
      rw [List.mapM_cons]
      exact h.1.bind fun b _ => (ih h.2).bind_ok

end Truthful

section Truthful

variable {k : NumericKind} {ps : List Placed}

/-! ## Statements

Nothing but a `return` is ever compared with the result of the function, so the faults of all other
steps are about something else. -/

theorem truthful_valueTypeAt (kind : NumericKind) (n : Node) :
    Truthful k ps (kind.valueTypeAt n) := by
  cases kind with
  | value t => exact .ok t
  | void => exact .error rfl
  | notApplicable => exact .error rfl

theorem truthful_leaf (n : Node) : Truthful k ps n.leaf := by
  cases n with
  | number p kind literal => exact (truthful_valueTypeAt kind _).bind_ok
  | get p storage name kind => exact (truthful_valueTypeAt kind _).bind_ok
  | operator p kind symbol =>
      refine (truthful_valueTypeAt kind _).bind fun t _ => ?_
      split
      · exact .ok _
      · exact .error rfl
  | cast p source target =>
      rw [Node.leaf]
      split
      · exact .ok _
      · exact .ok _
      · exact .error rfl
  | _ => exact .error rfl

theorem truthful_operands (n : Node) : Truthful k ps n.operands := by
  induction n using Node.childInduction with
  | node n ih =>
      cases n with
      | expression p kind terms =>
          rw [Node.operands, operandsAll_eq_mapM]
          split
          · exact .error rfl
          · exact (Truthful.mapM ih).map
      | _ => exact (truthful_leaf _).map

theorem truthful_truthTest (c : Node) : Truthful k ps c.truthTest :=
  (truthful_operands c).bind fun _ _ => (truthful_valueTypeAt _ c).bind_ok

theorem truthful_exitGuard (depth : Nat) (c : Node) : Truthful k ps (c.exitGuard depth) :=
  (truthful_operands c).bind fun _ _ => (truthful_valueTypeAt _ c).bind_ok

theorem truthful_assignment (n : Node) : Truthful k ps n.assignment := by
  cases n with
  | set p storage x v => exact (truthful_operands v).bind_ok
  | _ => exact .error rfl

theorem truthful_assignments (ns : List Node) : Truthful k ps (ns.mapM Node.assignment) :=
  .mapM fun n _ => truthful_assignment n

theorem truthful_target (s : Scope) (levels : Option Nat) (stmt : Node) :
    Truthful k ps (s.target levels stmt) := by
  rw [Scope.target]
  split
  · exact .ok _
  · refine .error ?_
    split <;> rfl

theorem truthful_declarations (ns : List Node) : Truthful k ps (ns.mapM Node.declaration) := by
  refine .mapM fun n _ => ?_
  cases n with
  | localVar p x kind => exact (truthful_valueTypeAt kind _).bind_ok
  | _ => exact .error rfl

theorem truthful_parameters (name : String) (n : Node) : Truthful k ps (n.parameters name) := by
  cases n with
  | paramList p items => exact truthful_declarations items
  | _ => exact .error rfl

theorem truthful_resultTypeAt (kind : NumericKind) (n : Node) :
    Truthful k ps (kind.resultTypeAt n) := by
  rw [NumericKind.resultTypeAt]
  split
  · exact .ok none
  · exact (truthful_valueTypeAt kind n).map

/-! A `return` is compared with what the function states. -/

theorem NumericKind.Yields.truthful_returnJump {s : Scope} (h : k.Yields s.result) (p : Position)
    (value : Option Node) :
    Truthful k [⟨s, .ret p value⟩] (s.returnJump value (.ret p value)) := by
  have hmem : ∃ s', (⟨s', .ret p value⟩ : Placed) ∈ [(⟨s, .ret p value⟩ : Placed)] :=
    ⟨s, List.mem_cons_self⟩
  obtain ⟨rfl, hs⟩ | ⟨t, rfl, hs⟩ := h.cases_result
  · cases value with
    | none =>
        simp only [Scope.returnJump, hs]
        exact .ok _
    | some v =>
        simp only [Scope.returnJump, hs]
        rintro _ ⟨rfl⟩ -
        exact ⟨hmem, .unexpected⟩
  · cases value with
    | none =>
        simp only [Scope.returnJump, hs]
        rintro _ ⟨rfl⟩ -
        exact ⟨hmem, .missing⟩
    | some v =>
        simp only [Scope.returnJump, hs]
        exact (truthful_operands v).bind_ok

theorem truthful_lowerAll {s : Scope} {stmts : List Node}
    (h : ∀ stmt ∈ stmts, Truthful k (stmt.placed s) (stmt.lower s).result) :
    Truthful k (placedAll s stmts) (lowerAll s stmts).result := by
  rw [placedAll_eq_flatMap, lowerAll_eq_mapM, Traced.result_map, Traced.result_mapM]
  refine (Truthful.mapM fun stmt hstmt => (h stmt hstmt).mono ?_).map
  exact fun p hp => List.mem_flatMap.mpr ⟨stmt, hstmt, hp⟩

/-- **A statement fails over a `return` only if one inside it does not fit the function.** -/
theorem truthful_lower (n : Node) :
    ∀ s : Scope, k.Yields s.result → Truthful k (n.placed s) (n.lower s).result := by
  induction n using Node.childInduction with
  | node n ih =>
      intro s hs
      -- statements that are children of `n`, in a scope of the same function
      have hlist : ∀ s' : Scope, s'.result = s.result → ∀ stmts : List Node,
          (∀ stmt ∈ stmts, stmt ∈ n.children) →
          Truthful k (placedAll s' stmts) (lowerAll s' stmts).result := by
        intro s' hs' stmts hsub
        exact truthful_lowerAll fun stmt hstmt => ih stmt (hsub stmt hstmt) s' (hs' ▸ hs)
      cases n with
      | localVar p x kind => exact .ok _
      | set p storage x v =>
          simp only [Node.lower, Traced.result_bind, Traced.result_silently, Traced.result_pure]
          exact (truthful_assignment _).bind_ok
      | ret p value =>
          simp only [Node.lower, Traced.result_bind, Traced.result_silently, Traced.result_pure]
          exact (hs.truthful_returnJump p value).bind_ok
      | brk p levels =>
          simp only [Node.lower, Traced.result_bind, Traced.result_silently, Traced.result_pure]
          exact (truthful_target s levels _).bind_ok
      | cont p levels =>
          simp only [Node.lower, Traced.result_bind, Traced.result_silently, Traced.result_pure]
          exact (truthful_target s levels _).bind_ok
      | whileLoop p c body =>
          have hbody := hlist (s.enter .plain) rfl body fun _ => List.mem_cons_of_mem c
          simp only [Node.lower, Node.placed, Traced.result_bind, Traced.result_report,
            Traced.result_silently, Traced.result_pure]
          refine (truthful_exitGuard s.depth c).bind fun _ _ => ?_
          exact (hbody.mono (List.subset_cons_self _ _)).bind_ok
      | doLoop p body c =>
          have hbody := hlist (s.enter (.ofBody true body)) rfl body
            (by simp +contextual [Node.children])
          simp only [Node.lower, Node.placed, Traced.result_bind, Traced.result_report,
            Traced.result_silently, Traced.result_pure]
          refine (hbody.mono (List.subset_cons_self _ _)).bind fun _ _ => ?_
          exact (truthful_truthTest c).bind_ok
      | forLoop p init c increment body =>
          have hbody := hlist (s.enter (.ofBody (!increment.isEmpty) body)) rfl body
            (by simp +contextual [Node.children])
          simp only [Node.lower, Node.placed, Traced.result_bind, Traced.result_report,
            Traced.result_silently, Traced.result_pure]
          refine (truthful_assignments init).bind fun _ _ => ?_
          refine (Truthful.mapM fun n _ => truthful_exitGuard s.depth n).bind fun _ _ => ?_
          refine (hbody.mono (List.subset_cons_self _ _)).bind fun _ _ => ?_
          exact (truthful_assignments increment).bind_ok
      | ifElse p c yes no =>
          have hyes := hlist s.deeper rfl yes (by simp +contextual [Node.children])
          have hno : Truthful k (placedElse s.deeper no) (lowerBranch s.deeper no).result := by
            cases no with
            | none => exact .ok _
            | some branch =>
                simp only [lowerBranch, Traced.result_bind, Traced.result_pure]
                exact (hlist s.deeper rfl branch (by simp +contextual [Node.children])).bind_ok
          simp only [Node.lower, Node.placed, Traced.result_bind, Traced.result_silently,
            Traced.result_pure]
          refine (truthful_truthTest c).bind fun _ _ => ?_
          refine (hyes.mono ?_).bind fun _ _ => (hno.mono ?_).bind_ok
          · simp
          · simp
      | _ => exact .error rfl

end Truthful

/-! ## Functions and programs -/

/-- The fault was found in a function of the program that states the result `k`, at one of its
statements; the items in front of this function are all accepted. -/
def Fault.FoundIn (f : Fault) (program : Node) (k : NumericKind) : Prop :=
  ∃ pos before p name params body after,
    program = .module pos (before ++ .function p name k params body :: after) ∧
    (∀ item ∈ before, ∃ code, item.lowerItem.result = .ok code) ∧
    (Node.function p name k params body).lowerItem.result = .error f ∧
    ∃ s, ⟨s, f.node⟩ ∈ placedAll (.ofFunction k.valueType?) (body.dropWhile Node.isDeclaration)

/-- An item that fails over a `return` is a function, and the `return` does not fit it. -/
theorem exists_function_of_lowerItem {n : Node} {f : Fault} (h : n.lowerItem.result = .error f)
    (hreturn : f.violation.concernsReturn = true) :
    ∃ p name k params body, n = .function p name k params body ∧
      (∃ s, ⟨s, f.node⟩ ∈ placedAll (.ofFunction k.valueType?)
        (body.dropWhile Node.isDeclaration)) ∧
      Mismatch f.violation k f.node := by
  cases n with
  | function p name k params body =>
      have hitem : Truthful k
          (placedAll (.ofFunction k.valueType?) (body.dropWhile Node.isDeclaration))
          (Node.function p name k params body).lowerItem.result := by
        simp only [Node.lowerItem, Traced.result_bind, Traced.result_report,
          Traced.result_silently, Traced.result_pure]
        refine (truthful_parameters name params).bind fun _ _ => ?_
        refine (truthful_resultTypeAt k _).bind fun r hr => ?_
        refine (truthful_declarations _).bind fun _ _ => ?_
        obtain ⟨rfl, hne⟩ := NumericKind.resultTypeAt_eq_ok_iff.mp hr
        exact (truthful_lowerAll fun stmt _ => truthful_lower stmt _ ⟨rfl, hne⟩).bind_ok
      exact ⟨p, name, k, params, body, rfl, hitem f h hreturn⟩
  | global p mutable name kind init =>
      have hitem : Truthful kind [] (Node.global p mutable name kind init).lowerItem.result := by
        refine (truthful_valueTypeAt kind _).bind fun t _ => ?_
        cases init with
        | number => exact .ok _
        | _ => exact .error rfl
      obtain ⟨⟨s, hs⟩, -⟩ := hitem f h hreturn
      cases hs
  | exportFunc p name exported => cases h
  | _ =>
      cases h
      cases hreturn

/-- **A program that fails over a `return`** fails in a function to which the `return` does not
fit. -/
theorem foundIn_of_generate {o : Options} {program : Node} {f : Fault}
    (h : (generate o program).result = .error f) (hreturn : f.violation.concernsReturn = true) :
    ∃ k, f.FoundIn program k ∧ Mismatch f.violation k f.node := by
  rw [generate, Traced.result_map, map_eq_error_iff] at h
  cases program with
  | module pos items =>
      have hitems : items.mapM (fun n => n.lowerItem.result) = .error f := by
        simp only [Node.lowerModule, Traced.result_bind, Traced.result_report] at h
        rw [← Traced.result_mapM, ← map_eq_error_iff (f := Module.mk), map_eq_pure_bind]
        exact h
      obtain ⟨before, n, after, rfl, hbefore, hn⟩ := mapM_eq_error_iff.mp hitems
      obtain ⟨p, name, k, params, body, rfl, hplaced, hmismatch⟩ :=
        exists_function_of_lowerItem hn hreturn
      exact ⟨k, ⟨pos, before, p, name, params, body, after, rfl, hbefore, hn, hplaced⟩, hmismatch⟩
  | _ =>
      cases h
      cases hreturn

end WatLowering
