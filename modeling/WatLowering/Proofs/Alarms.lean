import WatLowering.Proofs.Grammar
import WatLowering.Proofs.ReturnFaults

/-!
# Branches that no run comes to

Three things are taken for granted while statements are lowered: that a condition which could be
computed leaves a number, that the type of this number has a name, and that the result of the
function was checked before any `return` is come to.  A careful generator has a branch for the case
that one of them fails.  `Node.lower` has no such branch for the second and the third, since the
types of `Test` and `Scope` leave no room for it.  For the first it has one: `truthTest` and
`exitGuard` blame a condition whose kind has no values, but their fault looks like that of a term.
So that the branches are never entered cannot be said about `Node.lower` as it stands.  This file
puts them back.

* `Watched` — a run that can also end in an `Alarm`.  There is one alarm for each of the three.
* `watchedGenerate` — the generator with an alarm in each of these branches.  It keeps the result of
  a function as the source says it, unchecked, and asks for types where it needs them.
* **`watchedGenerate_eq`** — whatever the program, it does just what `generate` does, and no alarm
  is raised.
* **`no_alarm_is_raised`** — the same, with the reason: the kind of an expression that can be
  computed is always that of a value.  And since results are checked in time, what is reported about
  a `return` is true of its function (`Proofs/ReturnFaults`).
-/

namespace WatLowering

/-! ## Alarms -/

/-- What is taken for granted, and turns out not to be so. -/
inductive Alarm where
  /-- A condition was computed, and its value is neither an integer nor a floating point number. -/
  | notANumber (kind : NumericKind) (condition : Node)
  /-- A kind that no value has was asked for its type. -/
  | noType (kind : NumericKind)
  /-- A `return` was come to in a function with a result that is neither a value nor `void`. -/
  | noResult (kind : NumericKind) (stmt : Node)

/-- A run that can also end in an alarm. -/
abbrev Watched := ExceptT Alarm Traced

namespace Watched

variable {α β : Type}

/-- The run `x`, in which no alarm is raised. -/
def unalarmed (x : Traced α) : Watched α := ExceptT.lift x

/-- Ends the run. -/
def raise (a : Alarm) : Watched α := throw a

/-- Goes on with the outcome of a check. -/
def check (x : Except Fault α) : Watched α := unalarmed (Traced.silently x)

/-- Sends a message. -/
def report (e : Event) : Watched Unit := unalarmed (Traced.report e)

/-- An alarm would be seen: it is no outcome of a run that raises none. -/
theorem result_run_unalarmed_ne (x : Traced α) (a : Alarm) :
    (unalarmed x).run.result ≠ .ok (.error a) := by
  have hrun : (unalarmed x).run = Except.ok <$> x := ExceptT.run_lift x
  rw [hrun, Traced.result_map]
  intro h
  obtain ⟨b, -, hb⟩ := map_eq_ok_iff.mp h
  cases hb

/-! Steps without alarms are put together to steps without alarms. -/

@[simp] theorem unalarmed_pure (a : α) : unalarmed (pure a) = pure a :=
  LawfulMonadLift.monadLift_pure (m := Traced) (n := Watched) a

@[simp] theorem unalarmed_bind (x : Traced α) (f : α → Traced β) :
    unalarmed (x >>= f) = unalarmed x >>= fun a => unalarmed (f a) :=
  LawfulMonadLift.monadLift_bind (m := Traced) (n := Watched) x f

@[simp] theorem unalarmed_map (f : α → β) (x : Traced α) :
    unalarmed (f <$> x) = f <$> unalarmed x :=
  monadLift_map (m := Traced) (n := Watched) f x

theorem unalarmed_mapM (f : α → Traced β) (as : List α) :
    unalarmed (as.mapM f) = as.mapM fun a => unalarmed (f a) := by
  induction as with
  | nil => simp
  | cons a as ih => simp [ih]

theorem mapM_check (f : α → Except Fault β) (as : List α) :
    as.mapM (fun a => check (f a)) = check (as.mapM f) := by
  rw [check, ← Traced.mapM_silently, unalarmed_mapM]
  rfl

/-- What comes after a check has to be compared only for what the check lets pass. -/
theorem check_bind_congr {x : Except Fault α} {f g : α → Watched β}
    (h : ∀ a, x = .ok a → f a = g a) : check x >>= f = check x >>= g := by
  cases x with
  | error fault => rfl
  | ok a => exact h a rfl

end Watched

open Watched (unalarmed raise check report)

/-! ## The generator with its alarms -/

namespace NumericKind

/-- The type of a kind, for those who know that it has one. -/
def watchedType (k : NumericKind) : Watched ValueType :=
  match k.valueType? with
  | some t => pure t
  | none => raise (.noType k)

/-- The type of a condition, for those who know that it is not an integer. -/
def watchedFloat (k : NumericKind) (condition : Node) : Watched ValueType :=
  if k.isFloat then k.watchedType else raise (.notANumber k condition)

/-- The code of the `return` statement `stmt` in a function that says its result is `k`. -/
def watchedReturn (k : NumericKind) (value : Option Node) (stmt : Node) : Watched Code :=
  match k, value with
  | .value _, some v => do
      let operands ← check v.operands
      return .br .ret (some operands)
  | .void, none => return .br .ret none
  | .void, some _ => check (.error ⟨.unexpectedValue, stmt⟩)
  | .value t, none => check (.error ⟨.missingValue t, stmt⟩)
  | .notApplicable, _ => raise (.noResult k stmt)

end NumericKind

namespace Node

/-- Leaves the loop at `depth` when the condition is false. -/
def watchedGuard (depth : Nat) (condition : Node) : Watched Code := do
  let operands ← check condition.operands
  let kind := condition.resultKind
  if kind.isInteger then
    let t ← kind.watchedType
    return .brIf (.exit depth) (.isZero t operands)
  else
    let t ← kind.watchedFloat condition
    return .brIf (.exit depth) (.againstZero .eq t operands)

/-- The test that succeeds when the condition is true. -/
def watchedTest (condition : Node) : Watched Test := do
  let operands ← check condition.operands
  let kind := condition.resultKind
  if kind = .value .i32 then
    return .value operands
  else if kind = .value .i64 then
    return .againstZero .ne .i64 operands
  else
    let t ← kind.watchedFloat condition
    return .againstZero .ne t operands

end Node

mutual

/-- The code of a statement in a function that says its result is `kind`.  The scope is there for
its loops and its depth; what it knows about the result is not used. -/
def Node.watchedLower (kind : NumericKind) (s : Scope) : Node → Watched (List Code)
  | n@(.ret _ value) => do
      let code ← kind.watchedReturn value n
      return [code]
  | .whileLoop pos condition body => do
      let exit := Label.exit s.depth
      let head := Label.next s.depth
      report (.whileLoop pos s.depth)
      let guard ← condition.watchedGuard s.depth
      let inner ← watchedLowerAll kind (s.enter .plain) body
      return [.loop exit head (guard :: inner ++ [.br head none])]
  | .doLoop pos body condition => do
      let shape := Shape.ofBody true body
      let exit := Label.exit s.depth
      let head := shape.headLabel s.depth
      report (.doLoop pos s.depth shape)
      let inner ← watchedLowerAll kind (s.enter shape) body
      let test ← condition.watchedTest
      return [.loop exit head (shape.wrap s.depth inner ++ [.brIf head test])]
  | .forLoop pos init condition increment body => do
      let shape := Shape.ofBody (!increment.isEmpty) body
      let exit := Label.exit s.depth
      let head := shape.headLabel s.depth
      let first ← check (init.mapM Node.assignment)
      report (.forLoop pos s.depth shape)
      let guard ← condition.toList.mapM (Node.watchedGuard s.depth)
      let inner ← watchedLowerAll kind (s.enter shape) body
      let step ← check (increment.mapM Node.assignment)
      return first ++
        [.loop exit head (guard ++ shape.wrap s.depth inner ++ step ++ [.br head none])]
  | .ifElse _ condition thenBranch elseBranch => do
      let test ← condition.watchedTest
      let yes ← watchedLowerAll kind s.deeper thenBranch
      let no ← watchedLowerBranch kind s.deeper elseBranch
      return [.ifThen test yes no]
  -- nothing is taken for granted about the others
  | n => unalarmed (n.lower s)

/-- The code of several statements, one after the other. -/
def watchedLowerAll (kind : NumericKind) (s : Scope) : List Node → Watched (List Code)
  | [] => return []
  | stmt :: rest => do
      let first ← stmt.watchedLower kind s
      let others ← watchedLowerAll kind s rest
      return first ++ others

/-- The code of an `else` branch, if there is one. -/
def watchedLowerBranch (kind : NumericKind) (s : Scope) :
    Option (List Node) → Watched (Option (List Code))
  | none => return none
  | some branch => do
      let code ← watchedLowerAll kind s branch
      return some code

end

/-- The code of a module item.  The statements of a function are lowered with the result that the
function states. -/
def Node.watchedItem (n : Node) : Watched Item :=
  match n with
  | .function _ name result params body => do
      report (.functionStarted name)
      let params ← check (params.parameters name)
      let checked ← check (result.resultTypeAt n)
      let locals ← check ((body.takeWhile Node.isDeclaration).mapM Node.declaration)
      let code ← watchedLowerAll result (.ofFunction checked) (body.dropWhile Node.isDeclaration)
      return .func ⟨name, params, checked, locals, code⟩
  | _ => unalarmed n.lowerItem

/-- The code of a program. -/
def Node.watchedModule : Node → Watched Module
  | .module _ items => do
      report (.moduleStarted items.length)
      let lowered ← items.mapM Node.watchedItem
      return ⟨lowered⟩
  | n => unalarmed n.lowerModule

/-- **The generator with an alarm in each branch that should not be entered.** -/
def watchedGenerate (o : Options) (program : Node) : Watched String :=
  Module.render o <$> program.watchedModule

/-! ## No alarm is raised -/

/-! A condition that cannot be computed is refused before its kind is asked for; the value of any
other has one of the four types, and each of these has a branch of its own. -/

theorem watchedGuard_eq (depth : Nat) (c : Node) :
    c.watchedGuard depth = check (c.exitGuard depth) := by
  cases hops : c.operands with
  | error fault =>
      rw [Node.watchedGuard, Node.exitGuard, hops]
      rfl
  | ok ops =>
      obtain ⟨t, ht⟩ := exists_resultKind_of_operands hops
      rw [Node.watchedGuard, Node.exitGuard, hops, ht]
      cases t <;> rfl

theorem watchedTest_eq (c : Node) : c.watchedTest = check c.truthTest := by
  cases hops : c.operands with
  | error fault =>
      rw [Node.watchedTest, Node.truthTest, hops]
      rfl
  | ok ops =>
      obtain ⟨t, ht⟩ := exists_resultKind_of_operands hops
      rw [Node.watchedTest, Node.truthTest, hops, ht]
      cases t <;> rfl

/-- In a function whose result has been checked, a `return` is no surprise. -/
theorem NumericKind.Yields.watchedReturn_eq {k : NumericKind} {s : Scope} (h : k.Yields s.result)
    (value : Option Node) (stmt : Node) :
    k.watchedReturn value stmt = check (s.returnJump value stmt) := by
  obtain ⟨rfl, hs⟩ | ⟨t, rfl, hs⟩ := h.cases_result
  · cases value <;> simp only [Scope.returnJump, hs] <;> rfl
  · cases value with
    | none =>
        simp only [Scope.returnJump, hs]
        rfl
    | some v =>
        simp only [watchedReturn, Scope.returnJump, hs]
        cases v.operands <;> rfl

mutual

/-- **A statement raises no alarm** in a function whose result has been checked. -/
theorem watchedLower_eq {kind : NumericKind} : ∀ (n : Node) (s : Scope), kind.Yields s.result →
    n.watchedLower kind s = unalarmed (n.lower s)
  | .ret p value, s, h => by
      simp [Node.watchedLower, Node.lower, h.watchedReturn_eq, check]
  | .whileLoop pos condition body, s, h => by
      have hbody := watchedLowerAll_eq body (s.enter .plain) h
      simp [Node.watchedLower, Node.lower, watchedGuard_eq, hbody, check, report]
  | .doLoop pos body condition, s, h => by
      have hbody := watchedLowerAll_eq body (s.enter (.ofBody true body)) h
      simp [Node.watchedLower, Node.lower, watchedTest_eq, hbody, check, report]
  | .forLoop pos init condition increment body, s, h => by
      have hguard : condition.toList.mapM (Node.watchedGuard s.depth)
          = check (condition.toList.mapM (Node.exitGuard s.depth)) := by
        rw [funext (watchedGuard_eq s.depth), Watched.mapM_check]
      have hbody := watchedLowerAll_eq body (s.enter (.ofBody (!increment.isEmpty) body)) h
      simp [Node.watchedLower, Node.lower, hguard, hbody, check, report]
  | .ifElse p condition yes no, s, h => by
      have hyes := watchedLowerAll_eq yes s.deeper h
      have hno := watchedLowerBranch_eq no s.deeper h
      simp [Node.watchedLower, Node.lower, watchedTest_eq, hyes, hno, check]
  | .localVar _ _ _, _, _ | .set _ _ _ _, _, _ | .brk _ _, _, _ | .cont _ _, _, _
  | .module _ _, _, _ | .global _ _ _ _ _, _, _ | .exportFunc _ _ _, _, _
  | .function _ _ _ _ _, _, _ | .paramList _ _, _, _ | .get _ _ _ _, _, _ | .number _ _ _, _, _
  | .expression _ _ _, _, _ | .operator _ _ _, _, _ | .cast _ _ _, _, _ => rfl

theorem watchedLowerAll_eq {kind : NumericKind} : ∀ (stmts : List Node) (s : Scope),
    kind.Yields s.result → watchedLowerAll kind s stmts = unalarmed (lowerAll s stmts)
  | [], s, _ => by simp [watchedLowerAll, lowerAll]
  | stmt :: rest, s, h => by
      simp [watchedLowerAll, lowerAll, watchedLower_eq stmt s h, watchedLowerAll_eq rest s h]

theorem watchedLowerBranch_eq {kind : NumericKind} : ∀ (branch : Option (List Node)) (s : Scope),
    kind.Yields s.result → watchedLowerBranch kind s branch = unalarmed (lowerBranch s branch)
  | none, s, _ => by simp [watchedLowerBranch, lowerBranch]
  | some branch, s, h => by
      simp [watchedLowerBranch, lowerBranch, watchedLowerAll_eq branch s h]

end

-- without the check of the header an alarm would be raised, here in a loop
example (s : Scope) (c v : Node) :
    (Node.watchedLower .notApplicable s (.doLoop .unplaced [.ret .unplaced v] c)).run.result
      = .ok (.error (.noResult .notApplicable (.ret .unplaced v))) :=
  rfl

theorem Node.watchedItem_eq (n : Node) : n.watchedItem = unalarmed n.lowerItem := by
  cases n with
  | function p name result params body =>
      simp only [watchedItem, lowerItem, Watched.unalarmed_bind, Watched.unalarmed_pure]
      refine bind_congr fun _ => bind_congr fun ps => ?_
      -- the statements are looked at only if the result passes the check
      refine Watched.check_bind_congr fun r hr => bind_congr fun locals => ?_
      rw [watchedLowerAll_eq _ (.ofFunction r) (NumericKind.resultTypeAt_eq_ok_iff.mp hr)]
  | _ => rfl

/-- **The watched generator does what `generate` does, and raises no alarm.** -/
theorem watchedGenerate_eq (o : Options) (program : Node) :
    watchedGenerate o program = unalarmed (generate o program) := by
  have hmodule : program.watchedModule = unalarmed program.lowerModule := by
    cases program with
    | module p items =>
        simp [Node.watchedModule, Node.lowerModule, funext Node.watchedItem_eq,
          Watched.unalarmed_mapM, report]
    | _ => rfl
  rw [watchedGenerate, generate, hmodule, Watched.unalarmed_map]

/-! ## What is taken for granted -/

/-- **What is taken for granted is so.**  An expression that can be computed has the kind of one of
the four value types.  Hence no run of the generator, successful or not, enters one of the branches
that are there for other kinds: with an alarm in each of them it does what it does without, and none
is raised.  And a program that is refused over a `return` has that `return` in a function to which
it does not fit: one without a result where a value is said to be too much, and one with a result of
the type that is said to be missing. -/
theorem no_alarm_is_raised (o : Options) (program : Node) :
    (∀ (n : Node) (ops : List Instr), n.operands = .ok ops → ∃ t, n.resultKind = .value t) ∧
    (watchedGenerate o program = unalarmed (generate o program) ∧
      ∀ alarm, (watchedGenerate o program).run.result ≠ .ok (.error alarm)) ∧
    ∀ f, (generate o program).result = .error f →
      (f.violation = .unexpectedValue →
        f.FoundIn program .void ∧ ∃ p v, f.node = .ret p (some v)) ∧
      ∀ t, f.violation = .missingValue t →
        f.FoundIn program (.value t) ∧ ∃ p, f.node = .ret p none := by
  have hwatched := watchedGenerate_eq o program
  refine ⟨fun n ops h => exists_resultKind_of_operands h, ⟨hwatched, fun alarm => ?_⟩, ?_⟩
  · rw [hwatched]
    exact Watched.result_run_unalarmed_ne _ alarm
  rintro ⟨violation, node⟩ h
  constructor
  · rintro rfl
    obtain ⟨k, hfound, hmismatch⟩ := foundIn_of_generate h rfl
    cases hmismatch with
    | unexpected => exact ⟨hfound, _, _, rfl⟩
  · rintro t rfl
    obtain ⟨k, hfound, hmismatch⟩ := foundIn_of_generate h rfl
    cases hmismatch with
    | missing => exact ⟨hfound, _, rfl⟩

/-- A floating point variable, in an expression that says it has no value. -/
def voidCondition : Node :=
  .expression .unplaced .void [.get .unplaced .local "x" (.value .f32)]

/-- The first function is in order; in the second, one of two `return`s has no value. -/
def forgottenValue : Node :=
  .module .unplaced
    [.function .unplaced "scan" .void
        (.paramList .unplaced [.localVar .unplaced "x" (.value .f32)])
        [.whileLoop .unplaced voidCondition [.ret .unplaced none]],
      .function .unplaced "find" (.value .f64)
        (.paramList .unplaced [.localVar .unplaced "n" (.value .i64)])
        [.doLoop .unplaced
            [.ifElse .unplaced (.get .unplaced .local "n" (.value .i64)) [.ret ⟨7, 9⟩ none] none]
            (.get .unplaced .local "n" (.value .i64)),
          .ret .unplaced (some (.number .unplaced (.value .f64) "0"))]]

/-- **The missing value is one of the function it is missing from**, and the odd annotation of the
condition raises no alarm. -/
theorem forgottenValue_told_truly :
    voidCondition.operands = .ok [.get .local "x"] ∧ (∃ t, voidCondition.resultKind = .value t) ∧
    (∀ alarm, (watchedGenerate .standard forgottenValue).run.result ≠ .ok (.error alarm)) ∧
    (generate .standard forgottenValue).result
      = .error ⟨.missingValue .f64, .ret ⟨7, 9⟩ none⟩ ∧
    Fault.FoundIn ⟨.missingValue .f64, .ret ⟨7, 9⟩ none⟩ forgottenValue (.value .f64) := by
  have hops : voidCondition.operands = .ok [.get .local "x"] := rfl
  have hresult : (generate .standard forgottenValue).result
      = .error ⟨.missingValue .f64, .ret ⟨7, 9⟩ none⟩ := rfl
  obtain ⟨hkind, ⟨-, hsilent⟩, htrue⟩ := no_alarm_is_raised .standard forgottenValue
  exact ⟨hops, hkind _ _ hops, hsilent, hresult, ((htrue _ hresult).2 .f64 rfl).1⟩

end WatLowering
