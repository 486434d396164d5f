import WatLowering.Proofs.Validation

/-!
# Well-typed programs become valid code

Between statements the operand stack is empty, so all that validation carries from one statement to
the next is whether the code can be reached at all.  `Keeps` says that code is validated like this,
whatever came before it; it is what the induction over the rules of lowering proves.

* `Computes.validate_eq` — the instructions of an expression move types as its terms do.
* `validate_truthTest` and `validate_exit` — a test leaves an `i32`.  The type it compares at was
  read off the condition, and is the type of its value.
* `LabelsFit` — the labels around a statement: the return block gives the result on, and whatever
  bears the name of an enclosing loop gives nothing on.  Which loop that is does not matter here.
* `Lowers.keeps` — **the statements**, by induction over the rules.

A function with a result has to end in a `return`: its code then ends behind a jump, where the
result may be taken as given.
-/

namespace WatLowering

/-! ## Instructions -/

section Instructions

variable {env : Env} {ts ts' : List ValueType} {p : Bool}

@[simp] theorem OperandTypes.push_mk (t : ValueType) :
    (⟨ts, p⟩ : OperandTypes).push t = ⟨t :: ts, p⟩ := rfl

@[simp] theorem OperandTypes.pop_cons (t : ValueType) :
    (⟨t :: ts, p⟩ : OperandTypes).pop t = some ⟨ts, p⟩ := if_pos rfl

theorem validateInstrs_append (xs ys : List Instr) (σ : OperandTypes) :
    validateInstrs env (xs ++ ys) σ = (validateInstrs env xs σ).bind (validateInstrs env ys) := by
  induction xs generalizing σ with
  | nil => rfl
  | cons i xs ih =>
      rw [List.cons_append, validateInstrs, validateInstrs, Option.bind_assoc]
      congr 1
      funext σ'
      exact ih σ'

/-- What is selected for an operator exists, and leaves what the operator leaves. -/
theorem BinaryOp.select?_spec {op : BinaryOp} {t : ValueType} {i : NumericOp}
    (h : op.select? t = some i) :
    i.existsAt t = true ∧ i.resultType t = operatorType op.symbol t := by
  rw [operatorType, BinaryOp.ofSymbol?_symbol, Option.any_some]
  cases hint : t.isInteger <;> cases op <;> simp only [BinaryOp.select?, hint] at h <;> cases h <;>
    simp [NumericOp.existsAt, NumericOp.resultType, BinaryOp.isComparison, hint]

theorem validate_numeric {i : NumericOp} {t : ValueType} (hi : i.existsAt t = true) :
    (Instr.numeric i t).validate env ⟨t :: t :: ts, p⟩ = some ⟨i.resultType t :: ts, p⟩ := by
  rw [Instr.validate, if_pos hi, OperandTypes.pop_cons]
  show (OperandTypes.pop t ⟨t :: ts, p⟩).bind (fun σ => some (σ.push (i.resultType t))) = _
  rw [OperandTypes.pop_cons, Option.bind_some, OperandTypes.push_mk]

theorem Selects.validate_eq {n : Node} {i : Option Instr} (h : Selects n i)
    (ht : n.typeStack env ts = some ts') :
    validateInstrs env i.toList ⟨ts, p⟩ = some ⟨ts', p⟩ := by
  have hone : ∀ i : Instr, ∀ σ : OperandTypes,
      validateInstrs env (some i).toList σ = i.validate env σ := by
    intro i σ
    cases hσ : i.validate env σ <;> simp [validateInstrs, hσ]
  cases h with
  | number =>
      cases ht
      rw [hone, Instr.validate, OperandTypes.push_mk]
  | get =>
      rw [Node.typeStack] at ht
      split at ht
      · next hx =>
          cases ht
          rw [hone, Instr.validate, hx, Option.map_some, OperandTypes.push_mk]
      · cases ht
  | operator hselect =>
      obtain ⟨hexists, hresult⟩ := BinaryOp.select?_spec hselect
      rcases ts with _ | ⟨b, _ | ⟨a, ts⟩⟩
      · cases ht
      · cases ht
      · rw [Node.typeStack] at ht
        split at ht
        · next hab =>
            obtain ⟨rfl, rfl⟩ := hab
            cases ht
            rw [hone, validate_numeric hexists, hresult]
        · cases ht
  | identity =>
      rcases ts with _ | ⟨a, ts⟩
      · cases ht
      · rw [Node.typeStack] at ht
        split at ht
        · next ha =>
            subst ha
            cases ht
            rfl
        · cases ht
  | convert =>
      rcases ts with _ | ⟨a, ts⟩
      · cases ht
      · rw [Node.typeStack] at ht
        split at ht
        · next ha =>
            subst ha
            cases ht
            rw [hone, Instr.validate, OperandTypes.pop_cons, Option.map_some,
              OperandTypes.push_mk]
        · cases ht

/-- **The instructions of an expression move types as its terms do.** -/
theorem Computes.validate_eq {terms : List Node} {ops : List Instr} (h : Computes terms ops)
    (ht : typeStackAll env terms ts = some ts') :
    validateInstrs env ops ⟨ts, p⟩ = some ⟨ts', p⟩ := by
  induction h generalizing ts ts' with
  | nil =>
      cases ht
      rfl
  | leaf hi _ ih =>
      obtain ⟨ts₁, hterm, hrest⟩ := Option.bind_eq_some_iff.mp ht
      rw [validateInstrs_append, hi.validate_eq hterm, Option.bind_some, ih hrest]
  | expression _ _ _ ihterms ih =>
      obtain ⟨ts₁, hterm, hrest⟩ := Option.bind_eq_some_iff.mp ht
      rw [validateInstrs_append, ihterms hterm, Option.bind_some, ih hrest]

theorem validate_operands {n : Node} {ops : List Instr} (hops : n.operands = .ok ops)
    {t : ValueType} (ht : n.type? env = some t) :
    validateInstrs env ops ⟨[], p⟩ = some ⟨[t], p⟩ := by
  have hstack : typeStackAll env [n] [] = some [t] := by
    rw [typeStackAll, Node.type?_eq_some_iff.mp ht, Option.bind_some, typeStackAll]
  exact (operands_eq_ok_iff.mp hops).validate_eq hstack

/-! ## Tests -/

theorem validate_againstZero {ops : List Instr} {t : ValueType} {op : NumericOp}
    (hop : op = .eq ∨ op = .ne) (hops : validateInstrs env ops ⟨[], p⟩ = some ⟨[t], p⟩) :
    validateInstrs env (Test.againstZero op t ops).instrs ⟨[], p⟩ = some ⟨[.i32], p⟩ := by
  have hexists : op.existsAt t = true := by rcases hop with rfl | rfl <;> rfl
  have hresult : op.resultType t = .i32 := by rcases hop with rfl | rfl <;> rfl
  rw [Test.instrs, validateInstrs_append, hops, Option.bind_some, validateInstrs, Instr.validate,
    Option.bind_some, OperandTypes.push_mk, validateInstrs, validate_numeric hexists, hresult]
  rfl

theorem validate_isZero {ops : List Instr} {t : ValueType} (hint : t.isInteger = true)
    (hops : validateInstrs env ops ⟨[], p⟩ = some ⟨[t], p⟩) :
    validateInstrs env (Test.isZero t ops).instrs ⟨[], p⟩ = some ⟨[.i32], p⟩ := by
  rw [Test.instrs, validateInstrs_append, hops, Option.bind_some, validateInstrs, Instr.validate,
    if_pos hint, OperandTypes.pop_cons]
  rfl

/-- A test of a well-typed condition leaves an `i32`. -/
theorem validate_truthTest {n : Node} {test : Test} (htest : n.truthTest = .ok test) {t : ValueType}
    (ht : n.type? env = some t) : validateInstrs env test.instrs ⟨[], p⟩ = some ⟨[.i32], p⟩ := by
  obtain ⟨ops, t', hops, hkind, rfl⟩ := Node.truthTest_eq_ok_iff.mp htest
  rw [resultKind_eq_of_type? hops ht, NumericKind.value.injEq] at hkind
  subst hkind
  have hvalue : validateInstrs env ops ⟨[], p⟩ = some ⟨[t], p⟩ := validate_operands hops ht
  cases t with
  | i32 => exact hvalue
  | i64 => exact validate_againstZero (.inr rfl) hvalue
  | f32 => exact validate_againstZero (.inr rfl) hvalue
  | f64 => exact validate_againstZero (.inr rfl) hvalue

theorem validate_exit {n : Node} {ops : List Instr} (hops : n.operands = .ok ops) {t : ValueType}
    (ht : n.type? env = some t) :
    validateInstrs env (Test.exit t ops).instrs ⟨[], p⟩ = some ⟨[.i32], p⟩ := by
  have hvalue : validateInstrs env ops ⟨[], p⟩ = some ⟨[t], p⟩ := validate_operands hops ht
  cases t with
  | i32 => exact validate_isZero rfl hvalue
  | i64 => exact validate_isZero rfl hvalue
  | f32 => exact validate_againstZero (.inl rfl) hvalue
  | f64 => exact validate_againstZero (.inl rfl) hvalue

end Instructions

/-! ## Labels -/

/-- The labels around a statement, as its jumps need them. -/
structure LabelsFit (o : Options) (sc : Scope) (labels : List (String × Option ValueType)) :
    Prop where
  ret : labels.lookup (Label.ret.name o) = some sc.result
  exit : ∀ {level d}, sc.loop? level = some d → labels.lookup ((Label.exit d).name o) = some none
  next : ∀ {level d}, sc.loop? level = some d → labels.lookup ((Label.next d).name o) = some none

namespace LabelsFit

variable {o : Options} {sc : Scope} {labels : List (String × Option ValueType)}

/-- In a function body there is only the return block. -/
theorem ofFunction (o : Options) (result : Option ValueType) :
    LabelsFit o (.ofFunction result) [(Label.ret.name o, result)] := by
  refine ⟨List.lookup_cons_self, fun {level d} hd => ?_, fun {level d} hd => ?_⟩ <;>
    cases level <;> cases hd

theorem deeper (h : LabelsFit o sc labels) : LabelsFit o sc.deeper labels :=
  ⟨h.ret, fun hd => h.exit (by simpa using hd), fun hd => h.next (by simpa using hd)⟩

/-- What gives nothing on already gives nothing on, if another label of that sort is put around. -/
theorem lookup_cons_eq {name name' : String} (h : labels.lookup name = some none) :
    List.lookup name ((name', none) :: labels) = some none := by
  rw [List.lookup_cons]
  split
  · rfl
  · exact h

/-- A label of a loop fits in, whatever it is. -/
theorem insert (h : LabelsFit o sc labels) (ho : ¬ IsLoopName o.returnLabel) {l : Label}
    (hl : l ≠ .ret) : LabelsFit o sc ((l.name o, none) :: labels) := by
  refine ⟨?_, fun hd => lookup_cons_eq (h.exit hd), fun hd => lookup_cons_eq (h.next hd)⟩
  have hne : (Label.ret.name o == l.name o) = false := by
    rw [beq_eq_false_iff_ne, Ne, Label.name_eq_iff ho]
    exact hl.symm
  rw [List.lookup_cons, hne]
  exact h.ret

/-- In the body of a loop both labels of the loop have to be there. -/
theorem enter (h : LabelsFit o sc labels)
    (hexit : labels.lookup ((Label.exit sc.depth).name o) = some none)
    (hnext : labels.lookup ((Label.next sc.depth).name o) = some none) (shape : Shape) :
    LabelsFit o (sc.enter shape) labels := by
  refine ⟨h.ret, fun {level d} hd => ?_, fun {level d} hd => ?_⟩
  · match level, hd with
    | 1, hd =>
        cases hd
        exact hexit
    | n + 2, hd =>
        rw [Scope.loop?_enter_succ] at hd
        exact h.exit hd
  · match level, hd with
    | 1, hd =>
        cases hd
        exact hnext
    | n + 2, hd =>
        rw [Scope.loop?_enter_succ] at hd
        exact h.next hd

end LabelsFit

/-! ## Constructs -/

/-- Code between statements: it is valid on an empty stack and leaves one, whether or not it can be
reached. -/
def Keeps (env : Env) (o : Options) (labels : List (String × Option ValueType)) (code : List Code) :
    Prop :=
  ∀ p, ∃ p', validateAll env o labels ⟨[], p⟩ code = some ⟨[], p'⟩

section Constructs

variable {env : Env} {o : Options} {labels : List (String × Option ValueType)} {p : Bool}

theorem validateAll_append (xs ys : List Code) (σ : OperandTypes) :
    validateAll env o labels σ (xs ++ ys)
      = (validateAll env o labels σ xs).bind fun σ' => validateAll env o labels σ' ys := by
  induction xs generalizing σ with
  | nil => rfl
  | cons c xs ih =>
      rw [List.cons_append, validateAll, validateAll, Option.bind_eq_bind, Option.bind_assoc]
      congr 1
      funext σ'
      exact ih σ'

theorem Keeps.nil : Keeps env o labels [] := fun p => ⟨p, rfl⟩

theorem Keeps.append {xs ys : List Code} (hxs : Keeps env o labels xs)
    (hys : Keeps env o labels ys) : Keeps env o labels (xs ++ ys) := by
  intro p
  obtain ⟨p₁, h₁⟩ := hxs p
  obtain ⟨p₂, h₂⟩ := hys p₁
  exact ⟨p₂, by rw [validateAll_append, h₁, Option.bind_some, h₂]⟩

theorem keeps_singleton {c : Code}
    (h : ∀ p, ∃ p', c.validate env o labels ⟨[], p⟩ = some ⟨[], p'⟩) : Keeps env o labels [c] := by
  intro p
  obtain ⟨p', hc⟩ := h p
  exact ⟨p', by rw [validateAll, hc]; rfl⟩

/-- Around code that keeps the stack empty there may be a block. -/
theorem Keeps.enclosed_eq {code : List Code} (h : Keeps env o labels code) (σ : OperandTypes) :
    enclosed (validateAll env o labels .empty code) σ = some σ := by
  obtain ⟨p', hcode⟩ := h false
  rw [OperandTypes.empty, hcode]
  rfl

theorem keeps_set {storage : Storage} {x : String} {v : Node} {ops : List Instr}
    (hops : v.operands = .ok ops) {t : ValueType} (ht : v.type? env = some t)
    (hx : env.writable? storage x = some t) : Keeps env o labels [.set storage x ops] := by
  refine keeps_singleton fun p => ⟨p, ?_⟩
  have hvalue : validateInstrs env ops ⟨[], p⟩ = some ⟨[t], p⟩ := validate_operands hops ht
  simp [Code.validate, hx, hvalue]

/-- Behind a jump nothing is known of the stack, and nothing has to be. -/
theorem validate_jump {l : Label} (hl : labels.lookup (l.name o) = some none) :
    (Code.br l none).validate env o labels ⟨[], p⟩ = some .unreachable := by
  simp [Code.validate, hl, validateInstrs, OperandTypes.popResult]

theorem validate_returnValue {v : Node} {ops : List Instr} (hops : v.operands = .ok ops)
    {t : ValueType} (ht : v.type? env = some t)
    (hl : labels.lookup (Label.ret.name o) = some (some t)) :
    (Code.br .ret (some ops)).validate env o labels ⟨[], p⟩ = some .unreachable := by
  have hvalue : validateInstrs env ops ⟨[], p⟩ = some ⟨[t], p⟩ := validate_operands hops ht
  rw [Label.name_ret] at hl
  simp [Code.validate, hl, hvalue, OperandTypes.popResult]

theorem keeps_brIf {l : Label} (hl : labels.lookup (l.name o) = some none) {test : Test}
    (htest : ∀ p, validateInstrs env test.instrs ⟨[], p⟩ = some ⟨[.i32], p⟩) :
    Keeps env o labels [.brIf l test] := by
  refine keeps_singleton fun p => ⟨p, ?_⟩
  simp [Code.validate, hl, htest p, OperandTypes.popResult, OperandTypes.pushResult]

theorem keeps_ifThen {test : Test} {yes : List Code} {no : Option (List Code)}
    (htest : ∀ p, validateInstrs env test.instrs ⟨[], p⟩ = some ⟨[.i32], p⟩)
    (hyes : Keeps env o labels yes) (hno : ∀ code, no = some code → Keeps env o labels code) :
    Keeps env o labels [.ifThen test yes no] := by
  have helse : ∀ σ, enclosed (validateElse env o labels .empty no) σ = some σ := by
    intro σ
    cases no with
    | none => rfl
    | some code => exact (hno code rfl).enclosed_eq σ
  refine keeps_singleton fun p => ⟨p, ?_⟩
  simp [Code.validate, htest p, hyes.enclosed_eq, helse]

theorem keeps_assignments {ns : List Node} {code : List Code}
    (h : ns.mapM Node.assignment = .ok code) {result : Option ValueType}
    (ht : wellTypedAll env result ns = true) : Keeps env o labels code := by
  rw [mapM_eq_ok_iff] at h
  induction h with
  | nil => exact .nil
  | cons hn _ ih =>
      obtain ⟨p, storage, x, v, ops, rfl, hops, rfl⟩ := Node.assignment_eq_ok_iff.mp hn
      obtain ⟨hset, hrest⟩ := wellTypedAll_cons_iff.mp ht
      obtain ⟨t, hv, hx⟩ := Node.wellTyped_set_iff.mp hset
      exact (keeps_set hops hv hx).append (ih hrest)

/-- The guard of a loop jumps out of it, or is not there. -/
theorem keeps_guard {condition : Option Node} {d : Nat} {guard : List Code}
    (hguard : condition.toList.mapM (Node.exitGuard d) = .ok guard)
    (hl : labels.lookup ((Label.exit d).name o) = some none)
    (ht : condition.all (fun n => (n.type? env).isSome) = true) : Keeps env o labels guard := by
  rcases Node.guard_eq_ok_iff.mp hguard with ⟨rfl, rfl⟩ | ⟨n, ops, t, rfl, hops, hkind, rfl⟩
  · exact .nil
  · obtain ⟨t', ht'⟩ := Option.isSome_iff_exists.mp ht
    rw [resultKind_eq_of_type? hops ht', NumericKind.value.injEq] at hkind
    subst hkind
    exact keeps_brIf hl fun p => validate_exit hops ht'

end Constructs

/-! ## All statements -/

section Statements

variable {env : Env} {o : Options} {sc : Scope} {labels : List (String × Option ValueType)}

/-- What is around the parts of a loop. -/
def loopLabels (o : Options) (d : Nat) (shape : Shape) (labels : List (String × Option ValueType)) :
    List (String × Option ValueType) :=
  ((shape.headLabel d).name o, none) :: ((Label.exit d).name o, none) :: labels

theorem lookup_loopLabels_head (d : Nat) (shape : Shape) :
    (loopLabels o d shape labels).lookup ((shape.headLabel d).name o) = some none := by
  rw [loopLabels, List.lookup_cons_self]

theorem lookup_loopLabels_exit (d : Nat) (shape : Shape) :
    (loopLabels o d shape labels).lookup ((Label.exit d).name o) = some none :=
  LabelsFit.lookup_cons_eq List.lookup_cons_self

/-- The body of a loop keeps the stack empty, in its block if it has one. -/
theorem keeps_wrap (ho : ¬ IsLoopName o.returnLabel) (hl : LabelsFit o sc labels) {shape : Shape}
    {inner : List Code}
    (hinner : ∀ labels', LabelsFit o (sc.enter shape) labels' → Keeps env o labels' inner) :
    Keeps env o (loopLabels o sc.depth shape labels) (shape.wrap sc.depth inner) := by
  have hloop : LabelsFit o sc (loopLabels o sc.depth shape labels) :=
    (hl.insert ho (by simp)).insert ho (shape.headLabel_ne_ret _)
  cases shape with
  | plain =>
      exact hinner _ (hloop.enter (lookup_loopLabels_exit _ _) (lookup_loopLabels_head _ .plain) _)
  | wrapped =>
      have hblock : LabelsFit o (sc.enter .wrapped)
          (((Label.next sc.depth).name o, none) :: loopLabels o sc.depth .wrapped labels) :=
        (hloop.insert ho (by simp)).enter
          (LabelsFit.lookup_cons_eq (lookup_loopLabels_exit _ _)) List.lookup_cons_self _
      refine keeps_singleton fun p => ⟨p, ?_⟩
      rw [Code.validate, (hinner _ hblock).enclosed_eq]

theorem keeps_loop {d : Nat} {shape : Shape} {body : List Code}
    (h : Keeps env o (loopLabels o d shape labels) body) :
    Keeps env o labels [.loop (.exit d) (shape.headLabel d) body] := by
  refine keeps_singleton fun p => ⟨p, ?_⟩
  rw [Code.validate]
  exact h.enclosed_eq _

theorem keeps_jump {l : Label} (hl : labels.lookup (l.name o) = some none) :
    Keeps env o labels [.br l none] :=
  keeps_singleton fun _ => ⟨true, validate_jump hl⟩

/-- **Well-typed statements become valid code**, by induction over the rules. -/
theorem Lowers.keeps (ho : ¬ IsLoopName o.returnLabel) {stmts : List Node} {code : List Code}
    (h : Lowers sc stmts code) (hl : LabelsFit o sc labels)
    (ht : wellTypedAll env sc.result stmts = true) : Keeps env o labels code := by
  induction h generalizing labels with
  | nil => exact .nil
  | declaration _ ih => exact ih hl (wellTypedAll_cons_iff.mp ht).2
  | assignment hops _ ih =>
      obtain ⟨hset, hrest⟩ := wellTypedAll_cons_iff.mp ht
      obtain ⟨t, hv, hx⟩ := Node.wellTyped_set_iff.mp hset
      exact (keeps_set hops hv hx).append (ih hl hrest)
  | returnValue _ hops _ ih =>
      obtain ⟨hret, hrest⟩ := wellTypedAll_cons_iff.mp ht
      obtain ⟨t, hv, hresult⟩ := Node.wellTyped_ret_iff.mp hret
      have hlabel := hl.ret
      rw [hresult] at hlabel
      refine Keeps.append (keeps_singleton fun p => ⟨true, ?_⟩) (ih hl hrest)
      exact validate_returnValue hops hv hlabel
  | returnVoid hresult _ ih =>
      have hlabel := hl.ret
      rw [hresult] at hlabel
      exact (keeps_jump hlabel).append (ih hl (wellTypedAll_cons_iff.mp ht).2)
  | brk hd _ ih => exact (keeps_jump (hl.exit hd)).append (ih hl (wellTypedAll_cons_iff.mp ht).2)
  | cont hd _ ih => exact (keeps_jump (hl.next hd)).append (ih hl (wellTypedAll_cons_iff.mp ht).2)
  | whileLoop _ ih =>
      refine ih hl ?_
      simpa [wellTypedAll, Node.wellTyped] using ht
  | @forLoop s _ _ _ _ _ _ shape _ _ _ _ _ _ hinit hguard _ hstep _ ihbody ih =>
      obtain ⟨hfor, hrest⟩ := wellTypedAll_cons_iff.mp ht
      simp only [Node.wellTyped, Bool.and_eq_true] at hfor
      obtain ⟨⟨⟨htinit, htcond⟩, htinc⟩, htbody⟩ := hfor
      have hwrap := keeps_wrap ho hl fun labels' hl' => ihbody hl' htbody
      have hpass := (keeps_guard hguard (lookup_loopLabels_exit _ shape) htcond).append hwrap
      have hbody := hpass.append (keeps_assignments hstep htinc)
      have hloop := keeps_loop (hbody.append (keeps_jump (lookup_loopLabels_head _ shape)))
      exact (keeps_assignments hinit htinit).append (hloop.append (ih hl hrest))
  | @doLoop s _ _ _ _ shape _ _ _ _ _ htest _ ihbody ih =>
      obtain ⟨hdo, hrest⟩ := wellTypedAll_cons_iff.mp ht
      simp only [Node.wellTyped, Bool.and_eq_true] at hdo
      obtain ⟨t, htcond⟩ := Option.isSome_iff_exists.mp hdo.2
      have hwrap := keeps_wrap ho hl fun labels' hl' => ihbody hl' hdo.1
      have hback : Keeps env o (loopLabels o s.depth shape labels) _ :=
        keeps_brIf (lookup_loopLabels_head _ shape) fun p => validate_truthTest htest htcond
      exact (keeps_loop (hwrap.append hback)).append (ih hl hrest)
  | ifThen htest _ _ ihyes ih =>
      obtain ⟨hif, hrest⟩ := wellTypedAll_cons_iff.mp ht
      simp only [Node.wellTyped, Bool.and_eq_true] at hif
      obtain ⟨t, htcond⟩ := Option.isSome_iff_exists.mp hif.1.1
      have hyes := ihyes hl.deeper hif.1.2
      refine Keeps.append (keeps_ifThen (fun p => validate_truthTest htest htcond) hyes ?_) ?_
      · intro code hcode
        cases hcode
      · exact ih hl hrest
  | ifElse htest _ _ _ ihyes ihno ih =>
      obtain ⟨hif, hrest⟩ := wellTypedAll_cons_iff.mp ht
      simp only [Node.wellTyped, Bool.and_eq_true] at hif
      obtain ⟨t, htcond⟩ := Option.isSome_iff_exists.mp hif.1.1
      have hyes := ihyes hl.deeper hif.1.2
      have hno := ihno hl.deeper hif.2
      refine Keeps.append (keeps_ifThen (fun p => validate_truthTest htest htcond) hyes ?_) ?_
      · intro code hcode
        cases hcode
        exact hno
      · exact ih hl hrest

/-- Behind a `return` nothing is reached. -/
theorem Lowers.validate_of_getLast? (ho : ¬ IsLoopName o.returnLabel) {stmts : List Node}
    {code : List Code} (h : Lowers sc stmts code) (hl : LabelsFit o sc labels)
    (ht : wellTypedAll env sc.result stmts = true) {q : Position} {v : Option Node}
    (hlast : stmts.getLast? = some (.ret q v)) (p : Bool) :
    validateAll env o labels ⟨[], p⟩ code = some .unreachable := by
  obtain ⟨before, rfl⟩ := List.getLast?_eq_some_iff.mp hlast
  obtain ⟨first, last, hfirst, hret, rfl⟩ := h.exists_of_append
  rw [wellTypedAll_iff, List.forall_mem_append, ← wellTypedAll_iff, ← wellTypedAll_iff] at ht
  obtain ⟨p', hp'⟩ := hfirst.keeps ho hl ht.1 p
  rw [validateAll_append, hp', Option.bind_some]
  cases hret with
  | returnValue hresult hops hnil =>
      cases hnil
      obtain ⟨t, hv, ht'⟩ := Node.wellTyped_ret_iff.mp (wellTypedAll_cons_iff.mp ht.2).1
      have hlabel := hl.ret
      rw [ht'] at hlabel
      rw [validateAll, validate_returnValue hops hv hlabel]
      rfl
  | returnVoid hresult hnil =>
      cases hnil
      have hlabel := hl.ret
      rw [hresult] at hlabel
      rw [validateAll, validate_jump hlabel]
      rfl

end Statements

/-! ## Functions -/

theorem declared_eq_of_mapM {ns : List Node} {vars : List Variable}
    (h : ns.mapM Node.declaration = .ok vars) : declared ns = vars := by
  rw [mapM_eq_ok_iff] at h
  induction h with
  | nil => rfl
  | cons hn _ ih =>
      obtain ⟨p, rfl⟩ := Node.declaration_eq_ok_iff.mp hn
      exact congrArg (List.cons _) ih

/-- A generated function has the variables that the program declares for it. -/
theorem FunctionLowers.functionLocals_eq {name : String} {result : NumericKind} {params : Node}
    {body : List Node} {f : Func} (h : FunctionLowers name result params body f) :
    functionLocals params body = f.params ++ f.locals := by
  obtain ⟨p, items, rfl, hitems⟩ := Node.parameters_eq_ok_iff.mp h.params_eq
  rw [functionLocals, declared_eq_of_mapM hitems, declared_eq_of_mapM h.locals_eq]

/-- The declarations in front of a body do not reach a `return` at its end. -/
theorem getLast?_dropWhile_isDeclaration {body : List Node} {q : Position} {v : Option Node}
    (h : body.getLast? = some (.ret q v)) :
    (body.dropWhile Node.isDeclaration).getLast? = some (.ret q v) := by
  obtain ⟨before, rfl⟩ := List.getLast?_eq_some_iff.mp h
  rw [List.dropWhile_append]
  split
  · rfl
  · rw [List.getLast?_append]
    rfl

/-- **A well-typed function becomes a valid one**, if it has no result or ends in a `return`. -/
theorem FunctionLowers.valid {o : Options} (ho : ¬ IsLoopName o.returnLabel) {name : String}
    {result : NumericKind} {params : Node} {body : List Node} {f : Func}
    (h : FunctionLowers name result params body f) {globals : List (String × Bool × ValueType)}
    (hnodup : ((functionLocals params body).map Prod.fst).Nodup)
    (ht : wellTypedAll ⟨functionLocals params body, globals⟩ result.valueType? body = true)
    (hend : result = .void ∨ ∃ q v, body.getLast? = some (.ret q v)) : f.Valid o globals := by
  rw [h.functionLocals_eq] at hnodup ht
  rw [h.result_eq] at ht
  have hl := LabelsFit.ofFunction o f.result
  have htbody := wellTypedAll_dropWhile ht Node.isDeclaration
  refine ⟨hnodup, ?_⟩
  rcases hend with rfl | ⟨q, v, hlast⟩
  · obtain ⟨p', hp'⟩ := h.lowers.keeps ho hl htbody false
    rw [OperandTypes.empty, hp', ← h.result_eq]
    rfl
  · have hunreachable := h.lowers.validate_of_getLast? ho hl htbody
      (getLast?_dropWhile_isDeclaration hlast) false
    rw [OperandTypes.empty, hunreachable]
    cases f.result <;> rfl

-- without the last condition this would fail: an empty body does not leave the result
example : (validateAll ⟨[], []⟩ .standard [("_return", some .i32)] .empty []).any
    (·.endsWith (some .i32)) = false := by
  decide

/-! ## Modules -/

/-- What an item is called, and what it makes known, is the same before and after lowering. -/
theorem names_of_lowerItem {n : Node} {item : Item} (h : n.lowerItem.result = .ok item) :
    n.global? = item.global? ∧ n.functionName? = item.functionName? ∧ n.export? = item.export? := by
  cases n with
  | global p mutable x kind init =>
      obtain ⟨t, q, k, literal, rfl, rfl, rfl⟩ := lowerItem_global_eq_ok_iff.mp h
      exact ⟨rfl, rfl, rfl⟩
  | exportFunc p name exported =>
      cases h
      exact ⟨rfl, rfl, rfl⟩
  | function p name result params body =>
      obtain ⟨f, rfl, hf⟩ := lowerItem_function_eq_ok_iff.mp h
      exact ⟨rfl, congrArg some hf.name_eq.symm, rfl⟩
  | _ => simp [Node.lowerItem] at h

theorem filterMap_eq_of_forall₂ {α β γ : Type} {R : α → β → Prop} {f : α → Option γ}
    {g : β → Option γ} {xs : List α} {ys : List β} (h : List.Forall₂ R xs ys)
    (hfg : ∀ x y, R x y → f x = g y) : xs.filterMap f = ys.filterMap g := by
  induction h with
  | nil => rfl
  | cons hxy _ ih => rw [List.filterMap_cons, List.filterMap_cons, hfg _ _ hxy, ih]

section Names

variable {items : List Node} {m : Module}

theorem globals_eq_of_lowered
    (h : List.Forall₂ (fun n item => n.lowerItem.result = .ok item) items m.items) :
    items.filterMap Node.global? = m.globals :=
  filterMap_eq_of_forall₂ h fun _ _ hn => (names_of_lowerItem hn).1

/-- The names of a well-typed program are still in order when it has been lowered. -/
theorem WellTyped.namesValid (hitems : WellTyped items)
    (h : List.Forall₂ (fun n item => n.lowerItem.result = .ok item) items m.items) :
    m.NamesValid := by
  have hfunctions : items.filterMap Node.functionName? = m.items.filterMap Item.functionName? :=
    filterMap_eq_of_forall₂ h fun _ _ hn => (names_of_lowerItem hn).2.1
  have hexports : items.filterMap Node.export? = m.items.filterMap Item.export? :=
    filterMap_eq_of_forall₂ h fun _ _ hn => (names_of_lowerItem hn).2.2
  refine ⟨hfunctions ▸ hitems.functions_nodup, globals_eq_of_lowered h ▸ hitems.globals_nodup,
    hexports ▸ hitems.exports_nodup, ?_⟩
  intro e he
  rw [← hexports, List.mem_filterMap] at he
  obtain ⟨n, hn, hne⟩ := he
  cases n with
  | exportFunc p name exported =>
      cases hne
      have hname := hitems.items_wellTyped _ hn
      rw [Node.itemWellTyped, List.contains_iff_mem, hfunctions] at hname
      exact hname
  | _ => cases hne

end Names

/-- **Well-typed programs generate valid functions.**  If a well-typed program is accepted, the
names of the module it is lowered to are in order, and each of its functions is valid that has no
result or ends in a `return`. -/
theorem generated_functions_valid {o : Options} (ho : ¬ IsLoopName o.returnLabel) {pos : Position}
    {items : List Node} {text : String} (h : (generate o (.module pos items)).result = .ok text)
    (hitems : WellTyped items) :
    ∃ m : Module, (Node.module pos items).lowerModule.result = .ok m ∧ m.render o = text ∧
      m.NamesValid ∧
      ∀ (i : Nat) (p : Position) (name : String) (result : NumericKind) (params : Node)
        (body : List Node), items[i]? = some (.function p name result params body) →
        (result = .void ∨ ∃ q v, body.getLast? = some (.ret q v)) →
        ∃ f : Func, m.items[i]? = some (.func f) ∧ f.Valid o m.globals := by
  obtain ⟨m, hm, htext, hlowered⟩ := exists_module_of_generate h
  refine ⟨m, hm, htext, hitems.namesValid hlowered, fun i p name result params body hi hend => ?_⟩
  obtain ⟨f, hf, hlowers⟩ := exists_func_of_getElem? hlowered hi
  have htyped := hitems.items_wellTyped _ (List.mem_of_getElem? hi)
  rw [Node.itemWellTyped, Bool.and_eq_true, decide_eq_true_eq, globals_eq_of_lowered hlowered]
    at htyped
  exact ⟨f, hf, hlowers.valid ho htyped.1 htyped.2 hend⟩

/-- Sums up `n` to `limit` in another type.  The loop has a body of its own block, a jump in the
middle of its body and conditions of two types, and there is code behind the jump. -/
def summation : List Node :=
  let i64 : NumericKind := .value .i64
  let f64 : NumericKind := .value .f64
  let n : Node := .get .unplaced .local "n" i64
  let sum : Node := .get .unplaced .local "sum" f64
  let next : Node :=
    .expression .unplaced i64 [n, .number .unplaced i64 "1", .operator .unplaced i64 "+"]
  let below : Node := .expression .unplaced i64
    [n, .get .unplaced .global "limit" i64, .operator .unplaced i64 "<"]
  let total : Node := .expression .unplaced f64
    [sum, n, .cast .unplaced i64 f64, .operator .unplaced f64 "+"]
  [.global .unplaced true "limit" i64 (.number .unplaced i64 "9"),
    .exportFunc .unplaced "summation" "sum",
    .function .unplaced "summation" f64 (.paramList .unplaced [.localVar .unplaced "n" i64])
      [.localVar .unplaced "sum" f64,
        .forLoop .unplaced [] (some below) [.set .unplaced .local "n" next]
          [.ifElse .unplaced sum [.set .unplaced .local "sum" total, .cont .unplaced none] none,
            .doLoop .unplaced [.brk .unplaced (some 2), .set .unplaced .global "limit" n] n],
        .ret .unplaced (some sum)]]

theorem summation_valid :
    ∃ (m : Module) (f : Func), (Node.module .unplaced summation).lowerModule.result = .ok m ∧
      m.NamesValid ∧ m.items[2]? = some (.func f) ∧ f.Valid .standard m.globals := by
  have haccepted : (generate .standard (.module .unplaced summation)).result = .ok _ := rfl
  have htyped : WellTyped summation := by
    constructor <;> decide
  obtain ⟨m, hlowered, -, hnames, hm⟩ := generated_functions_valid Options.not_isLoopName_standard
    haccepted htyped
  obtain ⟨f, hf, hvalid⟩ := hm 2 _ _ _ _ _ rfl (.inr ⟨_, _, rfl⟩)
  exact ⟨m, f, hlowered, hnames, hf, hvalid⟩

end WatLowering
