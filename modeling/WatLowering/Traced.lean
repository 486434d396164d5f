import WatLowering.Event
import WatLowering.Fault

/-!
# Computations that report and may fail

`Traced α` is the outcome of a step of the lowering: the events it reported, in order, and either a
result or the fault that stopped it.  A failed computation keeps the events that came before the
failure, which is why the log stands beside the result and not inside it.

Sequencing appends logs and stops at the first fault.  It is lawful, so proofs can rearrange steps
freely, and the two projections are computed by `log_bind` and `result_bind` without looking inside
a definition.
-/

namespace WatLowering

/-- What was reported, and how it ended. -/
structure Traced (α : Type) where
  log : List Event
  result : Except Fault α

namespace Traced

variable {α β : Type}

@[ext] theorem ext {x y : Traced α} (hlog : x.log = y.log) (hresult : x.result = y.result) :
    x = y := by
  cases x
  cases y
  simp_all

/-- One report. -/
def report (e : Event) : Traced Unit := ⟨[e], .ok ()⟩

/-- A computation that reports nothing. -/
def silently (x : Except Fault α) : Traced α := ⟨[], x⟩

instance : Monad Traced where
  pure a := ⟨[], .ok a⟩
  bind x f :=
    match x.result with
    | .ok a =>
        let y := f a
        ⟨x.log ++ y.log, y.result⟩
    | .error fault => ⟨x.log, .error fault⟩

/-! ## Both channels of each operation -/

@[simp] theorem log_pure (a : α) : (pure a : Traced α).log = [] := rfl

@[simp] theorem result_pure (a : α) : (pure a : Traced α).result = .ok a := rfl

@[simp] theorem log_silently (x : Except Fault α) : (silently x).log = [] := rfl

@[simp] theorem result_silently (x : Except Fault α) : (silently x).result = x := rfl

@[simp] theorem log_report (e : Event) : (report e).log = [e] := rfl

@[simp] theorem result_report (e : Event) : (report e).result = .ok () := rfl

/-- The result of a sequence is the sequence of the results. -/
@[simp] theorem result_bind (x : Traced α) (f : α → Traced β) :
    (x >>= f).result = x.result >>= fun a => (f a).result := by
  obtain ⟨log, result⟩ := x
  cases result <;> rfl

/-- **Logs are appended**, and what never ran adds nothing. -/
theorem log_bind (x : Traced α) (f : α → Traced β) :
    (x >>= f).log = x.log ++ (match x.result with
      | .ok a => (f a).log
      | .error _ => []) := by
  obtain ⟨log, result⟩ := x
  cases result <;> simp [bind]

theorem log_bind_of_ok {x : Traced α} {a : α} (h : x.result = .ok a) (f : α → Traced β) :
    (x >>= f).log = x.log ++ (f a).log := by
  simp [log_bind, h]

theorem log_bind_of_error {x : Traced α} {fault : Fault} (h : x.result = .error fault)
    (f : α → Traced β) : (x >>= f).log = x.log := by
  simp [log_bind, h]

/-! ## Laws -/

instance : LawfulMonad Traced := LawfulMonad.mk' Traced
  (by
    intro α x
    obtain ⟨log, result⟩ := x
    cases result <;> simp [Functor.map])
  (by
    intro α β a f
    simp [bind, pure])
  (by
    intro α β γ x f g
    obtain ⟨log, result⟩ := x
    cases result with
    | error fault => rfl
    | ok a =>
        refine ext ?_ ?_
        · rw [log_bind, log_bind, log_bind]
          cases h : (f a).result with
          | error fault => simp [bind, h]
          | ok b => simp [bind, h]
        · simp [bind_assoc])

end Traced

end WatLowering
