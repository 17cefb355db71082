import Vapp.Library.Outcome

/-! # Calls that leave a trace

A call of a program is followed by what it did on the way, as a list of acts, and by its
outcome.  The acts before a fault are kept: a property of what a program does also
speaks of the calls that do not return.
-/

/-- What was done, and what it ended in. -/
structure Traced (τ ε α : Type) where
  acts : List τ
  out : Outcome ε α

namespace Traced

variable {τ ε α β : Type}

/-- Sequencing: the acts of the second part follow if the first one returned. -/
protected def bind (x : Traced τ ε α) (f : α → Traced τ ε β) : Traced τ ε β :=
  match x.out with
  | .ret a => ⟨x.acts ++ (f a).acts, (f a).out⟩
  | .fault e => ⟨x.acts, .fault e⟩
  | .spent => ⟨x.acts, .spent⟩

instance : Monad (Traced τ ε) where
  pure a := ⟨[], .ret a⟩
  bind := Traced.bind

/-- A call that leaves no trace of its own. -/
def lift (x : Outcome ε α) : Traced τ ε α := ⟨[], x⟩

/-- One act. -/
def act (t : τ) : Traced τ ε Unit := ⟨[t], .ret ()⟩

@[simp] theorem pure_acts (a : α) : (pure a : Traced τ ε α).acts = [] := rfl
@[simp] theorem pure_out (a : α) : (pure a : Traced τ ε α).out = .ret a := rfl
@[simp] theorem lift_acts (x : Outcome ε α) : (lift x : Traced τ ε α).acts = [] := rfl
@[simp] theorem lift_out (x : Outcome ε α) : (lift x : Traced τ ε α).out = x := rfl
@[simp] theorem act_acts (t : τ) : (act t : Traced τ ε Unit).acts = [t] := rfl
@[simp] theorem act_out (t : τ) : (act t : Traced τ ε Unit).out = .ret () := rfl

/-- The second part runs only if the first one returned. -/
theorem bind_of_ret {x : Traced τ ε α} {a : α} (h : x.out = .ret a) (f : α → Traced τ ε β) :
    (x >>= f) = ⟨x.acts ++ (f a).acts, (f a).out⟩ := by
  show Traced.bind x f = _
  rw [Traced.bind, h]

theorem bind_of_not_ret {x : Traced τ ε α} (h : ∀ a, x.out ≠ .ret a) (f : α → Traced τ ε β) :
    (x >>= f).acts = x.acts ∧ ∀ b, (x >>= f).out ≠ .ret b := by
  show (Traced.bind x f).acts = _ ∧ ∀ b, (Traced.bind x f).out ≠ _
  rw [Traced.bind]
  cases hx : x.out with
  | ret a => exact absurd hx (h a)
  | fault e => exact ⟨rfl, nofun⟩
  | spent => exact ⟨rfl, nofun⟩

@[simp] theorem act_bind (t : τ) (f : Unit → Traced τ ε β) :
    (act t >>= f) = ⟨t :: (f ()).acts, (f ()).out⟩ := rfl

@[simp] theorem pure_bind (a : α) (f : α → Traced τ ε β) : (pure a >>= f) = f a := rfl

@[simp] theorem lift_ret_bind (a : α) (f : α → Traced τ ε β) :
    ((lift (.ret a) : Traced τ ε α) >>= f) = f a := rfl

/-- What a sequence ends in does not depend on the trace. -/
theorem bind_out (x : Traced τ ε α) (f : α → Traced τ ε β) :
    (x >>= f).out = x.out >>= fun a => (f a).out := by
  show (Traced.bind x f).out = _
  rw [Traced.bind]
  cases x.out <;> rfl

/-- A sequence returns only through a value of its first part. -/
theorem bind_out_eq_ret {x : Traced τ ε α} {f : α → Traced τ ε β} {b : β} :
    (x >>= f).out = .ret b ↔ ∃ a, x.out = .ret a ∧ (f a).out = .ret b := by
  rw [bind_out]
  exact Outcome.bind_eq_ret

/-- An act of a sequence is one of either part. -/
theorem mem_bind_acts {x : Traced τ ε α} {f : α → Traced τ ε β} {t : τ} :
    t ∈ (x >>= f).acts ↔ t ∈ x.acts ∨ ∃ a, x.out = .ret a ∧ t ∈ (f a).acts := by
  by_cases hx : ∃ a, x.out = .ret a
  · obtain ⟨a, ha⟩ := hx
    rw [bind_of_ret ha, List.mem_append]
    refine or_congr_right ⟨fun h => ⟨a, ha, h⟩, ?_⟩
    rintro ⟨b, hb, h⟩
    rw [ha] at hb
    cases hb
    exact h
  · rw [(bind_of_not_ret (not_exists.mp hx) f).1]
    exact (or_iff_left fun ⟨a, ha, _⟩ => hx ⟨a, ha⟩).symm

/-- What only maps the result leaves no trace of its own. -/
theorem bind_pure_acts (x : Traced τ ε α) (f : α → β) :
    (x >>= fun a => pure (f a)).acts = x.acts := by
  cases hx : x.out with
  | ret a =>
      rw [bind_of_ret hx]
      exact List.append_nil _
  | fault e => exact (bind_of_not_ret (by rw [hx]; exact nofun) _).1
  | spent => exact (bind_of_not_ret (by rw [hx]; exact nofun) _).1

end Traced
