import Vapp.Library.Traced

/-! # Runs of calls and what their traces satisfy

A program that is called once for each input of a sequence leaves the traces of the calls,
one after the other, up to the first call that does not return.  A property of a trace says
of each act whether it is allowed after the acts before it.  The run rule reduces such a
property of whole runs to one of single calls, stated on the inputs.
-/
namespace Traced

variable {τ ε σ ι γ : Type}

/-! ### Properties of a trace -/

/-- Each act is allowed after the acts before it; `before` are those before the trace. -/
def Always (P : List τ → τ → Prop) : (before acts : List τ) → Prop
  | _, [] => True
  | before, a :: acts => P before a ∧ Always P (before ++ [a]) acts

section Always
variable {P : List τ → τ → Prop}

theorem always_append (as : List τ) {bs : List τ} : ∀ {before : List τ},
    Always P before (as ++ bs) ↔ Always P before as ∧ Always P (before ++ as) bs := by
  induction as with
  | nil =>
      intro before
      rw [List.nil_append, List.append_nil]
      exact (and_iff_right trivial).symm
  | cons a as ih =>
      intro before
      rw [List.cons_append, Always, Always, ih, List.append_assoc, List.singleton_append, and_assoc]

/-- What is allowed, act by act. -/
theorem always_iff (acts : List τ) : ∀ {before : List τ},
    Always P before acts ↔
      ∀ pre a post, acts = pre ++ a :: post → P (before ++ pre) a := by
  induction acts with
  | nil =>
      intro before
      refine ⟨fun _ pre a post h => ?_, fun _ => trivial⟩
      cases pre <;> cases h
  | cons b acts ih =>
      intro before
      rw [Always, ih]
      constructor
      · rintro ⟨hb, hacts⟩ pre a post h
        cases pre with
        | nil =>
            cases h
            rw [List.append_nil]
            exact hb
        | cons c pre =>
            cases h
            have := hacts pre a post rfl
            rwa [List.append_assoc] at this
      · intro h
        refine ⟨?_, fun pre a post hacts => ?_⟩
        · have := h [] b acts rfl
          rwa [List.append_nil] at this
        · rw [List.append_assoc]
          exact h (b :: pre) a post (congrArg (b :: ·) hacts)

end Always

/-! ### Runs -/

variable (step : σ → ι → Traced τ ε σ)

/-- The calls for some inputs, one after the other. -/
def runAll : σ → List ι → Traced τ ε σ
  | s, [] => pure s
  | s, x :: xs => do
      let s ← step s x
      runAll s xs

/-- A run goes on where its first part has ended. -/
theorem runAll_append {s s' : σ} {xs : List ι} (ys : List ι)
    (h : (runAll step s xs).out = .ret s') :
    (runAll step s (xs ++ ys)).out = (runAll step s' ys).out := by
  induction xs generalizing s with
  | nil =>
      cases h
      rfl
  | cons x xs ih =>
      obtain ⟨s1, h1, h2⟩ := bind_out_eq_ret.mp h
      rw [List.cons_append, runAll, bind_of_ret h1]
      exact ih h2

/-- Every input satisfies `C`, given the state it finds and what `note` remembers of the
inputs before it. -/
def AllInputs (note : σ → ι → γ → γ) (C : γ → σ → ι → Prop) : γ → σ → List ι → Prop
  | _, _, [] => True
  | g, s, x :: xs =>
      C g s x ∧ ∀ s', (step s x).out = .ret s' → AllInputs note C (note s x g) s' xs

variable {step} {note : σ → ι → γ → γ} {C : γ → σ → ι → Prop} {P : List τ → τ → Prop}

/-- **The run rule.**  If, under an invariant of the trace so far, what is remembered and
the state, the trace of a call is allowed exactly when its input satisfies `C`, then the
trace of a run is allowed exactly when all of its inputs do. -/
theorem runAll_always_iff {I : List τ → γ → σ → Prop}
    (call : ∀ before g s x, I before g s → (Always P before (step s x).acts ↔ C g s x))
    (keep : ∀ before g s x s', I before g s → C g s x → (step s x).out = .ret s' →
      I (before ++ (step s x).acts) (note s x g) s')
    (xs : List ι) : ∀ {before : List τ} {g : γ} {s : σ}, I before g s →
      (Always P before (runAll step s xs).acts ↔ AllInputs step note C g s xs) := by
  induction xs with
  | nil => exact fun _ => ⟨fun _ => trivial, fun _ => trivial⟩
  | cons x xs ih =>
      intro before g s hI
      rw [runAll, AllInputs, ← call before g s x hI]
      cases hx : (step s x).out with
      | ret s' =>
          rw [bind_of_ret hx, always_append]
          refine and_congr_right fun hacts => ?_
          rw [ih (keep before g s x s' hI ((call before g s x hI).mp hacts) hx)]
          exact ⟨fun h u hu => Outcome.ret.inj hu ▸ h, fun h => h s' rfl⟩
      | fault e =>
          rw [(bind_of_not_ret (by rw [hx]; exact nofun) _).1]
          exact (and_iff_left nofun).symm
      | spent =>
          rw [(bind_of_not_ret (by rw [hx]; exact nofun) _).1]
          exact (and_iff_left nofun).symm

/-- **The invariant rule** for runs that returned. -/
theorem runAll_invariant {I : σ → Prop}
    (keep : ∀ s x s', I s → (step s x).out = .ret s' → I s') (xs : List ι) :
    ∀ {s s' : σ}, I s → (runAll step s xs).out = .ret s' → I s' := by
  induction xs with
  | nil =>
      intro s s' hs h
      cases h
      exact hs
  | cons x xs ih =>
      intro s s' hs h
      obtain ⟨s1, h1, h2⟩ := bind_out_eq_ret.mp h
      exact ih (keep s x s1 hs h1) h2

end Traced
