import Mathlib.Data.List.Forall2
import Mathlib.Data.List.Perm.Basic
import Vapp.Library.Transition

/-! # What an action reads and writes

A state has fields, and an action reads some of them and writes some.  Two actions of which
neither writes what the other reads can change places, unless they write one field
differently; so a run ends in the same state in whatever order such actions come.
-/

/-- Actions with the fields that they read and write.  What an action does is decided by what
it reads, and it leaves alone what it does not write. -/
structure Footprint (σ ι φ : Type) where
  step : σ → ι → σ → Prop
  same : φ → σ → σ → Prop
  reads : ι → φ → Prop
  writes : ι → φ → Prop
  refl : ∀ f s, same f s s
  symm : ∀ {f s t}, same f s t → same f t s
  trans : ∀ {f s t u}, same f s t → same f t u → same f s u
  ext : ∀ {s t}, (∀ f, same f s t) → s = t
  frame : ∀ {s a t f}, step s a t → ¬ writes a f → same f s t
  congr : ∀ {s s' a t}, step s a t → (∀ f, reads a f → same f s s') →
    ∃ t', step s' a t' ∧ ∀ f, writes a f → same f t t'

namespace Footprint

variable {σ ι φ : Type} (F : Footprint σ ι φ)

/-- Neither action writes what the other reads, and what both write they write alike. -/
structure Apart (a b : ι) : Prop where
  left : ∀ f, F.writes a f → ¬ F.reads b f
  right : ∀ f, F.writes b f → ¬ F.reads a f
  alike : ∀ f, F.writes a f → F.writes b f → ∀ s t s' t', F.step s a t → F.step s' b t' →
    F.same f t t'

/-- The same actions in an order in which only such as are apart have changed places. -/
inductive Reorder : List ι → List ι → Prop
  | nil : Reorder [] []
  | cons {as bs : List ι} (a : ι) (h : Reorder as bs) : Reorder (a :: as) (a :: bs)
  | swap {a b : ι} (as : List ι) (h : F.Apart a b) : Reorder (a :: b :: as) (b :: a :: as)
  | trans {as bs cs : List ι} (h : Reorder as bs) (h' : Reorder bs cs) : Reorder as cs

variable {F} {a b : ι} {as bs : List ι} {s t u : σ}

/-- **Two actions that are apart can change places.** -/
theorem Apart.comm (h : F.Apart a b) (ha : F.step s a t) (hb : F.step t b u) :
    ∃ t', F.step s b t' ∧ F.step t' a u := by
  have hab : ∀ f, F.reads b f → F.same f t s := fun f hf =>
    F.symm (F.frame ha fun hw => h.left f hw hf)
  obtain ⟨t', hb', hwb⟩ := F.congr hb hab
  have hba : ∀ f, F.reads a f → F.same f s t' := fun f hf =>
    F.frame hb' fun hw => h.right f hw hf
  obtain ⟨u', ha', hwa⟩ := F.congr ha hba
  obtain rfl : u = u' := by
    refine F.ext fun f => ?_
    by_cases hfa : F.writes a f
    · by_cases hfb : F.writes b f
      · exact F.symm (h.alike f hfa hfb _ _ _ _ ha' hb)
      · exact F.trans (F.symm (F.frame hb hfb)) (hwa f hfa)
    · have hu' := F.frame ha' hfa
      by_cases hfb : F.writes b f
      · exact F.trans (hwb f hfb) hu'
      · have hu := F.trans (F.frame ha hfa) (F.frame hb hfb)
        exact F.trans (F.symm hu) (F.trans (F.frame hb' hfb) hu')
  exact ⟨t', hb', ha'⟩

/-- The first action of a run. -/
theorem run_cons {as : List ι} : Transition.Run F.step s (a :: as) u ↔
    ∃ t, F.step s a t ∧ Transition.Run F.step t as u := by
  constructor
  · intro h
    have hcut : Transition.Run F.step s ([a] ++ as) u := h
    obtain ⟨t, ht, hu⟩ := hcut.split
    exact ⟨t, ht.of_singleton, hu⟩
  · rintro ⟨t, ht, hu⟩
    exact (Transition.Run.one ht).append hu

/-- **A run does not depend on the order of actions that are apart.** -/
theorem Reorder.run (h : F.Reorder as bs) : ∀ {s : σ}, Transition.Run F.step s as u →
    Transition.Run F.step s bs u := by
  induction h with
  | nil => exact id
  | cons a _ ih =>
      intro s hrun
      obtain ⟨t, ht, hu⟩ := run_cons.mp hrun
      exact run_cons.mpr ⟨t, ht, ih hu⟩
  | swap as hab =>
      intro s hrun
      obtain ⟨t, ha, hrun⟩ := run_cons.mp hrun
      obtain ⟨v, hb, hrun⟩ := run_cons.mp hrun
      obtain ⟨t', hb', ha'⟩ := hab.comm ha hb
      exact run_cons.mpr ⟨t', hb', run_cons.mpr ⟨v, ha', hrun⟩⟩
  | trans _ _ ih ih' => exact fun hrun => ih' (ih hrun)

theorem Reorder.refl (as : List ι) : F.Reorder as as := by
  induction as with
  | nil => exact .nil
  | cons a as ih => exact .cons a ih

/-- An action that is apart from those before it can come first. -/
theorem Reorder.to_front {pre : List ι} (as : List ι) (hap : ∀ b ∈ pre, F.Apart b a) :
    F.Reorder (pre ++ a :: as) (a :: (pre ++ as)) := by
  induction pre with
  | nil => exact .refl _
  | cons b pre ih =>
      have hrest := ih fun c hc => hap c (List.mem_cons_of_mem _ hc)
      exact .trans (.cons b hrest) (.swap _ (hap b (List.mem_cons_self ..)))

/-- **Two orders that agree on the actions that are not apart** differ only in the others.
The first puts `x` before `y` only where they are apart or `before x y`, and the second turns
no such pair round. -/
theorem Reorder.of_perm {before : ι → ι → Prop} (h : as.Perm bs)
    (has : as.Pairwise fun x y => F.Apart x y ∨ before x y)
    (hbs : bs.Pairwise fun x y => ¬ before y x) : F.Reorder as bs := by
  induction bs generalizing as with
  | nil =>
      rw [h.eq_nil]
      exact .nil
  | cons b bs ih =>
      obtain ⟨pre, suf, rfl⟩ := List.append_of_mem (h.mem_iff.mpr (List.mem_cons_self ..))
      obtain ⟨hb, hbs⟩ := List.pairwise_cons.mp hbs
      have hperm : (pre ++ suf).Perm bs := (List.perm_middle.symm.trans h).cons_inv
      have hmiddle := (List.pairwise_append.mp has).2.2
      -- what stands before `b` on one side only is apart from it
      have hap : ∀ x ∈ pre, F.Apart x b := by
        intro x hx
        rcases hmiddle x hx b (List.mem_cons_self ..) with hap | hxb
        · exact hap
        · exact absurd hxb (hb x (hperm.mem_iff.mp (List.mem_append_left suf hx)))
      have hsub : (pre ++ suf).Sublist (pre ++ b :: suf) :=
        (List.Sublist.refl pre).append (List.sublist_cons_self b suf)
      exact .trans (.to_front suf hap) (.cons b (ih hperm (has.sublist hsub) hbs))

/-- A run leaves alone what none of its actions writes. -/
theorem run_frame {f : φ} (h : Transition.Run F.step s as t) (hw : ∀ a ∈ as, ¬ F.writes a f) :
    F.same f s t := by
  induction h with
  | nil => exact F.refl f s
  | @snoc as t u a _ hs ih =>
      have hpre := ih fun b hb => hw b (List.mem_append_left _ hb)
      exact F.trans hpre (F.frame hs (hw a (List.mem_append_right _ (List.mem_singleton_self a))))

section Parts
variable {κ : Type} {R : ι → κ → Prop} {ks : List κ}

theorem part_of_mem (h : List.Forall₂ R as ks) (ha : a ∈ as) : ∃ k ∈ ks, R a k := by
  induction h with
  | nil => cases ha
  | cons hk _ ih =>
      rcases List.mem_cons.mp ha with rfl | ha
      · exact ⟨_, List.mem_cons_self .., hk⟩
      · obtain ⟨k, hmem, hk⟩ := ih ha
        exact ⟨k, List.mem_cons_of_mem _ hmem, hk⟩

/-- Actions are apart where each has a part of its own. -/
theorem pairwise_of_parts (h : List.Forall₂ R as ks) (hks : ks.Nodup)
    (hap : ∀ a b k l, R a k → R b l → k ≠ l → F.Apart a b) : as.Pairwise F.Apart := by
  induction h with
  | nil => exact .nil
  | cons hk hrest ih =>
      obtain ⟨hnot, hks⟩ := List.nodup_cons.mp hks
      refine List.pairwise_cons.mpr ⟨fun b hb => ?_, ih hks⟩
      obtain ⟨l, hmem, hl⟩ := part_of_mem hrest hb
      exact hap _ _ _ _ hk hl fun heq => hnot (heq ▸ hmem)

end Parts

end Footprint
