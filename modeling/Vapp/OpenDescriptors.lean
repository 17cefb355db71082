import Vapp.KickLimit

/-! # The descriptors that stay open

A connection is closed when its client has gone.  The descriptors that came with its
messages are not: those of its regions, its kicks and its calls stay open in the server
until it ends.
-/
namespace Vapp

/-- The descriptors that come with an event. -/
def Event.fds : Event → List Int
  | .message _ msg _ => (List.range msg.fdNum).map msg.fds
  | _ => []

/-- The open descriptors of a process, each once. -/
structure OpenAre (p : Process) (fds : List Int) : Prop where
  nodup : fds.Nodup
  iff : ∀ fd, p.isOpen fd ↔ fd ∈ fds

section Steps
variable {fuel : Nat} {sock g : Int} {p q r : Process} {e : Event} {es : List Event}
  {sessions : List ClientSession} {fds : List Int}

theorem FdStep.isOpen_iff (hs : FdStep fuel p e q) (fd : Int) : q.isOpen fd ↔
    (p.isOpen fd ∨ fd ∈ e.opened p.world) ∧ e.closed p.world ≠ some fd := by
  cases hs with
  | event _ _ => exact Iff.rfl

/-- A step that closes nothing adds what it opens. -/
theorem OpenAre.step (h : OpenAre p fds) (hs : FdStep fuel p e q)
    (hclosed : e.closed p.world = none) : OpenAre q (fds ++ e.opened p.world) := by
  obtain ⟨hnodup, hnew⟩ := hs.unused
  refine ⟨List.nodup_append.mpr ⟨h.nodup, hnodup, ?_⟩, fun fd => ?_⟩
  · rintro fd hfd _ hfd' rfl
    exact (hnew fd hfd').2 ((h.iff fd).mpr hfd)
  · rw [hs.isOpen_iff, hclosed, h.iff, List.mem_append]
    exact and_iff_left nofun

/-- A step that opens nothing takes out what it closes. -/
theorem OpenAre.close {before later : List Int} (h : OpenAre p (before ++ [g] ++ later))
    (hs : FdStep fuel p e q) (hopened : e.opened p.world = [])
    (hclosed : e.closed p.world = some g) : OpenAre q (before ++ later) := by
  have hnodup : (before ++ g :: later).Nodup := by
    rw [List.append_cons]
    exact h.nodup
  obtain ⟨hbefore, hrest, hdisjoint⟩ := List.nodup_append.mp hnodup
  obtain ⟨hfresh, hlater⟩ := List.nodup_cons.mp hrest
  refine ⟨List.nodup_append.mpr ⟨hbefore, hlater, fun a ha b hb => ?_⟩, fun fd => ?_⟩
  · exact hdisjoint a ha b (List.mem_cons_of_mem g hb)
  · rw [hs.isOpen_iff, hopened, hclosed, h.iff]
    simp only [List.mem_append, List.mem_singleton, List.not_mem_nil, or_false, ne_eq,
      Option.some.injEq]
    constructor
    · rintro ⟨(hfd | rfl) | hfd, hne⟩
      · exact .inl hfd
      · exact absurd rfl hne
      · exact .inr hfd
    · rintro (hfd | hfd)
      · exact ⟨.inl (.inl hfd), fun heq => hdisjoint fd hfd g List.mem_cons_self heq.symm⟩
      · refine ⟨.inr hfd, ?_⟩
        rintro rfl
        exact hfresh hfd

end Steps

end Vapp
