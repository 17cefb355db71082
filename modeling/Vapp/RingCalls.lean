import Vapp.RingSystem

/-! # Whole calls of `process_avail_vring`

A call of `process_avail_vring` that returns is a run of the ring: the consumer enters,
takes one turn for each entry and leaves, with no step of the producer in between.
-/
namespace Vapp

variable {κ μ : Type} {E : RingEnv} {s : RingState κ μ} {fuel : Nat}

/-- The labels of a call that consumes `n` entries. -/
def callLabels (n : Nat) : List RingLabel := .enter :: List.replicate n .serve

/-- The loop is at `c`, after a run that has consumed one entry for each of its turns. -/
structure AtTurn (E : RingEnv) (s : RingState κ μ) (c : AvailLoop μ) (t : RingState κ μ)
    (os : List (Option HandlerCall)) : Prop where
  run : Transition.Run (RingStep E) s (callLabels c.slots.length) t
  eq : t = { s with
    cons := c.table, mem := c.mem, cursor := some c.aIdx, outcomes := s.outcomes ++ os }
  turns : os.length = c.slots.length
  count : c.count = .ofNat os.length
  calls : os.filterMap id = c.calls

theorem AtTurn.next {c : AvailLoop μ} {r : AvailTurn μ} {t : RingState κ μ}
    {os : List (Option HandlerCall)} (h : AtTurn E s c t os)
    (hturn : availTurn E.consSpace fuel c.table E.vIdx c.aIdx c.mem = .ret (some r)) :
    ∃ t' os', AtTurn E s (c.next r) t' os' := by
  obtain ⟨hrun, rfl, hturns, hcount, hcalls⟩ := h
  refine ⟨_, os ++ [r.call],
    { run := ?_, eq := rfl, turns := ?_, count := ?_, calls := ?_ }⟩
  · have hlabels : callLabels (c.next r).slots.length =
        callLabels c.slots.length ++ [.serve] := by
      rw [callLabels, AvailLoop.next_slots, List.length_append, List.length_singleton,
        List.replicate_succ', ← List.cons_append]
      rfl
    rw [hlabels]
    refine .snoc hrun ?_
    have hserve := RingStep.serve (E := E)
      (s := { s with
        cons := c.table
        mem := c.mem
        cursor := some c.aIdx
        outcomes := s.outcomes ++ os }) (a := c.aIdx) rfl hturn
    rw [List.append_assoc] at hserve
    exact hserve
  · simp [hturns]
  · rw [AvailLoop.next_count, hcount, List.length_append, List.length_singleton, UInt32.ofNat_add]
    rfl
  · rw [List.filterMap_append, AvailLoop.next_calls, hcalls]
    cases r.call with
    | none => rfl
    | some call => rfl

/-- **A call that returns is a run of the ring**, and the calls of `avail_handler` it
made are those of the entries it consumed. -/
theorem run_of_processAvailVring {c : AvailLoop μ} (hidle : s.cursor = none)
    (h : processAvailVring E.consSpace fuel s.cons E.vIdx s.mem = .ret c) :
    ∃ os : List (Option HandlerCall),
      Transition.Run (RingStep E) s (callLabels os.length ++ [.leave])
        { s with
          cons := c.table
          mem := c.mem
          cursor := none
          outcomes := s.outcomes ++ os
          published := s.outcomes.length + os.length } ∧
      os.filterMap id = c.calls ∧ c.count = .ofNat os.length := by
  obtain ⟨c', m, ⟨t, os, hrun, rfl, hturns, hcount, hcalls⟩, hend, hleave, rfl⟩ :=
    processAvailVring_rule (I := fun c => ∃ t os, AtTurn E s c t os)
      (fun a henter => ⟨_, [],
        { run := .one (.enter hidle henter)
          eq := by simp
          turns := rfl
          count := rfl
          calls := rfl }⟩)
      (fun c r ⟨t, os, hat⟩ hturn => hat.next hturn) h
  refine ⟨os, ?_, hcalls, hcount⟩
  rw [hturns]
  refine .snoc hrun ?_
  have hstep := RingStep.leave (E := E)
    (s := { s with
      cons := c'.table
      mem := c'.mem
      cursor := some c'.aIdx
      outcomes := s.outcomes ++ os }) (a := c'.aIdx) rfl hend hleave
  simpa [hturns] using hstep

end Vapp
