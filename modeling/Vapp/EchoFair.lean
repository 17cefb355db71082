import Vapp.EchoPass
import Vapp.Library.LeadsTo

/-! # Both programs go on

In a run in which both loops go on for ever, every packet that `poll_server` has put on the RX
ring comes to the client: the server kicks, the client reads the kick, and its call of
`process_avail_vring` goes on until nothing is left.  What the client puts on the TX ring
meanwhile does not matter.
-/
namespace Vapp

/-! ### Fair runs -/

/-- Both programs go on: the server makes step after step, and the client kicks when it has put
a packet, reads a kick that it was given, and goes on with its call. -/
structure Fair (st : Nat → EchoState) (lb : Nat → EchoLabel) : Prop where
  server : ∀ n, ∃ m, n ≤ m ∧ (lb m).ofServer = true
  kick : ∀ n, (st n).mustKick = true → ∃ m, n ≤ m ∧ lb m = .loop .kick
  read : ∀ n, (st n).rxKicks ≠ 0 → (st n).rxCursor = none → ∃ m, n ≤ m ∧ lb m = .rxRead
  call : ∀ n, (st n).rxCursor ≠ none → ∃ m, n ≤ m ∧ (lb m = .rxServe ∨ lb m = .rxLeave)

/-! ### What is on the RX ring -/

/-- There are at least `k` packets on the RX ring, those that came back counted. -/
structure Owed (S : Session) (k : Nat) (e : EchoState) : Prop where
  echoing : Echoing S e
  rxAwake : RxAwake e
  placed : k ≤ e.placed.length

/-- Nothing is taken back from the RX ring. -/
theorem placed_grows {S : Session} {e f : EchoState} {l : EchoLabel} (hs : EchoStep S e l f) :
    e.placed <+: f.placed := by
  cases hs with
  | loop _ _ hs =>
      cases hs with
      | @forward r t m _ _ _ _ =>
          show e.placed <+: if r = 0 then _ else _
          split
          · exact List.prefix_append _ _
          · exact List.prefix_rfl
      | _ => exact List.prefix_rfl
  | _ => exact List.prefix_rfl

section Owed
variable {S : Session} {k : Nat} {e f : EchoState} {l : EchoLabel} {st : Nat → EchoState}
  {lb : Nat → EchoLabel}

theorem owed_step (h : Owed S k e) (hs : PayloadStep S e l f) : Owed S k f :=
  ⟨echoing_step h.echoing hs.payload hs.step, rxAwake_step h.rxAwake h.echoing hs.step,
    Nat.le_trans h.placed (placed_grows hs.step).length_le⟩

variable (hpath : Transition.Endless (PayloadStep S) st lb) (hfair : Fair st lb)
include hpath hfair

/-- The server kicks for what it has put on the RX ring. -/
theorem leadsTo_woken : Transition.LeadsTo st
    (fun e => Owed S k e ∧ e.rxOutcomes.length < k)
    (fun e => Owed S k e ∧ (e.rxKicks ≠ 0 ∨ e.rxCursor ≠ none)) := by
  have hkick : Transition.LeadsTo st (fun e => Owed S k e ∧ e.rxMustKick = true)
      (fun e => Owed S k e ∧ (e.rxKicks ≠ 0 ∨ e.rxCursor ≠ none)) := by
    refine hpath.leadsTo (A := (·.ofServer = true)) (fun _ => 0) (fun n _ => hfair.server n)
      fun e l f hP hs => ?_
    obtain ⟨howed, hmust⟩ := hP
    have hnext := owed_step howed hs
    cases hs.step with
    | @loop l t _ hserver _ =>
        -- only the client can make such a step
        refine .inr ⟨⟨hnext, ?_⟩, Nat.le_refl 0, fun hl => ?_⟩
        · show (e.rxMustKick || _) = true
          rw [hmust, Bool.true_or]
        · cases hmust.symm.trans (hserver (ofClient_of_ofServer hl))
    | rxKick _ => exact .inl ⟨hnext, .inl (eventfdWrite_ne_zero _)⟩
    | rxRead _ _ _ _ | rxServe _ _ | rxLeave _ _ _ =>
        exact .inr ⟨⟨hnext, hmust⟩, Nat.le_refl 0, nofun⟩
  intro n hP
  obtain ⟨howed, hlt⟩ := hP
  rcases howed.rxAwake.awake (Nat.lt_of_lt_of_le hlt howed.placed) with hk | hm | hcall
  · exact ⟨n, Nat.le_refl n, howed, .inl hk⟩
  · exact hkick n ⟨howed, hm⟩
  · exact ⟨n, Nat.le_refl n, howed, .inr hcall⟩

/-- The client reads the kick. -/
theorem leadsTo_call : Transition.LeadsTo st
    (fun e => Owed S k e ∧ (e.rxKicks ≠ 0 ∨ e.rxCursor ≠ none))
    (fun e => Owed S k e ∧ e.rxCursor ≠ none) := by
  refine Transition.LeadsTo.of_not (hpath.leadsTo (A := (· = .rxRead)) (fun _ => 0)
    (fun n hP => ?_) fun e l f hP hs => ?_)
  · obtain ⟨⟨howed, hwoken⟩, hidle⟩ := hP
    have hcur : (st n).rxCursor = none := by_contra fun hne => hidle ⟨howed, hne⟩
    exact hfair.read n (hwoken.resolve_right fun hne => hne hcur) hcur
  · obtain ⟨⟨howed, hwoken⟩, hidle⟩ := hP
    have hnext := owed_step howed hs
    have hcur : e.rxCursor = none := by_contra fun hne => hidle ⟨howed, hne⟩
    have hkicks := hwoken.resolve_right fun hne => hne hcur
    cases hs.step with
    | loop _ _ _ =>
        exact .inr ⟨⟨⟨hnext, .inl hkicks⟩, fun h => h.2 hcur⟩, Nat.le_refl 0, nofun⟩
    | rxKick _ =>
        exact .inr ⟨⟨⟨hnext, .inl (eventfdWrite_ne_zero _)⟩, fun h => h.2 hcur⟩,
          Nat.le_refl 0, nofun⟩
    | rxRead _ _ _ _ => exact .inl ⟨hnext, Option.some_ne_none _⟩
    | rxServe hcall _ | rxLeave hcall _ _ => cases hcur.symm.trans hcall

/-- Its call hands the packets to `avail_handler_client`. -/
theorem leadsTo_served : Transition.LeadsTo st
    (fun e => Owed S k e ∧ e.rxCursor ≠ none) (fun e => k ≤ e.rxOutcomes.length) := by
  refine hpath.leadsTo (A := fun l => l = .rxServe ∨ l = .rxLeave)
    (fun e => k - e.rxOutcomes.length) (fun n hP => hfair.call n hP.2) fun e l f hP hs => ?_
  obtain ⟨howed, hcall⟩ := hP
  have hnext := owed_step howed hs
  cases hs.step with
  | loop _ _ _ => exact .inr ⟨⟨hnext, hcall⟩, Nat.le_refl _, nofun⟩
  | rxKick _ => exact .inr ⟨⟨hnext, hcall⟩, Nat.le_refl _, nofun⟩
  | rxRead _ hidle _ _ => exact absurd hidle hcall
  | @rxServe a fuel r _ _ =>
      rcases Nat.lt_or_ge e.rxOutcomes.length k with hlt | hge
      · have hless : k - (e.rxOutcomes ++ [r.call]).length < k - e.rxOutcomes.length := by
          rw [List.length_append, List.length_singleton]
          omega
        exact .inr ⟨⟨hnext, Option.some_ne_none _⟩, Nat.le_of_lt hless, fun _ => hless⟩
      · refine .inl (Nat.le_trans hge ?_)
        rw [List.length_append]
        exact Nat.le_add_right _ _
  | rxLeave _ hturn _ =>
      refine .inl ?_
      show k ≤ e.rxOutcomes.length
      rw [howed.echoing.rx_left hturn]
      exact howed.placed

/-- **What is on the RX ring is handed to the client.** -/
theorem leadsTo_handed (k : Nat) :
    Transition.LeadsTo st (Owed S k) (fun e => k ≤ e.rxOutcomes.length) := by
  refine .of_not fun n hP => ?_
  exact (leadsTo_woken hpath hfair).trans
    ((leadsTo_call hpath hfair).trans (leadsTo_served hpath hfair)) n
    ⟨hP.1, Nat.lt_of_not_le hP.2⟩

end Owed

end Vapp
