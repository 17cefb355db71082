import Vapp.EchoRuns

/-! # The passes of the server

Whatever the client does, each step of the server brings it nearer to the end of its pass,
and it is never without one while there is room on the RX ring.  What a pass has to look at is
fixed by its `select`: a pass that began with a kick, or one of a polling server, consumes
everything that was on the TX ring.
-/
namespace Vapp

/-! ### The server looks after the TX ring -/

/-- The server polls the TX ring, or its kick descriptor is in the list; no client waits to be
accepted. -/
structure Attends (S : Session) (s : LoopState) : Prop where
  backlog : s.backlog = false
  handler : ∀ i, (s.fdList i).fd = S.kickfd txIdx → (s.fdList i).handler = some .kickServer
  looks : s.world.server.isPolling = true ∨ ∃ i, (s.fdList i).fd = S.kickfd txIdx

/-- What holds of the server in every pass. -/
structure Attentive (S : Session) (s : LoopState) : Prop extends Attends S s where
  slots : ∀ ready k, s.stage = .slots ready k → k ≤ fdListSize ∧
    ∀ i : Fin fdListSize, k ≤ i → ready (s.fdList i).fd = true → (s.fdList i).fd = S.kickfd txIdx
  calling : s.cursor ≠ none → s.stage ≠ .idle ∧ s.stage ≠ .poll
  idle : s.stage = .idle → s.world.context.bufferSize = 0
  awake : s.outcomes.length < s.sent.length →
    s.world.server.isPolling = true ∨ s.kicks ≠ 0 ∨ s.mustKick = true ∨ s.cursor ≠ none

section Keep
variable {S : Session} {e f : EchoState} {l : EchoLabel}

theorem EchoConfigured.attentive (h : EchoConfigured S e) (hatt : Attends S e.toLoopState) :
    Attentive S e.toLoopState := by
  refine ⟨hatt, fun ready k hstage => ?_, fun hcall => absurd h.rings.cursor hcall,
    fun _ => h.rings.empty, fun hlt => ?_⟩
  · rw [h.rings.stage] at hstage
    cases hstage
  · rw [h.rings.sent] at hlt
    exact absurd hlt (Nat.not_lt_zero _)

/-- Both rings are set up. -/
theorem Echoing.desc_ne (h : Echoing S e) (i : RingIdx) : (e.world.vring i).desc ≠ 0 := by
  have hnull := S.server.resolve_zero
  rcases ringIdx_cases i with rfl | rfl
  · intro hdesc
    have hres := h.rx.wired.prodDesc
    rw [show (e.rxRing.prod.vring S.rxEnv.vIdx).desc = 0 from hdesc] at hres
    cases hnull.symm.trans hres
  · intro hdesc
    have hres := h.tx.wired.consDesc
    rw [show (e.tx.cons.vring S.txEnv.vIdx).desc = 0 from hdesc] at hres
    cases hnull.symm.trans hres

theorem Echoing.tx_left (h : Echoing S e) {a : UInt16} {fuel : Nat}
    (hturn : availTurn e.world.space fuel e.world.server.table txIdx a e.world.mem = .ret none) :
    e.outcomes.length = e.sent.length := by
  rw [h.space] at hturn
  exact h.tx.all_consumed h.sentFit hturn

/-- Nothing but the kick descriptor is in the set. -/
theorem Attentive.visits (h : Attentive S e.toLoopState) {ready : Int → Bool} {k : Nat}
    {node : FdNode} (hvisit : e.Visits ready k node) : node.handler = some .kickServer := by
  obtain ⟨hk, hslot⟩ := hvisit.slot
  have hready := hvisit.ready
  rw [← hslot] at hready ⊢
  exact h.handler _ ((h.slots ready k hvisit.stage).2 _ (Nat.le_refl k) hready)

theorem attentive_step (h : Attentive S e.toLoopState) (he : Echoing S e)
    (hs : EchoStep S e l f) : Attentive S f.toLoopState := by
  have hatt := h.toAttends
  cases hs with
  | @loop l t hclient hserver hs =>
      cases hs with
      | send hunsent _ =>
          rw [he.unsent] at hunsent
          cases hunsent
      | @put buf r c m hrun hput =>
          refine ⟨⟨hatt.1, hatt.2, hatt.3⟩, h.slots, h.calling, h.idle, fun hlt => ?_⟩
          by_cases hr : r = 0
          · exact .inr (.inr (.inl (decide_eq_true hr)))
          · dsimp only at hlt
            rw [if_neg hr] at hlt
            refine (h.awake hlt).imp_right (Or.imp_right (Or.imp_left fun hk => ?_))
            rw [hrun.mustKick] at hk
            cases hk
      | kick _ =>
          exact ⟨⟨hatt.1, hatt.2, hatt.3⟩, h.slots, h.calling, h.idle,
            fun _ => .inr (.inl (eventfdWrite_ne_zero _))⟩
      | reclaim _ _ => exact ⟨⟨hatt.1, hatt.2, hatt.3⟩, h.slots, h.calling, h.idle, h.awake⟩
      | select hstage =>
          refine ⟨⟨hatt.1, hatt.2, hatt.3⟩, fun ready k heq => ?_,
            fun hcall => absurd hstage (h.calling hcall).1, nofun, h.awake⟩
          obtain ⟨rfl, rfl⟩ := Stage.slots.inj heq
          refine ⟨Nat.zero_le _, fun i _ hfd => by_contra fun hne => ?_⟩
          dsimp only at hfd
          rw [selected_of_quiet hatt.backlog he.queue hne] at hfd
          cases hfd
      | skip hstage hcur hk _ =>
          refine ⟨⟨hatt.1, hatt.2, hatt.3⟩, fun ready j heq => ?_, fun hcall => absurd hcur hcall,
            nofun, h.awake⟩
          obtain ⟨rfl, rfl⟩ := Stage.slots.inj heq
          exact ⟨hk, fun i hi => (h.slots _ _ hstage).2 i (Nat.le_of_succ_le hi)⟩
      | accept hvisit => cases h.visits hvisit
      | receive hvisit _ _ _ => cases h.visits hvisit
      | @unkicked ready k hvisit hkicks =>
          obtain ⟨hk, -⟩ := hvisit.slot
          refine ⟨⟨hatt.1, hatt.2, hatt.3⟩, fun ready j heq => ?_,
            fun hcall => absurd hvisit.cursor hcall, nofun, h.awake⟩
          obtain ⟨rfl, rfl⟩ := Stage.slots.inj heq
          exact ⟨hk, fun i hi => (h.slots _ _ hvisit.stage).2 i (Nat.le_of_succ_le hi)⟩
      | dropped _ _ hdesc => exact absurd hdesc (he.desc_ne txIdx)
      | @kicked ready k a hvisit hkicks _ _ =>
          obtain ⟨hk, -⟩ := hvisit.slot
          refine ⟨⟨hatt.1, hatt.2, hatt.3⟩, fun ready j heq => ?_, fun _ => ⟨nofun, nofun⟩, nofun,
            fun _ => .inr (.inr (.inr (Option.some_ne_none _)))⟩
          obtain ⟨rfl, rfl⟩ := Stage.slots.inj heq
          exact ⟨hk, fun i hi => (h.slots _ _ hvisit.stage).2 i (Nat.le_of_succ_le hi)⟩
      | serve hcur _ =>
          have hcall := h.calling (by rw [hcur]; exact Option.some_ne_none _)
          exact ⟨⟨hatt.1, hatt.2, hatt.3⟩, h.slots, fun _ => hcall,
            fun hstage => absurd hstage hcall.1,
            fun _ => .inr (.inr (.inr (Option.some_ne_none _)))⟩
      | leave hcur hturn _ =>
          have hcall := h.calling (by rw [hcur]; exact Option.some_ne_none _)
          exact ⟨⟨hatt.1, hatt.2, hatt.3⟩, h.slots, fun hne => absurd rfl hne,
            fun hstage => absurd hstage hcall.1,
            fun hlt => absurd (he.tx_left hturn) (Nat.ne_of_lt hlt)⟩
      | endSlots _ hcur =>
          exact ⟨⟨hatt.1, hatt.2, hatt.3⟩, nofun, fun hcall => absurd hcur hcall, nofun, h.awake⟩
      | pollUnset _ _ hdesc => exact absurd hdesc (he.desc_ne rxIdx)
      | pollQuiet _ hcur _ _ =>
          exact ⟨⟨hatt.1, hatt.2, hatt.3⟩, nofun, fun hcall => absurd hcur hcall, nofun, h.awake⟩
      | pollEnter _ _ _ _ _ _ =>
          exact ⟨⟨hatt.1, hatt.2, hatt.3⟩, nofun, fun _ => ⟨nofun, nofun⟩, nofun,
            fun _ => .inr (.inr (.inr (Option.some_ne_none _)))⟩
      | forwardNone _ hcur hempty =>
          exact ⟨⟨hatt.1, hatt.2, hatt.3⟩, nofun, fun hcall => absurd hcur hcall, fun _ => hempty,
            h.awake⟩
      | forward _ hcur _ _ =>
          exact ⟨⟨hatt.1, hatt.2, hatt.3⟩, nofun, fun hcall => absurd hcur hcall, fun _ => rfl,
            h.awake⟩
  | rxKick _ | rxRead _ _ _ _ | rxServe _ _ | rxLeave _ _ _ =>
      exact ⟨⟨hatt.1, hatt.2, hatt.3⟩, h.slots, h.calling, h.idle, h.awake⟩

end Keep

/-! ### A step of a pass -/

/-- The steps that are left of a pass, but for those that consume a packet. -/
def Stage.rank : Stage → Nat
  | .idle => 0
  | .slots _ k => 5 + 2 * (fdListSize - k)
  | .poll => 4
  | .forward => 2

/-- The packets that `poll_server` may still put in a pass. -/
def Stage.puts : Stage → Nat
  | .idle => 0
  | .slots _ _ | .poll | .forward => 1

namespace LoopState
variable (S : Session) (s : LoopState)

/-- A bound on the steps up to the end of a pass in which the client puts nothing. -/
def work : Nat := s.sent.length - s.outcomes.length + s.stage.rank + s.cursor.isSome.toNat

/-- The descriptors of the RX ring that are taken at the end of the pass, at the most. -/
def claimed : Nat := s.placed.length + s.stage.puts

/-- A step that puts the packet in the private buffer on the RX ring. -/
def puts (l : LoopLabel) : Bool := l = .forward ∧ s.world.context.bufferSize ≠ 0

/-- The pass has still to look for what is on the TX ring, or for the kick that was given. -/
structure Due : Prop where
  polled : s.world.server.isPolling = true → s.outcomes.length < s.sent.length →
    s.cursor ≠ none ∨ s.stage = .poll ∨ ∃ ready k, s.stage = .slots ready k
  kicked : s.world.server.isPolling = false → s.kicks ≠ 0 →
    ∃ ready k, s.stage = .slots ready k ∧ ready (S.kickfd txIdx) = true ∧
      ∃ i : Fin fdListSize, k ≤ i ∧ (s.fdList i).fd = S.kickfd txIdx

/-- What a step of the server in a pass does. -/
structure PassStep (l : LoopLabel) (t : LoopState) : Prop where
  work : t.work + (s.puts l).toNat < s.work
  claimed : t.claimed ≤ s.claimed
  sent : t.sent = s.sent
  mustKick : t.mustKick = s.mustKick
  due : s.Due S → t.Due S

end LoopState

section Pass
variable {S : Session} {e f : EchoState} {s t : LoopState} {l : LoopLabel}

/-- After the slots and the poll there is nothing left that the pass has to look for. -/
theorem LoopState.Due.done (h : s.Due S) (hcur : s.cursor = none)
    (hstage : s.stage = .idle ∨ s.stage = .forward) :
    (s.world.server.isPolling = true → ¬ s.outcomes.length < s.sent.length) ∧
      (s.world.server.isPolling = false → s.kicks = 0) := by
  have hslots : ∀ ready k, s.stage ≠ .slots ready k := by
    intro ready k heq
    rw [heq] at hstage
    rcases hstage with hstage | hstage <;> cases hstage
  refine ⟨fun hpolling hlt => ?_, fun hquiet => by_contra fun hkicks => ?_⟩
  · rcases h.polled hpolling hlt with hcall | hpoll | ⟨ready, k, heq⟩
    · exact hcall hcur
    · rw [hpoll] at hstage
      rcases hstage with hstage | hstage <;> cases hstage
    · exact hslots ready k heq
  · obtain ⟨ready, k, heq, -⟩ := h.kicked hquiet hkicks
    exact hslots ready k heq

/-- The next slot, in which there is no kick to be read. -/
theorem LoopState.Due.next {ready : Int → Bool} {k : Nat} (h : s.Due S)
    (hstage : s.stage = .slots ready k) (hk : k < fdListSize)
    (hout : s.kicks ≠ 0 → ready (s.fdList ⟨k, hk⟩).fd = false) :
    { s with stage := .slots ready (k + 1) }.Due S := by
  refine ⟨fun _ _ => .inr (.inr ⟨_, _, rfl⟩), fun hquiet hkicks => ?_⟩
  obtain ⟨ready', k', heq, hready, i, hi, hfd⟩ := h.kicked hquiet hkicks
  obtain ⟨rfl, rfl⟩ := Stage.slots.inj (hstage.symm.trans heq)
  refine ⟨_, _, rfl, hready, i, Nat.lt_of_le_of_ne hi ?_, hfd⟩
  rintro rfl
  rw [← hfd, hout hkicks] at hready
  cases hready

theorem LoopState.puts_of_ne (hne : l ≠ .forward) : s.puts l = false :=
  decide_eq_false fun hput => hne hput.1

theorem LoopState.claimed_le (hplaced : t.placed = s.placed)
    (hputs : t.stage.puts ≤ s.stage.puts) : t.claimed ≤ s.claimed := by
  rw [LoopState.claimed, LoopState.claimed, hplaced]
  exact Nat.add_le_add_left hputs _

/-- Less is left to do when a stage with a smaller rank comes next, even if a call of
`process_avail_vring` is entered there. -/
theorem LoopState.work_lt (hsent : t.sent = s.sent) (houtcomes : t.outcomes = s.outcomes)
    (hcur : s.cursor = none)
    (hrank : t.stage.rank + t.cursor.isSome.toNat + (s.puts l).toNat < s.stage.rank) :
    t.work + (s.puts l).toNat < s.work := by
  rw [LoopState.work, LoopState.work, hsent, houtcomes, hcur]
  simp only [Option.isSome_none, Bool.toNat_false]
  omega

/-- **The pass comes nearer to its end** with every step of the server but a `select`. -/
theorem passStep_of_step (h : Attentive S e.toLoopState) (he : Echoing S e)
    (hl : l.ofClient = false) (hne : l ≠ .select) (hs : LoopStep S e.toLoopState l t) :
    e.toLoopState.PassStep S l t := by
  have hno : l ≠ .forward → e.puts l = false := LoopState.puts_of_ne
  have hslot : ∀ {ready k c}, e.stage = .slots ready k → k < fdListSize → l ≠ .forward →
      Stage.rank (.slots ready (k + 1)) + Bool.toNat c + (e.puts l).toNat < e.stage.rank := by
    intro ready k c hstage hk hlf
    have hc := Bool.toNat_le c
    rw [hno hlf, hstage, Bool.toNat_false, Stage.rank, Stage.rank]
    omega
  cases hs with
  | send _ _ | put _ _ | kick _ | reclaim _ _ => cases hl
  | select _ => exact absurd rfl hne
  | @skip ready k hstage hcur hk hout =>
      refine ⟨LoopState.work_lt rfl rfl hcur (hcur ▸ hslot hstage hk nofun),
        LoopState.claimed_le rfl (hstage ▸ Nat.le_refl 1), rfl, rfl, ?_⟩
      exact fun hdue => hdue.next hstage hk fun _ => hout
  | accept hvisit => cases h.visits hvisit
  | receive hvisit _ _ _ => cases h.visits hvisit
  | @unkicked ready k hvisit hkicks =>
      obtain ⟨hk, -⟩ := hvisit.slot
      refine ⟨LoopState.work_lt rfl rfl hvisit.cursor
        (hvisit.cursor ▸ hslot hvisit.stage hk nofun),
        LoopState.claimed_le rfl (hvisit.stage ▸ Nat.le_refl 1), rfl, rfl, ?_⟩
      exact fun hdue => hdue.next hvisit.stage hk fun hne => absurd hkicks hne
  | dropped _ _ hdesc => exact absurd hdesc (he.desc_ne txIdx)
  | @kicked ready k a hvisit _ _ _ =>
      obtain ⟨hk, -⟩ := hvisit.slot
      refine ⟨LoopState.work_lt rfl rfl hvisit.cursor (hslot hvisit.stage hk nofun),
        LoopState.claimed_le rfl (hvisit.stage ▸ Nat.le_refl 1), rfl, rfl, fun _ => ?_⟩
      exact ⟨fun _ _ => .inl (Option.some_ne_none a), fun _ hne => absurd rfl hne⟩
  | @serve a fuel r hcur hturn =>
      obtain ⟨buf, hdrop, -, -⟩ := he.served hcur hturn
      have hlt : e.outcomes.length < e.sent.length := by
        have hlen := congrArg List.length hdrop
        rw [List.length_drop, List.length_cons] at hlen
        omega
      refine ⟨?_, Nat.le_refl _, rfl, rfl,
        fun hdue => ⟨fun _ _ => .inl (Option.some_ne_none _), hdue.kicked⟩⟩
      rw [hno nofun, LoopState.work, LoopState.work, hcur]
      simp only [List.length_append, List.length_singleton, Option.isSome_some]
      show _ + 0 < _
      omega
  | @leave a fuel m hcur hturn _ =>
      refine ⟨?_, Nat.le_refl _, rfl, rfl, fun hdue => ⟨fun _ hlt => ?_, hdue.kicked⟩⟩
      · rw [hno nofun, LoopState.work, LoopState.work, hcur]
        exact Nat.lt_succ_self _
      · exact absurd (he.tx_left hturn) (Nat.ne_of_lt hlt)
  | @endSlots ready hstage hcur =>
      refine ⟨LoopState.work_lt rfl rfl hcur ?_,
        LoopState.claimed_le rfl (hstage ▸ Nat.le_refl 1), rfl, rfl,
        fun hdue => ⟨fun _ _ => .inr (.inl rfl), fun hquiet hkicks => ?_⟩⟩
      · rw [hno nofun, hstage, hcur]
        exact Nat.lt_succ_self 4
      · obtain ⟨ready', k, heq, -, i, hi, -⟩ := hdue.kicked hquiet hkicks
        obtain ⟨-, rfl⟩ := Stage.slots.inj (hstage.symm.trans heq)
        exact absurd i.isLt (Nat.not_lt.mpr hi)
  | pollUnset _ _ hdesc => exact absurd hdesc (he.desc_ne rxIdx)
  | pollQuiet hstage hcur _ hoff =>
      refine ⟨LoopState.work_lt rfl rfl hcur ?_,
        LoopState.claimed_le rfl (hstage ▸ Nat.le_refl 1), rfl, rfl,
        fun hdue => ⟨fun hpolling _ => ?_, fun hquiet hkicks => ?_⟩⟩
      · rw [hno nofun, hstage, hcur]
        exact (by decide : 2 < 4)
      · have hset := hoff.resolve_right (he.desc_ne txIdx)
        exact absurd (hset.symm.trans hpolling) nofun
      · obtain ⟨ready', k, heq, -⟩ := hdue.kicked hquiet hkicks
        cases hstage.symm.trans heq
  | @pollEnter a hstage hcur _ hpolling _ _ =>
      refine ⟨LoopState.work_lt rfl rfl hcur ?_,
        LoopState.claimed_le rfl (hstage ▸ Nat.le_refl 1), rfl, rfl,
        fun _ => ⟨fun _ _ => .inl (Option.some_ne_none a), fun hquiet => ?_⟩⟩
      · rw [hno nofun, hstage]
        exact (by decide : 3 < 4)
      · exact absurd (hpolling.symm.trans hquiet) nofun
  | forwardNone hstage hcur hempty =>
      refine ⟨LoopState.work_lt rfl rfl hcur ?_,
        LoopState.claimed_le rfl (hstage ▸ Nat.zero_le 1), rfl, rfl, fun hdue => ?_⟩
      · rw [hstage, hcur, LoopState.puts, decide_eq_false fun hput => hput.2 hempty]
        exact (by decide : 0 < 2)
      · obtain ⟨hpolled, hkicked⟩ := hdue.done hcur (.inr hstage)
        exact ⟨fun hpolling hlt => absurd hlt (hpolled hpolling),
          fun hquiet hne => absurd (hkicked hquiet) hne⟩
  | @forward r c m hstage hcur hfull hput =>
      obtain ⟨rfl, -⟩ := he.forward (b := true) hput
      refine ⟨LoopState.work_lt rfl rfl hcur ?_, ?_, rfl, rfl, fun hdue => ?_⟩
      · have hle := Bool.toNat_le (e.puts .forward)
        rw [hstage, hcur]
        exact Nat.lt_succ_of_le (show 0 + 0 + (e.puts .forward).toNat ≤ 1 by omega)
      · rw [LoopState.claimed, LoopState.claimed, hstage]
        show (e.placed ++ [_]).length + 0 ≤ e.placed.length + 1
        rw [List.length_append, List.length_singleton]
      · obtain ⟨hpolled, hkicked⟩ := hdue.done hcur (.inr hstage)
        exact ⟨fun hpolling hlt => absurd hlt (hpolled hpolling),
          fun hquiet hne => absurd (hkicked hquiet) hne⟩

end Pass

/-! ### The steps of the server -/

/-- The steps of the server. -/
def EchoLabel.ofServer : EchoLabel → Bool
  | .loop l => !l.ofClient
  | .rxKick => true
  | .rxRead | .rxServe | .rxLeave => false

/-- The server is between two passes. -/
structure EchoState.Resting (e : EchoState) : Prop where
  stage : e.stage = .idle
  rxMustKick : e.rxMustKick = false

/-- A bound on the steps of the server before it rests. -/
def EchoState.serverWork (e : EchoState) : Nat := e.work + e.rxMustKick.toNat

/-- What the server leaves alone in a pass. -/
structure ServerFrame (S : Session) (e f : EchoState) : Prop where
  claimed : f.claimed ≤ e.claimed
  sent : f.sent = e.sent
  mustKick : f.mustKick = e.mustKick
  rxOutcomes : f.rxOutcomes = e.rxOutcomes
  rxCursor : f.rxCursor = e.rxCursor
  due : e.Due S → f.Due S

section Server
variable {S : Session} {e f g : EchoState} {l : EchoLabel}

theorem ServerFrame.refl (e : EchoState) : ServerFrame S e e :=
  ⟨Nat.le_refl _, rfl, rfl, rfl, rfl, id⟩

theorem ServerFrame.trans (h : ServerFrame S e f) (h' : ServerFrame S f g) :
    ServerFrame S e g :=
  ⟨Nat.le_trans h'.claimed h.claimed, h'.sent.trans h.sent, h'.mustKick.trans h.mustKick,
    h'.rxOutcomes.trans h.rxOutcomes, h'.rxCursor.trans h.rxCursor, fun hdue => h'.due (h.due hdue)⟩

theorem ofClient_of_ofServer {l : LoopLabel} (h : (EchoLabel.loop l).ofServer = true) :
    l.ofClient = false := by
  cases hl : l.ofClient with
  | false => rfl
  | true =>
      rw [EchoLabel.ofServer, hl] at h
      cases h

/-- **Every step of the server but a `select` leaves less to do.** -/
theorem serverStep (h : Attentive S e.toLoopState) (he : Echoing S e) (hl : l.ofServer = true)
    (hne : l ≠ .loop .select) (hs : EchoStep S e l f) :
    ServerFrame S e f ∧ f.serverWork < e.serverWork := by
  cases hs with
  | @loop l t hclient hserver hs =>
      have hl' := ofClient_of_ofServer hl
      have hpass := passStep_of_step h he hl' (fun heq => hne (congrArg _ heq)) hs
      refine ⟨⟨hpass.claimed, hpass.sent, hpass.mustKick, rfl, rfl, hpass.due⟩, ?_⟩
      rw [EchoState.serverWork, EchoState.serverWork, hserver hl']
      exact hpass.work
  | rxKick hmust =>
      refine ⟨⟨Nat.le_refl _, rfl, rfl, rfl, rfl, fun hdue => ⟨hdue.polled, hdue.kicked⟩⟩, ?_⟩
      rw [EchoState.serverWork, EchoState.serverWork, hmust]
      exact Nat.lt_succ_self _
  | rxRead _ _ _ _ | rxServe _ _ | rxLeave _ _ _ => cases hl

/-- The only step of a server that rests is a `select`, which is followed by a pass that looks
for everything. -/
theorem due_of_select (h : Attentive S e.toLoopState) (hs : EchoStep S e (.loop .select) f) :
    f.Due S := by
  cases hs with
  | loop _ _ hs =>
      cases hs with
      | select hstage =>
          refine ⟨fun _ _ => .inr (.inr ⟨_, _, rfl⟩), fun hquiet hkicks => ?_⟩
          have hoff : e.world.server.isPolling ≠ true := by
            rw [show e.world.server.isPolling = false from hquiet]
            exact Bool.false_ne_true
          obtain ⟨i, hi⟩ := h.looks.resolve_left hoff
          have hpos := S.kickfd_pos txIdx
          have hfound : (e.fdList.findFdNode (S.kickfd txIdx)).isSome = true :=
            List.find?_isSome.mpr ⟨i, List.mem_finRange i, decide_eq_true hi⟩
          refine ⟨_, _, rfl, decide_eq_true ⟨by omega, hfound, .inr (.inr ⟨rfl, hkicks⟩)⟩, i,
            Nat.zero_le _, hi⟩

theorem select_of_resting (hrest : e.Resting) (hcur : e.cursor = none) (hl : l.ofServer = true)
    (hs : EchoStep S e l f) : l = .loop .select := by
  have hno : ∀ {stage : Stage}, e.stage = stage → stage ≠ .idle → False :=
    fun heq hne => hne (heq.symm.trans hrest.stage)
  cases hs with
  | @loop l t hclient hserver hs =>
      cases hs with
      | send _ _ | put _ _ | kick _ | reclaim _ _ => cases hl
      | select _ => rfl
      | skip hstage _ _ _ | endSlots hstage _ => exact (hno hstage nofun).elim
      | accept hvisit | receive hvisit _ _ _ | unkicked hvisit _ | dropped hvisit _ _ =>
          exact (hno hvisit.stage nofun).elim
      | kicked hvisit _ _ _ => exact (hno hvisit.stage nofun).elim
      | serve hcall _ | leave hcall _ _ => cases hcur.symm.trans hcall
      | pollUnset hstage _ _ | pollQuiet hstage _ _ _ => exact (hno hstage nofun).elim
      | pollEnter hstage _ _ _ _ _ => exact (hno hstage nofun).elim
      | forwardNone hstage _ _ | forward hstage _ _ _ => exact (hno hstage nofun).elim
  | rxKick hmust => cases hmust.symm.trans hrest.rxMustKick
  | rxRead _ _ _ _ | rxServe _ _ | rxLeave _ _ _ => cases hl

/-! ### The server is never stuck -/

/-- The pass has a next step. -/
def LoopState.GoesOn (S : Session) (s : LoopState) : Prop :=
  ∃ l t, LoopStep S s l t ∧ l.ofClient = false ∧ l ≠ .select

/-- A step of `loop_server`, while the server is not about to kick. -/
theorem QuietStep.of_server {l : LoopLabel} {t : LoopState} (hmust : e.rxMustKick = false)
    (hl : l.ofClient = false) (hs : LoopStep S e.toLoopState l t) :
    QuietStep S e (.loop l)
      { e with
        toLoopState := t
        rxMustKick := e.rxMustKick || e.puts l } := by
  refine ⟨.loop (fun hc => ?_) (fun _ => hmust) hs, fun buf heq => ?_⟩
  · rw [hl] at hc
    cases hc
  · rw [EchoLabel.loop.inj heq] at hl
    cases hl

/-- A call of `process_avail_vring` for the TX ring goes on. -/
theorem Echoing.can_call (h : Echoing S e) {a : UInt16} (hcur : e.cursor = some a) :
    e.GoesOn S := by
  have henv : e.txEnv S = S.txEnv := congrArg (fun sp => { S.txEnv with consSpace := sp }) h.space
  rcases Nat.lt_or_eq_of_le h.tx.counters.consumedLe with hlt | heq
  · obtain ⟨free, heads, hl⟩ := h.tx.ledger h.sentFit.allFit
    obtain ⟨c, m, b, hserve⟩ := hl.can_serve h.tx.wired h.tx.counters hcur hlt
    rw [← henv] at hserve
    exact ⟨_, _, .of_serve hserve, rfl, nofun⟩
  · obtain ⟨m, hleave⟩ := h.tx.wired.can_leave h.tx.counters hcur heq
    rw [← henv] at hleave
    exact ⟨_, _, .of_leave hleave, rfl, nofun⟩

/-- The slot that the pass is at is visited. -/
theorem Echoing.can_visit (h : Echoing S e) (ha : Attentive S e.toLoopState)
    {ready : Int → Bool} {k : Nat} (hstage : e.stage = .slots ready k) (hcur : e.cursor = none)
    (hk : k < fdListSize) :
    e.GoesOn S := by
  cases hready : ready (e.fdList ⟨k, hk⟩).fd with
  | false => exact ⟨_, _, .skip hstage hcur hk hready, rfl, nofun⟩
  | true =>
      have hfd := (ha.slots ready k hstage).2 ⟨k, hk⟩ (Nat.le_refl k) hready
      have hnode : e.fdList ⟨k, hk⟩ = ⟨S.kickfd txIdx, some .kickServer⟩ := by
        rw [← hfd, ← ha.handler _ hfd]
      rw [hfd] at hready
      have hvisit : e.Visits ready k ⟨S.kickfd txIdx, some .kickServer⟩ :=
        ⟨hstage, hcur, ⟨hk, hnode⟩, hready⟩
      by_cases hkicks : e.kicks = 0
      · exact ⟨_, _, .unkicked hvisit hkicks, rfl, nofun⟩
      · have henter := availEnter_of_num h.tx.wired.consNum (by decide)
        exact ⟨_, _, .kicked hvisit hkicks (h.desc_ne txIdx) henter, rfl, nofun⟩

/-- The packet in the private buffer is put while the RX ring has a descriptor. -/
theorem Echoing.can_forward (h : Echoing S e) (hstage : e.stage = .forward)
    (hcur : e.cursor = none) (hroom : e.placed.length < vhostVringSize) :
    ∃ t, LoopStep S e.toLoopState .forward t := by
  by_cases hempty : e.world.context.bufferSize = 0
  · exact ⟨_, .forwardNone hstage hcur hempty⟩
  · obtain ⟨free, heads, hl⟩ := h.rx.ledger h.placed.allFit
    obtain ⟨c, m, hput⟩ := hl.putVring_of_ne h.rx.wired h.rx.counters
      (hl.head_ne_iff.mpr hroom) h.packet_fits.room
    rw [show S.rxEnv.prodSpace = e.world.space from h.space.symm] at hput
    exact ⟨_, .forward hstage hcur hempty hput⟩

/-- **The server is never stuck** in a pass while there is room on the RX ring. -/
theorem Echoing.server_can (h : Echoing S e) (ha : Attentive S e.toLoopState)
    (hbusy : ¬ e.Resting) (hroom : e.claimed ≤ vhostVringSize) :
    ∃ l f, l.ofServer = true ∧ l ≠ .loop .select ∧ QuietStep S e l f := by
  cases hmust : e.rxMustKick with
  | true => exact ⟨.rxKick, _, rfl, nofun, .rxKick hmust, nofun⟩
  | false =>
      suffices hcan : e.GoesOn S by
        obtain ⟨l, t, hs, hl, hne⟩ := hcan
        refine ⟨.loop l, _, ?_, fun heq => hne (EchoLabel.loop.inj heq), .of_server hmust hl hs⟩
        rw [EchoLabel.ofServer, hl]
        rfl
      cases hcur : e.cursor with
      | some a => exact h.can_call hcur
      | none =>
          cases hstage : e.stage with
          | idle => exact absurd ⟨hstage, hmust⟩ hbusy
          | slots ready k =>
              rcases Nat.lt_or_eq_of_le (ha.slots ready k hstage).1 with hk | rfl
              · exact h.can_visit ha hstage hcur hk
              · exact ⟨_, _, .endSlots hstage hcur, rfl, nofun⟩
          | poll =>
              cases hpolling : e.world.server.isPolling with
              | true =>
                  have henter := availEnter_of_num h.tx.wired.consNum (by decide)
                  exact ⟨_, _, .pollEnter hstage hcur (h.desc_ne rxIdx) hpolling
                    (h.desc_ne txIdx) henter, rfl, nofun⟩
              | false =>
                  exact ⟨_, _, .pollQuiet hstage hcur (h.desc_ne rxIdx) (.inl hpolling),
                    rfl, nofun⟩
          | forward =>
              have hlt : e.placed.length < vhostVringSize := by
                rw [LoopState.claimed, hstage] at hroom
                exact hroom
              obtain ⟨t, ht⟩ := h.can_forward hstage hcur hlt
              exact ⟨_, t, ht, rfl, nofun⟩

end Server

end Vapp
