import Vapp.EchoFair

/-! # The newest packet comes back

A packet is lost only to a newer one that is taken off the TX ring in the same pass of the
server.  So when the client stops sending, the last packet comes back: nothing keeps it on its
way for ever, and a server in kick mode rests only when it is there.
-/
namespace Vapp

/-- What holds in every state that the two loops reach. -/
structure Alive (S : Session) (e : EchoState) : Prop where
  echoing : Echoing S e
  rxAwake : RxAwake e
  attentive : Attentive S e.toLoopState

/-- The client and a server in kick mode wait for each other: the server is between two passes,
and there is no kick that has not been read. -/
structure EchoState.AtRest (e : EchoState) : Prop extends e.Resting where
  kickMode : e.world.server.isPolling = false
  kicks : e.kicks = 0
  mustKick : e.mustKick = false
  rxKicks : e.rxKicks = 0
  rxCursor : e.rxCursor = none

/-- Nothing is on its way. -/
structure EchoState.Complete (e : EchoState) : Prop where
  consumed : e.outcomes.length = e.sent.length
  empty : e.world.context.bufferSize = 0
  delivered : e.rxOutcomes.length = e.placed.length

section Alive
variable {S : Session} {e f : EchoState} {l : EchoLabel} {ls : List EchoLabel}

theorem EchoConfigured.alive (h : EchoConfigured S e) (hatt : Attends S e.toLoopState) :
    Alive S e := ⟨h.echoing, h.rxAwake, h.attentive hatt⟩

theorem alive_step (h : Alive S e) (hs : PayloadStep S e l f) : Alive S f :=
  ⟨echoing_step h.echoing hs.payload hs.step, rxAwake_step h.rxAwake h.echoing hs.step,
    attentive_step h.attentive h.echoing hs.step⟩

theorem Alive.run (h : Alive S e) (hrun : Transition.Run (PayloadStep S) e ls f) : Alive S f :=
  Transition.Run.preserves (fun _ _ _ => alive_step) h hrun

/-- A server that rests makes no call. -/
theorem Alive.cursor_none (h : Alive S e) (hrest : e.Resting) : e.cursor = none :=
  by_contra fun hne => (h.attentive.calling hne).1 hrest.stage

/-- The server has seen all that is on the TX ring. -/
theorem Alive.consumed (h : Alive S e) (hrest : e.Resting) (hmust : e.mustKick = false)
    (hpolled : e.world.server.isPolling = true → ¬ e.outcomes.length < e.sent.length)
    (hkicked : e.world.server.isPolling = false → e.kicks = 0) :
    e.outcomes.length = e.sent.length := by
  have hle : e.outcomes.length ≤ e.sent.length := h.echoing.tx.counters.consumedLe
  refine (Nat.lt_or_eq_of_le hle).resolve_left fun hlt => ?_
  cases hpolling : e.world.server.isPolling with
  | true => exact hpolled hpolling hlt
  | false =>
      rcases h.attentive.awake hlt with hp | hk | hm | hcall
      · cases hpolling.symm.trans hp
      · exact hk (hkicked hpolling)
      · cases hmust.symm.trans hm
      · exact hcall (h.cursor_none hrest)

/-- **Nothing is left on its way when both programs are at rest.** -/
theorem Alive.complete (h : Alive S e) (hrest : e.AtRest) : e.Complete := by
  refine ⟨h.consumed hrest.toResting hrest.mustKick (fun hp => ?_) fun _ => hrest.kicks,
    h.attentive.idle hrest.stage, ?_⟩
  · cases hrest.kickMode.symm.trans hp
  · have hle : e.rxOutcomes.length ≤ e.placed.length := h.echoing.rx.counters.consumedLe
    refine (Nat.lt_or_eq_of_le hle).resolve_left fun hlt => ?_
    rcases h.rxAwake.awake hlt with hk | hm | hcall
    · exact hk hrest.rxKicks
    · cases hrest.rxMustKick.symm.trans hm
    · exact hcall hrest.rxCursor

/-- The newest packet has come back where nothing is on its way. -/
theorem EchoConfigured.newest (h : EchoConfigured S e)
    (hrun : Transition.Run (PayloadStep S) e ls f) (hdone : f.Complete) :
    f.echoed.getLast? = f.sent.getLast?.map callOf := by
  obtain ⟨lost, hnote⟩ := hrun.noting EchoState.overwritten []
  obtain ⟨ms, y, hy, hrel, -⟩ := h.refines hnote
  have hbuffered : f.buffered = [] := f.buffered_eq_nil_iff.mpr hdone.empty
  have hkept : y.kept = f.placed := by
    rw [hrel.kept, hbuffered, hdone.consumed, List.drop_length, List.append_nil, List.append_nil]
  have hnewest : f.placed.getLast? = f.sent.getLast? := by
    rw [← hkept, ← hrel.sent]
    exact Relay.keepsNewest_of_run hy
  rw [(h.echoing.run hrun).echoed_all hdone.delivered, List.getLast?_map, hnewest]

/-- The mode of the server is fixed once the rings have been set up. -/
theorem isPolling_run (h : Echoing S e)
    (hrun : Transition.Run (PayloadStep S) e ls f) :
    f.world.server.isPolling = e.world.server.isPolling := by
  refine (Transition.Run.preserves (I := fun f => Echoing S f ∧
    f.world.server.isPolling = e.world.server.isPolling) (fun f l g hf hs => ?_) ⟨h, rfl⟩ hrun).2
  refine ⟨echoing_step hf.1 hs.payload hs.step, ?_⟩
  obtain ⟨hs, -⟩ := hs
  cases hs with
  | loop _ _ hs =>
      cases hs with
      | receive _ _ hqueue _ =>
          rw [hf.1.queue] at hqueue
          cases hqueue
      | _ => exact hf.2
  | _ => exact hf.2

end Alive

/-! ### Both programs can come to rest -/

/-- The steps of the client's call of `process_avail_vring` for the RX ring. -/
def EchoLabel.ofCall : EchoLabel → Bool
  | .rxRead | .rxServe | .rxLeave => true
  | .loop _ | .rxKick => false

/-- What that call leaves alone. -/
structure CallFrame (e f : EchoState) : Prop where
  stage : f.stage = e.stage
  cursor : f.cursor = e.cursor
  server : f.world.server = e.world.server
  kicks : f.kicks = e.kicks
  mustKick : f.mustKick = e.mustKick
  sent : f.sent = e.sent
  outcomes : f.outcomes = e.outcomes
  placed : f.placed = e.placed
  rxMustKick : f.rxMustKick = e.rxMustKick
  rxKicks : e.rxKicks = 0 → f.rxKicks = 0

section Rest
variable {S : Session} {e f g : EchoState} {l : EchoLabel} {ls : List EchoLabel}

theorem CallFrame.refl (e : EchoState) : CallFrame e e :=
  ⟨rfl, rfl, rfl, rfl, rfl, rfl, rfl, rfl, rfl, id⟩

theorem CallFrame.serverWork (h : CallFrame e f) : f.serverWork = e.serverWork := by
  simp only [EchoState.serverWork, LoopState.work, h.sent, h.outcomes, h.stage, h.cursor,
    h.rxMustKick]

theorem CallFrame.claimed (h : CallFrame e f) : f.claimed = e.claimed := by
  rw [LoopState.claimed, LoopState.claimed, h.placed, h.stage]

theorem callFrame_step (h : CallFrame e f) (hl : l.ofCall = true) (hs : EchoStep S f l g) :
    CallFrame e g := by
  cases hs with
  | loop _ _ _ | rxKick _ => cases hl
  | rxRead _ _ _ _ => exact ⟨h.1, h.2, h.3, h.4, h.5, h.6, h.7, h.8, h.9, fun _ => rfl⟩
  | rxServe _ _ | rxLeave _ _ _ => exact ⟨h.1, h.2, h.3, h.4, h.5, h.6, h.7, h.8, h.9, h.10⟩

theorem callFrame_run (hl : ∀ l ∈ ls, l.ofCall = true)
    (hrun : Transition.Run (QuietStep S) e ls f) : CallFrame e f :=
  hrun.invariant (I := CallFrame e) (fun _ _ _ h hl hs => callFrame_step h hl hs.step)
    (.refl e) hl

/-- A call of the client under way ends. -/
theorem Alive.end_call (h : Alive S e) : ∃ ls f, Transition.Run (QuietStep S) e ls f ∧
    CallFrame e f ∧ f.rxCursor = none := by
  cases hcur : e.rxCursor with
  | none => exact ⟨[], e, .nil, .refl e, hcur⟩
  | some a =>
      obtain ⟨n, f, hrun, hidle⟩ := h.echoing.finish_call hcur
      refine ⟨_, f, hrun, callFrame_run (fun l hl => ?_) hrun, hidle⟩
      rcases List.mem_append.mp hl with hl | hl
      · rw [List.eq_of_mem_replicate hl]
        rfl
      · rw [List.mem_singleton.mp hl]
        rfl

/-- The server comes to the end of its pass. -/
theorem Alive.end_pass (h : Alive S e) (hroom : e.claimed ≤ vhostVringSize) :
    ∃ ls f, Transition.Run (QuietStep S) e ls f ∧ ServerFrame S e f ∧ f.Resting := by
  suffices hall : ∀ n (e : EchoState), e.serverWork < n → Alive S e →
      e.claimed ≤ vhostVringSize → ∃ ls f, Transition.Run (QuietStep S) e ls f ∧
        ServerFrame S e f ∧ f.Resting from hall _ e (Nat.lt_succ_self _) h hroom
  intro n
  induction n with
  | zero => exact fun _ hlt => absurd hlt (Nat.not_lt_zero _)
  | succ n ih =>
      intro e hlt h hroom
      by_cases hrest : e.Resting
      · exact ⟨[], e, .nil, .refl e, hrest⟩
      · obtain ⟨l, f, hl, hne, hs⟩ := h.echoing.server_can h.attentive hrest hroom
        obtain ⟨hframe, hless⟩ := serverStep h.attentive h.echoing hl hne hs.step
        obtain ⟨ls, g, hrun, hframe', hrest'⟩ := ih f (by omega) (alive_step h hs.payload)
          (Nat.le_trans hframe.claimed hroom)
        exact ⟨_, g, (Transition.Run.one hs).append hrun, hframe.trans hframe', hrest'⟩

/-- The client ends its call, and kicks if it has put a packet. -/
theorem Alive.client_done (h : Alive S e) : ∃ ls f, Transition.Run (QuietStep S) e ls f ∧
    f.mustKick = false ∧ f.rxCursor = none ∧ f.claimed = e.claimed ∧ f.sent = e.sent := by
  obtain ⟨ls, f, hrun, hframe, hidle⟩ := h.end_call
  cases hmust : f.mustKick with
  | false => exact ⟨ls, f, hrun, hmust, hidle, hframe.claimed, hframe.sent⟩
  | true =>
      have hkick : EchoStep S f (.loop .kick) _ := .loop (fun _ => hidle)
        (fun hserver => by cases hserver) (.kick hmust)
      exact ⟨_, _, hrun.snoc ⟨hkick, nofun⟩, rfl, hidle, hframe.claimed, hframe.sent⟩

/-- The client reads the last kick. -/
theorem Alive.last_read (h : Alive S e) (hmust : e.mustKick = false)
    (hidle : e.rxCursor = none) : ∃ ls f, Transition.Run (QuietStep S) e ls f ∧
    CallFrame e f ∧ f.rxCursor = none ∧ f.rxKicks = 0 := by
  by_cases hkicks : e.rxKicks = 0
  · exact ⟨[], e, .nil, .refl e, hidle, hkicks⟩
  · obtain ⟨a, hread⟩ := h.echoing.can_read ⟨h.echoing.unsent, h.rxAwake.awaiting, hmust⟩ hidle
      hkicks
    obtain ⟨ls, f, hrun, hframe, hdone⟩ := (alive_step h hread.payload).end_call
    exact ⟨_, f, (Transition.Run.one hread).append hrun,
      ⟨hframe.1, hframe.2, hframe.3, hframe.4, hframe.5, hframe.6, hframe.7, hframe.8, hframe.9,
        fun _ => hframe.rxKicks rfl⟩, hdone, hframe.rxKicks rfl⟩

/-- The server begins a pass. -/
theorem Alive.select (h : Alive S e) (hrest : e.Resting) :
    ∃ f, QuietStep S e (.loop .select) f ∧ f.Due S ∧ f.mustKick = e.mustKick ∧
      f.rxCursor = e.rxCursor ∧ f.sent = e.sent ∧ f.claimed = e.placed.length + 1 := by
  have hs : EchoStep S e (.loop .select) _ :=
    .loop (fun hc => by cases hc) (fun _ => hrest.rxMustKick) (.select hrest.stage)
  exact ⟨_, ⟨hs, nofun⟩, due_of_select h.attentive hs, rfl, rfl, rfl, rfl⟩

theorem LoopState.placed_le_claimed (s : LoopState) :
    s.placed.length ≤ s.claimed ∧ s.claimed ≤ s.placed.length + 1 := by
  refine ⟨Nat.le_add_right _ _, Nat.add_le_add_left ?_ _⟩
  cases s.stage with
  | idle => exact Nat.zero_le 1
  | slots _ _ | poll | forward => exact Nat.le_refl 1

/-- **A server in kick mode and its client can come to rest**, whatever they are at. -/
theorem Alive.to_rest (h : Alive S e) (hroom : e.placed.length + 2 ≤ vhostVringSize)
    (hoff : e.world.server.isPolling = false) :
    ∃ ls f, Transition.Run (QuietStep S) e ls f ∧ f.sent = e.sent ∧ f.AtRest := by
  have hclaimed := e.placed_le_claimed.2
  obtain ⟨ls1, e1, hrun1, hmust1, hcur1, hclaimed1, hsent1⟩ := h.client_done
  have h1 := h.run (run_of_quiet hrun1)
  -- what is left of the pass under way
  obtain ⟨ls2, e2, hrun2, hframe2, hrest2⟩ := h1.end_pass (by omega)
  have h2 := h1.run (run_of_quiet hrun2)
  have hplaced2 := e2.placed_le_claimed.1
  have hclaimed2 := hframe2.claimed
  -- a whole pass
  obtain ⟨e3, hselect, hdue3, hmust3, hcur3, hsent3, hclaimed3⟩ := h2.select hrest2
  have h3 := alive_step h2 hselect.payload
  obtain ⟨ls4, e4, hrun4, hframe4, hrest4⟩ := h3.end_pass (by omega)
  have h4 := h3.run (run_of_quiet hrun4)
  obtain ⟨-, hkicked⟩ := (hframe4.due hdue3).done (h4.cursor_none hrest4) (.inl hrest4.stage)
  have hmust4 : e4.mustKick = false :=
    hframe4.mustKick.trans (hmust3.trans (hframe2.mustKick.trans hmust1))
  have hcur4 : e4.rxCursor = none :=
    hframe4.rxCursor.trans (hcur3.trans (hframe2.rxCursor.trans hcur1))
  -- the last kick of the server
  obtain ⟨ls5, f, hrun5, hframe5, hcur5, hkicks5⟩ := h4.last_read hmust4 hcur4
  have hrun := (((hrun1.append hrun2).snoc hselect).append hrun4).append hrun5
  have hmode : f.world.server.isPolling = false :=
    (isPolling_run h.echoing (run_of_quiet hrun)).trans hoff
  refine ⟨_, f, hrun, ?_,
    { stage := hframe5.stage.trans hrest4.stage
      rxMustKick := hframe5.rxMustKick.trans hrest4.rxMustKick
      kickMode := hmode
      kicks := hframe5.kicks.trans (hkicked ?_)
      mustKick := hframe5.mustKick.trans hmust4
      rxKicks := hkicks5
      rxCursor := hcur5 }⟩
  · exact hframe5.sent.trans (hframe4.sent.trans (hsent3.trans (hframe2.sent.trans hsent1)))
  · rwa [hframe5.server] at hmode

end Rest

/-! ### The client has stopped sending -/

/-- The client has kicked for all that it has put. -/
structure Calm (S : Session) (e : EchoState) : Prop extends Alive S e where
  mustKick : e.mustKick = false

/-- The server has consumed and sent back all that was put on the TX ring. -/
structure Returned (S : Session) (e : EchoState) : Prop extends Calm S e where
  consumed : e.outcomes.length = e.sent.length
  empty : e.world.context.bufferSize = 0

section Steps
variable {S : Session} {e f : EchoState} {l : EchoLabel}

theorem QuietStep.sent_eq (hs : QuietStep S e l f) : f.sent = e.sent := by
  obtain ⟨hs, hquiet⟩ := hs
  cases hs with
  | loop _ _ hs =>
      cases hs with
      | put _ _ => exact absurd rfl (hquiet _)
      | _ => rfl
  | _ => rfl

theorem sent_endless {st : Nat → EchoState} {lb : Nat → EchoLabel}
    (hpath : Transition.Endless (QuietStep S) st lb) (n : Nat) :
    (st n).sent = (st 0).sent := by
  have hkeep := hpath.stable (P := fun e => e.sent = (st 0).sent)
    (fun _ _ _ hP hs => hs.sent_eq.trans hP) (n := 0) rfl n
  rwa [Nat.zero_add] at hkeep

/-- The client does nothing that matters to the server. -/
theorem clientStep (h : Calm S e) (hl : l.ofServer = false) (hs : QuietStep S e l f) :
    CallFrame e f := by
  obtain ⟨hs, hquiet⟩ := hs
  cases hs with
  | @loop l t hclient hserver hs =>
      cases hs with
      | send hunsent _ =>
          rw [h.echoing.unsent] at hunsent
          cases hunsent
      | put _ _ => exact absurd rfl (hquiet _)
      | kick hmust => cases h.mustKick.symm.trans hmust
      | reclaim _ _ => exact ⟨rfl, rfl, rfl, rfl, rfl, rfl, rfl, rfl, Bool.or_false _, id⟩
      | _ => cases hl
  | rxKick _ => cases hl
  | rxRead _ _ _ _ => exact ⟨rfl, rfl, rfl, rfl, rfl, rfl, rfl, rfl, rfl, fun _ => rfl⟩
  | rxServe _ _ | rxLeave _ _ _ => exact ⟨rfl, rfl, rfl, rfl, rfl, rfl, rfl, rfl, rfl, id⟩

theorem CallFrame.due (h : CallFrame e f) (hdue : e.Due S) : f.Due S := by
  have hlist : f.fdList = e.fdList := congrArg VhostServer.fdList h.server
  constructor
  · rw [h.server, h.outcomes, h.sent, h.cursor, h.stage]
    exact hdue.polled
  · rw [h.server, h.kicks, h.stage, hlist]
    exact hdue.kicked

theorem CallFrame.resting (h : CallFrame e f) (hrest : e.Resting) : f.Resting :=
  ⟨h.stage.trans hrest.stage, h.rxMustKick.trans hrest.rxMustKick⟩

/-- A client that has kicked has no more to kick for. -/
theorem calm_step (h : Calm S e) (hs : QuietStep S e l f) : Calm S f := by
  refine ⟨alive_step h.toAlive hs.payload, ?_⟩
  obtain ⟨hs, hquiet⟩ := hs
  cases hs with
  | loop _ _ hs =>
      cases hs with
      | put _ _ => exact absurd rfl (hquiet _)
      | kick _ => rfl
      | _ => exact h.mustKick
  | _ => exact h.mustKick

theorem resting_of_select (hs : EchoStep S e (.loop .select) f) : e.Resting := by
  cases hs with
  | loop _ hserver hs =>
      cases hs with
      | select hstage => exact ⟨hstage, hserver rfl⟩

/-- Nothing that a server does brings a packet back to a ring or to its buffer. -/
theorem returned_step (h : Returned S e) (hs : QuietStep S e l f) :
    Returned S f ∧ f.placed = e.placed := by
  have hcalm := calm_step h.toCalm hs
  obtain ⟨hs, hquiet⟩ := hs
  cases hs with
  | loop _ _ hs =>
      cases hs with
      | put _ _ => exact absurd rfl (hquiet _)
      | serve hcur hturn =>
          obtain ⟨buf, hdrop, -, -⟩ := h.echoing.served hcur hturn
          rw [h.consumed, List.drop_length] at hdrop
          cases hdrop
      | forward _ _ hfull _ => exact absurd h.empty hfull
      | receive _ _ hqueue _ =>
          rw [h.echoing.queue] at hqueue
          cases hqueue
      | _ => exact ⟨⟨hcalm, h.consumed, h.empty⟩, rfl⟩
  | _ => exact ⟨⟨hcalm, h.consumed, h.empty⟩, rfl⟩

/-- What has come back stays. -/
theorem delivered_step (h : Returned S e) (hall : e.rxOutcomes.length = e.placed.length)
    (hs : QuietStep S e l f) : f.rxOutcomes.length = f.placed.length := by
  obtain ⟨hnext, hplaced⟩ := returned_step h hs
  have hle : f.rxOutcomes.length ≤ f.placed.length := hnext.echoing.rx.counters.consumedLe
  rw [hplaced] at hle ⊢
  cases hs.step with
  | rxServe _ _ =>
      rw [List.length_append, List.length_singleton, hall] at hle
      exact absurd hle (Nat.not_succ_le_self _)
  | _ => exact hall

end Steps

section Phases
variable {S : Session} {st : Nat → EchoState} {lb : Nat → EchoLabel}
  (hpath : Transition.Endless (QuietStep S) st lb) (hfair : Fair st lb)
include hpath hfair

/-- The client kicks. -/
theorem leadsTo_calm : Transition.LeadsTo st (Alive S) (Calm S) := by
  refine Transition.LeadsTo.of_not (hpath.leadsTo (A := (· = .loop .kick)) (fun _ => 0)
    (fun n hP => hfair.kick n ?_) fun e l f hP hs => ?_)
  · cases hmust : (st n).mustKick with
    | true => rfl
    | false => exact absurd ⟨hP.1, hmust⟩ hP.2
  · have halive := alive_step hP.1 hs.payload
    by_cases hcalm : Calm S f
    · exact .inl hcalm
    · refine .inr ⟨⟨halive, hcalm⟩, Nat.le_refl 0, ?_⟩
      rintro rfl
      obtain ⟨hs, -⟩ := hs
      cases hs with
      | loop _ _ hs =>
          cases hs with
          | kick _ => exact absurd ⟨halive, rfl⟩ hcalm

/-- The server comes to the end of its pass; what the pass has to look for it finds. -/
theorem leadsTo_resting (c : Prop) : Transition.LeadsTo st
    (fun e => Calm S e ∧ (c → e.Due S)) (fun e => (Calm S e ∧ (c → e.Due S)) ∧ e.Resting) := by
  refine Transition.LeadsTo.of_not (hpath.leadsTo (A := (·.ofServer = true))
    EchoState.serverWork (fun n _ => hfair.server n) fun e l f hP hs => ?_)
  obtain ⟨⟨hcalm, hdue⟩, hbusy⟩ := hP
  have hnext := calm_step hcalm hs
  suffices hstep : (c → f.Due S) ∧ f.serverWork ≤ e.serverWork ∧
      (l.ofServer = true → f.serverWork < e.serverWork) by
    by_cases hrest : f.Resting
    · exact .inl ⟨⟨hnext, hstep.1⟩, hrest⟩
    · exact .inr ⟨⟨⟨hnext, hstep.1⟩, fun h => hrest h.2⟩, hstep.2⟩
  cases hl : l.ofServer with
  | true =>
      have hne : l ≠ .loop .select := by
        rintro rfl
        exact hbusy ⟨⟨hcalm, hdue⟩, resting_of_select hs.step⟩
      obtain ⟨hframe, hless⟩ := serverStep hcalm.attentive hcalm.echoing hl hne hs.step
      exact ⟨fun hc => hframe.due (hdue hc), Nat.le_of_lt hless, fun _ => hless⟩
  | false =>
      have hframe := clientStep hcalm hl hs
      exact ⟨fun hc => hframe.due (hdue hc), Nat.le_of_eq hframe.serverWork, nofun⟩

/-- It begins another pass. -/
theorem leadsTo_due : Transition.LeadsTo st (fun e => Calm S e ∧ e.Resting)
    (fun e => Calm S e ∧ e.Due S) := by
  refine hpath.leadsTo (A := (·.ofServer = true)) (fun _ => 0) (fun n _ => hfair.server n)
    fun e l f hP hs => ?_
  obtain ⟨hcalm, hrest⟩ := hP
  have hnext := calm_step hcalm hs
  cases hl : l.ofServer with
  | true =>
      obtain rfl := select_of_resting hrest (hcalm.cursor_none hrest) hl hs.step
      exact .inl ⟨hnext, due_of_select hcalm.attentive hs.step⟩
  | false =>
      exact .inr ⟨⟨hnext, (clientStep hcalm hl hs).resting hrest⟩, Nat.le_refl 0, nofun⟩

/-- **The server consumes everything** and sends back what it has to. -/
theorem leadsTo_returned : Transition.LeadsTo st (Alive S) (Returned S) := by
  refine (leadsTo_calm hpath hfair).trans ?_
  refine (Transition.LeadsTo.of_imp fun e h => ⟨h, False.elim⟩).trans
    ((leadsTo_resting hpath hfair False).trans ?_)
  refine (Transition.LeadsTo.of_imp fun e h => ⟨h.1.1, h.2⟩).trans
    ((leadsTo_due hpath hfair).trans ?_)
  refine (Transition.LeadsTo.of_imp fun e h => ⟨h.1, fun _ : True => h.2⟩).trans
    ((leadsTo_resting hpath hfair True).trans (.of_imp fun e h => ?_))
  obtain ⟨⟨hcalm, hdue⟩, hrest⟩ := h
  obtain ⟨hpolled, hkicked⟩ := (hdue trivial).done (hcalm.cursor_none hrest) (.inl hrest.stage)
  exact ⟨hcalm, hcalm.consumed hrest hcalm.mustKick hpolled hkicked,
    hcalm.attentive.idle hrest.stage⟩

/-- **What was sent back reaches the client.** -/
theorem leadsTo_complete : Transition.LeadsTo st (Alive S)
    (fun e => Returned S e ∧ e.rxOutcomes.length = e.placed.length) := by
  refine (leadsTo_returned hpath hfair).trans fun n hP => ?_
  have hpayload : Transition.Endless (PayloadStep S) st lb := fun n => (hpath n).payload
  obtain ⟨m, hm, hall⟩ := leadsTo_handed hpayload hfair (st n).placed.length n
    ⟨hP.echoing, hP.rxAwake, Nat.le_refl _⟩
  obtain ⟨d, rfl⟩ := Nat.exists_eq_add_of_le hm
  -- nothing is put on the ring meanwhile
  obtain ⟨hdone, hplaced⟩ := hpath.stable
    (P := fun e => Returned S e ∧ e.placed = (st n).placed) (fun _ _ _ hQ hs => by
      obtain ⟨hnext, hkeep⟩ := returned_step hQ.1 hs
      exact ⟨hnext, hkeep.trans hQ.2⟩) ⟨hP, rfl⟩ d
  have hle : (st (n + d)).rxOutcomes.length ≤ (st (n + d)).placed.length :=
    hdone.echoing.rx.counters.consumedLe
  refine ⟨n + d, hm, hdone, Nat.le_antisymm hle ?_⟩
  rwa [hplaced]

/-- **When the client has stopped sending, there comes a time** from which nothing is on its
way any more. -/
theorem Alive.eventually_complete (h : Alive S (st 0)) :
    ∃ n, ∀ d, Echoing S (st (n + d)) ∧ (st (n + d)).Complete := by
  obtain ⟨n, -, hn⟩ := leadsTo_complete hpath hfair 0 h
  refine ⟨n, fun d => ?_⟩
  obtain ⟨hdone, hdelivered⟩ := hpath.stable
    (P := fun e => Returned S e ∧ e.rxOutcomes.length = e.placed.length)
    (fun _ _ _ hP hs => ⟨(returned_step hP.1 hs).1, delivered_step hP.1 hP.2 hs⟩) hn d
  exact ⟨hdone.echoing, hdone.consumed, hdone.empty, hdelivered⟩

end Phases

/-! ### Passes with nothing to do -/

section Idle
variable {S : Session} {e f : EchoState} {l : EchoLabel} {st : Nat → EchoState}
  {lb : Nat → EchoLabel}

/-- A step of the server that sends nothing back. -/
structure PassiveStep (S : Session) (s : LoopState) (l : LoopLabel) (t : LoopState) : Prop where
  step : LoopStep S s l t
  ofServer : l.ofClient = false
  puts : s.puts l = false

theorem PassiveStep.of_step {s t : LoopState} {l : LoopLabel} (h : LoopStep S s l t)
    (hl : l.ofClient = false) (hne : l ≠ .forward) : PassiveStep S s l t :=
  ⟨h, hl, LoopState.puts_of_ne hne⟩

theorem PassiveStep.quiet {s t : LoopState} {l : LoopLabel} (hmust : e.rxMustKick = false)
    (h : PassiveStep S s l t) :
    QuietStep S { e with toLoopState := s } (.loop l) { e with toLoopState := t } := by
  have hstep := QuietStep.of_server (e := { e with toLoopState := s }) hmust h.ofServer h.step
  rw [h.puts] at hstep
  dsimp only at hstep
  rwa [Bool.or_false] at hstep

/-- A pass of a server in kick mode that has nothing to do. -/
theorem Alive.passive_pass (h : Alive S e) (hrest : e.AtRest) :
    ∃ ls, Transition.Run (PassiveStep S) e.toLoopState (.select :: ls) e.toLoopState := by
  have hcur := h.cursor_none hrest.toResting
  have hkicks := hrest.kicks
  have hout : ∀ fd, e.selected S fd = false := by
    intro fd
    by_cases hfd : fd = S.kickfd txIdx
    · refine decide_eq_false ?_
      rintro ⟨-, -, ⟨-, hpending⟩ | ⟨-, hwaiting⟩ | ⟨-, hne⟩⟩
      · cases h.attentive.backlog.symm.trans hpending
      · exact hwaiting h.echoing.queue
      · exact hne hkicks
    · exact selected_of_quiet h.attentive.backlog h.echoing.queue hfd
  have hselect := PassiveStep.of_step (LoopStep.select (S := S) hrest.stage) rfl nofun
  have hskip := run_skips (S := S) (fun hs => PassiveStep.of_step hs rfl nofun)
    (s := { e.toLoopState with stage := .slots (e.selected S) 0 }) fdListSize rfl hcur (by omega)
    fun i _ _ => hout _
  rw [Nat.zero_add] at hskip
  have hend := PassiveStep.of_step (LoopStep.endSlots (S := S)
    (s := { e.toLoopState with stage := .slots (e.selected S) fdListSize }) rfl hcur) rfl nofun
  have hpoll := PassiveStep.of_step (LoopStep.pollQuiet (S := S)
    (s := { e.toLoopState with stage := .poll }) rfl hcur (h.echoing.desc_ne rxIdx)
    (.inl hrest.kickMode)) rfl nofun
  have hempty := h.attentive.idle hrest.stage
  have hforward : PassiveStep S { e.toLoopState with stage := .forward } .forward
      { e.toLoopState with stage := .idle } :=
    ⟨.forwardNone rfl hcur hempty, rfl, decide_eq_false fun hput => hput.2 hempty⟩
  have hall := ((hskip.snoc hend).snoc hpoll).snoc hforward
  rw [show { e.toLoopState with stage := .idle } = e.toLoopState by rw [← hrest.stage]] at hall
  exact ⟨_, (Transition.Run.one hselect).append hall⟩

theorem Alive.idle_pass (h : Alive S e) (hrest : e.AtRest) :
    ∃ ls, ls ≠ [] ∧ Transition.Run (QuietStep S) e ls e ∧
      ∀ l ∈ ls, l.ofServer = true ∧ l ≠ .rxKick := by
  obtain ⟨ls, hrun⟩ := h.passive_pass hrest
  refine ⟨(.select :: ls).map EchoLabel.loop, List.cons_ne_nil _ _, hrun.map
    (fun s => { e with toLoopState := s }) _ fun _ _ _ hs => hs.quiet hrest.rxMustKick,
    fun l hl => ?_⟩
  obtain ⟨m, hm, rfl⟩ := List.mem_map.mp hl
  refine ⟨?_, nofun⟩
  rw [EchoLabel.ofServer, hrun.label (fun _ _ _ hs => hs.ofServer) m hm]
  rfl

/-- The client has nothing to do. -/
structure EchoState.ClientIdle (e : EchoState) : Prop where
  mustKick : e.mustKick = false
  rxKicks : e.rxKicks = 0
  rxCursor : e.rxCursor = none

theorem clientIdle_step (h : e.ClientIdle) (hl : l.ofServer = true ∧ l ≠ .rxKick)
    (hs : QuietStep S e l f) : f.ClientIdle := by
  obtain ⟨hs, -⟩ := hs
  cases hs with
  | loop _ _ hs =>
      cases hs with
      | send _ _ | put _ _ | kick _ | reclaim _ _ => cases hl.1
      | _ => exact ⟨h.1, h.2, h.3⟩
  | rxKick _ => exact absurd rfl hl.2
  | rxRead _ _ _ _ | rxServe _ _ | rxLeave _ _ _ => cases hl.1

theorem kick_of_step (hbefore : e.mustKick = true) (hafter : ¬ f.mustKick = true)
    (hs : QuietStep S e l f) : l = .loop .kick := by
  obtain ⟨hs, hquiet⟩ := hs
  cases hs with
  | loop _ _ hs =>
      cases hs with
      | put _ _ => exact absurd rfl (hquiet _)
      | kick _ => rfl
      | _ => exact absurd hbefore hafter
  | _ => exact absurd hbefore hafter

theorem read_of_step (hbefore : e.rxKicks ≠ 0 ∧ e.rxCursor = none)
    (hafter : ¬ (f.rxKicks ≠ 0 ∧ f.rxCursor = none)) (hs : QuietStep S e l f) : l = .rxRead := by
  obtain ⟨hs, -⟩ := hs
  cases hs with
  | loop _ _ _ => exact absurd hbefore hafter
  | rxKick _ => exact absurd ⟨eventfdWrite_ne_zero _, hbefore.2⟩ hafter
  | rxRead _ _ _ _ => rfl
  | rxServe hcall _ | rxLeave hcall _ _ => cases hbefore.2.symm.trans hcall

theorem leave_of_step (hbefore : e.rxCursor ≠ none) (hafter : ¬ f.rxCursor ≠ none)
    (hs : QuietStep S e l f) : l = .rxLeave := by
  obtain ⟨hs, -⟩ := hs
  cases hs with
  | loop _ _ _ | rxKick _ => exact absurd hbefore hafter
  | rxRead _ _ _ _ | rxServe _ _ => exact absurd (Option.some_ne_none _) hafter
  | rxLeave _ _ _ => rfl

/-- A run is fair when the client has nothing to do from some time on. -/
theorem fair_of_idle (hpath : Transition.Endless (QuietStep S) st lb) {n : Nat}
    (hidle : ∀ d, (st (n + d)).ClientIdle) (hserver : ∀ d, (lb (n + d)).ofServer = true) :
    Fair st lb := by
  have hlater : ∀ m, (st (m + n)).ClientIdle := fun m => Nat.add_comm n m ▸ hidle m
  refine ⟨fun m => ⟨n + m, Nat.le_add_left _ _, hserver m⟩, fun m hmust => ?_,
    fun m hkicks hcur => ?_, fun m hcall => ?_⟩
  · obtain ⟨k, hk, hbefore, hafter, hs⟩ := hpath.ends (P := fun e => e.mustKick = true) (d := n)
      hmust (by rw [(hlater m).mustKick]; exact Bool.false_ne_true)
    exact ⟨k, hk, kick_of_step hbefore hafter hs⟩
  · obtain ⟨k, hk, hbefore, hafter, hs⟩ := hpath.ends
      (P := fun e => e.rxKicks ≠ 0 ∧ e.rxCursor = none) (d := n) ⟨hkicks, hcur⟩
      fun hP => hP.1 (hlater m).rxKicks
    exact ⟨k, hk, read_of_step hbefore hafter hs⟩
  · obtain ⟨k, hk, hbefore, hafter, hs⟩ := hpath.ends (P := fun e => e.rxCursor ≠ none) (d := n)
      hcall fun hP => hP (hlater m).rxCursor
    exact ⟨k, hk, .inr (leave_of_step hbefore hafter hs)⟩

end Idle

/-! ### The client sends two packets -/

section Demo

/-- The client has sent two packets, and the server is in kick mode. -/
theorem two_sent : ∃ e ls f, EchoConfigured .demo e ∧ Attends .demo e.toLoopState ∧
    Transition.Run (PayloadStep .demo) e ls f ∧ f.sent = [[1], [2]] ∧ f.placed = [] ∧
    f.world.server.isPolling = false := by
  obtain ⟨w, hw⟩ := Session.demo.opened_exists 10 Mem.zero
  have h0 := hw.configured kickFds false
  obtain ⟨c, m, hsend⟩ := h0.relaying.send_packet ⟨rfl, rfl, rfl⟩
    (show 0 < vhostVringSize by decide) [1] (by decide)
  obtain ⟨c', m', hsend'⟩ := (h0.relaying.run hsend).send_packet ⟨rfl, rfl, rfl⟩
    (show 1 < vhostVringSize by decide) [2] (by decide)
  obtain ⟨ms, k, hms⟩ := run_of_loop (e := Session.demo.echoOpened w kickFds false)
    (fun _ _ _ hs => ⟨hs.step, hs.payload⟩) rfl rfl (hsend.append hsend')
  have hhandler : ∀ i, (kickFds i).fd = 7 → (kickFds i).handler = some .kickServer := by decide
  have hslot : (kickFds kickSlot).fd = 7 := by decide
  exact ⟨_, ms, _, hw.echoConfigured kickFds false, ⟨rfl, hhandler, .inr ⟨kickSlot, hslot⟩⟩, hms,
    rfl, rfl, rfl⟩

/-- From a state of a server in kick mode a fair run goes on for ever. -/
theorem Alive.fair_run {S : Session} {e : EchoState} (h : Alive S e)
    (hroom : e.placed.length + 2 ≤ vhostVringSize)
    (hoff : e.world.server.isPolling = false) :
    ∃ st lb, st 0 = e ∧ Transition.Endless (QuietStep S) st lb ∧ Fair st lb := by
  obtain ⟨ms, g, hms, -, hrest⟩ := h.to_rest hroom hoff
  obtain ⟨ls, hne, hpass, hls⟩ := (h.run (run_of_quiet hms)).idle_pass hrest
  obtain ⟨st, lb, h0, hpath, hlb⟩ := hpass.endless hne
  have hidle := hpath.invariant (n := 0) (fun _ _ _ => clientIdle_step)
    (h0 ▸ ⟨hrest.mustKick, hrest.rxKicks, hrest.rxCursor⟩) fun d => hls _ (hlb _)
  rw [← h0] at hms
  obtain ⟨st', lb', h0', hpath', hend⟩ := hms.then_endless hpath
  refine ⟨st', lb', h0', hpath', fair_of_idle hpath' (n := ms.length) (fun d => ?_) fun d => ?_⟩
  · rw [(hend d).1, ← Nat.zero_add d]
    exact hidle d
  · rw [(hend d).2]
    exact (hls _ (hlb d)).1

end Demo

/-! ### The results -/

section Results
variable {S : Session} {e f : EchoState} {l : EchoLabel} {ls : List EchoLabel}

/-- **Where a server in kick mode is at rest the newest packet is back**: it is between two
passes and no kick is left to be read. -/
theorem newest_back_at_rest (h : EchoConfigured S e) (hatt : Attends S e.toLoopState)
    (hrun : Transition.Run (PayloadStep S) e ls f) (hrest : f.AtRest) :
    f.outcomes.length = f.sent.length ∧ f.echoed = f.placed.map callOf ∧
      f.echoed.getLast? = f.sent.getLast?.map callOf := by
  have halive := (h.alive hatt).run hrun
  have hdone := halive.complete hrest
  exact ⟨hdone.consumed, halive.echoing.echoed_all hdone.delivered, h.newest hrun hdone⟩

theorem newest_back_at_rest_demo : ∃ e ls f, EchoConfigured .demo e ∧
    Attends .demo e.toLoopState ∧ Transition.Run (PayloadStep .demo) e ls f ∧ f.AtRest ∧
    f.sent = [[1], [2]] ∧ f.outcomes.length = f.sent.length ∧
      f.echoed = f.placed.map callOf ∧ f.echoed.getLast? = f.sent.getLast?.map callOf := by
  obtain ⟨e, ls, f, h, hatt, hrun, hsent, hplaced, hoff⟩ := two_sent
  obtain ⟨ms, g, hms, hkeep, hrest⟩ := ((h.alive hatt).run hrun).to_rest (by
    rw [hplaced]
    decide) hoff
  have hg := hrun.append (run_of_quiet hms)
  exact ⟨e, _, g, h, hatt, hg, hrest, hkeep.trans hsent, newest_back_at_rest h hatt hg hrest⟩

/-- **When the client stops sending, nothing stays on its way**, in every run in which both
programs go on: from some time on the TX ring, the private buffer and the RX ring are empty. -/
theorem nothing_stays_on_its_way {st : Nat → EchoState} {lb : Nat → EchoLabel}
    (h : EchoConfigured S e) (hatt : Attends S e.toLoopState)
    (hrun : Transition.Run (PayloadStep S) e ls (st 0))
    (hpath : Transition.Endless (QuietStep S) st lb) (hfair : Fair st lb) :
    ∃ n, ∀ d, (st (n + d)).Complete ∧ (st (n + d)).echoed = (st (n + d)).placed.map callOf := by
  obtain ⟨n, hn⟩ := ((h.alive hatt).run hrun).eventually_complete hpath hfair
  exact ⟨n, fun d => ⟨(hn d).2, (hn d).1.echoed_all (hn d).2.delivered⟩⟩

theorem nothing_stays_on_its_way_demo : ∃ e ls st lb, EchoConfigured .demo e ∧
    Attends .demo e.toLoopState ∧ Transition.Run (PayloadStep .demo) e ls (st 0) ∧
    (st 0).sent = [[1], [2]] ∧ ¬ (st 0).Complete ∧
    Transition.Endless (QuietStep .demo) st lb ∧ Fair st lb ∧
    ∃ n, ∀ d, (st (n + d)).Complete ∧
      (st (n + d)).echoed = (st (n + d)).placed.map callOf := by
  obtain ⟨e, ls, f, h, hatt, hrun, hsent, hplaced, hoff⟩ := two_sent
  obtain ⟨st, lb, rfl, hpath, hfair⟩ := ((h.alive hatt).run hrun).fair_run (by
    rw [hplaced]
    decide) hoff
  refine ⟨e, ls, st, lb, h, hatt, hrun, hsent, fun hdone => ?_, hpath, hfair,
    nothing_stays_on_its_way h hatt hrun hpath hfair⟩
  have hnewest := h.newest hrun hdone
  rw [((h.alive hatt).run hrun).echoing.echoed_eq, hplaced, hsent, List.take_nil] at hnewest
  cases hnewest

/-- **When the client stops sending, its last packet comes back**, in every run in which both
programs go on. -/
theorem newest_comes_back {st : Nat → EchoState} {lb : Nat → EchoLabel}
    (h : EchoConfigured S e) (hatt : Attends S e.toLoopState)
    (hrun : Transition.Run (PayloadStep S) e ls (st 0))
    (hpath : Transition.Endless (QuietStep S) st lb) (hfair : Fair st lb) :
    ∃ n, ∀ d, (st (n + d)).echoed.getLast? = (st 0).sent.getLast?.map callOf := by
  obtain ⟨n, hn⟩ := ((h.alive hatt).run hrun).eventually_complete hpath hfair
  refine ⟨n, fun d => ?_⟩
  obtain ⟨ms, hms⟩ := hpath.run (n + d)
  rw [← sent_endless hpath (n + d)]
  exact h.newest (hrun.append (run_of_quiet hms)) (hn d).2

theorem newest_comes_back_demo : ∃ e ls st lb, EchoConfigured .demo e ∧
    Attends .demo e.toLoopState ∧ Transition.Run (PayloadStep .demo) e ls (st 0) ∧
    (st 0).sent = [[1], [2]] ∧ Transition.Endless (QuietStep .demo) st lb ∧ Fair st lb ∧
    ∃ n, ∀ d, (st (n + d)).echoed.getLast? = (st 0).sent.getLast?.map callOf := by
  obtain ⟨e, ls, f, h, hatt, hrun, hsent, hplaced, hoff⟩ := two_sent
  obtain ⟨st, lb, rfl, hpath, hfair⟩ := ((h.alive hatt).run hrun).fair_run (by
    rw [hplaced]
    decide) hoff
  exact ⟨e, ls, st, lb, h, hatt, hrun, hsent, hpath, hfair,
    newest_comes_back h hatt hrun hpath hfair⟩

end Results

end Vapp
