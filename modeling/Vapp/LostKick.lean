import Vapp.LoopSystem
import Vapp.RingProgress
import Vapp.SetupProgress

/-! # No kick is lost, unless it comes too early

A kick is read, and its counter reset, before `_poll_avail_vring` looks whether the ring is
set up.  Once it is, the ring is looked at after every kick that is read, and nothing that
was put is left without one.
-/
namespace Vapp

namespace LoopState
variable (S : Session) (s : LoopState)

/-- The TX ring holds entries that the server has not consumed. -/
def Unserved : Prop :=
  (s.world.mem.avail ⟨txIdx, offsetofAvail⟩).idx ≠ (s.world.vring txIdx).lastAvailIdx

/-- The server is between two passes and has processed all messages of the set-up, and the
TX ring is served on kicks. -/
structure Serving : Prop where
  stage : s.stage = .idle
  unsent : s.unsent = []
  queue : s.queue = []
  registered : s.fdList.Registered (S.kickfd txIdx) .kickServer
  isPolling : s.world.server.isPolling = false

/-- Entries that were not consumed are announced by a kick, or are about to be. -/
def Announced : Prop := s.Unserved → s.kicks ≠ 0 ∨ s.mustKick = true

/-- No kick is read before the TX ring is set up. -/
def InTime (l : LoopLabel) : Prop :=
  l = .readKick → s.kicks ≠ 0 → (s.world.vring txIdx).desc ≠ 0

end LoopState

/-- A step that does not read a kick too early. -/
def TimelyStep (S : Session) (s : LoopState) (l : LoopLabel) (t : LoopState) : Prop :=
  LoopStep S s l t ∧ s.InTime l

/-! ### What every such step keeps -/

/-- Whatever was put is announced, or the server is still in a call that looks for it. -/
structure Awake (S : Session) (s : LoopState) : Prop where
  progress : ∃ k, s.queue ++ s.unsent = S.setupMsgs.drop k ∧ Progress S k s.world
  calling : s.cursor ≠ none → (s.world.vring txIdx).desc ≠ 0
  forwarding : s.stage = .forward → (s.world.vring rxIdx).desc ≠ 0
  idle : s.stage = .idle → s.cursor = none
  awake : s.Unserved → s.kicks ≠ 0 ∨ s.mustKick = true ∨ s.cursor ≠ none

section Keep
variable {S : Session} {s t : LoopState} {l : LoopLabel} {k : Nat} {w w' : World}

theorem Progress.congr (h : Progress S k w) (hspace : w'.space = w.space)
    (hmemory : k < setupCount → w'.context.memory = w.context.memory)
    (hsetup : w'.setup = w.setup)
    (hlast : ∀ i : RingIdx, k < 8 + 5 * i.val →
      (w'.vring i).lastAvailIdx = (w.vring i).lastAvailIdx) : Progress S k w' := by
  have hdesc : ∀ i, (w'.vring i).desc = (w.vring i).desc := fun i =>
    congrArg RingSetup.desc (congrFun hsetup i)
  have havail : ∀ i, (w'.vring i).avail = (w.vring i).avail := fun i =>
    congrArg RingSetup.avail (congrFun hsetup i)
  refine ⟨fun hk => ?_, fun hk => hspace.trans (h.space hk),
    fun hk hk' => (hmemory hk').trans (h.memory hk hk'), fun i hk => ?_,
    fun i hk => (havail i).trans (h.set i hk)⟩
  · rw [hspace, hmemory (Nat.lt_trans hk (by decide))]
    exact h.fresh hk
  · rw [hdesc, hlast i hk]
    exact h.unset i hk

/-- A ring is set up only once its last message has been handled. -/
theorem Progress.set_of_desc (h : Progress S k w) {i : RingIdx} (hdesc : (w.vring i).desc ≠ 0) :
    8 + 5 * i.val ≤ k :=
  Nat.not_lt.mp fun hk => hdesc (h.unset i hk).1

/-- Its avail ring is then found where the client has laid it out. -/
theorem Progress.resolve_avail (h : Progress S k w) {i : RingIdx}
    (hdesc : (w.vring i).desc ≠ 0) :
    w.space.resolve (w.vring i).avail = some ⟨i, offsetofAvail⟩ := by
  have hk := h.set_of_desc hdesc
  rw [h.set i hk, h.space (by omega)]
  exact S.server.resolve i (by decide)

theorem Awake.start (S : Session) (sock : Int) (m : Mem) : Awake S (S.loopStart sock m) := by
  refine ⟨⟨0, rfl, .start S sock (S.layout m)⟩, nofun, nofun, fun _ => rfl, fun hne => ?_⟩
  exact absurd (S.layout_availIdx m txIdx) hne

/-- A step that leaves both rings and the messages alone. -/
theorem Awake.congr (h : Awake S s) (hworld : t.world = s.world)
    (hleft : t.queue ++ t.unsent = s.queue ++ s.unsent) (hcursor : t.cursor = s.cursor)
    (hforward : t.stage = .forward → (s.world.vring rxIdx).desc ≠ 0)
    (hidle : t.stage = .idle → s.cursor = none)
    (hkick : s.kicks ≠ 0 ∨ s.mustKick = true → t.kicks ≠ 0 ∨ t.mustKick = true) :
    Awake S t := by
  refine ⟨?_, ?_, ?_, fun hi => hcursor.trans (hidle hi), fun hne => ?_⟩
  · rw [hleft, hworld]
    exact h.progress
  · rw [hcursor, hworld]
    exact h.calling
  · rw [hworld]
    exact hforward
  · rw [LoopState.Unserved, hworld] at hne
    rw [hcursor, ← or_assoc]
    exact (or_assoc.mpr (h.awake hne)).imp_left hkick

/-- A turn of `process_avail_vring`: the server is still in the call. -/
theorem Awake.serve (h : Awake S s) (hs : LoopStep S s .serve t) : Awake S t := by
  obtain ⟨k, hleft, hprog⟩ := h.progress
  cases hs with
  | @serve a fuel r hcur hturn =>
      have hdesc := h.calling (by rw [hcur]; exact Option.some_ne_none a)
      have hk : setupCount ≤ k := hprog.set_of_desc hdesc
      have hframe := availTurn_availFrame hturn
      have hsetup : ∀ i, (r.table.vring i).setup = s.world.setup i := fun i => by
        by_cases hi : i = txIdx
        · rw [hi]
          exact hframe.setup
        · rw [hframe.other i hi]
          rfl
      refine ⟨⟨k, hleft, hprog.congr rfl (fun hlt => absurd hlt (Nat.not_lt.mpr hk))
        (funext hsetup) fun i hi => ?_⟩, fun _ => ?_, fun hstage => ?_, fun hstage => ?_,
        fun _ => .inr (.inr (Option.some_ne_none _))⟩
      · have hi2 : i.val < 2 := i.isLt
        rw [setupCount] at hk
        omega
      · exact (congrArg RingSetup.desc (hsetup txIdx)).trans_ne hdesc
      · exact (congrArg RingSetup.desc (hsetup rxIdx)).trans_ne (h.forwarding hstage)
      · have hnone := h.idle hstage
        rw [hcur] at hnone
        cases hnone

/-- The end of `process_avail_vring`: there was nothing left. -/
theorem Awake.leave (h : Awake S s) (hs : LoopStep S s .leave t) : Awake S t := by
  obtain ⟨k, hleft, hprog⟩ := h.progress
  cases hs with
  | @leave a fuel m hcur hturn hleave =>
      have hdesc := h.calling (by rw [hcur]; exact Option.some_ne_none a)
      obtain ⟨A, hA, hlast⟩ := availTurn_none hturn
      cases (hprog.resolve_avail hdesc).symm.trans hA
      obtain ⟨U, hU, hleave⟩ := Outcome.bind_eq_ret.mp hleave
      cases hleave
      refine ⟨⟨k, hleft, hprog.congr rfl (fun _ => rfl) rfl fun _ _ => rfl⟩,
        fun hne => absurd rfl hne, h.forwarding, fun _ => rfl, fun hne => ?_⟩
      exact absurd hlast.symm hne

/-- The `put_vring` for the RX ring leaves the TX ring alone. -/
theorem Awake.forward (h : Awake S s) (hs : LoopStep S s .forward t) : Awake S t := by
  obtain ⟨k, hleft, hprog⟩ := h.progress
  cases hs with
  | forwardNone hstage hcur hempty => exact h.congr rfl rfl rfl (by simp) (fun _ => hcur) id
  | @forward r t m hstage hcur hfull hput =>
      have hdesc := h.forwarding hstage
      have hf := putVring_putFrame hput
      have hk := hprog.set_of_desc hdesc
      have hmemory : t.context.memory = s.world.context.memory :=
        congrArg ServerContext.memory hf.context
      have hsetup : (fun i => (t.vring i).setup) = s.world.setup := funext (putVring_setup hput)
      refine ⟨⟨k, hleft, hprog.congr rfl (fun _ => hmemory) hsetup fun i hi => ?_⟩,
        fun hcall => absurd hcur hcall, (by simp), fun _ => hcur, fun hne => h.awake ?_⟩
      · have hrx : i ≠ rxIdx := by
          rintro rfl
          omega
        exact congrArg Vring.lastAvailIdx (hf.other i hrx)
      · have hA : s.world.space.resolve (s.world.vring rxIdx).avail ≠
            some ⟨txIdx, offsetofAvail⟩ := by
          rw [hprog.resolve_avail hdesc]
          decide
        have hlast : (t.vring txIdx).lastAvailIdx = (s.world.vring txIdx).lastAvailIdx :=
          congrArg Vring.lastAvailIdx (hf.other txIdx (by decide))
        intro heq
        exact hne ((congrArg VringAvail.idx (hf.avail _ hA)).trans (heq.trans hlast.symm))

/-- **Every step that reads no kick too early keeps it.** -/
theorem awake_step (h : Awake S s) (hs : TimelyStep S s l t) : Awake S t := by
  obtain ⟨k, hleft, hprog⟩ := h.progress
  obtain ⟨hstep, htime⟩ := hs
  cases hstep with
  | @send msg rest hunsent hfree =>
      refine h.congr rfl ?_ rfl h.forwarding h.idle id
      rw [hunsent, List.append_assoc]
      rfl
  | @put buf r t m hrun hput =>
      refine ⟨⟨k, hleft, hprog.congr rfl (fun _ => rfl) rfl fun _ _ => rfl⟩, h.calling,
        h.forwarding, h.idle, fun hne => ?_⟩
      rcases putVring_ret hput with ⟨rfl, -, rfl⟩ | ⟨rfl, -⟩
      · rcases h.awake hne with hk | hk | hk
        · exact .inl hk
        · rw [hrun.mustKick] at hk
          cases hk
        · exact .inr (.inr hk)
      · exact .inr (.inl rfl)
  | kick hk =>
      exact h.congr rfl rfl rfl h.forwarding h.idle fun _ => .inl (eventfdWrite_ne_zero _)
  | @reclaim fuel u hrun hcall =>
      refine ⟨⟨k, hleft, hprog.congr rfl (fun _ => rfl) rfl fun _ _ => rfl⟩, h.calling,
        h.forwarding, h.idle, fun hne => h.awake ?_⟩
      rwa [LoopState.Unserved, (processUsedVring_usedFrame hcall).avail] at hne
  | select hstage => exact h.congr rfl rfl rfl (by simp) (by simp) id
  | skip hstage hcur hk hout => exact h.congr rfl rfl rfl (by simp) (by simp) id
  | accept hvisit =>
      exact ⟨⟨k, hleft, hprog.congr rfl (fun _ => rfl) rfl fun _ _ => rfl⟩, h.calling, (by simp),
        (by simp), h.awake⟩
  | @receive ready j fd r msg msg' rest w hvisit hconn hqueue hcall =>
      rw [hqueue, List.cons_append] at hleft
      obtain ⟨hmsg, hrest⟩ := Session.setupMsg_of_drop hleft
      obtain ⟨hnext, hframe, -⟩ := hprog.handled hmsg hcall
      refine ⟨⟨k + 1, hrest, hnext⟩, fun hcur => absurd hvisit.cursor hcur, (by simp), (by simp),
        fun hne => h.awake ?_⟩
      rwa [LoopState.Unserved, hframe.mem, hframe.lastAvail] at hne
  | unkicked hvisit hkicks => exact h.congr rfl rfl rfl (by simp) (by simp) id
  | dropped hvisit hkicks hdesc => exact absurd hdesc (htime rfl hkicks)
  | kicked hvisit hkicks hdesc henter =>
      exact ⟨⟨k, hleft, hprog⟩, fun _ => hdesc, (by simp), (by simp),
        fun _ => .inr (.inr (Option.some_ne_none _))⟩
  | serve hcur hturn => exact h.serve (.serve hcur hturn)
  | leave hcur hturn hleave => exact h.leave (.leave hcur hturn hleave)
  | endSlots hstage hcur => exact h.congr rfl rfl rfl (by simp) (by simp) id
  | pollUnset hstage hcur hdesc => exact h.congr rfl rfl rfl (by simp) (fun _ => hcur) id
  | pollQuiet hstage hcur hdesc hquiet =>
      exact h.congr rfl rfl rfl (fun _ => hdesc) (by simp) id
  | pollEnter hstage hcur hdesc hpolling hset henter =>
      exact ⟨⟨k, hleft, hprog⟩, fun _ => hset, fun _ => hdesc, (by simp),
        fun _ => .inr (.inr (Option.some_ne_none _))⟩
  | forwardNone hstage hcur hempty => exact h.forward (.forwardNone hstage hcur hempty)
  | forward hstage hcur hfull hput => exact h.forward (.forward hstage hcur hfull hput)

end Keep

/-- **No kick is lost** in a run in which none is read before the TX ring is set up. -/
theorem no_kick_lost (S : Session) (sock : Int) (m : Mem) {ls : List LoopLabel} {s : LoopState}
    (hrun : Transition.Run (TimelyStep S) (S.loopStart sock m) ls s) (h : s.Serving S) :
    s.Announced := by
  have hawake : Awake S s := Transition.Run.preserves (fun _ _ _ => awake_step)
    (.start S sock m) hrun
  intro hne
  rcases hawake.awake hne with hk | hk | hcall
  · exact .inl hk
  · exact .inr hk
  · exact absurd (hawake.idle h.stage) hcall

/-! ### Passes that handle one message -/

section Passes
variable {S : Session} {s t : LoopState} {l : LoopLabel} {ready : Int → Bool}

theorem LoopStep.timely (h : LoopStep S s l t) (hl : l ≠ .readKick) : TimelyStep S s l t :=
  ⟨h, fun heq => absurd heq hl⟩

/-- The end of a pass in which nothing is polled or forwarded. -/
theorem run_end (hstage : s.stage = .slots ready fdListSize) (hcur : s.cursor = none)
    (hpolling : s.world.server.isPolling = false) (hempty : s.world.context.bufferSize = 0) :
    ∃ ls, Transition.Run (TimelyStep S) s ls { s with stage := .idle } := by
  have hend : TimelyStep S s .endSlots { s with stage := .poll } :=
    (LoopStep.endSlots hstage hcur).timely nofun
  by_cases hdesc : (s.world.vring rxIdx).desc = 0
  · have hpoll : TimelyStep S { s with stage := .poll } .poll { s with stage := .idle } :=
      (LoopStep.pollUnset (s := { s with stage := .poll }) rfl hcur hdesc).timely nofun
    exact ⟨_, (Transition.Run.one hend).snoc hpoll⟩
  · have hpoll : TimelyStep S { s with stage := .poll } .poll { s with stage := .forward } :=
      (LoopStep.pollQuiet (s := { s with stage := .poll }) rfl hcur hdesc
        (.inl hpolling)).timely nofun
    have hforward : TimelyStep S { s with stage := .forward } .forward { s with stage := .idle } :=
      (LoopStep.forwardNone (s := { s with stage := .forward }) rfl hcur hempty).timely nofun
    exact ⟨_, ((Transition.Run.one hend).snoc hpoll).snoc hforward⟩

end Passes

/-- The list of a server that has accepted a connection, and with the kick descriptor. -/
def openFds : FdList :=
  ((initFdList.addFdList 10 .acceptSockServer).2.addFdList 11 .receiveSockServer).2

def kickFds : FdList := (openFds.addFdList 7 .kickServer).2

/-- The slots of the listening socket, of the connection and of the kick descriptor. -/
def listenSlot : Fin fdListSize := ⟨0, by decide⟩

def connSlot : Fin fdListSize := ⟨1, by decide⟩

def kickSlot : Fin fdListSize := ⟨2, by decide⟩

/-- A session under way in which the first `k` messages were handled. -/
structure UnderWay (k : Nat) (s : LoopState) : Prop where
  cursor : s.cursor = none
  progress : Progress .demo k s.world
  left : s.queue ++ s.unsent = Session.demo.setupMsgs.drop k
  awaiting : s.awaiting = true → k ≤ 1
  conn : s.conn = some 11
  backlog : s.backlog = false
  fds : s.world.fds = (10, if k ≤ 10 then openFds else kickFds)
  isPolling : s.world.server.isPolling = false
  empty : s.world.context.bufferSize = 0

section Messages
variable {k : Nat} {w w' : World} {msg msg' : ServerMsg} {r : Int}
  {maps : Nat → Option MapResult}

/-- A kick descriptor leaves the server in kick mode. -/
theorem SetupMsg.isPolling (hmsg : SetupMsg .demo k msg)
    (h : (inMsgServer maps w msg).out = .ret (r, msg', w')) (hw : w.server.isPolling = false) :
    w'.server.isPolling = false := by
  cases hmsg with
  | kick i =>
      have hindex := u64_fileMsg .setVringKick (.ofNat i) (Session.demo.kickfd i)
      obtain ⟨hnum, -⟩ := fds_fileMsg .setVringKick (.ofNat i) (Session.demo.kickfd_pos i)
      have hout := setVringKick_out (w := w) (hindex ▸ kickIndex_ofNat i) fun _ => hnum
      cases hout.symm.trans h
      exact setKick_isPolling w i _
  | _ =>
      rw [inMsgServer_server (VhostUserRequest.ofWord_word _) (by decide) h]
      exact hw

theorem SetupMsg.kickFd (h : SetupMsg .demo k msg) :
    msg.kickFd = if k = 10 then some 7 else none := by
  cases h with
  | kick i =>
      rw [ServerMsg.kickFd, u64_fileMsg, kickIndex_ofNat]
      revert i
      decide
  | owner => rfl
  | features => rfl
  | memTable => rfl
  | _ =>
      rw [if_neg (by omega)]
      rfl

theorem SetupMsg.asksReply (h : SetupMsg .demo k msg) : msg.asksReply = decide (k = 1) := by
  cases h with
  | owner => rfl
  | features => rfl
  | memTable => rfl
  | _ =>
      rw [decide_eq_false (by omega)]
      rfl

end Messages

/-- What the handling of a message leaves alone. -/
structure AfterMsg (s t : LoopState) : Prop where
  unsent : t.unsent = s.unsent
  client : t.client = s.client
  kicks : t.kicks = s.kicks
  mustKick : t.mustKick = s.mustKick
  awaiting : t.awaiting = true → s.awaiting = true
  frame : SetupFrame s.world t.world

namespace UnderWay
variable {k : Nat} {s : LoopState}

theorem withStage (h : UnderWay k s) (stage : Stage) : UnderWay k { s with stage := stage } :=
  ⟨h.1, h.2, h.3, h.4, h.5, h.6, h.7, h.8, h.9⟩

theorem fdList (h : UnderWay k s) : s.fdList = if k ≤ 10 then openFds else kickFds :=
  congrArg Prod.snd h.fds

/-- The connection is in its slot, and nowhere else. -/
theorem fdList_conn (h : UnderWay k s) : s.fdList connSlot = ⟨11, some .receiveSockServer⟩ ∧
    ∀ i, i ≠ connSlot → (s.fdList i).fd ≠ 11 := by
  rw [h.fdList]
  split <;> decide

/-- Only the slot of the kick descriptor may hold it. -/
theorem fdList_ne_kick (h : UnderWay k s) {i : Fin fdListSize} (hi : i ≠ kickSlot) :
    (s.fdList i).fd ≠ 7 := by
  rw [h.fdList]
  revert i
  split <;> decide

/-- A descriptor that `select` does not leave in the set. -/
theorem selected_of_ne (h : UnderWay k s) {fd : Int} (hconn : fd ≠ 11)
    (hkick : fd = 7 → s.kicks = 0 ∨ k ≤ 10) : s.selected .demo fd = false := by
  refine decide_eq_false ?_
  rintro ⟨-, hlisted, ⟨-, hpending⟩ | ⟨hfd, -⟩ | ⟨rfl, hcount⟩⟩
  · rw [h.backlog] at hpending
    cases hpending
  · rw [h.conn] at hfd
    exact hconn (Option.some.inj hfd).symm
  · rcases hkick rfl with hzero | hk
    · exact hcount hzero
    · rw [h.fdList, if_pos hk] at hlisted
      exact absurd hlisted (by decide)

theorem selected_conn (h : UnderWay k s) (hq : s.queue ≠ []) : s.selected .demo 11 = true := by
  refine decide_eq_true ⟨by decide, ?_, .inr (.inl ⟨h.conn, hq⟩)⟩
  rw [h.fdList]
  split <;> decide

/-- The first slots of a pass: the message at the front of the socket is handled. -/
theorem receive (h : UnderWay k s) (hstage : s.stage = .idle) {msg : ServerMsg}
    {rest : List ServerMsg} (hq : s.queue = msg :: rest) :
    ∃ ls t, Transition.Run (TimelyStep .demo) s ls t ∧ UnderWay (k + 1) t ∧ AfterMsg s t ∧
      t.queue = rest ∧ t.stage = .slots (s.selected .demo) 2 := by
  have hleft := h.left
  rw [hq, List.cons_append] at hleft
  obtain ⟨hmsg, hrest⟩ := Session.setupMsg_of_drop hleft
  obtain ⟨r, msg', w, hcall, hnext, hframe, hreply⟩ := h.progress.handle hmsg
  have hselect : TimelyStep .demo s .select { s with stage := .slots (s.selected .demo) 0 } :=
    (LoopStep.select hstage).timely nofun
  have hskip := run_skips (S := .demo) (fun h => h.timely nofun)
    (s := { s with stage := .slots (s.selected .demo) 0 }) 1 rfl h.cursor (by decide)
    fun i _ hi => by
      obtain rfl : i = listenSlot := Fin.ext (by
        show i.val = 0
        omega)
      exact h.selected_of_ne (h.fdList_conn.2 listenSlot (by decide)) fun hseven =>
        absurd hseven (h.fdList_ne_kick (by decide))
  have hvisit : LoopState.Visits { s with stage := .slots (s.selected .demo) (0 + 1) }
      (s.selected .demo) (0 + 1) ⟨11, some .receiveSockServer⟩ :=
    ⟨rfl, h.cursor, ⟨by decide, h.fdList_conn.1⟩, h.selected_conn (by rw [hq]; exact nofun)⟩
  have hreceive := LoopStep.receive (S := .demo) hvisit h.conn hq hcall
  refine ⟨_, _, ((Transition.Run.one hselect).append hskip).snoc (hreceive.timely nofun),
    ⟨h.cursor, hnext, hrest, fun hask => ?_, h.conn, h.backlog, ?_, hmsg.isPolling hcall
      h.isPolling, hframe.bufferSize.trans h.empty⟩, ⟨rfl, rfl, rfl, rfl, fun hask => ?_, hframe⟩,
    rfl, rfl⟩
  · -- the reply to the second message ends the waiting
    by_cases hk : k = 1
    · rw [hreply hk, if_pos (by decide)] at hask
      cases hask
    · split at hask
      · cases hask
      · have := h.awaiting hask
        omega
  · have hfds := (inMsgServer_fds hcall).1
    have hsock : s.world.server.sock = 10 := congrArg Prod.fst h.fds
    have hlist : s.world.server.fdList = if k ≤ 10 then openFds else kickFds := h.fdList
    rw [hmsg.kickFd, hsock, hlist] at hfds
    refine hfds.trans (congrArg (Prod.mk 10) ?_)
    by_cases hk : k = 10
    · subst hk
      rfl
    · rw [if_neg hk]
      exact if_congr (by omega) rfl rfl
  · split at hask
    · cases hask
    · exact hask

/-- The other slots of a pass, when nothing is left in the set. -/
theorem finish (h : UnderWay k s) {ready : Int → Bool} {j : Nat} (hj : j ≤ fdListSize)
    (hstage : s.stage = .slots ready j)
    (hout : ∀ i : Fin fdListSize, j ≤ i → ready (s.fdList i).fd = false) :
    ∃ ls, Transition.Run (TimelyStep .demo) s ls { s with stage := .idle } := by
  have hskip := run_skips (S := .demo) (fun h => h.timely nofun) (fdListSize - j) hstage
    h.cursor (by omega) fun i hi _ => hout i hi
  rw [Nat.add_sub_cancel' hj] at hskip
  obtain ⟨ls, hend⟩ := run_end (S := .demo) (s := { s with stage := .slots ready fdListSize })
    rfl h.cursor h.isPolling h.empty
  exact ⟨_, hskip.append hend⟩

/-- A pass that handles a message. -/
theorem pass (h : UnderWay k s) (hstage : s.stage = .idle) (hkicks : s.kicks = 0)
    {msg : ServerMsg} {rest : List ServerMsg} (hq : s.queue = msg :: rest) :
    ∃ ls t, Transition.Run (TimelyStep .demo) s ls t ∧ UnderWay (k + 1) t ∧ AfterMsg s t ∧
      t.queue = rest ∧ t.stage = .idle := by
  obtain ⟨ls, t, hrun, ht, hafter, hrest, hslots⟩ := h.receive hstage hq
  obtain ⟨ls', hend⟩ := ht.finish (by decide) hslots fun i hi => by
    refine h.selected_of_ne (ht.fdList_conn.2 i ?_) fun _ => .inl hkicks
    rintro rfl
    exact absurd hi (by decide)
  exact ⟨_, _, hrun.append hend, ht.withStage .idle,
    ⟨hafter.1, hafter.2, hafter.3, hafter.4, hafter.5, hafter.6⟩, hrest, rfl⟩

/-- The client sends a message. -/
theorem send (h : UnderWay k s) (hfree : s.awaiting = false) {msg : ServerMsg}
    {rest : List ServerMsg} (hunsent : s.unsent = msg :: rest)
    (hask : msg.asksReply = true → k ≤ 1) :
    TimelyStep .demo s .send
        { s with unsent := rest, queue := s.queue ++ [msg], awaiting := msg.asksReply } ∧
      UnderWay k
        { s with unsent := rest, queue := s.queue ++ [msg], awaiting := msg.asksReply } := by
  refine ⟨(LoopStep.send hunsent hfree).timely nofun,
    ⟨h.cursor, h.progress, ?_, hask, h.conn, h.backlog, h.fds, h.isPolling, h.empty⟩⟩
  rw [← h.left, hunsent, List.append_assoc]
  rfl

end UnderWay

/-- The server has handled the first `k` messages, and the client has sent no more. -/
structure InStep (m : Mem) (k : Nat) (s : LoopState) : Prop extends UnderWay k s where
  stage : s.stage = .idle
  queue : s.queue = []
  free : s.awaiting = false
  kicks : s.kicks = 0
  mustKick : s.mustKick = false
  client : s.client = Session.demo.clientTable
  mem : s.world.mem = Session.demo.layout m
  lastAvail : (s.world.vring txIdx).lastAvailIdx = 0

namespace InStep
variable {m : Mem} {k : Nat} {s : LoopState}

theorem unsent (h : InStep m k s) : s.unsent = Session.demo.setupMsgs.drop k := by
  have hleft := h.left
  rwa [h.queue, List.nil_append] at hleft

/-- The first pass accepts the connection. -/
theorem start (m : Mem) : ∃ ls s,
    Transition.Run (TimelyStep .demo) (Session.demo.loopStart 10 m) ls s ∧ InStep m 0 s := by
  have hready : ∀ fd, fd ≠ 10 → (Session.demo.loopStart 10 m).selected .demo fd = false := by
    intro fd hfd
    refine decide_eq_false ?_
    rintro ⟨-, -, ⟨rfl, -⟩ | ⟨hconn, -⟩ | ⟨-, hcount⟩⟩
    · exact hfd rfl
    · cases hconn
    · exact hcount rfl
  have hselect : TimelyStep .demo (Session.demo.loopStart 10 m) .select
      { Session.demo.loopStart 10 m with
        stage := .slots ((Session.demo.loopStart 10 m).selected .demo) 0 } :=
    (LoopStep.select rfl).timely nofun
  have hvisit : LoopState.Visits { Session.demo.loopStart 10 m with
      stage := .slots ((Session.demo.loopStart 10 m).selected .demo) 0 }
      ((Session.demo.loopStart 10 m).selected .demo) 0 ⟨10, some .acceptSockServer⟩ :=
    ⟨rfl, rfl, ⟨by decide, rfl⟩, decide_eq_true ⟨by decide, rfl, .inl ⟨rfl, rfl⟩⟩⟩
  have haccept : LoopStep .demo _ (.accept 11) _ := .accept hvisit
  have hopen : UnderWay 0 { Session.demo.loopStart 10 m with
      world := (Session.serverWorld 10 (Session.demo.layout m)).setFdList openFds
      backlog := false
      conn := some 11
      stage := .slots ((Session.demo.loopStart 10 m).selected .demo) 1 } := by
    refine ⟨rfl, ?_, rfl, nofun, rfl, rfl, rfl, rfl, rfl⟩
    exact (Progress.start .demo 10 (Session.demo.layout m)).congr rfl (fun _ => rfl) rfl
      fun _ _ => rfl
  obtain ⟨ls, hend⟩ := hopen.finish (by decide) rfl fun i hi => by
    refine hready _ ?_
    show (openFds i).fd ≠ 10
    revert i
    decide
  exact ⟨_, _, ((Transition.Run.one hselect).snoc (haccept.timely nofun)).append hend,
    ⟨hopen.withStage .idle, rfl, rfl, rfl, rfl, rfl, rfl, rfl, rfl⟩⟩

theorem next (h : InStep m k s) (hk : k < setupCount) :
    ∃ ls t, Transition.Run (TimelyStep .demo) s ls t ∧ InStep m (k + 1) t := by
  have hdrop := List.drop_eq_getElem_cons (i := k) (l := Session.demo.setupMsgs) hk
  have hmsg := (Session.setupMsg_of_drop hdrop.symm).1
  have hask := hmsg.asksReply
  obtain ⟨hsend, hsent⟩ := h.send h.free (h.unsent.trans hdrop) fun hreply => by
    rw [hask, decide_eq_true_iff] at hreply
    omega
  obtain ⟨ls, t, hrun, ht, hafter, hrest, hidle⟩ := hsent.pass h.stage h.kicks (by
    rw [h.queue]
    rfl)
  refine ⟨_, t, (Transition.Run.one hsend).append hrun, { ht with
    stage := hidle
    queue := hrest
    free := ?_
    kicks := hafter.kicks.trans h.kicks
    mustKick := hafter.mustKick.trans h.mustKick
    client := hafter.client.trans h.client
    mem := hafter.frame.mem.trans h.mem
    lastAvail := (hafter.frame.lastAvail txIdx).trans h.lastAvail }⟩
  -- only the second message asks for a reply, and it has been answered
  rw [Bool.eq_false_iff]
  intro hwait
  have hsecond : (Session.demo.setupMsgs[k]).asksReply = true := hafter.awaiting hwait
  have hearly := ht.awaiting hwait
  rw [hask, decide_eq_true_iff] at hsecond
  omega

end InStep

theorem exists_inStep (m : Mem) (k : Nat) (hk : k ≤ setupCount) : ∃ ls s,
    Transition.Run (TimelyStep .demo) (Session.demo.loopStart 10 m) ls s ∧ InStep m k s := by
  induction k with
  | zero => exact InStep.start m
  | succ k ih =>
      obtain ⟨ls, s, hrun, hs⟩ := ih (by omega)
      obtain ⟨ls', t, hnext, ht⟩ := hs.next hk
      exact ⟨_, t, hrun.append hnext, ht⟩

/-- The first packet is put. -/
theorem Session.first_put (S : Session) (m : Mem) (buf : List UInt8)
    (hbuf : buf.length ≤ bufferSize) :
    ∃ t m', putVring (regionSpace S.clientBase) S.clientTable txIdx buf (S.layout m) =
      .ret (0, t, m') ∧ (m'.avail ⟨txIdx, offsetofAvail⟩).idx = 1 := by
  obtain ⟨w, hw⟩ := S.opened_exists 4 m
  obtain ⟨-, hmem, -⟩ := hw.eqs
  have hstart := tx_start hw
  have htracked := hstart.tracked
  have hne : (S.txState w).head S.txEnv ≠ vringIdxNone := by
    rw [show (S.txState w).head S.txEnv = 0 from hstart.prodAvail]
    decide
  obtain ⟨t, m', hput⟩ :=
    hstart.ledger.putVring_of_ne htracked.wired htracked.counters hne hbuf
  have hidx := (htracked.counters.put htracked.wired hput).availIdx
  refine ⟨t, m', ?_, hidx⟩
  rw [← hmem]
  exact hput

/-- A client that is done with the set-up puts a packet and kicks. -/
theorem UnderWay.putKick {m : Mem} {k : Nat} {s : LoopState} (h : UnderWay k s)
    (hrun : s.Running) (hclient : s.client = Session.demo.clientTable)
    (hmem : s.world.mem = Session.demo.layout m) (hkicks : s.kicks = 0) :
    ∃ ls t, Transition.Run (TimelyStep .demo) s ls t ∧ UnderWay k t ∧ t.stage = s.stage ∧
      t.queue = s.queue ∧ t.unsent = [] ∧ t.kicks = 1 ∧ t.mustKick = false ∧
      (t.world.mem.avail ⟨txIdx, offsetofAvail⟩).idx = 1 ∧ t.world.vring = s.world.vring := by
  obtain ⟨c, m', hput, hidx⟩ := Session.demo.first_put m [0] (by decide)
  rw [← hclient, ← hmem] at hput
  have hstep := LoopStep.put (S := .demo) hrun hput
  have hkick := LoopStep.kick (S := .demo) (s := { s with
    client := c, world := { s.world with mem := m' }, sent := s.sent ++ [[0]], mustKick := true })
    rfl
  refine ⟨_, _, (Transition.Run.one (hstep.timely nofun)).snoc (hkick.timely nofun),
    ⟨h.cursor, h.progress.congr rfl (fun _ => rfl) rfl fun _ _ => rfl, h.left, h.awaiting, h.conn,
      h.backlog, h.fds, h.isPolling, h.empty⟩, rfl, rfl, hrun.sent, ?_, rfl, hidx, rfl⟩
  show eventfdWrite s.kicks = 1
  rw [hkicks]
  rfl

/-- The kick descriptor is registered once its message has been handled. -/
theorem UnderWay.registered {k : Nat} {s : LoopState} (h : UnderWay k s) (hk : 10 < k) :
    s.fdList kickSlot = ⟨7, some .kickServer⟩ := by
  rw [h.fdList, if_neg (by omega)]
  decide

/-- A packet that was put after the set-up is announced. -/
theorem no_kick_lost_demo : ∃ ls s,
    Transition.Run (TimelyStep .demo) (Session.demo.loopStart 10 Mem.zero) ls s ∧
      s.Serving .demo ∧ s.Unserved ∧ s.Announced := by
  obtain ⟨ls, s, hrun, hs⟩ := exists_inStep Mem.zero setupCount (Nat.le_refl _)
  obtain ⟨ls', t, hput, ht, hstage, hqueue, hunsent, -, -, hidx, hvring⟩ :=
    hs.putKick ⟨hs.unsent, hs.free, hs.mustKick⟩ hs.client hs.mem hs.kicks
  have hserving : t.Serving .demo := ⟨hstage.trans hs.stage, hunsent, hqueue.trans hs.queue,
    ⟨kickSlot, ht.registered (by decide)⟩, ht.isPolling⟩
  refine ⟨_, t, hrun.append hput, hserving, ?_, no_kick_lost .demo 10 Mem.zero
    (hrun.append hput) hserving⟩
  rw [LoopState.Unserved, hidx, hvring, hs.lastAvail]
  decide

/-- **A kick that is read before `VHOST_USER_SET_VRING_ADDR` is lost**: the client has sent
everything and puts a packet while two messages are still in the socket, and the server
reads the kick in the pass that handles the first of them. -/
theorem kick_lost_before_addr : ∃ ls s,
    Transition.Run (LoopStep .demo) (Session.demo.loopStart 10 Mem.zero) ls s ∧
      s.Serving .demo ∧ ¬ s.Announced := by
  obtain ⟨ls, s, hrun, hs⟩ := exists_inStep Mem.zero 11 (by decide)
  obtain ⟨hsend, h1⟩ := hs.send hs.free (hs.unsent.trans (List.drop_eq_getElem_cons (by decide)))
    nofun
  obtain ⟨hsend', h2⟩ := h1.send rfl (List.drop_eq_getElem_cons (i := 12) (by decide)) nofun
  obtain ⟨ls2, t, hput, ht, hstage, hqueue, hunsent, hkicks, hquiet, hidx, hvring⟩ :=
    h2.putKick ⟨rfl, rfl, hs.mustKick⟩ hs.client hs.mem hs.kicks
  rw [hs.queue] at hqueue
  -- the pass in which the kick is read
  obtain ⟨ls3, u, hreceive, hu, hafter, hrest, hslots⟩ := ht.receive (hstage.trans hs.stage) hqueue
  have hdesc : (u.world.vring txIdx).desc = 0 := (hu.progress.unset txIdx (by decide)).1
  have hselected : t.selected .demo 7 = true := by
    refine decide_eq_true ⟨by decide, ?_, .inr (.inr ⟨rfl, ?_⟩)⟩
    · rw [ht.fdList, if_neg (by decide)]
      decide
    · rw [hkicks]
      decide
  have hdropped := LoopStep.dropped (S := .demo) (k := 2)
    ⟨hslots, hu.cursor, ⟨by decide, hu.registered (by decide)⟩, hselected⟩
    (by rw [hafter.kicks, hkicks]; decide) hdesc
  have hv : UnderWay 12 { u with kicks := 0, stage := .slots (t.selected .demo) (2 + 1) } :=
    ⟨hu.1, hu.2, hu.3, hu.4, hu.5, hu.6, hu.7, hu.8, hu.9⟩
  obtain ⟨ls4, hend⟩ := hv.finish (by decide) rfl fun i hi => by
    have hconn : i ≠ connSlot := by
      rintro rfl
      exact absurd hi (by decide)
    have hkick : i ≠ kickSlot := by
      rintro rfl
      exact absurd hi (by decide)
    exact ht.selected_of_ne (hv.fdList_conn.2 i hconn) fun hseven =>
      absurd hseven (hv.fdList_ne_kick hkick)
  -- the pass that handles the last message
  obtain ⟨ls5, v, hlast, hdone, hafter', hempty, hidle⟩ :=
    (hv.withStage .idle).pass rfl rfl hrest
  refine ⟨_, v, ((((((hrun.snoc hsend).snoc hsend').append hput).append hreceive).mono
      fun _ _ _ hstep => hstep.1).snoc hdropped).append
    ((hend.append hlast).mono fun _ _ _ hstep => hstep.1), ?_, fun hannounced => ?_⟩
  · exact ⟨hidle, hafter'.unsent.trans (hafter.unsent.trans hunsent), hempty,
      ⟨kickSlot, hdone.registered (by decide)⟩, hdone.isPolling⟩
  · have hpending : v.Unserved := by
      rw [LoopState.Unserved, hafter'.frame.mem, hafter'.frame.lastAvail,
        show u.world.mem = t.world.mem from hafter.frame.mem, hidx,
        (hu.progress.unset txIdx (by decide)).2]
      decide
    rcases hannounced hpending with hk | hk
    · exact hk hafter'.kicks
    · rw [hafter'.mustKick, show u.mustKick = false from hafter.mustKick.trans hquiet] at hk
      cases hk

end Vapp
