import Vapp.Server

/-! # What the calls of the server return

One lemma for each call of `vhost_server.c` that the event loop makes says which branch it
took, with its guard, and the state that it returned.  What an event keeps is read off from
these; none of the modules above unfolds the calls again.
-/
namespace Vapp

/-! ### The handlers of event descriptors -/

/-- The state after `_set_vring_kick` for ring `i`, with a descriptor or without. -/
def World.setKick (w : World) (i : RingIdx) : Option Int → World
  | some fd =>
      let w := w.setVring i { w.vring i with kickfd := fd }
      let w := if i = txIdx then
        w.setFdList (w.server.fdList.addFdList fd .kickServer).2
      else
        w
      { w with server := { w.server with isPolling := false } }
  | none => { w with server := { w.server with isPolling := true } }

/-- The state after `_set_vring_call` for ring `i`. -/
def World.setCall (w : World) (i : RingIdx) : Option Int → World
  | some fd => w.setVring i { w.vring i with callfd := fd }
  | none => w

section Handlers
variable {w : World} {msg : ServerMsg} {i : RingIdx} {validfd : Bool}
  (hindex : kickIndex msg.msg.payload.u64 = .ret (i, validfd))
  (hnum : validfd = true → msg.fdNum = 1)
include hindex hnum

theorem setVringKick_out : (setVringKick w msg).out =
    .ret (0, msg, w.setKick i (if validfd = true then some (msg.fds 0) else none)) := by
  rw [setVringKick, hindex, Traced.lift_ret_bind]
  cases validfd with
  | true =>
      simp only [if_true, Outcome.require_pos (hnum rfl), Traced.lift_ret_bind]
      rfl
  | false => rfl

theorem setVringCall_out : (setVringCall w msg).out =
    .ret (0, msg, w.setCall i (if validfd = true then some (msg.fds 0) else none)) := by
  rw [setVringCall, hindex, Traced.lift_ret_bind]
  cases validfd with
  | true =>
      simp only [if_true, Outcome.require_pos (hnum rfl), Traced.lift_ret_bind]
      rfl
  | false => rfl

end Handlers

/-- A message that announces a descriptor and carries none stops the server. -/
theorem setVringKick_fault {w : World} {msg : ServerMsg} {i : RingIdx}
    (hindex : kickIndex msg.msg.payload.u64 = .ret (i, true)) (hnum : msg.fdNum ≠ 1) :
    (setVringKick w msg).out = .fault .assertion := by
  rw [setVringKick, hindex, Traced.lift_ret_bind]
  simp only [if_true, Outcome.require_neg hnum]
  rfl

/-- Of a ring, `_set_vring_kick` changes the descriptor only. -/
theorem setKick_some (w : World) (i : RingIdx) (d : Int) :
    w.setKick i (some d) =
      let w' := w.setVring i { w.vring i with kickfd := d }
      { w' with server := { w'.server with
          fdList := if i = txIdx then (w.server.fdList.addFdList d .kickServer).2
            else w.server.fdList
          isPolling := false } } := by
  by_cases hi : i = txIdx
  · simp only [World.setKick, if_pos hi]
    rfl
  · simp only [World.setKick, if_neg hi]
    rfl

theorem setKick_vring (w : World) (i : RingIdx) (d : Int) :
    (w.setKick i (some d)).vring i = { w.vring i with kickfd := d } := by
  rw [setKick_some]
  exact World.setVring_vring_self w i _

theorem setKick_table (w : World) (i : RingIdx) (fd : Option Int) :
    (w.setKick i fd).server.table = match fd with
      | some d => w.server.table.setVring i { w.vring i with kickfd := d }
      | none => w.server.table := by
  cases fd with
  | none => rfl
  | some d => rw [setKick_some]; rfl

theorem setKick_mem (w : World) (i : RingIdx) (fd : Option Int) :
    (w.setKick i fd).mem = w.mem := by
  cases fd with
  | none => rfl
  | some d => rw [setKick_some]; rfl

theorem setKick_fds (w : World) (i : RingIdx) (fd : Option Int) :
    ((w.setKick i fd).server.sock, (w.setKick i fd).server.fdList) =
      (w.server.sock, match fd with
        | some d => if i = txIdx then (w.server.fdList.addFdList d .kickServer).2
            else w.server.fdList
        | none => w.server.fdList) := by
  cases fd with
  | none => rfl
  | some d => rw [setKick_some]; rfl

/-! ### The messages -/

/-- What the handler of a request left of the state. -/
inductive Handled (maps : Nat → Option MapResult) (w : World) (msg : ServerMsg) :
    VhostUserRequest → World → Prop
  | table {w' : World}
      (h : setMemTableLoop msg maps msg.msg.payload.nregions.toNat 0
        (w.setContext { w.context with memory := { w.context.memory with nregions := 0 } }) =
          .ret w') : Handled maps w msg .setMemTable w'
  | num {i : RingIdx} (hi : ringIndex msg.msg.payload.state.index = .ret i) :
      Handled maps w msg .setVringNum
        (w.setVring i { w.vring i with num := msg.msg.payload.state.num })
  | addr {i : RingIdx} {idx : UInt16} (hi : ringIndex msg.msg.payload.addr.index = .ret i)
      (hidx : loadUsedIdx w.space w.mem
        (mapUserAddr w.context.memory msg.msg.payload.addr.usedUserAddr) = .ret idx) :
      Handled maps w msg .setVringAddr (w.setVring i
        { w.vring i with
          desc := mapUserAddr w.context.memory msg.msg.payload.addr.descUserAddr
          avail := mapUserAddr w.context.memory msg.msg.payload.addr.availUserAddr
          used := mapUserAddr w.context.memory msg.msg.payload.addr.usedUserAddr
          lastUsedIdx := idx })
  | base {i : RingIdx} (hi : ringIndex msg.msg.payload.state.index = .ret i) :
      Handled maps w msg .setVringBase
        (w.setVring i { w.vring i with lastAvailIdx := msg.msg.payload.state.num.toUInt16 })
  | kick {i : RingIdx} {validfd : Bool}
      (hi : kickIndex msg.msg.payload.u64 = .ret (i, validfd))
      (hnum : validfd = true → msg.fdNum = 1) :
      Handled maps w msg .setVringKick
        (w.setKick i (if validfd = true then some (msg.fds 0) else none))
  | call {i : RingIdx} {validfd : Bool}
      (hi : kickIndex msg.msg.payload.u64 = .ret (i, validfd))
      (hnum : validfd = true → msg.fdNum = 1) :
      Handled maps w msg .setVringCall
        (w.setCall i (if validfd = true then some (msg.fds 0) else none))
  | answered {req : VhostUserRequest} (hreq : req = .getFeatures ∨ req = .getVringBase) :
      Handled maps w msg req w
  | ignored {req : VhostUserRequest} (hreq : msgHandler maps req = ignoreMsg) :
      Handled maps w msg req w

section Messages
variable {maps : Nat → Option MapResult} {w w' : World} {msg msg' : ServerMsg} {r : Int}

theorem setVringKick_ret (h : (setVringKick w msg).out = .ret (r, msg', w')) :
    ∃ i validfd, kickIndex msg.msg.payload.u64 = .ret (i, validfd) ∧
      (validfd = true → msg.fdNum = 1) ∧
      w' = w.setKick i (if validfd = true then some (msg.fds 0) else none) := by
  obtain ⟨⟨i, validfd⟩, hi, hrest⟩ := Traced.bind_out_eq_ret.mp h
  have hnum : validfd = true → msg.fdNum = 1 := by
    rintro rfl
    obtain ⟨_, hnum, _⟩ := Traced.bind_out_eq_ret.mp hrest
    exact Outcome.require_eq_ret.mp hnum
  rw [setVringKick_out hi hnum] at h
  cases h
  exact ⟨i, validfd, hi, hnum, rfl⟩

theorem setVringCall_ret (h : (setVringCall w msg).out = .ret (r, msg', w')) :
    ∃ i validfd, kickIndex msg.msg.payload.u64 = .ret (i, validfd) ∧
      (validfd = true → msg.fdNum = 1) ∧
      w' = w.setCall i (if validfd = true then some (msg.fds 0) else none) := by
  obtain ⟨⟨i, validfd⟩, hi, hrest⟩ := Traced.bind_out_eq_ret.mp h
  have hnum : validfd = true → msg.fdNum = 1 := by
    rintro rfl
    obtain ⟨_, hnum, _⟩ := Traced.bind_out_eq_ret.mp hrest
    exact Outcome.require_eq_ret.mp hnum
  rw [setVringCall_out hi hnum] at h
  cases h
  exact ⟨i, validfd, hi, hnum, rfl⟩

/-- **Every handler that returns leaves one of these states.** -/
theorem msgHandler_cases {req : VhostUserRequest}
    (h : (msgHandler maps req w msg).out = .ret (r, msg', w')) : Handled maps w msg req w' := by
  cases req with
  | setMemTable =>
      obtain ⟨w1, hloop, h⟩ := Traced.bind_out_eq_ret.mp h
      cases h
      exact .table hloop
  | setVringNum =>
      obtain ⟨i, hi, h⟩ := Traced.bind_out_eq_ret.mp h
      cases h
      exact .num hi
  | setVringAddr =>
      obtain ⟨i, hi, h⟩ := Traced.bind_out_eq_ret.mp h
      obtain ⟨_, _, h⟩ := Traced.bind_out_eq_ret.mp h
      obtain ⟨_, _, h⟩ := Traced.bind_out_eq_ret.mp h
      obtain ⟨idx, hidx, h⟩ := Traced.bind_out_eq_ret.mp h
      cases h
      exact .addr hi hidx
  | setVringBase =>
      obtain ⟨i, hi, h⟩ := Traced.bind_out_eq_ret.mp h
      cases h
      exact .base hi
  | getVringBase =>
      obtain ⟨i, hi, h⟩ := Traced.bind_out_eq_ret.mp h
      cases h
      exact .answered (.inr rfl)
  | getFeatures =>
      cases h
      exact .answered (.inl rfl)
  | setVringKick =>
      obtain ⟨i, validfd, hi, hnum, rfl⟩ := setVringKick_ret h
      exact .kick hi hnum
  | setVringCall =>
      obtain ⟨i, validfd, hi, hnum, rfl⟩ := setVringCall_ret h
      exact .call hi hnum
  | none | setFeatures | setOwner | resetOwner | setLogBase | setLogFd | setVringErr =>
      cases h
      exact .ignored rfl

theorem inMsgServer_cases
    (h : (inMsgServer maps w msg).out = .ret (r, msg', w')) :
    ∃ req, req ≠ .none ∧ VhostUserRequest.ofWord msg.msg.request = some req ∧
      (msgHandler maps req w msg).out = .ret (r, msg', w') := by
  rw [inMsgServer] at h
  cases hreq : VhostUserRequest.ofWord msg.msg.request with
  | none =>
      rw [hreq] at h
      cases h
  | some req =>
      rw [hreq] at h
      cases req with
      | none => cases h
      | _ => exact ⟨_, by decide, rfl, h⟩

end Messages

section Calls
variable {fuel : Nat} {w w' : World}

/-! ### Kicks and polls -/

theorem pollAvailVring_cases {i : RingIdx} (h : (pollAvailVring fuel w i).out = .ret w') :
    ((w.vring i).desc ≠ 0 ∧ ∃ s, processAvailVring w.space fuel w.server.table i w.mem = .ret s ∧
      w' = { w.setTable s.table with mem := s.mem }) ∨
    ((w.vring i).desc = 0 ∧ w' = w) := by
  rw [pollAvailVring] at h
  by_cases hdesc : (w.vring i).desc = 0
  · rw [if_neg (not_not_intro hdesc)] at h
    cases h
    exact .inr ⟨hdesc, rfl⟩
  · rw [if_pos hdesc, Traced.act_bind] at h
    obtain ⟨s, hs, h⟩ := Traced.bind_out_eq_ret.mp h
    cases h
    exact .inl ⟨hdesc, s, hs, rfl⟩

theorem kickServer_cases {fd r : Int} (h : (kickServer fuel w fd r).out = .ret w') :
    (r < 0 ∧ w' = w) ∨ (r = 0 ∧ w' = w.setFdList (w.server.fdList.delFdList fd).2) ∨
    (0 < r ∧ (pollAvailVring fuel w txIdx).out = .ret w') := by
  rw [kickServer] at h
  by_cases hneg : r < 0
  · rw [if_pos hneg] at h
    cases h
    exact .inl ⟨hneg, rfl⟩
  rw [if_neg hneg] at h
  by_cases hzero : r = 0
  · rw [if_pos hzero] at h
    cases h
    exact .inr (.inl ⟨hzero, rfl⟩)
  rw [if_neg hzero] at h
  exact .inr (.inr ⟨by omega, h⟩)

theorem pollTx_cases (h : (pollTx fuel w).out = .ret w') :
    (w.server.isPolling = true ∧ (pollAvailVring fuel w txIdx).out = .ret w') ∨
    (w.server.isPolling = false ∧ w' = w) := by
  rw [pollTx] at h
  cases hpoll : w.server.isPolling with
  | true =>
      rw [if_pos hpoll] at h
      exact .inl ⟨rfl, h⟩
  | false =>
      rw [hpoll, if_neg Bool.false_ne_true] at h
      cases h
      exact .inr ⟨rfl, rfl⟩

theorem pollRx_cases (h : (pollRx w).out = .ret w') :
    (w.context.bufferSize ≠ 0 ∧ ∃ r t m,
      putVring w.space w.server.table rxIdx w.context.packet w.mem = .ret (r, t, m) ∧
      w' = ({ w.setTable t with mem := m } : World).setContext
        { t.context with bufferSize := 0 }) ∨
    (w.context.bufferSize = 0 ∧ w' = w) := by
  rw [pollRx] at h
  by_cases hsize : w.context.bufferSize = 0
  · rw [if_neg (not_not_intro hsize)] at h
    cases h
    exact .inr ⟨hsize, rfl⟩
  · rw [if_pos hsize, Traced.act_bind] at h
    obtain ⟨⟨r, t, m⟩, hput, h⟩ := Traced.bind_out_eq_ret.mp h
    cases h
    exact .inl ⟨hsize, r, t, m, hput, rfl⟩

theorem pollServer_cases (h : (pollServer fuel w).out = .ret w') :
    ((w.vring rxIdx).desc ≠ 0 ∧ ∃ w1, (pollTx fuel w).out = .ret w1 ∧
      (pollRx w1).out = .ret w') ∨
    ((w.vring rxIdx).desc = 0 ∧ w' = w) := by
  rw [pollServer] at h
  by_cases hdesc : (w.vring rxIdx).desc = 0
  · rw [if_neg (not_not_intro hdesc)] at h
    cases h
    exact .inr ⟨hdesc, rfl⟩
  · rw [if_pos hdesc] at h
    obtain ⟨w1, htx, hrx⟩ := Traced.bind_out_eq_ret.mp h
    exact .inl ⟨hdesc, w1, htx, hrx⟩

/-! ### The events -/

/-- The branch that an event took, and the state that it left. -/
inductive Executed (fuel : Nat) (w : World) : Event → World → Prop
  | accept {sock : Int} (hreg : w.server.fdList.Registered w.server.sock .acceptSockServer) :
      Executed fuel w (.accept sock)
        (w.setFdList (w.server.fdList.addFdList sock .receiveSockServer).2)
  | notListening {sock : Int}
      (hreg : ¬ w.server.fdList.Registered w.server.sock .acceptSockServer) :
      Executed fuel w (.accept sock) w
  | message {sock : Int} {msg msg' : ServerMsg} {maps : Nat → Option MapResult} {r : Int}
      {w' : World} (hreg : w.server.fdList.Registered sock .receiveSockServer)
      (h : (inMsgServer maps w msg).out = .ret (r, msg', w')) :
      Executed fuel w (.message sock msg maps) w'
  | unreadMessage {sock : Int} {msg : ServerMsg} {maps : Nat → Option MapResult}
      (hreg : ¬ w.server.fdList.Registered sock .receiveSockServer) :
      Executed fuel w (.message sock msg maps) w
  | hangup {sock : Int} (hreg : w.server.fdList.Registered sock .receiveSockServer) :
      Executed fuel w (.hangup sock) (w.setFdList (w.server.fdList.delFdList sock).2)
  | unreadHangup {sock : Int} (hreg : ¬ w.server.fdList.Registered sock .receiveSockServer) :
      Executed fuel w (.hangup sock) w
  | kick {fd r : Int} {w' : World} (hreg : w.server.fdList.Registered fd .kickServer)
      (h : (kickServer fuel w fd r).out = .ret w') : Executed fuel w (.kick fd r) w'
  | unreadKick {fd r : Int} (hreg : ¬ w.server.fdList.Registered fd .kickServer) :
      Executed fuel w (.kick fd r) w
  | poll {w' : World} (h : (pollServer fuel w).out = .ret w') : Executed fuel w .poll w'
  | peer {mem : Mem} : Executed fuel w (.peer mem) { w with mem := mem }

/-- **Every event takes one of these branches.** -/
theorem exec_cases {e : Event} (h : (exec fuel w e).out = .ret w') : Executed fuel w e w' := by
  cases e with
  | accept sock =>
      rw [exec] at h
      split at h
      · cases h
        exact .accept ‹_›
      · cases h
        exact .notListening ‹_›
  | message sock msg maps =>
      rw [exec] at h
      split at h
      · obtain ⟨⟨r, msg', w1⟩, hout, h⟩ := Traced.bind_out_eq_ret.mp h
        cases h
        exact .message ‹_› hout
      · cases h
        exact .unreadMessage ‹_›
  | hangup sock =>
      rw [exec] at h
      split at h
      · cases h
        exact .hangup ‹_›
      · cases h
        exact .unreadHangup ‹_›
  | kick fd r =>
      rw [exec] at h
      split at h
      · exact .kick ‹_› h
      · cases h
        exact .unreadKick ‹_›
  | poll => exact .poll h
  | peer mem =>
      cases h
      exact .peer

end Calls

end Vapp
