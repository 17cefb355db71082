import Mathlib.Data.List.Rotate
import Vapp.KickMode
import Vapp.Payloads
import Vapp.SessionRings
import Vapp.TableInstall
import Vapp.Library.Footprint

/-! # The order of the messages

Each handler of `vhost_server.c` sets a few members of the state of the server and reads a few.
Messages whose handlers do not meet in any of them can come in either order; the messages of
`set_host_vring_table` can come in any order at all.
-/
namespace Vapp

/-! ### The fields of the state -/

/-- The members of a `Vring` that one message sets. -/
inductive RingPart where
  | num
  | base
  | addr
  | kick
  | call
  deriving DecidableEq, Repr

/-- Two rings agree on a part. -/
def RingPart.Same : RingPart → Vring → Vring → Prop
  | num, v, w => v.num = w.num
  | base, v, w => v.lastAvailIdx = w.lastAvailIdx
  | addr, v, w => v.desc = w.desc ∧ v.avail = w.avail ∧ v.used = w.used ∧
      v.lastUsedIdx = w.lastUsedIdx
  | kick, v, w => v.kickfd = w.kickfd
  | call, v, w => v.callfd = w.callfd

/-- The state of the server, taken apart by the messages that set it. -/
inductive ServerField where
  | ring (i : RingIdx) (p : RingPart)
  | table
  | polling
  | fds
  | rest
  deriving DecidableEq, Repr

/-- Two states agree on a field. -/
def ServerField.Same : ServerField → World → World → Prop
  | ring i p, w, w' => p.Same (w.vring i) (w'.vring i)
  | table, w, w' => w.context.memory = w'.context.memory ∧ w.space = w'.space
  | polling, w, w' => w.server.isPolling = w'.server.isPolling
  | fds, w, w' => w.server.fdList = w'.server.fdList
  | rest, w, w' => w.mem = w'.mem ∧ w.server.sock = w'.server.sock ∧
      w.server.table.handlers = w'.server.table.handlers ∧
      w.context.buffer = w'.context.buffer ∧ w.context.bufferSize = w'.context.bufferSize

/-- The fields that the handler of a message reads. -/
inductive ServerMsg.Reads (msg : ServerMsg) : ServerField → Prop
  | table (h : VhostUserRequest.ofWord msg.msg.request = some .setMemTable) : Reads msg .table
  | addr {f : ServerField} (h : VhostUserRequest.ofWord msg.msg.request = some .setVringAddr)
      (hf : f = .table ∨ f = .rest) : Reads msg f
  | base {i : RingIdx} (h : VhostUserRequest.ofWord msg.msg.request = some .getVringBase)
      (hi : ringIndex msg.msg.payload.state.index = .ret i) : Reads msg (.ring i .base)
  | kick (h : VhostUserRequest.ofWord msg.msg.request = some .setVringKick)
      (hi : kickIndex msg.msg.payload.u64 = .ret (txIdx, true)) : Reads msg .fds

/-- The fields that it sets. -/
inductive ServerMsg.Writes (msg : ServerMsg) : ServerField → Prop
  | table (h : VhostUserRequest.ofWord msg.msg.request = some .setMemTable) : Writes msg .table
  | num {i : RingIdx} (h : VhostUserRequest.ofWord msg.msg.request = some .setVringNum)
      (hi : ringIndex msg.msg.payload.state.index = .ret i) : Writes msg (.ring i .num)
  | base {i : RingIdx} (h : VhostUserRequest.ofWord msg.msg.request = some .setVringBase)
      (hi : ringIndex msg.msg.payload.state.index = .ret i) : Writes msg (.ring i .base)
  | addr {i : RingIdx} (h : VhostUserRequest.ofWord msg.msg.request = some .setVringAddr)
      (hi : ringIndex msg.msg.payload.addr.index = .ret i) : Writes msg (.ring i .addr)
  | kick {i : RingIdx} (h : VhostUserRequest.ofWord msg.msg.request = some .setVringKick)
      (hi : kickIndex msg.msg.payload.u64 = .ret (i, true)) : Writes msg (.ring i .kick)
  | polling (h : VhostUserRequest.ofWord msg.msg.request = some .setVringKick) :
      Writes msg .polling
  | fds (h : VhostUserRequest.ofWord msg.msg.request = some .setVringKick)
      (hi : kickIndex msg.msg.payload.u64 = .ret (txIdx, true)) : Writes msg .fds
  | call {i : RingIdx} (h : VhostUserRequest.ofWord msg.msg.request = some .setVringCall)
      (hi : kickIndex msg.msg.payload.u64 = .ret (i, true)) : Writes msg (.ring i .call)

section Fields
variable {w w' w'' : World} {f : ServerField}

theorem RingPart.same_refl (p : RingPart) (v : Vring) : p.Same v v := by
  cases p with
  | addr => exact ⟨rfl, rfl, rfl, rfl⟩
  | _ => exact rfl

theorem RingPart.same_symm {p : RingPart} {v u : Vring} (h : p.Same v u) : p.Same u v := by
  cases p with
  | addr => exact ⟨h.1.symm, h.2.1.symm, h.2.2.1.symm, h.2.2.2.symm⟩
  | _ => exact Eq.symm h

theorem RingPart.same_trans {p : RingPart} {v u x : Vring} (h : p.Same v u) (h' : p.Same u x) :
    p.Same v x := by
  cases p with
  | addr =>
      exact ⟨h.1.trans h'.1, h.2.1.trans h'.2.1, h.2.2.1.trans h'.2.2.1, h.2.2.2.trans h'.2.2.2⟩
  | _ => exact Eq.trans h h'

theorem RingPart.ext {v u : Vring} (h : ∀ p : RingPart, p.Same v u) : v = u := by
  have haddr := h .addr
  cases v
  cases u
  exact Vring.mk.injEq .. ▸ ⟨h .kick, h .call, haddr.1, haddr.2.1, haddr.2.2.1, h .num, h .base,
    haddr.2.2.2⟩

theorem ServerField.same_refl (f : ServerField) (w : World) : f.Same w w := by
  cases f with
  | ring i p => exact p.same_refl _
  | table => exact ⟨rfl, rfl⟩
  | rest => exact ⟨rfl, rfl, rfl, rfl, rfl⟩
  | _ => exact rfl

theorem ServerField.same_symm (h : f.Same w w') : f.Same w' w := by
  cases f with
  | ring i p => exact RingPart.same_symm h
  | table => exact ⟨h.1.symm, h.2.symm⟩
  | rest => exact ⟨h.1.symm, h.2.1.symm, h.2.2.1.symm, h.2.2.2.1.symm, h.2.2.2.2.symm⟩
  | _ => exact Eq.symm h

theorem ServerField.same_trans (h : f.Same w w') (h' : f.Same w' w'') : f.Same w w'' := by
  cases f with
  | ring i p => exact RingPart.same_trans h h'
  | table => exact ⟨h.1.trans h'.1, h.2.trans h'.2⟩
  | rest =>
      exact ⟨h.1.trans h'.1, h.2.1.trans h'.2.1, h.2.2.1.trans h'.2.2.1,
        h.2.2.2.1.trans h'.2.2.2.1, h.2.2.2.2.trans h'.2.2.2.2⟩
  | _ => exact Eq.trans h h'

/-- The fields are all there is. -/
theorem ServerField.ext (h : ∀ f : ServerField, f.Same w w') : w = w' := by
  have hvring : w.server.table.vring = w'.server.table.vring :=
    funext fun i => RingPart.ext fun p => h (.ring i p)
  obtain ⟨hmemory, hspace⟩ := h .table
  obtain ⟨hmem, hsock, hhandlers, hbuffer, hsize⟩ := h .rest
  obtain ⟨⟨sock, fds, ⟨⟨memory, buffer, size⟩, handlers, vring⟩, polling⟩, space, mem⟩ := w
  obtain ⟨⟨sock', fds', ⟨⟨memory', buffer', size'⟩, handlers', vring'⟩, polling'⟩, space', mem'⟩ :=
    w'
  have hpolling : polling = polling' := h .polling
  have hfds : fds = fds' := h .fds
  simp only [World.context] at *
  subst hvring hmemory hspace hmem hsock hhandlers hbuffer hsize hpolling hfds
  rfl

/-- Setting a part of a ring changes that part alone. -/
theorem ServerField.same_setVring {i : RingIdx} {v : Vring} {p : RingPart}
    (hv : ∀ q : RingPart, q ≠ p → q.Same (w.vring i) v) (hf : f ≠ .ring i p) :
    f.Same w (w.setVring i v) := by
  cases f with
  | ring j q =>
      by_cases hj : j = i
      · subst hj
        show q.Same (w.vring j) ((w.setVring j v).vring j)
        rw [World.setVring_vring_self]
        exact hv q fun heq => hf (by rw [heq])
      · show q.Same (w.vring j) ((w.setVring i v).vring j)
        rw [World.setVring_vring_of_ne w v hj]
        exact q.same_refl _
  | table => exact ⟨rfl, rfl⟩
  | rest => exact ⟨rfl, rfl, rfl, rfl, rfl⟩
  | _ => exact rfl

end Fields

/-! ### What the handlers read and set -/

/-- `in_msg_server` handles a message and returns. -/
def ServerStep (maps : Nat → Option MapResult) (w : World) (msg : ServerMsg) (w' : World) : Prop :=
  ∃ r msg', (inMsgServer maps w msg).out = .ret (r, msg', w')

section Handlers
variable {maps : Nat → Option MapResult} {w w' v : World} {msg : ServerMsg} {f : ServerField}

theorem ServerStep.of_handler {req : VhostUserRequest} (hne : req ≠ .none)
    (hreq : VhostUserRequest.ofWord msg.msg.request = some req) {r : Int} {msg' : ServerMsg}
    (h : (msgHandler maps req w msg).out = .ret (r, msg', w')) : ServerStep maps w msg w' := by
  refine ⟨r, msg', ?_⟩
  rw [inMsgServer, hreq]
  cases req with
  | none => exact absurd rfl hne
  | _ => exact h

/-- Whether `_set_mem_table` returns does not depend on the state. -/
theorem setMemTable_ret {r : Int} {msg' : ServerMsg}
    (h : (setMemTable maps w msg).out = .ret (r, msg', w')) :
    w' = w.tabled msg maps msg.msg.payload.nregions.toNat ∧
      ∀ v, (setMemTable maps v msg).out =
        .ret (0, msg, v.tabled msg maps msg.msg.payload.nregions.toNat) := by
  rcases setMemTable_cases w msg maps with ⟨-, hout⟩ | ⟨hall, ⟨hle, hout⟩ | ⟨-, hout⟩⟩
  · rw [hout] at h
    cases h
  · rw [hout] at h
    cases h
    refine ⟨rfl, fun v => ?_⟩
    rcases setMemTable_cases v msg maps with ⟨⟨k, hk, hk', hu⟩, -⟩ | ⟨-, ⟨-, hout'⟩ | ⟨hlt, -⟩⟩
    · exact absurd hu (hall k hk hk')
    · exact hout'
    · omega
  · rw [hout] at h
    cases h

theorem setVringNum_out {i : RingIdx} (hi : ringIndex msg.msg.payload.state.index = .ret i) :
    (setVringNum w msg).out =
      .ret (0, msg, w.setVring i { w.vring i with num := msg.msg.payload.state.num }) := by
  rw [setVringNum, hi]
  rfl

theorem setVringBase_out {i : RingIdx} (hi : ringIndex msg.msg.payload.state.index = .ret i) :
    (setVringBase w msg).out = .ret (0, msg, w.setVring i
      { w.vring i with lastAvailIdx := msg.msg.payload.state.num.toUInt16 }) := by
  rw [setVringBase, hi]
  rfl

theorem setVringAddr_out {i : RingIdx} {idx : UInt16}
    (hi : ringIndex msg.msg.payload.addr.index = .ret i)
    (hidx : loadUsedIdx w.space w.mem
      (mapUserAddr w.context.memory msg.msg.payload.addr.usedUserAddr) = .ret idx) :
    (setVringAddr w msg).out = .ret (0, msg, w.setVring i
      { w.vring i with
        desc := mapUserAddr w.context.memory msg.msg.payload.addr.descUserAddr
        avail := mapUserAddr w.context.memory msg.msg.payload.addr.availUserAddr
        used := mapUserAddr w.context.memory msg.msg.payload.addr.usedUserAddr
        lastUsedIdx := idx }) := by
  rw [setVringAddr, hi]
  simp only [Traced.lift_ret_bind, Traced.act_bind, hidx]
  rfl

/-- Of the rest of the state, `_set_vring_kick` changes the mode and, for the TX ring, the list
of descriptors. -/
theorem setKick_frame {i : RingIdx} {fd : Option Int} (hring : ∀ j q, f = .ring j q →
      j = i → q = .kick → fd = none) (hpolling : f ≠ .polling)
    (hfds : f = .fds → i = txIdx → fd = none) : f.Same w (w.setKick i fd) := by
  cases fd with
  | none =>
      cases f with
      | ring j q => exact q.same_refl _
      | table => exact ⟨rfl, rfl⟩
      | polling => exact absurd rfl hpolling
      | fds => exact rfl
      | rest => exact ⟨rfl, rfl, rfl, rfl, rfl⟩
  | some d =>
      rw [setKick_some]
      cases f with
      | ring j q =>
          refine ServerField.same_setVring (f := .ring j q) (p := .kick) (fun q hq => ?_)
            fun heq => ?_
          · cases q with
            | kick => exact absurd rfl hq
            | addr => exact ⟨rfl, rfl, rfl, rfl⟩
            | _ => exact rfl
          · obtain ⟨rfl, rfl⟩ := ServerField.ring.inj heq
            cases hring j .kick rfl rfl rfl
      | table => exact ⟨rfl, rfl⟩
      | polling => exact absurd rfl hpolling
      | fds =>
          by_cases hi : i = txIdx
          · cases hfds rfl hi
          · show w.server.fdList = if i = txIdx then _ else w.server.fdList
            rw [if_neg hi]
      | rest => exact ⟨rfl, rfl, rfl, rfl, rfl⟩

/-- A handler leaves alone what it does not set. -/
theorem ServerStep.frame (h : ServerStep maps w msg w') (hf : ¬ msg.Writes f) : f.Same w w' := by
  obtain ⟨r, msg', h⟩ := h
  obtain ⟨req, -, hreq, hout⟩ := inMsgServer_cases h
  cases req with
  | setMemTable =>
      obtain ⟨rfl, -⟩ := setMemTable_ret hout
      cases f with
      | table => exact absurd (.table hreq) hf
      | ring i p => exact p.same_refl _
      | rest => exact ⟨rfl, rfl, rfl, rfl, rfl⟩
      | _ => exact rfl
  | setVringNum =>
      obtain ⟨i, hi, -⟩ := Traced.bind_out_eq_ret.mp hout
      cases (setVringNum_out hi).symm.trans hout
      refine ServerField.same_setVring (p := .num) (fun q hq => ?_) fun heq =>
        hf (heq ▸ .num hreq hi)
      cases q with
      | num => exact absurd rfl hq
      | addr => exact ⟨rfl, rfl, rfl, rfl⟩
      | _ => exact rfl
  | setVringBase =>
      obtain ⟨i, hi, -⟩ := Traced.bind_out_eq_ret.mp hout
      cases (setVringBase_out hi).symm.trans hout
      refine ServerField.same_setVring (p := .base) (fun q hq => ?_) fun heq =>
        hf (heq ▸ .base hreq hi)
      cases q with
      | base => exact absurd rfl hq
      | addr => exact ⟨rfl, rfl, rfl, rfl⟩
      | _ => exact rfl
  | setVringAddr =>
      obtain ⟨i, hi, hrest⟩ := Traced.bind_out_eq_ret.mp hout
      obtain ⟨_, _, hrest⟩ := Traced.bind_out_eq_ret.mp hrest
      obtain ⟨_, _, hrest⟩ := Traced.bind_out_eq_ret.mp hrest
      obtain ⟨idx, hidx, -⟩ := Traced.bind_out_eq_ret.mp hrest
      cases (setVringAddr_out hi hidx).symm.trans hout
      refine ServerField.same_setVring (p := .addr) (fun q hq => ?_) fun heq =>
        hf (heq ▸ .addr hreq hi)
      cases q with
      | addr => exact absurd rfl hq
      | _ => exact rfl
  | setVringKick =>
      obtain ⟨i, validfd, hi, -, rfl⟩ := setVringKick_ret hout
      have hnofd : (¬ validfd = true) → (if validfd = true then some (msg.fds 0) else none) =
          none := fun hv => if_neg hv
      refine setKick_frame ?_ ?_ ?_
      · rintro j q rfl rfl rfl
        exact hnofd fun hv => hf (.kick hreq (hv ▸ hi))
      · rintro rfl
        exact hf (.polling hreq)
      · rintro rfl rfl
        exact hnofd fun hv => hf (.fds hreq (hv ▸ hi))
  | setVringCall =>
      obtain ⟨i, validfd, hi, -, rfl⟩ := setVringCall_ret hout
      cases validfd with
      | false => exact f.same_refl w
      | true =>
          refine ServerField.same_setVring (p := .call) (fun q hq => ?_) fun heq =>
            hf (heq ▸ .call hreq hi)
          cases q with
          | call => exact absurd rfl hq
          | addr => exact ⟨rfl, rfl, rfl, rfl⟩
          | _ => exact rfl
  | getVringBase =>
      obtain ⟨i, -, hout⟩ := Traced.bind_out_eq_ret.mp hout
      cases hout
      exact f.same_refl w
  | none | getFeatures | setFeatures | setOwner | resetOwner | setLogBase | setLogFd
  | setVringErr =>
      cases hout
      exact f.same_refl w

/-- What a part of a ring is set to does not depend on the ring. -/
theorem same_set {i : RingIdx} {u x : Vring} {p : RingPart} (h : p.Same u x) :
    (ServerField.ring i p).Same (w.setVring i u) (v.setVring i x) := by
  show p.Same ((w.setVring i u).vring i) ((v.setVring i x).vring i)
  rw [World.setVring_vring_self, World.setVring_vring_self]
  exact h

/-- **What a handler sets is decided by what it reads.** -/
theorem ServerStep.congr (h : ServerStep maps w msg w')
    (hread : ∀ f, msg.Reads f → f.Same w v) :
    ∃ v', ServerStep maps v msg v' ∧ ∀ f, msg.Writes f → f.Same w' v' := by
  obtain ⟨r, msg', h⟩ := h
  obtain ⟨req, hne, hreq, hout⟩ := inMsgServer_cases h
  cases req with
  | setMemTable =>
      obtain ⟨rfl, hall⟩ := setMemTable_ret hout
      obtain ⟨hmemory, hspace⟩ := hread .table (.table hreq)
      refine ⟨_, .of_handler hne hreq (hall v), fun f hf => ?_⟩
      cases hf with
      | table _ =>
          refine ⟨?_, ?_⟩
          · rw [tabled_memory, tabled_memory, hmemory]
          · rw [tabled_space, tabled_space, hspace]
      | num h _ | base h _ | addr h _ | kick h _ | polling h | fds h _ | call h _ =>
          cases hreq.symm.trans h
  | setVringNum =>
      obtain ⟨i, hi, -⟩ := Traced.bind_out_eq_ret.mp hout
      cases (setVringNum_out hi).symm.trans hout
      refine ⟨_, .of_handler hne hreq (setVringNum_out hi), fun f hf => ?_⟩
      cases hf with
      | num _ hj =>
          cases hi.symm.trans hj
          exact same_set (p := .num) rfl
      | table h | base h _ | addr h _ | kick h _ | polling h | fds h _ | call h _ =>
          cases hreq.symm.trans h
  | setVringBase =>
      obtain ⟨i, hi, -⟩ := Traced.bind_out_eq_ret.mp hout
      cases (setVringBase_out hi).symm.trans hout
      refine ⟨_, .of_handler hne hreq (setVringBase_out hi), fun f hf => ?_⟩
      cases hf with
      | base _ hj =>
          cases hi.symm.trans hj
          exact same_set (p := .base) rfl
      | table h | num h _ | addr h _ | kick h _ | polling h | fds h _ | call h _ =>
          cases hreq.symm.trans h
  | setVringAddr =>
      obtain ⟨i, hi, hrest⟩ := Traced.bind_out_eq_ret.mp hout
      obtain ⟨_, _, hrest⟩ := Traced.bind_out_eq_ret.mp hrest
      obtain ⟨_, _, hrest⟩ := Traced.bind_out_eq_ret.mp hrest
      obtain ⟨idx, hidx, -⟩ := Traced.bind_out_eq_ret.mp hrest
      cases (setVringAddr_out hi hidx).symm.trans hout
      -- the addresses are translated by the same table, and `used->idx` is read there
      obtain ⟨hmemory, hspace⟩ := hread .table (.addr hreq (.inl rfl))
      obtain ⟨hmem, -⟩ := hread .rest (.addr hreq (.inr rfl))
      rw [hspace, hmem, hmemory] at hidx
      refine ⟨_, .of_handler hne hreq (setVringAddr_out hi hidx), fun f hf => ?_⟩
      cases hf with
      | addr _ hj =>
          cases hi.symm.trans hj
          refine same_set (p := .addr) ⟨?_, ?_, ?_, rfl⟩
          · exact congrArg (mapUserAddr · _) hmemory
          · exact congrArg (mapUserAddr · _) hmemory
          · exact congrArg (mapUserAddr · _) hmemory
      | table h | num h _ | base h _ | kick h _ | polling h | fds h _ | call h _ =>
          cases hreq.symm.trans h
  | setVringKick =>
      obtain ⟨i, validfd, hi, hnum, rfl⟩ := setVringKick_ret hout
      refine ⟨_, .of_handler hne hreq (setVringKick_out hi hnum), fun f hf => ?_⟩
      cases hf with
      | kick _ hj =>
          cases hi.symm.trans hj
          rw [if_pos rfl, setKick_some, setKick_some]
          exact same_set (p := .kick) rfl
      | polling _ =>
          show (w.setKick i _).server.isPolling = (v.setKick i _).server.isPolling
          rw [setKick_isPolling, setKick_isPolling]
      | fds _ hj =>
          cases hi.symm.trans hj
          have hfds : w.server.fdList = v.server.fdList := hread .fds (.kick hreq hj)
          rw [if_pos rfl]
          show (w.setKick txIdx _).server.fdList = (v.setKick txIdx _).server.fdList
          rw [setKick_fdList_tx, setKick_fdList_tx, hfds]
      | table h | num h _ | base h _ | addr h _ | call h _ =>
          cases hreq.symm.trans h
  | setVringCall =>
      obtain ⟨i, validfd, hi, hnum, rfl⟩ := setVringCall_ret hout
      refine ⟨_, .of_handler hne hreq (setVringCall_out hi hnum), fun f hf => ?_⟩
      cases hf with
      | call _ hj =>
          cases hi.symm.trans hj
          exact same_set (p := .call) rfl
      | table h | num h _ | base h _ | addr h _ | kick h _ | polling h | fds h _ =>
          cases hreq.symm.trans h
  | getVringBase =>
      obtain ⟨i, hi, -⟩ := Traced.bind_out_eq_ret.mp hout
      cases (getVringBase_out hi).symm.trans hout
      refine ⟨v, .of_handler hne hreq (getVringBase_out hi), fun f hf => ?_⟩
      cases hf with
      | table h | num h _ | base h _ | addr h _ | kick h _ | polling h | fds h _ | call h _ =>
          cases hreq.symm.trans h
  | none => exact absurd rfl hne
  | getFeatures | setFeatures | setOwner | resetOwner | setLogBase | setLogFd | setVringErr =>
      cases hout
      refine ⟨v, .of_handler hne hreq rfl, fun f hf => ?_⟩
      cases hf with
      | table h | num h _ | base h _ | addr h _ | kick h _ | polling h | fds h _ | call h _ =>
          cases hreq.symm.trans h

end Handlers

/-- The messages of the server, with the fields that their handlers read and set. -/
def serverFootprint (maps : Nat → Option MapResult) : Footprint World ServerMsg ServerField where
  step := ServerStep maps
  same := ServerField.Same
  reads := ServerMsg.Reads
  writes := ServerMsg.Writes
  refl := ServerField.same_refl
  symm := ServerField.same_symm
  trans := ServerField.same_trans
  ext := ServerField.ext
  frame := ServerStep.frame
  congr := ServerStep.congr

/-- The server returns from all messages exactly where it steps through them. -/
theorem serveMsgs_run {maps : Nat → Option MapResult} {w w' : World} {ms : List ServerMsg} :
    (serveMsgs maps w ms).out = .ret w' ↔
      Transition.Run (serverFootprint maps).step w ms w' := by
  induction ms generalizing w with
  | nil =>
      constructor
      · intro h
        cases h
        exact .nil
      · intro h
        cases h.eq_of_nil
        rfl
  | cons msg ms ih =>
      rw [Footprint.run_cons, serveMsgs, Traced.bind_out_eq_ret]
      constructor
      · rintro ⟨⟨r, msg', w1⟩, h1, h2⟩
        exact ⟨w1, ⟨r, msg', h1⟩, ih.mp h2⟩
      · rintro ⟨w1, ⟨r, msg', h1⟩, h2⟩
        exact ⟨(r, msg', w1), h1, ih.mpr h2⟩

/-- **Messages that do not meet can come in either order.** -/
theorem serveMsgs_reorder {maps : Nat → Option MapResult} {w w' : World} {as bs : List ServerMsg}
    (h : (serverFootprint maps).Reorder as bs) (hrun : (serveMsgs maps w as).out = .ret w') :
    (serveMsgs maps w bs).out = .ret w' :=
  serveMsgs_run.mpr (h.run (serveMsgs_run.mp hrun))

/-! ### Messages that do not meet -/

section Apart
variable {maps : Nat → Option MapResult} {a b msg : ServerMsg} {i j : RingIdx} {p q : RingPart}
  {f : ServerField}

/-- A message that sets a part of a ring sets no more than the mode and the descriptors
besides. -/
theorem ServerMsg.Writes.of_ring (h : msg.Writes (.ring i p)) (hf : msg.Writes f) :
    f = .ring i p ∨ (p = .kick ∧ (f = .polling ∨ (f = .fds ∧ i = txIdx))) := by
  cases h with
  | num h hi =>
      cases hf with
      | num _ hj =>
          cases hi.symm.trans hj
          exact .inl rfl
      | table h' | base h' _ | addr h' _ | kick h' _ | polling h' | fds h' _ | call h' _ =>
          cases h.symm.trans h'
  | base h hi =>
      cases hf with
      | base _ hj =>
          cases hi.symm.trans hj
          exact .inl rfl
      | table h' | num h' _ | addr h' _ | kick h' _ | polling h' | fds h' _ | call h' _ =>
          cases h.symm.trans h'
  | addr h hi =>
      cases hf with
      | addr _ hj =>
          cases hi.symm.trans hj
          exact .inl rfl
      | table h' | num h' _ | base h' _ | kick h' _ | polling h' | fds h' _ | call h' _ =>
          cases h.symm.trans h'
  | call h hi =>
      cases hf with
      | call _ hj =>
          cases hi.symm.trans hj
          exact .inl rfl
      | table h' | num h' _ | base h' _ | addr h' _ | kick h' _ | polling h' | fds h' _ =>
          cases h.symm.trans h'
  | kick h hi =>
      cases hf with
      | kick _ hj =>
          cases hi.symm.trans hj
          exact .inl rfl
      | polling _ => exact .inr ⟨rfl, .inl rfl⟩
      | fds _ hj =>
          cases hi.symm.trans hj
          exact .inr ⟨rfl, .inr ⟨rfl, rfl⟩⟩
      | table h' | num h' _ | base h' _ | addr h' _ | call h' _ => cases h.symm.trans h'

theorem ServerMsg.Reads.of_ring (h : msg.Writes (.ring i p)) (hf : msg.Reads f) :
    (p = .addr ∧ (f = .table ∨ f = .rest)) ∨ (p = .kick ∧ i = txIdx ∧ f = .fds) := by
  cases h with
  | num h hi | base h hi | call h hi =>
      cases hf with
      | table h' | addr h' _ | base h' _ | kick h' _ => cases h.symm.trans h'
  | addr h hi =>
      cases hf with
      | addr _ hf => exact .inl ⟨rfl, hf⟩
      | table h' | base h' _ | kick h' _ => cases h.symm.trans h'
  | kick h hi =>
      cases hf with
      | kick _ hj =>
          cases hi.symm.trans hj
          exact .inr ⟨rfl, rfl, rfl⟩
      | table h' | addr h' _ | base h' _ => cases h.symm.trans h'

/-- A valid kick descriptor ends polling. -/
theorem ServerStep.not_polling {w w' : World} (h : ServerStep maps w msg w')
    (hw : msg.Writes (.ring i .kick)) : w'.server.isPolling = false := by
  cases hw with
  | kick hreq hi =>
      obtain ⟨r, msg', h⟩ := h
      obtain ⟨req, hne, hreq', hout⟩ := inMsgServer_cases h
      cases hreq.symm.trans hreq'
      obtain ⟨j, validfd, hj, -, rfl⟩ := setVringKick_ret hout
      cases hi.symm.trans hj
      rfl

/-- **Messages that set different parts, or parts of different rings, are apart.** -/
theorem apart_of_parts (ha : a.Writes (.ring i p)) (hb : b.Writes (.ring j q))
    (hne : ¬ (i = j ∧ p = q)) : (serverFootprint maps).Apart a b where
  left f hwa hrb := by
    rcases ha.of_ring hwa with rfl | ⟨rfl, rfl | ⟨rfl, rfl⟩⟩
    · rcases ServerMsg.Reads.of_ring hb hrb with ⟨-, h | h⟩ | ⟨-, -, h⟩ <;> cases h
    · rcases ServerMsg.Reads.of_ring hb hrb with ⟨-, h | h⟩ | ⟨-, -, h⟩ <;> cases h
    · rcases ServerMsg.Reads.of_ring hb hrb with ⟨-, h | h⟩ | ⟨rfl, rfl, -⟩
      · cases h
      · cases h
      · exact hne ⟨rfl, rfl⟩
  right f hwb hra := by
    rcases hb.of_ring hwb with rfl | ⟨rfl, rfl | ⟨rfl, rfl⟩⟩
    · rcases ServerMsg.Reads.of_ring ha hra with ⟨-, h | h⟩ | ⟨-, -, h⟩ <;> cases h
    · rcases ServerMsg.Reads.of_ring ha hra with ⟨-, h | h⟩ | ⟨-, -, h⟩ <;> cases h
    · rcases ServerMsg.Reads.of_ring ha hra with ⟨-, h | h⟩ | ⟨rfl, rfl, -⟩
      · cases h
      · cases h
      · exact hne ⟨rfl, rfl⟩
  alike f hwa hwb s t s' t' hs hs' := by
    rcases ha.of_ring hwa with rfl | ⟨rfl, rfl | ⟨rfl, rfl⟩⟩
    · rcases hb.of_ring hwb with h | ⟨-, h | ⟨h, -⟩⟩
      · obtain ⟨rfl, rfl⟩ := ServerField.ring.inj h
        exact absurd ⟨rfl, rfl⟩ hne
      · cases h
      · cases h
    · -- both kicks end polling
      rcases hb.of_ring hwb with h | ⟨rfl, -⟩
      · cases h
      · exact (hs.not_polling ha).trans (hs'.not_polling hb).symm
    · rcases hb.of_ring hwb with h | ⟨rfl, h | ⟨-, rfl⟩⟩
      · cases h
      · cases h
      · exact absurd ⟨rfl, rfl⟩ hne

/-- A message that sets and reads nothing is apart from every other. -/
theorem apart_of_silent (hw : ∀ f, ¬ a.Writes f) (hr : ∀ f, ¬ a.Reads f) :
    (serverFootprint maps).Apart a b where
  left f hwa := absurd hwa (hw f)
  right f _ := hr f
  alike f hwa := absurd hwa (hw f)

/-- Of the parts of a ring, only the addresses depend on the table. -/
theorem apart_of_table (ha : VhostUserRequest.ofWord a.msg.request = some .setMemTable)
    (hb : b.Writes (.ring i p)) (hp : p ≠ .addr) : (serverFootprint maps).Apart a b where
  left f hwa hrb := by
    rcases ServerMsg.Reads.of_ring hb hrb with ⟨rfl, -⟩ | ⟨-, -, rfl⟩
    · exact hp rfl
    · cases hwa with
      | fds h _ => cases ha.symm.trans h
  right f hwb hra := by
    cases hra with
    | table _ =>
        rcases hb.of_ring hwb with h | ⟨-, h | ⟨h, -⟩⟩ <;> cases h
    | addr h _ | base h _ | kick h _ => cases ha.symm.trans h
  alike f hwa hwb := by
    cases hwa with
    | table _ =>
        rcases hb.of_ring hwb with h | ⟨-, h | ⟨h, -⟩⟩ <;> cases h
    | num h _ | base h _ | addr h _ | kick h _ | polling h | fds h _ | call h _ =>
        cases ha.symm.trans h

end Apart

/-! ### The messages of the set-up -/

/-- The only order that the handlers know: the table, then the addresses. -/
def TableThenAddr (x y : ServerMsg) : Prop :=
  VhostUserRequest.ofWord x.msg.request = some .setMemTable ∧
    VhostUserRequest.ofWord y.msg.request = some .setVringAddr

/-- No addresses of a ring come before a table. -/
def TableFirst (ms : List ServerMsg) : Prop := ms.Pairwise fun x y => ¬ TableThenAddr y x

instance (x y : ServerMsg) : Decidable (TableThenAddr x y) := inferInstanceAs (Decidable (_ ∧ _))

instance (ms : List ServerMsg) : Decidable (TableFirst ms) :=
  inferInstanceAs (Decidable (ms.Pairwise _))

/-- The parts that `set_host_vring` sets. -/
def hostVringParts (i : RingIdx) : List (RingIdx × RingPart) :=
  [(i, .num), (i, .base), (i, .kick), (i, .call), (i, .addr)]

section SetUp
variable {maps : Nat → Option MapResult} {S : Session} {sock : Int} {m : Mem}

/-- The messages of `set_host_vring` set one part each. -/
theorem setHostVring_parts (i : RingIdx) (base : UInt64) (kickfd callfd : Int) :
    List.Forall₂ (fun msg part => ServerMsg.Writes msg (.ring part.1 part.2))
      (setHostVring (.ofNat i) base kickfd callfd) (hostVringParts i) := by
  have hreq (r : VhostUserRequest) : VhostUserRequest.ofWord r.word = some r :=
    VhostUserRequest.ofWord_word r
  refine .cons (.num (hreq _) ?_) (.cons (.base (hreq _) ?_) (.cons (.kick (hreq _) ?_)
    (.cons (.call (hreq _) ?_) (.cons (.addr (hreq _) ?_) .nil))))
  · rw [stateMsg, vhostIoctl, Payload.state_setState, ringIndex_ofNat]
  · rw [stateMsg, vhostIoctl, Payload.state_setState, ringIndex_ofNat]
  · rw [u64_fileMsg, kickIndex_ofNat]
  · rw [u64_fileMsg, kickIndex_ofNat]
  · rw [addrMsg, vhostIoctl, Payload.addr_setAddr]
    exact ringIndex_ofNat i

/-- The messages of `set_host_vring_table`. -/
theorem hostVringTable_parts (S : Session) :
    List.Forall₂ (fun msg part => ServerMsg.Writes msg (.ring part.1 part.2))
      (setHostVring 0 (S.clientBase rxIdx) (S.kickfd rxIdx) (S.callfd rxIdx) ++
        setHostVring 1 (S.clientBase txIdx) (S.kickfd txIdx) (S.callfd txIdx))
      (hostVringParts rxIdx ++ hostVringParts txIdx) :=
  List.rel_append (setHostVring_parts rxIdx _ _ _) (setHostVring_parts txIdx _ _ _)

/-- A request that sets and reads nothing. -/
theorem silent_of_request (msg : ServerMsg) {req : VhostUserRequest}
    (hreq : VhostUserRequest.ofWord msg.msg.request = some req)
    (h : req = .setOwner ∨ req = .getFeatures) : (∀ f, ¬ msg.Writes f) ∧ ∀ f, ¬ msg.Reads f := by
  have hne {req' : VhostUserRequest}
      (h' : VhostUserRequest.ofWord msg.msg.request = some req') : req' = req :=
    Option.some.inj (h'.symm.trans hreq)
  refine ⟨fun f hf => ?_, fun f hf => ?_⟩
  · cases hf with
    | table h' | num h' _ | base h' _ | addr h' _ | kick h' _ | polling h' | fds h' _
    | call h' _ => rcases h with rfl | rfl <;> cases hne h'
  · cases hf with
    | table h' | addr h' _ | base h' _ | kick h' _ => rcases h with rfl | rfl <;> cases hne h'

/-- In the order of the client, all messages are apart but the table and the addresses. -/
theorem setupMsgs_pairwise (S : Session) :
    S.setupMsgs.Pairwise fun x y => (serverFootprint maps).Apart x y ∨ TableThenAddr x y := by
  have hparts := hostVringTable_parts S
  have htable : VhostUserRequest.ofWord S.memTable.msg.request = some .setMemTable :=
    VhostUserRequest.ofWord_word _
  have howner := silent_of_request (vhostIoctl .setOwner 0 zeroPayload [])
    (VhostUserRequest.ofWord_word _) (.inl rfl)
  have hfeatures := silent_of_request (vhostIoctl .getFeatures 0 zeroPayload [])
    (VhostUserRequest.ofWord_word _) (.inr rfl)
  rw [Session.setupMsgs, List.append_assoc]
  refine List.pairwise_append.mpr ⟨?_, ?_, fun x hx y hy => ?_⟩
  · refine .cons (fun y _ => .inl (apart_of_silent howner.1 howner.2)) (.cons (fun y _ => .inl
      (apart_of_silent hfeatures.1 hfeatures.2)) (List.pairwise_singleton _ _))
  · refine (Footprint.pairwise_of_parts hparts (by decide) ?_).imp Or.inl
    intro a b k l ha hb hkl
    exact apart_of_parts ha hb fun heq => hkl (Prod.ext heq.1 heq.2)
  · obtain ⟨⟨i, p⟩, -, hy⟩ := Footprint.part_of_mem hparts hy
    simp only [List.mem_cons, List.not_mem_nil, or_false] at hx
    rcases hx with rfl | rfl | rfl
    · exact .inl (apart_of_silent howner.1 howner.2)
    · exact .inl (apart_of_silent hfeatures.1 hfeatures.2)
    · by_cases hp : p = .addr
      · subst hp
        cases hy with
        | addr hreq _ => exact .inr ⟨htable, hreq⟩
      · exact .inl (apart_of_table htable hy hp)

/-- The address of a ring is not translated before there is a table. -/
theorem ServerStep.has_space {w w' : World} {msg : ServerMsg} (h : ServerStep maps w msg w')
    (hreq : VhostUserRequest.ofWord msg.msg.request = some .setVringAddr) : w.space ≠ [] := by
  intro hspace
  obtain ⟨r, msg', h⟩ := h
  obtain ⟨req, -, hreq', hout⟩ := inMsgServer_cases h
  cases hreq.symm.trans hreq'
  obtain ⟨_, _, hout⟩ := Traced.bind_out_eq_ret.mp hout
  obtain ⟨_, _, hout⟩ := Traced.bind_out_eq_ret.mp hout
  obtain ⟨_, _, hout⟩ := Traced.bind_out_eq_ret.mp hout
  obtain ⟨idx, hidx, -⟩ := Traced.bind_out_eq_ret.mp hout
  rw [hspace] at hidx
  cases hidx

/-- A message that installs a table. -/
def ServerMsg.isTable (msg : ServerMsg) : Bool :=
  VhostUserRequest.ofWord msg.msg.request = some .setMemTable

/-- A server that returns from all messages got the table first. -/
theorem tableFirst_of_ret {ms : List ServerMsg} {w w' : World} (hw : w.space = [])
    (hms : ms.countP ServerMsg.isTable ≤ 1) (h : (serveMsgs maps w ms).out = .ret w') :
    TableFirst ms := by
  refine List.pairwise_of_forall_sublist fun {x y} hxy hlate => ?_
  obtain ⟨before, after, rfl, hx, hy⟩ := List.cons_sublist_iff.mp hxy
  obtain ⟨pre, mid, rfl⟩ := List.append_of_mem hx
  have hafter : 0 < after.countP ServerMsg.isTable :=
    List.countP_pos_iff.mpr ⟨y, List.singleton_sublist.mp hy, decide_eq_true hlate.1⟩
  rw [List.countP_append, List.countP_append] at hms
  have hpre : ∀ z ∈ pre, ¬ z.Writes .table := by
    intro z hz hwrites
    have htable : 0 < pre.countP ServerMsg.isTable := by
      cases hwrites with
      | table hreq => exact List.countP_pos_iff.mpr ⟨z, hz, decide_eq_true hreq⟩
    omega
  have hrun := serveMsgs_run.mp h
  rw [List.append_assoc, List.cons_append] at hrun
  obtain ⟨w1, hrun, hrest⟩ := hrun.split
  obtain ⟨w2, hstep, -⟩ := Footprint.run_cons.mp hrest
  -- no message before the addresses sets the table
  obtain ⟨-, hspace⟩ := Footprint.run_frame hrun hpre
  exact ServerStep.has_space hstep hlate.2 (hspace.symm.trans hw)

/-- **The order of the set-up messages.**  In whatever order the server gets them, it returns
from all of them exactly where the table comes before the addresses of both rings, and then its
state is that of the client's own order. -/
theorem opened_in_any_order (S : Session) (sock : Int) (m : Mem) {ms : List ServerMsg}
    (h : ms.Perm S.setupMsgs) :
    ((∃ w, (serveMsgs S.maps (Session.serverWorld sock (S.layout m)) ms).out = .ret w) ↔
      TableFirst ms) ∧
    ∀ w, (serveMsgs S.maps (Session.serverWorld sock (S.layout m)) ms).out = .ret w →
      S.Opened sock m w := by
  have hcount : ms.countP ServerMsg.isTable = 1 := (h.countP_eq _).trans rfl
  have hfirst : ∀ w, (serveMsgs S.maps (Session.serverWorld sock (S.layout m)) ms).out = .ret w →
      TableFirst ms := fun w hw => tableFirst_of_ret rfl hcount.le hw
  have hreorder : TableFirst ms → (serverFootprint S.maps).Reorder S.setupMsgs ms :=
    fun htable => .of_perm h.symm (setupMsgs_pairwise S) htable
  obtain ⟨w, hw⟩ := S.opened_exists sock m
  refine ⟨⟨fun ⟨w', hw'⟩ => hfirst w' hw', fun htable =>
    ⟨w, serveMsgs_reorder (hreorder htable) hw⟩⟩, fun w' hw' => ?_⟩
  have hsame := serveMsgs_reorder (hreorder (hfirst w' hw')) hw
  cases hsame.symm.trans hw'
  exact hw

/-- The owner set last, and all messages the other way round. -/
theorem opened_in_any_order_demo :
    (∃ w, (serveMsgs Session.demo.maps (Session.serverWorld 10 (Session.demo.layout Mem.zero))
        (Session.demo.setupMsgs.rotate 1)).out = .ret w ∧ Session.demo.Opened 10 Mem.zero w) ∧
    ¬ ∃ w, (serveMsgs Session.demo.maps (Session.serverWorld 10 (Session.demo.layout Mem.zero))
        Session.demo.setupMsgs.reverse).out = .ret w := by
  have hlate := opened_in_any_order Session.demo 10 Mem.zero
    (List.rotate_perm Session.demo.setupMsgs 1)
  have hback := opened_in_any_order Session.demo 10 Mem.zero
    (List.reverse_perm Session.demo.setupMsgs)
  obtain ⟨w, hw⟩ := hlate.1.mpr (by decide)
  exact ⟨⟨w, hw, hlate.2 w hw⟩, hback.1.not.mpr (by decide)⟩

end SetUp

end Vapp
