import Vapp.TableInstall

/-! # The ring that a message names

Every handler of a ring message checks the index it was sent from one side only.  What a
message may change is one ring, unless the index becomes a negative `int`.
-/
namespace Vapp

/-- The `int` that the handler of a request uses as subscript of `vring`. -/
def ServerMsg.ringSubscript (msg : ServerMsg) : VhostUserRequest → Option Int
  | .setVringNum | .setVringBase | .getVringBase =>
      some msg.msg.payload.state.index.toInt32.toInt
  | .setVringAddr => some msg.msg.payload.addr.index.toInt32.toInt
  | .setVringKick | .setVringCall =>
      some (msg.msg.payload.u64 &&& vhostUserVringIdxMask).toNat
  | _ => none

/-- What a message that touches no ring but the one it names may end in: an assertion
rejects it, its subscript is in range and the other rings are as before, or it names no
ring and all are.  Reading `used->idx` through the pointer it was sent may still stop the
process. -/
inductive Confined (w : World) (msg : ServerMsg) : Run (Int × ServerMsg × World) → Prop
  | rejected : Confined w msg (.fault .assertion)
  | ring {req : VhostUserRequest} {idx r : Int} {msg' : ServerMsg} {w' : World}
      (hreq : VhostUserRequest.ofWord msg.msg.request = some req)
      (hidx : msg.ringSubscript req = some idx) (hrange : 0 ≤ idx ∧ idx < vhostClientVringNum)
      (hframe : ∀ j : RingIdx, (j.val : Int) ≠ idx → w'.vring j = w.vring j) :
      Confined w msg (.ret (r, msg', w'))
  | killed {req : VhostUserRequest} {idx : Int} {a : UInt64}
      (hreq : VhostUserRequest.ofWord msg.msg.request = some req)
      (hidx : msg.ringSubscript req = some idx) (hrange : 0 ≤ idx ∧ idx < vhostClientVringNum) :
      Confined w msg (.fault (.segv a))
  | other {req : VhostUserRequest} {r : Int} {msg' : ServerMsg} {w' : World}
      (hreq : VhostUserRequest.ofWord msg.msg.request = some req)
      (hidx : msg.ringSubscript req = none) (hframe : ∀ j, w'.vring j = w.vring j) :
      Confined w msg (.ret (r, msg', w'))

/-- The index of a ring message is no negative `int`, and the loop over a memory table ends
before it leaves the arrays. -/
structure ServerMsg.InRange (msg : ServerMsg) : Prop where
  index : ∀ req idx, VhostUserRequest.ofWord msg.msg.request = some req →
    msg.ringSubscript req = some idx → 0 ≤ idx
  table : VhostUserRequest.ofWord msg.msg.request = some .setMemTable →
    msg.msg.payload.nregions.toNat ≤ vhostMemoryMaxNregions ∨
      ∃ k, k < vhostMemoryMaxNregions ∧ msg.Unsent k

/-! ### The checks -/

/-- A 32-bit index, converted to `int` and checked against the number of rings. -/
theorem ringIndex_cases (index : UInt32) :
    (∃ i, ringIndex index = .ret i ∧ index.toInt32.toInt = i.val) ∨
    (0 ≤ index.toInt32.toInt ∧ ringIndex index = .fault .assertion) ∨
    (index.toInt32.toInt < 0 ∧ ringIndex index = .fault (.subscript index.toInt32.toInt)) := by
  have hint : index.toInt32.toInt =
      if 2 * index.toNat < 2 ^ 32 then (index.toNat : Int) else index.toNat - (2 ^ 32 : Nat) :=
    BitVec.toInt_eq_toNat_cond index.toBitVec
  have hlt := index.toNat_lt
  rw [ringIndex]
  by_cases hvalid : index.toNat < vhostClientVringNum
  · rw [dif_pos hvalid]
    have hnum : vhostClientVringNum = 2 := rfl
    refine .inl ⟨_, rfl, ?_⟩
    rw [hint, if_pos (by omega)]
  · rw [dif_neg hvalid]
    by_cases hpos : index.toNat < 2 ^ 31
    · rw [if_pos hpos]
      refine .inr (.inl ⟨?_, rfl⟩)
      rw [hint, if_pos (by omega)]
      omega
    · rw [if_neg hpos]
      refine .inr (.inr ⟨?_, rfl⟩)
      rw [hint, if_neg (by omega)]
      omega

/-- A masked index is not negative. -/
theorem kickIndex_cases (u : UInt64) :
    (∃ i validfd, kickIndex u = .ret (i, validfd) ∧
      ((u &&& vhostUserVringIdxMask).toNat : Int) = i.val) ∨
    kickIndex u = .fault .assertion := by
  rw [kickIndex]
  by_cases hvalid : (u &&& vhostUserVringIdxMask).toNat < vhostClientVringNum
  · rw [dif_pos hvalid]
    exact .inl ⟨_, _, rfl, rfl⟩
  · rw [dif_neg hvalid]
    exact .inr rfl

theorem ringIdx_range (i : RingIdx) : 0 ≤ (i.val : Int) ∧ (i.val : Int) < vhostClientVringNum :=
  ⟨Int.natCast_nonneg _, Int.ofNat_lt.mpr i.isLt⟩

section Handlers
variable {w : World} {msg : ServerMsg} {req : VhostUserRequest}
  {maps : Nat → Option MapResult}

/-- What a handler does with the ring `i` that it has checked. -/
def Handles (w : World) (i : RingIdx) (x : Run (Int × ServerMsg × World)) : Prop :=
  x = .fault .assertion ∨ (∃ a, x = .fault (.segv a)) ∨
    ∃ r msg' w', x = .ret (r, msg', w') ∧ ∀ j, j ≠ i → w'.vring j = w.vring j

theorem Handles.confined {idx : Int} {i : RingIdx} {x : Run (Int × ServerMsg × World)}
    (hreq : VhostUserRequest.ofWord msg.msg.request = some req)
    (hsub : msg.ringSubscript req = some idx) (hi : idx = i.val) (h : Handles w i x) :
    Confined w msg x := by
  have hrange : 0 ≤ idx ∧ idx < vhostClientVringNum := by
    rw [hi]
    exact ringIdx_range i
  rcases h with rfl | ⟨a, rfl⟩ | ⟨r, msg', w', rfl, hframe⟩
  · exact .rejected
  · exact .killed hreq hsub hrange
  · refine .ring hreq hsub hrange fun j hj => hframe j ?_
    rintro rfl
    exact hj hi.symm

/-- A handler that checks a 32-bit index is confined unless the index is negative. -/
theorem confined_ringIndex_iff {index : UInt32} {f : RingIdx → Run (Int × ServerMsg × World)}
    (hreq : VhostUserRequest.ofWord msg.msg.request = some req)
    (hsub : msg.ringSubscript req = some index.toInt32.toInt) (hf : ∀ i, Handles w i (f i)) :
    Confined w msg (ringIndex index >>= f) ↔ 0 ≤ index.toInt32.toInt := by
  rcases ringIndex_cases index with ⟨i, hret, hi⟩ | ⟨hpos, hfault⟩ | ⟨hneg, hfault⟩
  · rw [hret, Outcome.ret_bind, hi]
    exact ⟨fun _ => (ringIdx_range i).1, fun _ => (hf i).confined hreq hsub hi⟩
  · rw [hfault]
    exact ⟨fun _ => hpos, fun _ => .rejected⟩
  · rw [hfault]
    refine ⟨fun h => ?_, fun hpos => absurd hneg (Int.not_lt.mpr hpos)⟩
    cases h

/-- A handler that masks its index is confined. -/
theorem confined_kickIndex {f : RingIdx × Bool → Run (Int × ServerMsg × World)}
    (hreq : VhostUserRequest.ofWord msg.msg.request = some req)
    (hsub : msg.ringSubscript req =
      some ((msg.msg.payload.u64 &&& vhostUserVringIdxMask).toNat : Int))
    (hf : ∀ i validfd, Handles w i (f (i, validfd))) :
    Confined w msg (kickIndex msg.msg.payload.u64 >>= f) := by
  rcases kickIndex_cases msg.msg.payload.u64 with ⟨i, validfd, hret, hi⟩ | hfault
  · rw [hret, Outcome.ret_bind]
    exact (hf i validfd).confined hreq hsub hi
  · rw [hfault]
    exact .rejected

theorem handles_setVring (i : RingIdx) (v : Vring) (r : Int) (msg' : ServerMsg) :
    Handles w i (.ret (r, msg', w.setVring i v)) :=
  .inr (.inr ⟨r, msg', _, rfl, fun _ hj => w.setVring_vring_of_ne v hj⟩)

/-! ### The handlers -/

theorem handles_setKick (i : RingIdx) (fd : Option Int) (r : Int) (msg' : ServerMsg) :
    Handles w i (.ret (r, msg', w.setKick i fd)) := by
  refine .inr (.inr ⟨r, msg', _, rfl, fun j hj => ?_⟩)
  rw [World.vring, setKick_table]
  cases fd with
  | none => rfl
  | some d => exact VringTable.setVring_of_ne _ _ hj

theorem handles_setCall (i : RingIdx) (fd : Option Int) (r : Int) (msg' : ServerMsg) :
    Handles w i (.ret (r, msg', w.setCall i fd)) := by
  cases fd with
  | none => exact .inr (.inr ⟨r, msg', w, rfl, fun _ _ => rfl⟩)
  | some d => exact handles_setVring i _ r msg'

/-- `_set_vring_addr` behind its check. -/
theorem handles_setVringAddr (i : RingIdx) (v : UInt16 → Vring) (a : UInt64) :
    Handles w i
      (loadUsedIdx w.space w.mem a >>= fun idx => .ret (0, msg, w.setVring i (v idx))) := by
  rw [loadUsedIdx, deref]
  cases w.space.resolve a with
  | none => exact .inr (.inl ⟨a, rfl⟩)
  | some l => exact handles_setVring i _ 0 msg

/-- `assert(msg->fd_num == 1)`. -/
theorem handles_require {i : RingIdx} {f : Unit → Call (Int × ServerMsg × World)}
    (h : Handles w i (f ()).out) :
    Handles w i
      (Traced.lift (Outcome.require (msg.fdNum = 1) Fault.assertion) >>= f).out := by
  by_cases hnum : msg.fdNum = 1
  · rw [Outcome.require_pos hnum]
    exact h
  · rw [Outcome.require_neg hnum]
    exact .inl rfl

/-- A message that names no ring, and changes none. -/
theorem confined_other {r : Int} {msg' : ServerMsg} {w' : World}
    (hreq : VhostUserRequest.ofWord msg.msg.request = some req)
    (hsub : msg.ringSubscript req = none) (hframe : ∀ j, w'.vring j = w.vring j) :
    Confined w msg (.ret (r, msg', w')) ↔
      ∀ idx, msg.ringSubscript req = some idx → 0 ≤ idx := by
  refine ⟨fun _ idx hidx => ?_, fun _ => .other hreq hsub hframe⟩
  rw [hsub] at hidx
  cases hidx

/-- **Every handler but `_set_mem_table`.** -/
theorem msgHandler_confined_iff (hreq : VhostUserRequest.ofWord msg.msg.request = some req)
    (htable : req ≠ .setMemTable) :
    Confined w msg (msgHandler maps req w msg).out ↔
      ∀ idx, msg.ringSubscript req = some idx → 0 ≤ idx := by
  have hsigned {index : UInt32} {f : RingIdx → Run (Int × ServerMsg × World)}
      (hsub : msg.ringSubscript req = some index.toInt32.toInt) (hf : ∀ i, Handles w i (f i)) :
      Confined w msg (ringIndex index >>= f) ↔
        ∀ idx, msg.ringSubscript req = some idx → 0 ≤ idx := by
    rw [confined_ringIndex_iff hreq hsub hf]
    simp [hsub]
  have hmasked {f : RingIdx × Bool → Run (Int × ServerMsg × World)}
      (hsub : msg.ringSubscript req =
        some ((msg.msg.payload.u64 &&& vhostUserVringIdxMask).toNat : Int))
      (hf : ∀ i validfd, Handles w i (f (i, validfd))) :
      Confined w msg (kickIndex msg.msg.payload.u64 >>= f) ↔
        ∀ idx, msg.ringSubscript req = some idx → 0 ≤ idx := by
    refine ⟨fun _ idx hidx => ?_, fun _ => confined_kickIndex hreq hsub hf⟩
    rw [hsub] at hidx
    cases hidx
    exact Int.natCast_nonneg _
  cases req with
  | setMemTable => exact absurd rfl htable
  | setVringNum =>
      rw [msgHandler, setVringNum, Traced.bind_out, Traced.lift_out]
      exact hsigned rfl fun i => handles_setVring i _ 0 msg
  | setVringBase =>
      rw [msgHandler, setVringBase, Traced.bind_out, Traced.lift_out]
      exact hsigned rfl fun i => handles_setVring i _ 0 msg
  | getVringBase =>
      rw [msgHandler, getVringBase, Traced.bind_out, Traced.lift_out]
      exact hsigned rfl fun i => .inr (.inr ⟨1, _, w, rfl, fun _ _ => rfl⟩)
  | setVringAddr =>
      rw [msgHandler, setVringAddr, Traced.bind_out, Traced.lift_out]
      refine hsigned rfl fun i => ?_
      simp only [Traced.act_bind, Traced.bind_out, Traced.lift_out]
      exact handles_setVringAddr i _ _
  | setVringKick =>
      rw [msgHandler, setVringKick, Traced.bind_out, Traced.lift_out]
      refine hmasked rfl fun i validfd => ?_
      cases validfd with
      | false => exact handles_setKick i none 0 msg
      | true => exact handles_require (handles_setKick i (some (msg.fds 0)) 0 msg)
  | setVringCall =>
      rw [msgHandler, setVringCall, Traced.bind_out, Traced.lift_out]
      refine hmasked rfl fun i validfd => ?_
      cases validfd with
      | false => exact handles_setCall i none 0 msg
      | true => exact handles_require (handles_setCall i (some (msg.fds 0)) 0 msg)
  | getFeatures => exact confined_other hreq rfl fun _ => rfl
  | none | setFeatures | setOwner | resetOwner | setLogBase | setLogFd | setVringErr =>
      exact confined_other hreq rfl fun _ => rfl

/-- `_set_mem_table` stays away from the rings as long as it stays inside its arrays. -/
theorem setMemTable_confined_iff
    (hreq : VhostUserRequest.ofWord msg.msg.request = some .setMemTable) :
    Confined w msg (setMemTable maps w msg).out ↔
      msg.msg.payload.nregions.toNat ≤ vhostMemoryMaxNregions ∨
        ∃ k, k < vhostMemoryMaxNregions ∧ msg.Unsent k := by
  rcases setMemTable_cases w msg maps with ⟨⟨k, -, hmax, hu⟩, hout⟩ | ⟨hall, hend⟩
  · rw [hout]
    exact ⟨fun _ => .inr ⟨k, hmax, hu⟩, fun _ => .rejected⟩
  · rcases hend with ⟨hle, hout⟩ | ⟨hlt, hout⟩
    · rw [hout]
      exact ⟨fun _ => .inl hle, fun _ => .other hreq rfl fun _ => rfl⟩
    · rw [hout]
      constructor
      · intro h
        cases h
      · rintro (hle | ⟨k, hmax, hu⟩)
        · omega
        · exact absurd hu (hall k (Nat.lt_trans hmax hlt) hmax)

/-- What is asked of a message, once its request is known. -/
theorem inRange_iff (hreq : VhostUserRequest.ofWord msg.msg.request = some req) :
    msg.InRange ↔ (∀ idx, msg.ringSubscript req = some idx → 0 ≤ idx) ∧
      (req = .setMemTable → msg.msg.payload.nregions.toNat ≤ vhostMemoryMaxNregions ∨
        ∃ k, k < vhostMemoryMaxNregions ∧ msg.Unsent k) := by
  constructor
  · rintro ⟨hindex, htable⟩
    exact ⟨fun idx => hindex req idx hreq, fun h => htable (h ▸ hreq)⟩
  · rintro ⟨hindex, htable⟩
    refine ⟨fun req' idx hreq' => ?_, fun hset => htable ?_⟩
    · rw [hreq] at hreq'
      cases hreq'
      exact hindex idx
    · rw [hreq] at hset
      exact Option.some.inj hset

/-- **A message touches no ring but the one it names** if and only if its index is no negative
`int` and its memory table does not run past the arrays. -/
theorem ring_message_confined_iff (maps : Nat → Option MapResult) (w : World) (msg : ServerMsg) :
    Confined w msg (inMsgServer maps w msg).out ↔ msg.InRange := by
  rw [inMsgServer]
  cases hreq : VhostUserRequest.ofWord msg.msg.request with
  | none =>
      refine ⟨fun _ => ⟨fun req idx h => ?_, fun h => ?_⟩, fun _ => .rejected⟩
      · rw [hreq] at h
        cases h
      · rw [hreq] at h
        cases h
  | some req =>
      rw [inRange_iff hreq]
      by_cases htable : req = .setMemTable
      · subst htable
        refine (setMemTable_confined_iff hreq).trans ⟨fun h => ⟨fun idx hidx => ?_, fun _ => h⟩,
          fun h => h.2 rfl⟩
        cases hidx
      · have hnone : ∀ {p : Prop}, req = .setMemTable → p := fun h => absurd h htable
        cases req with
        | none =>
            refine ⟨fun _ => ⟨fun idx hidx => ?_, hnone⟩, fun _ => .rejected⟩
            cases hidx
        | _ =>
            exact (msgHandler_confined_iff hreq htable).trans
              (and_iff_left hnone).symm

end Handlers

/-- `VHOST_USER_SET_VRING_NUM` with the index `0x80000000`. -/
def negativeMsg : ServerMsg where
  msg :=
    { request := VhostUserRequest.setVringNum.word
      flags := 1
      size := 8
      payload := Payload.setState (fun _ => 0) ⟨0x80000000, 256⟩ }
  fdNum := 0
  fds _ := -1

/-- It passes `assert(idx < VHOST_CLIENT_VRING_NUM)` and writes far before the array. -/
theorem negative_index_not_confined :
    ¬ Confined ⟨newVhostServer 3 true, [], Mem.zero⟩ negativeMsg
      (inMsgServer (fun _ => none) ⟨newVhostServer 3 true, [], Mem.zero⟩ negativeMsg).out := by
  have hindex : negativeMsg.msg.payload.state.index = 0x80000000 := by decide +kernel
  have hout : (inMsgServer (fun _ => none) ⟨newVhostServer 3 true, [], Mem.zero⟩ negativeMsg).out =
      .fault (.subscript (-2147483648)) := by
    show (setVringNum _ negativeMsg).out = _
    rw [setVringNum, Traced.bind_out, hindex]
    rfl
  rw [hout]
  intro h
  cases h

end Vapp
