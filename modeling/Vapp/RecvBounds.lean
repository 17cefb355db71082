import Vapp.Wire

/-! # What one call of `vhost_user_recv_fds` writes

The descriptors always fit.  The bytes need not: the second read asks for as many bytes as
the size field in the buffer says, which the peer has chosen, or which the call has not
received at all.
-/
namespace Vapp

open LittleEndian

/-- The size field of a message at the front of the stream. -/
def wireSize (stream : List WireByte) : UInt32 :=
  .ofNat (read (fun i => ((wireBytes stream)[i]?).getD 0) 8 4)

/-- A call that took no more bytes than the message has room for, asked for a body only by a
size field that it had received, and wrote no descriptor behind the array. -/
structure ReceivedInside (capacity : Nat) (oldFds : Nat → Int) (stream : List WireByte)
    (r : Received) : Prop where
  stored : stream.length ≤ r.rest.length + sizeofVhostUserMsg
  requested : 0 ≤ r.ret → r.ret = vhostUserHdrSize ∧ r.msg.size = wireSize stream
  fdNum : r.fdNum ≤ capacity
  fds : ∀ i, capacity ≤ i → r.fds i = oldFds i

/-- The size of the body is known and the body fits, or the call gives up before it asks for
one. -/
def BodyFits (answer : RecvAnswer) (capacity : Nat) (stream : List WireByte) : Prop :=
  match answer with
  | .error => True
  | .bytes trunc header body =>
      (0 < chunk vhostUserHdrSize stream.length header ∧ (trunc = true ∨ controlRoom capacity <
        (wireFds (stream.take (chunk vhostUserHdrSize stream.length header))).length)) ∨
      (vhostUserHdrSize ≤ header + 1 ∧ vhostUserHdrSize ≤ stream.length ∧
        ((wireSize stream).toNat ≤ payloadSize ∨
          stream.length ≤ vhostUserHdrSize + payloadSize ∨ body ≤ payloadSize))

section Call
variable {capacity : Nat} {old : VhostUserMsg} {oldFds : Nat → Int} {stream : List WireByte}
  {header body : Nat}

theorem length_wireBytes (l : List WireByte) : (wireBytes l).length = l.length :=
  List.length_map ..

/-- A size field that is stored whole. -/
theorem size_of_header {f : Nat → UInt8} (h : vhostUserHdrSize ≤ stream.length) {j : Nat} :
    (VhostUserMsg.ofBytes (store (store f 0 (wireBytes (stream.take vhostUserHdrSize)))
      vhostUserHdrSize (wireBytes ((stream.drop vhostUserHdrSize).take j)))).size =
      wireSize stream := by
  refine congrArg UInt32.ofNat (read_congr 4 fun i _ hi => ?_)
  have hsize : vhostUserHdrSize = 12 := rfl
  have hlt : i < (wireBytes (stream.take vhostUserHdrSize)).length := by
    rw [length_wireBytes, List.length_take]
    omega
  have hget := List.getElem?_eq_getElem hlt
  have hsame : (wireBytes (stream.take vhostUserHdrSize))[i]? = (wireBytes stream)[i]? := by
    rw [wireBytes, wireBytes, List.getElem?_map, List.getElem?_map,
      List.getElem?_take_of_lt (by omega)]
  have hbyte : store f 0 _ (0 + i) = _ := store_of_getElem? hget
  rw [Nat.zero_add] at hbyte
  rw [store_of_lt (by omega), hbyte, ← hsame, hget]
  rfl

/-- What is asked for after a whole header. -/
theorem size_of_first {f : Nat → UInt8} (h : vhostUserHdrSize ≤ stream.length) :
    (VhostUserMsg.ofBytes (store f 0 (wireBytes (stream.take vhostUserHdrSize)))).size =
      wireSize stream := by
  have hnil := size_of_header (f := f) h (j := 0)
  refine Eq.trans (congrArg UInt32.ofNat (read_congr 4 fun i _ hi => ?_)) hnil
  exact (store_of_lt (by
    show i < 12
    omega)).symm

/-- The header came whole. -/
theorem chunk_header_iff (avail choice : Nat) :
    chunk vhostUserHdrSize avail choice = vhostUserHdrSize ↔
      vhostUserHdrSize ≤ choice + 1 ∧ vhostUserHdrSize ≤ avail := by
  rw [chunk]
  omega

/-- The body fits behind the header. -/
theorem chunk_body_iff (want avail choice : Nat) :
    vhostUserHdrSize + bodyChunk want (avail - vhostUserHdrSize) choice ≤ sizeofVhostUserMsg ↔
      want ≤ payloadSize ∨ avail ≤ vhostUserHdrSize + payloadSize ∨ choice ≤ payloadSize := by
  rw [bodyChunk, sizeofVhostUserMsg]
  omega

/-- A call that gives up for want of room for the descriptors. -/
theorem recv_of_truncated {trunc : Bool} {k : Nat}
    (hk : chunk vhostUserHdrSize stream.length header = k)
    (h : 0 < k ∧ (trunc = true ∨ controlRoom capacity < (wireFds (stream.take k)).length)) :
    vhostUserRecvFds (.bytes trunc header body) capacity old oldFds stream =
      .ret ⟨-1, .ofBytes (store old.toBytes 0 (wireBytes (stream.take k))), 0, oldFds,
        stream.drop k⟩ := by
  simp only [vhostUserRecvFds, hk, if_pos h]
  rfl

/-- A call that goes on to read the body. -/
theorem recv_of_not_truncated {trunc : Bool} {k : Nat}
    (hk : chunk vhostUserHdrSize stream.length header = k)
    (h : ¬ (0 < k ∧ (trunc = true ∨ controlRoom capacity < (wireFds (stream.take k)).length))) :
    ∃ j r, vhostUserRecvFds (.bytes trunc header body) capacity old oldFds stream =
        (Outcome.require (k + j ≤ sizeofVhostUserMsg) (.bufOverflow k j) >>= fun _ => .ret r) ∧
      j = bodyChunk
        (VhostUserMsg.ofBytes (store old.toBytes 0 (wireBytes (stream.take k)))).size.toNat
        (stream.length - k) body ∧ r.ret = k ∧
      r.msg = .ofBytes (store (store old.toBytes 0 (wireBytes (stream.take k))) k
        (wireBytes ((stream.drop k).take j))) ∧
      (∃ fds : List Int, fds.length ≤ capacity ∧ r.fdNum = fds.length ∧
        ∀ i, r.fds i = (fds[i]?).getD (oldFds i)) ∧
      r.rest.length = stream.length - k - j := by
  generalize hj : bodyChunk (VhostUserMsg.ofBytes (store old.toBytes 0
    (wireBytes (stream.take k)))).size.toNat (stream.length - k) body = j
  obtain ⟨fds, hfds⟩ : ∃ fds, fds = if (wireFds (stream.take k)).length ≤ capacity then
    wireFds (stream.take k) else [] := ⟨_, rfl⟩
  have hle : fds.length ≤ capacity := by
    rw [hfds]
    split
    · assumption
    · exact Nat.zero_le _
  refine ⟨j, ⟨k, .ofBytes (store (store old.toBytes 0 (wireBytes (stream.take k))) k
      (wireBytes ((stream.drop k).take j))), fds.length,
    fun i => (fds[i]?).getD (oldFds i), (stream.drop k).drop j⟩,
    ?_, rfl, rfl, rfl, ⟨fds, hle, rfl, fun _ => rfl⟩, by rw [List.length_drop, List.length_drop]⟩
  simp only [vhostUserRecvFds, hk, if_neg h, List.length_drop, hj, ← hfds]
  rfl

/-- **One call of `vhost_user_recv_fds` stays inside its buffers**, and asks only for what it
was sent, if and only if the body is known to fit or not asked for. -/
theorem recv_inside_iff (answer : RecvAnswer) (capacity : Nat) (old : VhostUserMsg)
    (oldFds : Nat → Int) (stream : List WireByte) :
    (∃ r, vhostUserRecvFds answer capacity old oldFds stream = .ret r ∧
      ReceivedInside capacity oldFds stream r) ↔ BodyFits answer capacity stream := by
  cases answer with
  | error =>
      refine ⟨fun _ => trivial, fun _ => ⟨_, rfl, Nat.le_add_right _ _, fun h => ?_,
        Nat.zero_le _, fun _ _ => rfl⟩⟩
      exact absurd (show (0 : Int) ≤ -1 from h) (by decide)
  | bytes trunc header body =>
      have hsize : vhostUserHdrSize = 12 := rfl
      have hmax : sizeofVhostUserMsg = 276 := rfl
      rw [BodyFits]
      generalize hk : chunk vhostUserHdrSize stream.length header = k
      have hheader := chunk_header_iff stream.length header
      rw [hk] at hheader
      have hle : k ≤ vhostUserHdrSize := hk ▸ chunk_le_want ..
      by_cases htrunc :
          0 < k ∧ (trunc = true ∨ controlRoom capacity < (wireFds (stream.take k)).length)
      · refine ⟨fun _ => .inl htrunc, fun _ => ⟨_, recv_of_truncated hk htrunc, ?_, fun h => ?_,
          Nat.zero_le _, fun _ _ => rfl⟩⟩
        · rw [List.length_drop]
          omega
        · exact absurd (show (0 : Int) ≤ -1 from h) (by decide)
      · obtain ⟨j, r, hcall, hj, hret, hmsg, ⟨fds, hcap, hnum, hfds⟩, hrest⟩ :=
          @recv_of_not_truncated capacity old oldFds stream header body trunc k hk htrunc
        rw [hcall]
        by_cases hwhole : k = vhostUserHdrSize
        · subst hwhole
          obtain ⟨hh, hs⟩ := hheader.mp rfl
          rw [size_of_first hs] at hj
          have hfit := chunk_body_iff (wireSize stream).toNat stream.length body
          rw [← hj] at hfit
          by_cases hbody : vhostUserHdrSize + j ≤ sizeofVhostUserMsg
          · rw [Outcome.require_pos hbody, Outcome.ret_bind]
            refine ⟨fun _ => .inr ⟨hh, hs, hfit.mp hbody⟩, fun _ => ⟨r, rfl, ?_, fun _ => ?_, ?_,
              fun i hi => ?_⟩⟩
            · omega
            · rw [hmsg]
              exact ⟨hret, size_of_header hs⟩
            · rw [hnum]
              exact hcap
            · rw [hfds, List.getElem?_eq_none (Nat.le_trans hcap hi)]
              rfl
          · rw [Outcome.require_neg hbody]
            constructor
            · rintro ⟨_, h, _⟩
              cases h
            · rintro (h | ⟨_, _, h⟩)
              · exact absurd h htrunc
              · exact absurd (hfit.mpr h) hbody
        · constructor
          · rintro ⟨s, h, hin⟩
            obtain ⟨_, _, h⟩ := Outcome.bind_eq_ret.mp h
            cases h
            have hret' := (hin.requested (by rw [hret]; exact Int.natCast_nonneg k)).1
            rw [hret] at hret'
            exact absurd (Int.ofNat.inj hret') hwhole
          · rintro (h | ⟨hh, hs, _⟩)
            · exact absurd h htrunc
            · exact absurd (hheader.mpr ⟨hh, hs⟩) hwhole

end Call

/-- A message whose body has one byte more than a message has room for. -/
def longMsg : VhostUserMsg := ⟨0, 0, 265, fun _ => 0⟩

/-- It is stored past the end of the buffer. -/
theorem body_stored_past_buffer :
    ¬ ∃ r, vhostUserRecvFds (.bytes false 11 265) 8 ⟨0, 0, 0, fun _ => 0⟩ (fun _ => -1)
        (onWire longMsg []) = .ret r ∧
      ReceivedInside 8 (fun _ => -1) (onWire longMsg []) r := by
  have hheader : chunk vhostUserHdrSize (onWire longMsg []).length 11 =
      vhostUserHdrSize := by
    decide +kernel
  have hroom : ¬ (0 < vhostUserHdrSize ∧ (false = true ∨
      controlRoom 8 < (wireFds ((onWire longMsg []).take vhostUserHdrSize)).length)) := by
    decide +kernel
  rintro ⟨r, h, -⟩
  obtain ⟨j, s, hcall, hj, -⟩ := @recv_of_not_truncated 8 ⟨0, 0, 0, fun _ => 0⟩ (fun _ => -1)
    (onWire longMsg []) 11 265 false _ hheader hroom
  rw [size_of_first (by decide +kernel)] at hj
  have hbody : j = 265 := hj.trans (by decide +kernel)
  rw [hcall, hbody] at h
  cases h

end Vapp
