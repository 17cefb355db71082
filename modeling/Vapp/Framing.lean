import Vapp.Wire

/-! # Message boundaries in the stream

The stream of a connection is a sequence of messages, and each call of
`vhost_user_recv_fds` is to take the next one off it.  It does so exactly while the kernel
returns all that is asked for: the call neither repeats a short read nor reads the body of a
message that it gives up.
-/
namespace Vapp

open LittleEndian

/-- A message that fits the buffers of the receiver, with its descriptors. -/
structure WireMsg where
  msg : VhostUserMsg
  fds : List Int
  size_le : msg.size.toNat ≤ payloadSize
  fds_le : fds.length ≤ vhostMemoryMaxNregions

/-- The bytes of one message. -/
def WireMsg.bytes (m : WireMsg) : List WireByte := onWire m.msg m.fds

/-- The stream after some messages were written to it. -/
def wire (ms : List WireMsg) : List WireByte := ms.flatMap WireMsg.bytes

/-- What `in_handler` is given of a message. -/
structure Delivery where
  request : UInt32
  flags : UInt32
  body : List UInt8
  fds : List Int
  deriving DecidableEq, Repr

/-- The message as it was written. -/
def WireMsg.delivery (m : WireMsg) : Delivery where
  request := m.msg.request
  flags := m.msg.flags
  body := (List.range m.msg.size.toNat).map m.msg.payload
  fds := m.fds

/-- The message as it was received. -/
def ServerMsg.delivery (msg : ServerMsg) : Delivery where
  request := msg.msg.request
  flags := msg.msg.flags
  body := (List.range msg.msg.size.toNat).map msg.msg.payload
  fds := (List.range msg.fdNum).map msg.fds

/-- What a call of `receive_sock_server` ends in. -/
inductive CallResult where
  | failed
  | closed
  | delivered (d : Delivery)
  deriving DecidableEq, Repr

def SockResult.result : SockResult → CallResult
  | .failed => .failed
  | .closed => .closed
  | .message msg => .delivered msg.delivery

/-- The calls of `receive_sock_server` while the socket is readable, one for each answer of
the kernel: their results, and what each leaves in the stream.  `old n` is what the stack
holds before call `n`. -/
def receiveCalls (old : Nat → ServerMsg) :
    List RecvAnswer → Nat → List WireByte → Run (List (CallResult × List WireByte))
  | [], _, _ => .ret []
  | _ :: _, _, [] => .ret []
  | answer :: answers, n, b :: stream => do
      let (r, rest) ← receiveSockServer answer (old n) (b :: stream)
      let more ← receiveCalls old answers (n + 1) rest
      return (r.result, rest) :: more

/-- What the calls are to do: deliver the next message, or fail on it, and leave the stream
at the boundary behind it; a `recvmsg` that fails takes nothing. -/
def framedCalls : List RecvAnswer → List WireMsg → List (CallResult × List WireByte)
  | [], _ => []
  | _ :: _, [] => []
  | .error :: answers, m :: ms => (.failed, wire (m :: ms)) :: framedCalls answers (m :: ms)
  | .bytes trunc _ _ :: answers, m :: ms =>
      (if trunc then .failed else .delivered m.delivery, wire ms) :: framedCalls answers ms

/-- The kernel returns the header and the body whole, and a call that fails for
`MSG_CTRUNC` has no body to leave behind. -/
def WholeReads : List RecvAnswer → List WireMsg → Prop
  | [], _ => True
  | _ :: _, [] => True
  | .error :: answers, m :: ms => WholeReads answers (m :: ms)
  | .bytes trunc header body :: answers, m :: ms =>
      (vhostUserHdrSize ≤ header + 1 ∧
        if trunc = true then m.msg.size = 0 else m.msg.size.toNat ≤ body) ∧
      WholeReads answers ms

/-! ### One call -/

section Call
variable {m : WireMsg} {rest : List WireByte} {trunc : Bool} {header body : Nat}

theorem wire_cons (m : WireMsg) (ms : List WireMsg) : wire (m :: ms) = m.bytes ++ wire ms := rfl

/-- A message that came whole is delivered as it was written. -/
theorem delivery_arrived (m : WireMsg) (old : ServerMsg) :
    (arrived m.msg m.fds old).delivery = m.delivery := by
  have hbody : (List.range m.msg.size.toNat).map (arrived m.msg m.fds old).msg.payload =
      (List.range m.msg.size.toNat).map m.msg.payload :=
    List.map_congr_left fun i hi => if_pos (List.mem_range.mp hi)
  have hfds : (List.range m.fds.length).map (arrived m.msg m.fds old).fds = m.fds := by
    refine List.ext_getElem (by rw [List.length_map, List.length_range]) fun i h1 h2 => ?_
    simp [arrived, h2]
  exact congr (congrArg (Delivery.mk m.msg.request m.msg.flags) hbody) hfds

/-- A call that fails before it takes anything. -/
theorem receiveSockServer_error (old : ServerMsg) (stream : List WireByte) :
    receiveSockServer .error old stream = .ret (.failed, stream) := rfl

/-- A whole header that fails for `MSG_CTRUNC`: the body stays in the stream. -/
theorem receiveSockServer_trunc (hh : vhostUserHdrSize ≤ header + 1) (old : ServerMsg) :
    receiveSockServer (.bytes true header body) old (m.bytes ++ rest) =
      .ret (.failed, (m.bytes ++ rest).drop vhostUserHdrSize) := by
  have hlen : vhostUserHdrSize ≤ (m.bytes ++ rest).length := by
    rw [List.length_append, WireMsg.bytes, length_onWire]
    omega
  have hk : chunk vhostUserHdrSize (m.bytes ++ rest).length header = vhostUserHdrSize :=
    chunk_eq hh hlen
  simp only [receiveSockServer, vhostUserRecvFds, hk]
  rfl

/-- A cleared stack. -/
def clearedMsg : ServerMsg := ⟨⟨0, 0, 0, fun _ => 0⟩, 0, fun _ => 0⟩

theorem clearedMsg_toBytes (i : Nat) : clearedMsg.msg.toBytes i = 0 :=
  write_zero (fun _ => write_zero (fun _ => write_zero (fun _ => rfl) 4 0 _) 4 4 _) 4 8 i

/-- What a call of `receive_sock_server` leaves in the stream. -/
theorem receiveSockServer_rest {answer : RecvAnswer} {old : ServerMsg} {stream : List WireByte}
    {r : SockResult} (h : receiveSockServer answer old stream = .ret (r, rest)) :
    ∃ got, vhostUserRecvFds answer vhostMemoryMaxNregions old.msg old.fds stream = .ret got ∧
      got.rest = rest := by
  obtain ⟨got, hgot, h⟩ := Outcome.bind_eq_ret.mp h
  refine ⟨got, hgot, ?_⟩
  split at h
  · cases h
    rfl
  · split at h
    · cases h
      rfl
    · cases h
      rfl

/-- On a cleared stack, the size that a part of the header gives is at most that of the
message. -/
theorem size_of_part_le (m : WireMsg) (rest : List WireByte) (k : Nat) :
    (VhostUserMsg.ofBytes (store clearedMsg.msg.toBytes 0
      (wireBytes ((m.bytes ++ rest).take k)))).size.toNat ≤ m.msg.size.toNat := by
  have hle : read (store clearedMsg.msg.toBytes 0 (wireBytes ((m.bytes ++ rest).take k))) 8 4 ≤
      read m.msg.toBytes 8 4 := by
    refine read_le_of_or_zero 4 fun i _ hi => ?_
    have hhdr : vhostUserHdrSize = 12 := rfl
    rcases Nat.lt_or_ge i k with hlt | hge
    · have := getElem?_part m.msg m.fds rest (k := 0) hlt (by omega)
      rw [List.drop_zero, Nat.zero_add] at this
      left
      rw [← Nat.zero_add i, WireMsg.bytes, store_of_getElem? this, Nat.zero_add]
    · right
      have hlen : (wireBytes ((m.bytes ++ rest).take k)).length ≤ k := by
        rw [wireBytes, List.length_map, List.length_take]
        exact Nat.min_le_left _ _
      rw [store_of_ge (by omega), clearedMsg_toBytes]
  rw [VhostUserMsg.toBytes_size] at hle
  exact Nat.le_trans (by rw [VhostUserMsg.ofBytes, UInt32.toNat_ofNat']; exact Nat.mod_le _ _) hle

/-- **On a cleared stack a call that ends at the boundary behind the message has read it
whole.** -/
theorem whole_of_boundary {r : SockResult}
    (h : receiveSockServer (.bytes trunc header body) clearedMsg (m.bytes ++ rest) =
      .ret (r, rest)) :
    vhostUserHdrSize ≤ header + 1 ∧
      if trunc = true then m.msg.size = 0 else m.msg.size.toNat ≤ body := by
  obtain ⟨got, hgot, hrest⟩ := receiveSockServer_rest h
  have hhdr : vhostUserHdrSize = 12 := rfl
  have hlen : (m.bytes ++ rest).length = vhostUserHdrSize + m.msg.size.toNat + rest.length := by
    rw [List.length_append, WireMsg.bytes, length_onWire]
  have hk : chunk vhostUserHdrSize (m.bytes ++ rest).length header =
      min (header + 1) vhostUserHdrSize := by
    rw [chunk, Nat.min_eq_left (a := vhostUserHdrSize) (by omega)]
  have hpos : 0 < min (header + 1) vhostUserHdrSize := by omega
  have hgotfds : wireFds ((m.bytes ++ rest).take (min (header + 1) vhostUserHdrSize)) = m.fds :=
    wireFds_take m.msg m.fds rest hpos (by omega)
  simp only [vhostUserRecvFds, hk, hgotfds] at hgot
  generalize hkk : min (header + 1) vhostUserHdrSize = k at hgot hpos
  have hle := size_of_part_le m rest k
  split at hgot
  · rename_i htrunc
    cases hgot
    -- only the header was taken
    have hcount := congrArg List.length hrest
    rw [List.length_drop, hlen] at hcount
    have hfds := m.fds_le
    rcases htrunc.2 with ht | ht
    · have hsize : m.msg.size = 0 := by
        rw [← UInt32.toNat_inj]
        show m.msg.size.toNat = 0
        omega
      rw [ht, if_pos rfl]
      exact ⟨by omega, hsize⟩
    · have hroom := le_controlRoom vhostMemoryMaxNregions
      omega
  · rename_i htrunc
    obtain ⟨_, hroom, hgot⟩ := Outcome.bind_eq_ret.mp hgot
    cases hgot
    have hcount := congrArg List.length hrest
    rw [List.length_drop, List.length_drop, hlen] at hcount
    have ht : ¬ trunc = true := fun ht => htrunc ⟨hpos, .inl ht⟩
    rw [if_neg ht]
    generalize hsize : (VhostUserMsg.ofBytes _).size.toNat = size at hle hcount
    generalize havail : vhostUserHdrSize + m.msg.size.toNat + rest.length - k = avail at hcount
    rw [bodyChunk] at hcount
    exact ⟨by omega, by omega⟩

/-- **One call on a message that is read whole** does what it is to do, whatever the stack
holds. -/
theorem receiveSockServer_of_whole (rest : List WireByte)
    (h : vhostUserHdrSize ≤ header + 1 ∧
      if trunc = true then m.msg.size = 0 else m.msg.size.toNat ≤ body) (old : ServerMsg) :
    ∃ r, receiveSockServer (.bytes trunc header body) old (m.bytes ++ rest) = .ret (r, rest) ∧
      r.result = if trunc then .failed else .delivered m.delivery := by
  cases trunc with
  | false =>
      have hbody : m.msg.size.toNat ≤ body := h.2
      refine ⟨_, receiveSockServer_whole m.size_le m.fds_le h.1 hbody old, ?_⟩
      exact congrArg CallResult.delivered (delivery_arrived m old)
  | true =>
      have hsize : m.msg.size = 0 := h.2
      refine ⟨.failed, (receiveSockServer_trunc h.1 old).trans ?_, rfl⟩
      have hdrop := drop_send m.msg m.fds rest (k := vhostUserHdrSize) (by rw [hsize]; rfl)
      exact congrArg (fun rest => Outcome.ret (SockResult.failed, rest)) hdrop

end Call

/-! ### All calls -/

section Calls
variable {answers : List RecvAnswer} {answer : RecvAnswer} {m : WireMsg} {ms : List WireMsg}

/-- The first call on a stream that holds a message. -/
theorem receiveCalls_cons (old : Nat → ServerMsg) (answer : RecvAnswer)
    (answers : List RecvAnswer) (n : Nat) (m : WireMsg) (ms : List WireMsg) :
    receiveCalls old (answer :: answers) n (wire (m :: ms)) =
      receiveSockServer answer (old n) (m.bytes ++ wire ms) >>= fun x =>
        receiveCalls old answers (n + 1) x.2 >>= fun more =>
          .ret ((x.1.result, x.2) :: more) := by
  rw [wire_cons]
  cases hstream : m.bytes ++ wire ms with
  | nil =>
      have := congrArg List.length hstream
      rw [List.length_append, WireMsg.bytes, length_onWire] at this
      exact absurd this (by rw [vhostUserHdrSize, List.length_nil]; omega)
  | cons b stream => rfl

/-- Reads that are whole deliver the messages as they were written. -/
theorem receiveCalls_of_whole (old : Nat → ServerMsg) (answers : List RecvAnswer) :
    ∀ (n : Nat) (ms : List WireMsg), WholeReads answers ms →
      receiveCalls old answers n (wire ms) = .ret (framedCalls answers ms) := by
  induction answers with
  | nil => exact fun n ms _ => rfl
  | cons answer answers ih =>
      intro n ms h
      cases ms with
      | nil => rfl
      | cons m ms =>
          rw [receiveCalls_cons]
          cases answer with
          | error =>
              rw [receiveSockServer_error, Outcome.ret_bind, ← wire_cons, ih _ _ h,
                Outcome.ret_bind]
              rfl
          | bytes trunc header body =>
              obtain ⟨r, hr, hresult⟩ := receiveSockServer_of_whole (wire ms) h.1 (old n)
              rw [hr, Outcome.ret_bind, ih _ _ h.2, Outcome.ret_bind, hresult]
              rfl

/-- Calls that do what they are to do have read the first message whole. -/
theorem whole_of_framed {trunc : Bool} {header body n : Nat}
    (h : ∀ old, receiveCalls old (.bytes trunc header body :: answers) n (wire (m :: ms)) =
      .ret (framedCalls (.bytes trunc header body :: answers) (m :: ms))) :
    vhostUserHdrSize ≤ header + 1 ∧
      if trunc = true then m.msg.size = 0 else m.msg.size.toNat ≤ body := by
  have hcall := (receiveCalls_cons (fun _ => clearedMsg) _ answers n m ms).symm.trans
    (h fun _ => clearedMsg)
  obtain ⟨⟨r, rest⟩, hx, hmore⟩ := Outcome.bind_eq_ret.mp hcall
  obtain ⟨more, _, heq⟩ := Outcome.bind_eq_ret.mp hmore
  have hrest : rest = wire ms := congrArg Prod.snd (List.cons.inj (Outcome.ret.inj heq)).1
  rw [hrest] at hx
  exact whole_of_boundary hx

/-- **Framing depends on how the stream is cut**: the calls deliver the messages that were
written, in order, and start at their boundaries, whatever their stack holds, if and only if
every message is read whole. -/
theorem framing_iff (answers : List RecvAnswer) : ∀ (n : Nat) (ms : List WireMsg),
    (∀ old, receiveCalls old answers n (wire ms) = .ret (framedCalls answers ms)) ↔
      WholeReads answers ms := by
  refine fun n ms => ⟨?_, fun h old => receiveCalls_of_whole old answers n ms h⟩
  induction answers generalizing n ms with
  | nil => exact fun _ => trivial
  | cons answer answers ih =>
      intro h
      cases ms with
      | nil => trivial
      | cons m ms =>
          have hcall := fun old => (receiveCalls_cons old answer answers n m ms).symm.trans (h old)
          cases answer with
          | error =>
              refine ih (n + 1) (m :: ms) fun old => ?_
              obtain ⟨_, hx, hmore⟩ := Outcome.bind_eq_ret.mp (hcall old)
              cases hx
              obtain ⟨more, hmore, heq⟩ := Outcome.bind_eq_ret.mp hmore
              rw [wire_cons, hmore, (List.cons.inj (Outcome.ret.inj heq)).2]
          | bytes trunc header body =>
              have hwhole := whole_of_framed h
              refine ⟨hwhole, ih (n + 1) ms fun old => ?_⟩
              obtain ⟨r, hr, _⟩ := receiveSockServer_of_whole (wire ms) hwhole (old n)
              have hcall := hcall old
              rw [hr, Outcome.ret_bind] at hcall
              obtain ⟨more, hmore, heq⟩ := Outcome.bind_eq_ret.mp hcall
              rw [hmore, (List.cons.inj (Outcome.ret.inj heq)).2]

end Calls

/-- A request without a payload. -/
def emptyMsg (request : UInt32) : WireMsg where
  msg := ⟨request, 1, 0, fun _ => 0⟩
  fds := []
  size_le := Nat.zero_le _
  fds_le := Nat.zero_le _

/-- A header that arrives in two pieces of eight and four bytes is taken for a message of
its own each time; the second one even asks for `VHOST_USER_NONE`. -/
theorem split_header_breaks_framing :
    (¬ ∀ old, receiveCalls old [.bytes false 7 0, .bytes false 11 0] 0 (wire [emptyMsg 3]) =
      .ret (framedCalls [.bytes false 7 0, .bytes false 11 0] [emptyMsg 3])) ∧
    receiveCalls (fun _ => clearedMsg) [.bytes false 7 0, .bytes false 11 0] 0
        (wire [emptyMsg 3]) =
      .ret [(.delivered ⟨3, 1, [], []⟩, List.replicate 4 ⟨0, []⟩),
        (.delivered ⟨0, 0, [], []⟩, [])] := by
  refine ⟨fun h => absurd (whole_of_framed h).1 (by decide), ?_⟩
  decide

end Vapp
