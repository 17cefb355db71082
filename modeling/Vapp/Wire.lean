import Vapp.Messages
import Vapp.Memory

/-! # Messages on the socket

`vhost_user_send_fds`, `vhost_user_recv_fds` and the receiving half of
`receive_sock_server`, over the byte stream of a connected pair of sockets.  How much of
what was asked for the kernel returns in one call is its own choice, and each call may fail;
only `sendmsg` takes a message whole or not at all, as on a blocking socket.
-/
namespace Vapp

open LittleEndian

/-- `VHOST_USER_HDR_SIZE`. -/
def vhostUserHdrSize : Nat := 4 + 4 + 4

/-- The size of the union of a message, which is that of `VhostUserMemory`. -/
def payloadSize : Nat := 4 + 4 + 32 * vhostMemoryMaxNregions

/-- `sizeof(VhostUserMsg)`; the structure is packed. -/
def sizeofVhostUserMsg : Nat := vhostUserHdrSize + payloadSize

namespace VhostUserMsg

/-- The bytes of a message in memory. -/
def toBytes (m : VhostUserMsg) : Nat → UInt8 :=
  write (write (write (fun i => m.payload (i - vhostUserHdrSize)) 0 4 m.request.toNat) 4 4
    m.flags.toNat) 8 4 m.size.toNat

/-- The message that some bytes in memory are. -/
def ofBytes (f : Nat → UInt8) : VhostUserMsg where
  request := .ofNat (read f 0 4)
  flags := .ofNat (read f 4 4)
  size := .ofNat (read f 8 4)
  payload i := f (vhostUserHdrSize + i)

section Bytes
variable (m : VhostUserMsg)

theorem word_lt (w : UInt32) : w.toNat < 256 ^ 4 := w.toNat_lt

theorem toBytes_request : read m.toBytes 0 4 = m.request.toNat := by
  rw [toBytes, read_write_of_disjoint _ (by decide), read_write_of_disjoint _ (by decide),
    read_write _ 4 (word_lt _)]

theorem toBytes_flags : read m.toBytes 4 4 = m.flags.toNat := by
  rw [toBytes, read_write_of_disjoint _ (by decide), read_write _ 4 (word_lt _)]

theorem toBytes_size : read m.toBytes 8 4 = m.size.toNat := by
  rw [toBytes, read_write _ 4 (word_lt _)]

theorem toBytes_payload (i : Nat) : m.toBytes (vhostUserHdrSize + i) = m.payload i := by
  have h : vhostUserHdrSize = 12 := rfl
  rw [toBytes, write_apply _ 4 (by omega), write_apply _ 4 (by omega), write_apply _ 4 (by omega),
    Nat.add_sub_cancel_left]

/-- Bytes that agree with those of a message on the header are a message with its header. -/
theorem ofBytes_of_header {f : Nat → UInt8} (h : ∀ i, i < vhostUserHdrSize → f i = m.toBytes i) :
    ofBytes f = ⟨m.request, m.flags, m.size, fun i => f (vhostUserHdrSize + i)⟩ := by
  have hfield : ∀ off, off + 4 ≤ vhostUserHdrSize → read f off 4 = read m.toBytes off 4 :=
    fun off hoff => read_congr 4 fun i _ hi => h i (by omega)
  rw [ofBytes, hfield 0 (by decide), hfield 4 (by decide), hfield 8 (by decide), toBytes_request,
    toBytes_flags, toBytes_size, UInt32.ofNat_toNat, UInt32.ofNat_toNat, UInt32.ofNat_toNat]

theorem ofBytes_toBytes : ofBytes m.toBytes = m := by
  rw [m.ofBytes_of_header fun _ _ => rfl]
  simp only [toBytes_payload]

end Bytes

end VhostUserMsg

/-! ### Sending -/

/-- One byte of the stream.  The descriptors of a message travel with its first byte. -/
structure WireByte where
  byte : UInt8
  fds : List Int
  deriving DecidableEq, Repr

/-- A message with its descriptors on the stream. -/
def onWire (msg : VhostUserMsg) (fds : List Int) : List WireByte :=
  (List.range (vhostUserHdrSize + msg.size.toNat)).map fun i =>
    ⟨msg.toBytes i, if i = 0 then fds else []⟩

/-- How the kernel answers `sendmsg`; it fails, for one, on a descriptor that is not open. -/
inductive SendAnswer where
  | error
  | sent
  deriving DecidableEq, Repr

/-- `vhost_user_send_fds`: its result, and what the call appends to the stream. -/
def vhostUserSendFds (answer : SendAnswer) (msg : VhostUserMsg) (fds : List Int) :
    Int × List WireByte :=
  match answer with
  | .error => (-1, [])
  | .sent => ((vhostUserHdrSize + msg.size.toNat : Nat), onWire msg fds)

/-! ### Receiving -/

/-- How the kernel answers one call of `vhost_user_recv_fds`: `recvmsg` fails, or it returns a
part of what it was asked for, `header + 1` bytes at most.  Of the body the `read` that
follows returns `body` bytes at most, and none where it fails.  `trunc` is `MSG_CTRUNC` for
want of room in the table of descriptors of the process. -/
inductive RecvAnswer where
  | error
  | bytes (trunc : Bool) (header body : Nat)
  deriving DecidableEq, Repr

/-- Everything that was asked for. -/
def RecvAnswer.whole : RecvAnswer := .bytes false vhostUserHdrSize payloadSize

/-- The number of bytes returned when `want` are asked for and `avail` are there: any
positive number up to both, as `choice` varies. -/
def chunk (want avail choice : Nat) : Nat := min (choice + 1) (min want avail)

theorem chunk_le_want (want avail choice : Nat) : chunk want avail choice ≤ want :=
  Nat.le_trans (Nat.min_le_right _ _) (Nat.min_le_left _ _)

/-- The number of bytes that the second read stores. -/
def bodyChunk (want avail choice : Nat) : Nat := min choice (min want avail)

/-- The number of descriptors for which the control buffer has room: `CMSG_SPACE` rounds the
size of `capacity` of them up to a multiple of eight. -/
def controlRoom (capacity : Nat) : Nat := roundUp 8 (4 * capacity) / 4

theorem le_controlRoom (capacity : Nat) : capacity ≤ controlRoom capacity := by
  rw [controlRoom, roundUp]
  omega

/-- What a call of `vhost_user_recv_fds` leaves behind. -/
structure Received where
  ret : Int
  msg : VhostUserMsg
  fdNum : Nat
  fds : Nat → Int
  rest : List WireByte

/-- The bytes of a part of the stream. -/
def wireBytes (stream : List WireByte) : List UInt8 := stream.map (·.byte)

/-- The descriptors in a part of the stream. -/
def wireFds (stream : List WireByte) : List Int := stream.flatMap (·.fds)

/-- `vhost_user_recv_fds` into a message and an array of `capacity` descriptors that hold
`old` and `oldFds`.  Descriptors for which the control buffer has room and the array has not
are not stored.  The size of the body is taken from the buffer, however much of the header
has arrived, and the result of the second read is not looked at. -/
def vhostUserRecvFds (answer : RecvAnswer) (capacity : Nat) (old : VhostUserMsg)
    (oldFds : Nat → Int) (stream : List WireByte) : Run Received :=
  match answer with
  | .error => .ret ⟨-1, old, 0, oldFds, stream⟩
  | .bytes trunc header body => do
      let k := chunk vhostUserHdrSize stream.length header
      let buf := store old.toBytes 0 (wireBytes (stream.take k))
      let got := wireFds (stream.take k)
      let rest := stream.drop k
      if 0 < k ∧ (trunc = true ∨ controlRoom capacity < got.length) then
        return ⟨-1, .ofBytes buf, 0, oldFds, rest⟩
      -- `fd_size >= cmsg->cmsg_len - CMSG_LEN(0)`
      let fds := if got.length ≤ capacity then got else []
      -- further reading the message body
      let j := bodyChunk (VhostUserMsg.ofBytes buf).size.toNat rest.length body
      Outcome.require (k + j ≤ sizeofVhostUserMsg) (.bufOverflow k j)
      return { ret := k
               msg := .ofBytes (store buf k (wireBytes (rest.take j)))
               fdNum := fds.length
               fds := fun i => (fds[i]?).getD (oldFds i)
               rest := rest.drop j }

/-- What `receive_sock_server` does next: it has failed, it has removed and closed the
socket, or it hands a message to `in_handler`. -/
inductive SockResult where
  | failed
  | closed
  | message (msg : ServerMsg)

/-- The receiving half of `receive_sock_server`; `old` is what the stack holds where the
message is received. -/
def receiveSockServer (answer : RecvAnswer) (old : ServerMsg) (stream : List WireByte) :
    Run (SockResult × List WireByte) := do
  let r ← vhostUserRecvFds answer vhostMemoryMaxNregions old.msg old.fds stream
  if r.ret < 0 then
    return (.failed, r.rest)
  else if r.ret = 0 then
    return (.closed, r.rest)
  else
    return (.message ⟨r.msg, r.fdNum, r.fds⟩, r.rest)

/-! ### The stream behind a message -/

section Stream
variable (m : VhostUserMsg) (fds : List Int) (rest : List WireByte)

@[simp] theorem length_onWire :
    (onWire m fds).length = vhostUserHdrSize + m.size.toNat := by
  rw [onWire, List.length_map, List.length_range]

/-- The bytes of the message, from the front of the stream. -/
theorem getElem?_send {i : Nat} (hi : i < vhostUserHdrSize + m.size.toNat) :
    (onWire m fds ++ rest)[i]? = some ⟨m.toBytes i, if i = 0 then fds else []⟩ := by
  have hlen := length_onWire m fds
  rw [List.getElem?_append_left (by omega), onWire, List.getElem?_map,
    List.getElem?_range hi]
  rfl

/-- `n` bytes of the stream from position `k` on, while they are bytes of the message. -/
theorem getElem?_part {k n i : Nat} (hi : i < n) (hk : k + i < vhostUserHdrSize + m.size.toNat) :
    (wireBytes (((onWire m fds ++ rest).drop k).take n))[i]? =
      some (m.toBytes (k + i)) := by
  rw [wireBytes, List.getElem?_map, List.getElem?_take_of_lt hi, List.getElem?_drop,
    getElem?_send m fds rest hk]
  rfl

/-- The descriptors come with any first part of the message. -/
theorem wireFds_take {k : Nat} (h0 : 0 < k) (hk : k ≤ vhostUserHdrSize + m.size.toNat) :
    wireFds ((onWire m fds ++ rest).take k) = fds := by
  have hlen := length_onWire m fds
  obtain ⟨n, rfl⟩ := Nat.exists_eq_succ_of_ne_zero (Nat.ne_of_gt h0)
  obtain ⟨l, hl⟩ := Nat.exists_eq_succ_of_ne_zero (Nat.ne_of_gt (Nat.lt_of_lt_of_le h0 hk))
  have htail : ∀ x ∈ (List.range l).map fun i =>
      (⟨m.toBytes (i + 1), if i + 1 = 0 then fds else []⟩ : WireByte), x.fds = [] := by
    intro x hx
    obtain ⟨i, _, rfl⟩ := List.mem_map.mp hx
    rfl
  rw [List.take_append_of_le_length (by omega), onWire, hl, List.range_succ_eq_map,
    List.map_cons, List.map_map, List.take_succ_cons, wireFds, List.flatMap_cons]
  have hnil : (List.take n ((List.range l).map fun i =>
      (⟨m.toBytes (i + 1), if i + 1 = 0 then fds else []⟩ : WireByte))).flatMap (·.fds) = [] :=
    List.flatMap_eq_nil_iff.mpr fun x hx => htail x (List.mem_of_mem_take hx)
  exact (congrArg (fds ++ ·) hnil).trans (List.append_nil fds)

/-- The stream from the boundary behind the message on. -/
theorem drop_send {k : Nat} (hk : k = vhostUserHdrSize + m.size.toNat) :
    (onWire m fds ++ rest).drop k = rest := by
  rw [← length_onWire m fds] at hk
  rw [hk, List.drop_left]

end Stream

/-! ### A message received whole -/

/-- What the receive buffer holds after a message came whole: the bytes behind the payload
that was sent, and the descriptors behind those that came along, are left over. -/
def arrived (m : VhostUserMsg) (fds : List Int) (old : ServerMsg) : ServerMsg where
  msg := { m with payload := fun i => if i < m.size.toNat then m.payload i else old.msg.payload i }
  fdNum := fds.length
  fds i := (fds[i]?).getD (old.fds i)

section Whole
variable {m : VhostUserMsg} {fds : List Int} {rest : List WireByte} {header body : Nat}

theorem chunk_eq {want avail choice : Nat} (hc : want ≤ choice + 1) (ha : want ≤ avail) :
    chunk want avail choice = want := by
  rw [chunk, Nat.min_eq_left ha, Nat.min_eq_right hc]

theorem bodyChunk_eq {want avail choice : Nat} (hc : want ≤ choice) (ha : want ≤ avail) :
    bodyChunk want avail choice = want := by
  rw [bodyChunk, Nat.min_eq_left ha, Nat.min_eq_right hc]

/-- **Reading the whole header and the whole body of a message** stores the message, takes
its descriptors and ends at the boundary behind it. -/
theorem vhostUserRecvFds_whole (hsize : m.size.toNat ≤ payloadSize) {capacity : Nat}
    (hfds : fds.length ≤ capacity) (hh : vhostUserHdrSize ≤ header + 1)
    (hb : m.size.toNat ≤ body) (old : ServerMsg) :
    vhostUserRecvFds (.bytes false header body) capacity old.msg old.fds
        (onWire m fds ++ rest) =
      .ret ⟨vhostUserHdrSize, (arrived m fds old).msg, fds.length, (arrived m fds old).fds,
        rest⟩ := by
  have hlen : (onWire m fds ++ rest).length =
      vhostUserHdrSize + m.size.toNat + rest.length := by
    rw [List.length_append, length_onWire]
  have hk : chunk vhostUserHdrSize (onWire m fds ++ rest).length header =
      vhostUserHdrSize := chunk_eq hh (by omega)
  have hgot : wireFds ((onWire m fds ++ rest).take vhostUserHdrSize) = fds :=
    wireFds_take m fds rest (by decide) (Nat.le_add_right _ _)
  -- the buffer after the first read holds the header, and behind it what it held before
  generalize hbuf : store old.msg.toBytes 0
    (wireBytes ((onWire m fds ++ rest).take vhostUserHdrSize)) = buf
  have hheader : ∀ i, i < vhostUserHdrSize → buf i = m.toBytes i := by
    intro i hi
    have := getElem?_part m fds rest (k := 0) hi (by omega)
    rw [List.drop_zero, Nat.zero_add] at this
    rw [← hbuf, ← Nat.zero_add i, store_of_getElem? this, Nat.zero_add]
  have hbehind : ∀ i, buf (vhostUserHdrSize + i) = old.msg.payload i := by
    intro i
    have hfirst : (wireBytes ((onWire m fds ++ rest).take vhostUserHdrSize)).length ≤
        vhostUserHdrSize := by
      rw [wireBytes, List.length_map, List.length_take]
      exact Nat.min_le_left _ _
    rw [← hbuf, store_of_ge (by omega), VhostUserMsg.toBytes_payload]
  have hsz : (VhostUserMsg.ofBytes buf).size = m.size := by rw [m.ofBytes_of_header hheader]
  have hj : bodyChunk m.size.toNat
      ((onWire m fds ++ rest).drop vhostUserHdrSize).length body = m.size.toNat :=
    bodyChunk_eq hb (by rw [List.length_drop]; omega)
  have hmsg : VhostUserMsg.ofBytes (store buf vhostUserHdrSize (wireBytes
      (((onWire m fds ++ rest).drop vhostUserHdrSize).take m.size.toNat))) =
      (arrived m fds old).msg := by
    rw [m.ofBytes_of_header fun i hi => (store_of_lt hi).trans (hheader i hi)]
    refine congrArg (VhostUserMsg.mk m.request m.flags m.size) (funext fun i => ?_)
    by_cases hi : i < m.size.toNat
    · rw [if_pos hi, store_of_getElem? (getElem?_part m fds rest hi (by omega)),
        VhostUserMsg.toBytes_payload]
    · have hbody : (wireBytes (((onWire m fds ++ rest).drop vhostUserHdrSize).take
          m.size.toNat)).length ≤ m.size.toNat := by
        rw [wireBytes, List.length_map, List.length_take]
        exact Nat.min_le_left _ _
      rw [if_neg hi, store_of_ge (by omega), hbehind]
  have htrunc : ¬ (0 < vhostUserHdrSize ∧ (false = true ∨ controlRoom capacity < fds.length)) := by
    have hroom := le_controlRoom capacity
    rintro ⟨_, h | h⟩
    · cases h
    · omega
  simp only [vhostUserRecvFds, hk, hgot, hbuf, if_neg htrunc, if_pos hfds, hsz, hj]
  rw [Outcome.require_pos (by unfold sizeofVhostUserMsg; omega), Outcome.ret_bind, List.drop_drop,
    drop_send m fds rest rfl, hmsg]
  rfl

/-- The same for `receive_sock_server`. -/
theorem receiveSockServer_whole (hsize : m.size.toNat ≤ payloadSize)
    (hfds : fds.length ≤ vhostMemoryMaxNregions) (hh : vhostUserHdrSize ≤ header + 1)
    (hb : m.size.toNat ≤ body) (old : ServerMsg) :
    receiveSockServer (.bytes false header body) old (onWire m fds ++ rest) =
      .ret (.message (arrived m fds old), rest) := by
  rw [receiveSockServer, vhostUserRecvFds_whole hsize hfds hh hb, Outcome.ret_bind]
  rfl

end Whole

end Vapp
