import Vapp.Ioctl
import Vapp.ServerCalls
import Vapp.Session

/-! # Event descriptors from `vhost_ioctl` to the server

`VHOST_USER_SET_VRING_KICK` and `.._CALL` say twice whether a descriptor comes along: in
the ancillary data and in bit 8 of the payload.  `vhost_ioctl` decides the first by
`fd > 0` and never writes the second, so the two agree for positive descriptors only.
-/
namespace Vapp

/-! ### The round trip -/

/-- The two requests that hand over an event descriptor. -/
inductive EventFile where
  | kick
  | call
  deriving DecidableEq, Repr

namespace EventFile

/-- The call of `vhost_ioctl`. -/
def ioctl : EventFile → VhostVringFile → Ioctl
  | kick => .setVringKick
  | call => .setVringCall

/-- The member of the ring that takes the descriptor. -/
def fdOf : EventFile → Vring → Int
  | kick => Vring.kickfd
  | call => Vring.callfd

/-- The state after the handler of the request. -/
def set : EventFile → World → RingIdx → Option Int → World
  | kick => World.setKick
  | call => World.setCall

/-- The message that `vhost_ioctl` makes of a file. -/
def msg (e : EventFile) (file : VhostVringFile) : VhostUserMsg := (e.ioctl file).msg fun _ => 0

/-- The descriptors that go with it. -/
def fds (e : EventFile) (file : VhostVringFile) : List Int := (e.ioctl file).fds fun _ => 0

/-- The no-fd bit is set exactly when no descriptor comes along. -/
def NofdExact (e : EventFile) (file : VhostVringFile) : Prop :=
  (e.msg file).payload.u64 &&& vhostUserVringNofdMask ≠ 0 ↔ e.fds file = []

/-- Whatever the server is in and whatever its stack held, its handler of what is on the
stream returns with the descriptor of the file stored in the ring of its index, or, if the
file has none, with that member of the ring unchanged. -/
def Recovered (e : EventFile) (file : VhostVringFile) (stream : List WireByte) : Prop :=
  ∀ (maps : Nat → Option MapResult) (w : World) (old : ServerMsg),
    ∃ (msg msg' : ServerMsg) (i : RingIdx) (w' : World),
      receiveSockServer .whole old stream = .ret (.message msg, []) ∧
      (inMsgServer maps w msg).out = .ret (0, msg', w') ∧
      file.index.toNat = i ∧
      e.fdOf (w'.vring i) = if 0 ≤ file.fd then file.fd else e.fdOf (w.vring i)

/-- `vhost_ioctl` refuses to send the file, or it comes to the server as it is. -/
def RoundTrips (e : EventFile) (answer : SendAnswer) (file : VhostVringFile) : Prop :=
  (e.ioctl file).emit answer (fun _ => 0) = .ret none ∨
    ∃ stream, (e.ioctl file).emit answer (fun _ => 0) = .ret (some stream) ∧
      e.NofdExact file ∧ e.Recovered file stream

section RoundTrip
variable (e : EventFile) (file : VhostVringFile)

theorem u64_msg : (e.msg file).payload.u64 = file.index.toUInt64 := by
  cases e with
  | kick => exact Payload.u64At_setU64 0 _
  | call => exact Payload.u64At_setU64 0 _

theorem fds_eq : e.fds file = if 0 < file.fd then [file.fd] else [] := by
  cases e with
  | kick => rfl
  | call => rfl

theorem fds_eq_nil_iff : e.fds file = [] ↔ ¬ 0 < file.fd := by
  rw [fds_eq]
  by_cases h : 0 < file.fd
  · simp [h]
  · simp [h]

/-- The payload of the message is sent whole. -/
theorem u64_arrived (old : ServerMsg) :
    (arrived (e.msg file) (e.fds file) old).msg.payload.u64 = file.index.toUInt64 := by
  have hsize : (e.msg file).size.toNat = 8 := by
    cases e with
    | kick => rfl
    | call => rfl
  rw [← u64_msg e file]
  refine congrArg UInt64.ofNat (LittleEndian.read_congr 8 fun i _ hi => ?_)
  exact if_pos (by omega)

theorem tableFits : (e.ioctl file).TableFits := by
  cases e with
  | kick => trivial
  | call => trivial

theorem receive_msg (old : ServerMsg) :
    receiveSockServer .whole old (onWire (e.msg file) (e.fds file)) =
      .ret (.message (arrived (e.msg file) (e.fds file) old), []) := by
  have := Ioctl.receive_send (fun _ => 0) (tableFits e file) old []
  rwa [List.append_nil] at this

/-- The handler of the request is called. -/
theorem inMsgServer_arrived (maps : Nat → Option MapResult) (w : World) (old : ServerMsg)
    {i : RingIdx} {validfd : Bool}
    (hindex : kickIndex file.index.toUInt64 = .ret (i, validfd))
    (hnum : validfd = true → (e.fds file).length = 1) :
    (inMsgServer maps w (arrived (e.msg file) (e.fds file) old)).out =
      .ret (0, arrived (e.msg file) (e.fds file) old, e.set w i (if validfd = true then
        some ((arrived (e.msg file) (e.fds file) old).fds 0) else none)) := by
  have hu := u64_arrived e file old
  rw [← hu] at hindex
  cases e with
  | kick => exact setVringKick_out hindex hnum
  | call => exact setVringCall_out hindex hnum

theorem fdOf_set (w : World) (i : RingIdx) (fd : Int) :
    e.fdOf ((e.set w i (some fd)).vring i) = fd := by
  cases e with
  | kick => exact congrArg Vring.kickfd (setKick_vring w i fd)
  | call => exact congrArg Vring.callfd (World.setVring_vring_self w i _)

/-- A positive descriptor for a ring of the table arrives. -/
theorem recovered_of_pos (hindex : file.index.toNat < vhostClientVringNum) (hfd : 0 < file.fd) :
    e.Recovered file (onWire (e.msg file) (e.fds file)) := by
  intro maps w old
  obtain ⟨i, hi⟩ : ∃ i : RingIdx, file.index = .ofNat i :=
    ⟨⟨file.index.toNat, hindex⟩, (UInt32.ofNat_toNat).symm⟩
  have hfds := fds_eq e file
  rw [if_pos hfd] at hfds
  have hkick : kickIndex file.index.toUInt64 = .ret (i, true) := by
    rw [hi]
    exact kickIndex_ofNat i
  refine ⟨_, _, i, _, receive_msg e file old,
    inMsgServer_arrived e file maps w old hkick fun _ => by rw [hfds]; rfl, ?_, ?_⟩
  · rw [hi, UInt32.toNat_ofNat_of_lt' (Nat.lt_trans i.isLt (by decide))]
  · rw [if_pos rfl, fdOf_set, if_pos (Int.le_of_lt hfd), arrived, hfds]
    rfl

/-- The index of a ring leaves bit 8 clear, whether a descriptor comes along or not. -/
theorem nofdExact_iff (hindex : file.index.toNat < vhostClientVringNum) :
    e.NofdExact file ↔ 0 < file.fd := by
  have hclear : (e.msg file).payload.u64 &&& vhostUserVringNofdMask = 0 := by
    rw [u64_msg, show file.index = .ofNat (⟨file.index.toNat, hindex⟩ : RingIdx) from
      (UInt32.ofNat_toNat).symm]
    generalize (⟨file.index.toNat, hindex⟩ : RingIdx) = j
    revert j
    decide
  rw [NofdExact, hclear, fds_eq_nil_iff, ne_eq, eq_self, not_true, false_iff, not_not]

/-- **The index and the descriptor of a file round-trip exactly when the message is not sent,
or the index names a ring and the descriptor is positive.** -/
theorem round_trips_iff (answer : SendAnswer) :
    e.RoundTrips answer file ↔
      answer = .error ∨ (file.index.toNat < vhostClientVringNum ∧ 0 < file.fd) := by
  have hfits := tableFits e file
  cases answer with
  | error => exact iff_of_true (.inl (Ioctl.emit_error hfits)) (.inl rfl)
  | sent =>
      have hsent : (e.ioctl file).emit .sent (fun _ => 0) =
          .ret (some (onWire (e.msg file) (e.fds file))) := Ioctl.emit_sent hfits
      constructor
      · rintro (hnone | ⟨stream, -, hbit, hrec⟩)
        · cases hnone.symm.trans hsent
        · obtain ⟨_, _, i, _, -, -, hi, -⟩ := hrec (fun _ => none)
            ⟨newVhostServer 0 true, [], Mem.zero⟩ ⟨⟨0, 0, 0, fun _ => 0⟩, 0, fun _ => 0⟩
          have hlt : file.index.toNat < vhostClientVringNum := by
            rw [hi]
            exact i.isLt
          exact .inr ⟨hlt, (nofdExact_iff e file hlt).mp hbit⟩
      · rintro (herror | ⟨hlt, hfd⟩)
        · cases herror
        · exact .inr ⟨_, hsent, (nofdExact_iff e file hlt).mpr hfd,
            recovered_of_pos e file hlt hfd⟩

end RoundTrip

/-- The file of a master that wants the TX ring to be polled: the message announces a
descriptor, carries none, and the server stops at its assertion. -/
theorem not_round_trips_without_fd :
    ¬ kick.RoundTrips .sent ⟨1, -1⟩ ∧
    ∀ maps w old,
      (inMsgServer maps w (arrived (kick.msg ⟨1, -1⟩) (kick.fds ⟨1, -1⟩) old)).out =
        .fault .assertion := by
  refine ⟨?_, fun maps w old => ?_⟩
  · rintro (hnone | ⟨stream, -, hbit, -⟩)
    · cases hnone.symm.trans (Ioctl.emit_sent (tableFits kick ⟨1, -1⟩))
    · exact absurd ((nofdExact_iff kick ⟨1, -1⟩ (by decide)).mp hbit) (by decide)
  · have hkick : kickIndex (1 : UInt32).toUInt64 = .ret (txIdx, true) := kickIndex_ofNat txIdx
    have hu := u64_arrived kick ⟨1, -1⟩ old
    rw [← hu] at hkick
    exact setVringKick_fault hkick Nat.zero_ne_one

end EventFile

end Vapp
