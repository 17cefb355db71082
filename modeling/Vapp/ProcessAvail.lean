import Vapp.Vring

/-! # Consuming available entries

`_process_desc` and `process_avail_vring`.  The fuel bounds the walk along one
descriptor chain, which the peer may have made endless; the loop over the entries needs
no bound of its own, since it stops when two 16-bit counters meet.
-/
namespace Vapp

variable {κ : Type} (sp : AddrSpace)

/-- The locals of the copy loop of `_process_desc`: the current descriptor, the length so
far and the bytes of `buf` written so far. -/
structure CopyLoop where
  i : Nat
  len : UInt32
  buf : List UInt8
  deriving DecidableEq, Repr

/-- One turn of the copy loop. -/
def copyTurn (t : VringTable κ) (desc : UInt64) (m : Mem) (s : CopyLoop) :
    Run (CopyLoop ⊕ CopyLoop) := do
  let d ← loadDesc sp m desc s.i
  -- map the address
  let cur := t.translate d.addr
  -- both sides are 32-bit words
  if s.len + d.len < .ofNat ethPacketSize then
    Outcome.require (s.len.toNat + d.len.toNat ≤ ethPacketSize)
      (.bufOverflow s.len.toNat d.len.toNat)
    let bytes ← readBytes sp m cur d.len.toNat
    let s := { s with len := s.len + d.len, buf := s.buf.take s.len.toNat ++ bytes }
    if d.flags &&& virtioDescFNext ≠ 0 then
      return .inl { s with i := d.next.toNat }
    else
      return .inr s
  else
    return .inr s

/-- What a call of `_process_desc` leaves behind; `call` is the call of `avail_handler`
it made, if any. -/
structure DescResult (κ : Type) where
  ret : Int
  table : VringTable κ
  mem : Mem
  call : Option HandlerCall

/-- The call of `avail_handler` for a packet copied as `c`: the `size` argument is the
`size_t` difference of the length and the header size. -/
def packetCall (c : CopyLoop) : HandlerCall where
  buf := c.buf.drop virtioNetHdrSize
  size := c.len.toUInt64 - .ofNat virtioNetHdrSize

/-- The end of `_process_desc`: consume the packet.  The header is only looked at for a
message on `stderr`. -/
def consumePacket (t : VringTable κ) (m : Mem) (c : CopyLoop) : Run (DescResult κ) :=
  match t.handlers.availHandler with
  | none => .ret ⟨0, t, m, none⟩
  | some h => do
      let call := packetCall c
      Outcome.require (h.accepts call) (.bufOverflow 0 call.size.toNat)
      return ⟨0, { t with context := h.consume t.context call }, m, some call⟩

/-- `_process_desc` for the entry in slot `a_idx` of the avail ring. -/
def processDesc (fuel : Nat) (t : VringTable κ) (vIdx : RingIdx) (aIdx : UInt16) (m : Mem) :
    Run (DescResult κ) := do
  let v := t.vring vIdx
  Outcome.require (v.num ≠ 0) .divByZero
  let uIdx := v.lastUsedIdx.toNat % v.num.toNat
  let dIdx ← loadAvailRing sp m v.avail aIdx.toNat
  let c ← Outcome.loop (copyTurn sp t v.desc m) fuel ⟨dIdx.toNat, 0, []⟩
  if c.len = 0 then
    return ⟨-1, t, m, none⟩
  -- add it to the used ring
  let m ← storeUsedElem sp m v.used uIdx ⟨dIdx.toUInt32, c.len⟩
  consumePacket t m c

/-- What one turn of the loop of `process_avail_vring` leaves behind. -/
structure AvailTurn (κ : Type) where
  table : VringTable κ
  mem : Mem
  aIdx : UInt16
  call : Option HandlerCall

/-- `a_idx = (a_idx + 1) % num`. -/
def nextSlot (num : UInt32) (aIdx : UInt16) : UInt16 := .ofNat ((aIdx.toNat + 1) % num.toNat)

/-- The first statement of `process_avail_vring`: the slot it starts at. -/
def availEnter (t : VringTable κ) (vIdx : RingIdx) : Run UInt16 := do
  let v := t.vring vIdx
  Outcome.require (v.num ≠ 0) .divByZero
  return .ofNat (v.lastAvailIdx.toNat % v.num.toNat)

/-- One turn of the loop of `process_avail_vring`; `none` when it has reached the end of
avail.  The result of `_process_desc` is not looked at. -/
def availTurn (fuel : Nat) (t : VringTable κ) (vIdx : RingIdx) (aIdx : UInt16) (m : Mem) :
    Run (Option (AvailTurn κ)) := do
  let v := t.vring vIdx
  let idx ← loadAvailIdx sp m v.avail
  if v.lastAvailIdx = idx then
    return none
  let r ← processDesc sp fuel t vIdx aIdx m
  let w := r.table.vring vIdx
  return some
    { table := r.table.setVring vIdx
        { w with lastAvailIdx := w.lastAvailIdx + 1, lastUsedIdx := w.lastUsedIdx + 1 }
      mem := r.mem
      aIdx := nextSlot v.num aIdx
      call := r.call }

/-- The last statement of `process_avail_vring`: `used->idx = last_used_idx`. -/
def availLeave (t : VringTable κ) (vIdx : RingIdx) (m : Mem) : Run Mem :=
  storeUsedIdx sp m (t.vring vIdx).used (t.vring vIdx).lastUsedIdx

/-- The state of the loop of `process_avail_vring`, with the slots it has consumed and the
calls of `avail_handler` so far. -/
structure AvailLoop (κ : Type) where
  table : VringTable κ
  mem : Mem
  aIdx : UInt16
  count : UInt32
  slots : List UInt16
  calls : List HandlerCall

/-- The loop body of `process_avail_vring`. -/
def availBody (fuel : Nat) (vIdx : RingIdx) (s : AvailLoop κ) :
    Run (AvailLoop κ ⊕ AvailLoop κ) := do
  match ← availTurn sp fuel s.table vIdx s.aIdx s.mem with
  | none => return .inr s
  | some r =>
      return .inl
        { table := r.table
          mem := r.mem
          aIdx := r.aIdx
          count := s.count + 1
          slots := s.slots ++ [s.aIdx]
          calls := s.calls ++ r.call.toList }

/-- Turns after which the counters of `process_avail_vring` have met: a bound that is
never reached. -/
def availTurns : Nat := 65536

/-- `process_avail_vring`; its return value is `count`. -/
def processAvailVring (fuel : Nat) (t : VringTable κ) (vIdx : RingIdx) (m : Mem) :
    Run (AvailLoop κ) := do
  let aIdx ← availEnter t vIdx
  let s ← Outcome.loop (availBody sp fuel vIdx) availTurns ⟨t, m, aIdx, 0, [], []⟩
  let m ← availLeave sp s.table vIdx s.mem
  return { s with mem := m }

end Vapp
