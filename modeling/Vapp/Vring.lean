import Vapp.Memory

/-! # The rings of one party

`vring.h` and the functions of `vring.c` that do not process descriptor chains.  Both
parties keep a `VringTable` of their own; only what a `Mem` holds is shared.
-/
namespace Vapp

/-- The arguments of one call of `avail_handler`: the bytes of the local packet buffer
that follow the header, as far as they were written, and the `size` argument. -/
structure HandlerCall where
  buf : List UInt8
  size : UInt64
  deriving DecidableEq, Repr

/-- An `avail_handler`: what it does to its context.  A packet that is not accepted
overruns the buffer the handler copies to. -/
structure AvailHandler (κ : Type) where
  accepts : HandlerCall → Bool
  consume : κ → HandlerCall → κ

/-- The two callbacks of a party.  The `avail_handler` of either party leaves alone what
its `map_handler` reads. -/
structure ProcessHandler (κ : Type) where
  availHandler : Option (AvailHandler κ)
  mapHandler : Option (κ → UInt64 → UInt64)
  map_consume : ∀ h ∈ availHandler, ∀ f ∈ mapHandler, ∀ ctx call a,
    f (h.consume ctx call) a = f ctx a

/-- `Vring`. -/
structure Vring where
  kickfd : Int
  callfd : Int
  desc : UInt64
  avail : UInt64
  used : UInt64
  num : UInt32
  lastAvailIdx : UInt16
  lastUsedIdx : UInt16
  deriving DecidableEq, Repr

/-- `VringTable`. -/
structure VringTable (κ : Type) where
  context : κ
  handlers : ProcessHandler κ
  vring : RingIdx → Vring

namespace VringTable
variable {κ : Type} (t : VringTable κ)

/-- Replace the ring `i`. -/
def setVring (i : RingIdx) (v : Vring) : VringTable κ :=
  { t with vring := Function.update t.vring i v }

@[simp] theorem setVring_self (i : RingIdx) (v : Vring) : (t.setVring i v).vring i = v := by
  simp [setVring]

theorem setVring_of_ne {i j : RingIdx} (v : Vring) (h : j ≠ i) :
    (t.setVring i v).vring j = t.vring j := by
  simp [setVring, h]

@[simp] theorem setVring_context (i : RingIdx) (v : Vring) :
    (t.setVring i v).context = t.context := rfl

@[simp] theorem setVring_handlers (i : RingIdx) (v : Vring) :
    (t.setVring i v).handlers = t.handlers := rfl

@[simp] theorem setVring_setVring (i : RingIdx) (v w : Vring) :
    (t.setVring i v).setVring i w = t.setVring i w := by
  simp [setVring]

theorem setVring_vring (i : RingIdx) : t.setVring i (t.vring i) = t := by
  simp [setVring]

/-- The address the data of a descriptor is accessed at: `map_handler`'s result if
there is one, else the descriptor's own. -/
def translate (a : UInt64) : UInt64 :=
  match t.handlers.mapHandler with
  | some f => f t.context a
  | none => a

@[simp] theorem setVring_translate (i : RingIdx) (v : Vring) (a : UInt64) :
    (t.setVring i v).translate a = t.translate a := rfl

end VringTable

/-- `init_vring` for one ring. -/
def initVring : Vring where
  kickfd := -1
  callfd := -1
  desc := 0
  avail := 0
  used := 0
  num := 0
  lastAvailIdx := 0
  lastUsedIdx := 0

/-! ### `new_vring` -/

/-- The layout loop of `new_vring` from descriptor `i` on, with `todo` descriptors left
and the cursor at `ptr`. -/
def layoutDesc : (todo i : Nat) → (ptr : UInt64) → (Nat → VringDesc) → Nat → VringDesc
  | 0, _, _, table => table
  | todo + 1, i, ptr, table =>
      let ptr := align ptr bufferAlignment
      let d : VringDesc :=
        { addr := ptr, len := .ofNat bufferSize, flags := virtioDescFWrite, next := .ofNat (i + 1) }
      layoutDesc todo (i + 1) (ptr + .ofNat bufferSize) (Function.update table i d)

/-- The descriptor table as `new_vring` leaves it at `vring_base`. -/
def newVringTable (vringBase : UInt64) (table : Nat → VringDesc) : Nat → VringDesc :=
  let table := layoutDesc vhostVringSize 0 (vringBase + .ofNat sizeofVhostVring) table
  let last := vhostVringSize - 1
  Function.update table last { table last with next := vringIdxNone }

/-- `new_vring`: lay out the ring in the shared object `shm`, which the calling process
sees at `vring_base`.  The entries of both rings keep what the memory held before. -/
def newVring (vringBase : UInt64) (shm : Nat) (m : Mem) : Mem :=
  let d : Loc := ⟨shm, offsetofDesc⟩
  let a : Loc := ⟨shm, offsetofAvail⟩
  let u : Loc := ⟨shm, offsetofUsed⟩
  { m with
    desc := Function.update m.desc d (newVringTable vringBase (m.desc d))
    avail := Function.update m.avail a { m.avail a with idx := 0 }
    used := Function.update m.used u { m.used u with idx := 0 } }

/-! ### Producing entries -/

/-- The entry rule of `put_vring`: `avail->ring[avail->idx % num] = a_idx; avail->idx++`. -/
def VringAvail.add (avail : VringAvail) (num : UInt32) (aIdx : UInt16) : VringAvail where
  idx := avail.idx + 1
  ring := Function.update avail.ring (avail.idx.toNat % num.toNat) aIdx

section Ring
variable {κ : Type} (sp : AddrSpace)

/-- `avail->ring[avail->idx % num] = a_idx; avail->idx++` through the pointer `p`. -/
def addAvail (p : UInt64) (num : UInt32) (aIdx : UInt16) (m : Mem) : Run Mem := do
  let l ← deref sp p
  Outcome.require (num ≠ 0) .divByZero
  let slot := (m.avail l).idx.toNat % num.toNat
  Outcome.require (slot < vhostVringSize) (.subscript slot)
  return m.setAvail l ((m.avail l).add num aIdx)

/-- `put_vring`: the return value, the caller's table and the memory. -/
def putVring (t : VringTable κ) (vIdx : RingIdx) (buf : List UInt8) (m : Mem) :
    Run (Int × VringTable κ × Mem) := do
  let v := t.vring vIdx
  let aIdx := v.lastAvailIdx
  let d ← loadDesc sp m v.desc aIdx.toNat
  if d.len.toNat < buf.length then
    return (-1, t, m)
  -- move avail head
  let t := t.setVring vIdx { v with lastAvailIdx := d.next }
  let dest := t.translate d.addr
  -- set the header to all 0, then copy the packet behind it
  let m ← writeBytes sp m dest (List.replicate virtioNetHdrSize 0)
  let m ← writeBytes sp m (dest + .ofNat virtioNetHdrSize) buf
  let m ← storeDesc sp m v.desc aIdx.toNat
    { d with len := .ofNat (virtioNetHdrSize + buf.length), flags := 0, next := vringIdxNone }
  let m ← addAvail sp v.avail v.num aIdx m
  return (0, t, m)

/-! ### Reclaiming used entries -/

/-- `_free_vring`. -/
def freeVring (t : VringTable κ) (vIdx : RingIdx) (dIdx : UInt32) (m : Mem) :
    Run (VringTable κ × Mem) := do
  let v := t.vring vIdx
  Outcome.require (dIdx.toNat < vhostVringSize) .assertion
  let d ← loadDesc sp m v.desc dIdx.toNat
  -- return the descriptor back to the free list
  let m ← storeDesc sp m v.desc dIdx.toNat
    { d with
      len := .ofNat bufferSize
      flags := d.flags ||| virtioDescFWrite
      next := v.lastAvailIdx }
  return (t.setVring vIdx { v with lastAvailIdx := dIdx.toUInt16 }, m)

/-- The state of the loop of `process_used_vring`, and the calls of `_free_vring` made so
far: the used slot each came from and the descriptor it freed. -/
structure UsedLoop (κ : Type) where
  table : VringTable κ
  mem : Mem
  uIdx : UInt16
  freed : List (Nat × UInt32)

/-- One turn of the loop of `process_used_vring`. -/
def usedTurn (vIdx : RingIdx) (s : UsedLoop κ) : Run (UsedLoop κ ⊕ UsedLoop κ) := do
  let v := s.table.vring vIdx
  let idx ← loadUsedIdx sp s.mem v.used
  if s.uIdx = idx then
    return .inr s
  let e ← loadUsedElem sp s.mem v.used s.uIdx.toNat
  let (t, m) ← freeVring sp s.table vIdx e.id s.mem
  Outcome.require (v.num ≠ 0) .divByZero
  return .inl
    { table := t
      mem := m
      uIdx := .ofNat ((s.uIdx.toNat + 1) % v.num.toNat)
      freed := s.freed ++ [(s.uIdx.toNat, e.id)] }

/-- `process_used_vring`: the loop from `last_used_idx` on, which is then set to the
index the loop ended at. -/
def processUsedVring (fuel : Nat) (t : VringTable κ) (vIdx : RingIdx) (m : Mem) :
    Run (UsedLoop κ) := do
  let s ← Outcome.loop (usedTurn sp vIdx) fuel ⟨t, m, (t.vring vIdx).lastUsedIdx, []⟩
  let v := s.table.vring vIdx
  return { s with table := s.table.setVring vIdx { v with lastUsedIdx := s.uIdx } }

end Ring

end Vapp
