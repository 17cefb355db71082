import Vapp.Layout
import Vapp.Library.Outcome

/-! # Shared memory, as two processes see it

A byte that two processes share is a `Loc`, an offset in a shared memory object.  A
process reaches it through its own address space, a list of mappings; an access at an
address no mapping covers (the null pointer among them) is a fault.

The ring structures and the packet bytes are kept apart by type: `Mem.desc l` is the
descriptor table whose first byte is at `l`, `Mem.byte l` the packet byte at `l`.
-/
namespace Vapp

/-- Where a run of the C code stops. -/
inductive Fault where
  /-- access through a pointer that no mapping of the process covers -/
  | segv (a : UInt64)
  /-- an array subscript outside the array -/
  | subscript (i : Int)
  /-- `%` with a zero right operand -/
  | divByZero
  /-- a failing `assert` -/
  | assertion
  /-- `memcpy` of `n` bytes to offset `off` runs past the end of the buffer -/
  | bufOverflow (off n : Nat)
  deriving DecidableEq, Repr

/-- The outcome of a call of the modelled code. -/
abbrev Run (α : Type) := Outcome Fault α

/-- A byte of a shared memory object. -/
structure Loc where
  shm : Nat
  off : Nat
  deriving DecidableEq, Repr

namespace Loc

/-- `n` bytes further on in the same object. -/
def add (l : Loc) (n : Nat) : Loc := ⟨l.shm, l.off + n⟩

@[simp] theorem add_zero (l : Loc) : l.add 0 = l := rfl

@[simp] theorem add_add (l : Loc) (a b : Nat) : (l.add a).add b = l.add (a + b) := by
  simp only [add, Nat.add_assoc]

end Loc

/-- One range that `mmap` returned: `length` bytes from `start` show the object `shm`
from its beginning. -/
structure Mapping where
  start : UInt64
  length : UInt64
  shm : Nat
  deriving DecidableEq, Repr

/-- The mappings of a process. -/
abbrev AddrSpace := List Mapping

/-- The byte an address of the mapping stands for. -/
def Mapping.resolve (mp : Mapping) (a : UInt64) : Option Loc :=
  if mp.start ≤ a ∧ a.toNat < mp.start.toNat + mp.length.toNat then
    some ⟨mp.shm, a.toNat - mp.start.toNat⟩
  else
    none

/-- The byte an address stands for, if any mapping covers it. -/
def AddrSpace.resolve (sp : AddrSpace) (a : UInt64) : Option Loc :=
  sp.findSome? fun mp => mp.resolve a

/-- `struct vring_desc`. -/
structure VringDesc where
  addr : UInt64
  len : UInt32
  flags : UInt16
  next : UInt16
  deriving DecidableEq, Repr

/-- `struct vring_avail`; its `flags` are never read or written. -/
structure VringAvail where
  idx : UInt16
  ring : Nat → UInt16

/-- `struct vring_used_elem`. -/
structure VringUsedElem where
  id : UInt32
  len : UInt32
  deriving DecidableEq, Repr

/-- `struct vring_used`; its `flags` are never read or written. -/
structure VringUsed where
  idx : UInt16
  ring : Nat → VringUsedElem

/-- What the shared memory objects hold. -/
structure Mem where
  desc : Loc → Nat → VringDesc
  avail : Loc → VringAvail
  used : Loc → VringUsed
  byte : Loc → UInt8

namespace Mem

/-- Shared objects as the kernel creates them. -/
def zero : Mem where
  desc _ _ := ⟨0, 0, 0, 0⟩
  avail _ := ⟨0, fun _ => 0⟩
  used _ := ⟨0, fun _ => ⟨0, 0⟩⟩
  byte _ := 0

/-- Replace one descriptor of the table at `l`. -/
def setDesc (m : Mem) (l : Loc) (i : Nat) (d : VringDesc) : Mem :=
  { m with desc := Function.update m.desc l (Function.update (m.desc l) i d) }

/-- Replace the avail ring at `l`. -/
def setAvail (m : Mem) (l : Loc) (a : VringAvail) : Mem :=
  { m with avail := Function.update m.avail l a }

/-- Replace the used ring at `l`. -/
def setUsed (m : Mem) (l : Loc) (u : VringUsed) : Mem :=
  { m with used := Function.update m.used l u }

/-- The `n` bytes from `l` on. -/
def bytes (m : Mem) (l : Loc) (n : Nat) : List UInt8 :=
  (List.range n).map fun i => m.byte (l.add i)

/-- Store `bs` from `l` on. -/
def setBytes (m : Mem) (l : Loc) (bs : List UInt8) : Mem :=
  { m with
    byte := fun x =>
      if x.shm = l.shm ∧ l.off ≤ x.off then
        (bs[x.off - l.off]?).getD (m.byte x)
      else
        m.byte x }

section Setters
variable (m : Mem) (l l' : Loc) (i j : Nat)

@[simp] theorem setDesc_desc_self (d : VringDesc) : (m.setDesc l i d).desc l i = d := by
  simp [setDesc]

theorem setDesc_desc_of_ne (d : VringDesc) (h : j ≠ i) :
    (m.setDesc l i d).desc l j = m.desc l j := by
  simp [setDesc, h]

theorem setDesc_desc (d : VringDesc) :
    (m.setDesc l i d).desc l j = if j = i then d else m.desc l j := by
  by_cases h : j = i
  · subst j
    simp
  · rw [setDesc_desc_of_ne m l i j d h, if_neg h]

@[simp] theorem setDesc_avail (d : VringDesc) : (m.setDesc l i d).avail = m.avail := rfl
@[simp] theorem setDesc_used (d : VringDesc) : (m.setDesc l i d).used = m.used := rfl
@[simp] theorem setDesc_byte (d : VringDesc) : (m.setDesc l i d).byte = m.byte := rfl
@[simp] theorem setAvail_desc (a : VringAvail) : (m.setAvail l a).desc = m.desc := rfl
@[simp] theorem setAvail_used (a : VringAvail) : (m.setAvail l a).used = m.used := rfl
@[simp] theorem setAvail_byte (a : VringAvail) : (m.setAvail l a).byte = m.byte := rfl
@[simp] theorem setUsed_desc (u : VringUsed) : (m.setUsed l u).desc = m.desc := rfl
@[simp] theorem setUsed_avail (u : VringUsed) : (m.setUsed l u).avail = m.avail := rfl
@[simp] theorem setUsed_byte (u : VringUsed) : (m.setUsed l u).byte = m.byte := rfl
@[simp] theorem setBytes_desc (bs : List UInt8) : (m.setBytes l bs).desc = m.desc := rfl
@[simp] theorem setBytes_avail (bs : List UInt8) : (m.setBytes l bs).avail = m.avail := rfl
@[simp] theorem setBytes_used (bs : List UInt8) : (m.setBytes l bs).used = m.used := rfl

@[simp] theorem setAvail_avail_self (a : VringAvail) : (m.setAvail l a).avail l = a := by
  simp [setAvail]

@[simp] theorem setUsed_used_self (u : VringUsed) : (m.setUsed l u).used l = u := by
  simp [setUsed]

@[simp] theorem setBytes_nil : m.setBytes l [] = m := by
  simp [setBytes]

@[simp] theorem length_bytes (n : Nat) : (m.bytes l n).length = n := by
  simp [bytes]

/-- Reading `a + b` bytes is reading `a` bytes and then `b` more. -/
theorem bytes_add (a b : Nat) : m.bytes l (a + b) = m.bytes l a ++ m.bytes (l.add a) b := by
  simp only [bytes, List.range_add, List.map_append, List.map_map]
  congr 1
  exact List.map_congr_left fun i _ => by simp

theorem bytes_congr {m' : Mem} {n : Nat} (h : ∀ i, i < n → m'.byte (l.add i) = m.byte (l.add i)) :
    m'.bytes l n = m.bytes l n :=
  List.map_congr_left fun i hi => h i (List.mem_range.mp hi)

/-- What was stored is read back. -/
theorem bytes_setBytes_self (bs : List UInt8) : (m.setBytes l bs).bytes l bs.length = bs := by
  refine List.ext_getElem (by simp) fun i h1 h2 => ?_
  have hlt : i < bs.length := by simpa using h1
  simp [bytes, setBytes, Loc.add, hlt]

/-- A byte outside the stored range keeps its value. -/
theorem setBytes_byte_of_outside (bs : List UInt8) (x : Loc)
    (h : x.shm ≠ l.shm ∨ x.off < l.off ∨ l.off + bs.length ≤ x.off) :
    (m.setBytes l bs).byte x = m.byte x := by
  unfold setBytes
  by_cases hin : x.shm = l.shm ∧ l.off ≤ x.off
  · have hlen : bs.length ≤ x.off - l.off := by
      rcases h with h | h | h
      · exact absurd hin.1 h
      · omega
      · omega
    simp [List.getElem?_eq_none hlen]
  · exact if_neg hin

/-- Storing two pieces one after the other is storing their concatenation. -/
theorem setBytes_append (as bs : List UInt8) :
    (m.setBytes l as).setBytes (l.add as.length) bs = m.setBytes l (as ++ bs) := by
  have hbyte : ∀ x, ((m.setBytes l as).setBytes (l.add as.length) bs).byte x =
      (m.setBytes l (as ++ bs)).byte x := by
    intro x
    by_cases hs : x.shm = l.shm
    · rcases Nat.lt_or_ge x.off l.off with h1 | h1
      · simp [setBytes, Loc.add, show ¬ l.off + as.length ≤ x.off from by omega,
          show ¬ l.off ≤ x.off from by omega]
      · rcases Nat.lt_or_ge x.off (l.off + as.length) with h2 | h2
        · simp [setBytes, Loc.add, hs, h1, show ¬ l.off + as.length ≤ x.off from by omega,
            List.getElem?_append_left (show x.off - l.off < as.length from by omega)]
        · simp [setBytes, Loc.add, hs, h1, h2,
            List.getElem?_append_right (show as.length ≤ x.off - l.off from by omega),
            List.getElem?_eq_none (show as.length ≤ x.off - l.off from by omega),
            show x.off - (l.off + as.length) = x.off - l.off - as.length from by omega]
    · simp [setBytes, Loc.add, hs]
  show ({ m with byte := _ } : Mem) = { m with byte := _ }
  exact congrArg (fun f => ({ m with byte := f } : Mem)) (funext hbyte)

end Setters

end Mem

/-! ### Accesses through a pointer of the process -/

section Access
variable (sp : AddrSpace) (m : Mem)

/-- The byte a pointer points to. -/
def deref (a : UInt64) : Run Loc :=
  match sp.resolve a with
  | some l => .ret l
  | none => .fault (.segv a)

/-- `memcpy` out of `n` bytes from address `a`. -/
def readBytes : UInt64 → Nat → Run (List UInt8)
  | _, 0 => .ret []
  | a, n + 1 => do
      let l ← deref sp a
      let rest ← readBytes (a + 1) n
      return m.byte l :: rest

/-- `memcpy` of `bs` to address `a`. -/
def writeBytes : Mem → UInt64 → List UInt8 → Run Mem
  | m, _, [] => .ret m
  | m, a, b :: bs => do
      let l ← deref sp a
      writeBytes (m.setBytes l [b]) (a + 1) bs

/-- `desc[i]`, for the table that the pointer `p` points to. -/
def loadDesc (p : UInt64) (i : Nat) : Run VringDesc := do
  let l ← deref sp p
  Outcome.require (i < vhostVringSize) (.subscript i)
  return m.desc l i

/-- `desc[i] = d`. -/
def storeDesc (p : UInt64) (i : Nat) (d : VringDesc) : Run Mem := do
  let l ← deref sp p
  Outcome.require (i < vhostVringSize) (.subscript i)
  return m.setDesc l i d

/-- `avail->idx`. -/
def loadAvailIdx (p : UInt64) : Run UInt16 := do
  let l ← deref sp p
  return (m.avail l).idx

/-- `avail->ring[i]`. -/
def loadAvailRing (p : UInt64) (i : Nat) : Run UInt16 := do
  let l ← deref sp p
  Outcome.require (i < vhostVringSize) (.subscript i)
  return (m.avail l).ring i

/-- `used->idx`. -/
def loadUsedIdx (p : UInt64) : Run UInt16 := do
  let l ← deref sp p
  return (m.used l).idx

/-- `used->ring[i]`. -/
def loadUsedElem (p : UInt64) (i : Nat) : Run VringUsedElem := do
  let l ← deref sp p
  Outcome.require (i < vhostVringSize) (.subscript i)
  return (m.used l).ring i

/-- `used->ring[i] = e`. -/
def storeUsedElem (p : UInt64) (i : Nat) (e : VringUsedElem) : Run Mem := do
  let l ← deref sp p
  Outcome.require (i < vhostVringSize) (.subscript i)
  return m.setUsed l { m.used l with ring := Function.update (m.used l).ring i e }

/-- `used->idx = i`. -/
def storeUsedIdx (p : UInt64) (i : UInt16) : Run Mem := do
  let l ← deref sp p
  return m.setUsed l { m.used l with idx := i }

end Access

section AccessLemmas
variable {sp : AddrSpace} {m : Mem}

theorem deref_of_resolve {a : UInt64} {l : Loc} (h : sp.resolve a = some l) :
    deref sp a = .ret l := by
  simp only [deref, h]

theorem deref_eq_ret {a : UInt64} {l : Loc} : deref sp a = .ret l ↔ sp.resolve a = some l := by
  unfold deref
  split <;> simp_all

/-- The addresses from `a` on stand for the `n` bytes from `l` on. -/
def Shows (sp : AddrSpace) (a : UInt64) (n : Nat) (l : Loc) : Prop :=
  ∀ i, i < n → sp.resolve (a + .ofNat i) = some (l.add i)

theorem Shows.head {a : UInt64} {n : Nat} {l : Loc} (h : Shows sp a (n + 1) l) :
    sp.resolve a = some l := by
  simpa using h 0 (Nat.succ_pos n)

theorem Shows.drop {a : UInt64} {n : Nat} {l : Loc} (k : Nat) (h : Shows sp a (k + n) l) :
    Shows sp (a + .ofNat k) n (l.add k) := by
  intro i hi
  have := h (k + i) (by omega)
  rwa [UInt64.ofNat_add, ← UInt64.add_assoc, ← Loc.add_add] at this

theorem Shows.tail {a : UInt64} {n : Nat} {l : Loc} (h : Shows sp a (n + 1) l) :
    Shows sp (a + 1) n (l.add 1) := by
  have := Shows.drop 1 (show Shows sp a (1 + n) l from Nat.add_comm n 1 ▸ h)
  simpa using this

theorem Shows.mono {a : UInt64} {n k : Nat} {l : Loc} (h : Shows sp a n l) (hk : k ≤ n) :
    Shows sp a k l := fun i hi => h i (Nat.lt_of_lt_of_le hi hk)

/-- An offset that does not wrap around. -/
theorem toNat_add_ofNat {a : UInt64} {n : Nat} (h : a.toNat + n < 2 ^ 64) :
    (a + .ofNat n).toNat = a.toNat + n := by
  rw [UInt64.toNat_add, UInt64.toNat_ofNat']
  omega

/-- Addresses inside a mapping, the first of the address space. -/
theorem shows_of_mapping {mp : Mapping} {rest : AddrSpace} {a : UInt64} {n off : Nat}
    (ha : a.toNat = mp.start.toNat + off) (hn : off + n ≤ mp.length.toNat)
    (hw : mp.start.toNat + mp.length.toNat ≤ 2 ^ 64) :
    Shows (mp :: rest) a n ⟨mp.shm, off⟩ := by
  intro i hi
  have hadd : (a + .ofNat i).toNat = mp.start.toNat + off + i := by
    rw [toNat_add_ofNat (by omega), ha]
  have hres : mp.resolve (a + .ofNat i) = some ⟨mp.shm, off + i⟩ := by
    have hle : mp.start ≤ a + .ofNat i := by
      rw [UInt64.le_iff_toNat_le, hadd]
      omega
    rw [Mapping.resolve, hadd, if_pos ⟨hle, by omega⟩, Nat.add_assoc, Nat.add_sub_cancel_left]
  simp only [AddrSpace.resolve, List.findSome?_cons, hres]
  rfl

theorem readBytes_of_shows {n : Nat} : ∀ {a : UInt64} {l : Loc}, Shows sp a n l →
    readBytes sp m a n = .ret (m.bytes l n) := by
  induction n with
  | zero => exact fun _ => rfl
  | succ n ih =>
      intro a l h
      have hcons : m.bytes l (n + 1) = m.byte l :: m.bytes (l.add 1) n := by
        rw [Nat.add_comm, Mem.bytes_add]
        rfl
      rw [readBytes, deref_of_resolve h.head, hcons]
      simp [ih h.tail]

theorem writeBytes_of_shows {bs : List UInt8} : ∀ {m : Mem} {a : UInt64} {l : Loc},
    Shows sp a bs.length l → writeBytes sp m a bs = .ret (m.setBytes l bs) := by
  induction bs with
  | nil =>
      intro m a l _
      rw [Mem.setBytes_nil]
      rfl
  | cons b bs ih =>
      intro m a l h
      have happ := Mem.setBytes_append m l [b] bs
      rw [writeBytes, deref_of_resolve h.head]
      simp only [Outcome.ret_bind]
      rw [ih h.tail]
      exact congrArg Outcome.ret happ

/-- `memcpy` out of `n` bytes returns exactly when every one of them can be accessed. -/
theorem readBytes_returns_iff {n : Nat} : ∀ {a : UInt64},
    (∃ bs, readBytes sp m a n = .ret bs) ↔ ∀ i, i < n → (sp.resolve (a + .ofNat i)).isSome := by
  induction n with
  | zero => exact fun {a} => ⟨fun _ i hi => absurd hi (Nat.not_lt_zero i), fun _ => ⟨[], rfl⟩⟩
  | succ n ih =>
      intro a
      have hshift : ∀ i, a + 1 + .ofNat i = a + .ofNat (i + 1) := by
        intro i
        rw [UInt64.ofNat_add, UInt64.add_assoc, UInt64.add_comm 1]
        rfl
      constructor
      · rintro ⟨bs, h⟩
        obtain ⟨l, hl, h⟩ := Outcome.bind_eq_ret.mp h
        obtain ⟨rest, hrest, _⟩ := Outcome.bind_eq_ret.mp h
        intro i hi
        cases i with
        | zero => simp [deref_eq_ret.mp hl]
        | succ i =>
            rw [← hshift]
            exact ih.mp ⟨rest, hrest⟩ i (by omega)
      · intro h
        obtain ⟨l, hl⟩ := Option.isSome_iff_exists.mp (h 0 (Nat.succ_pos n))
        obtain ⟨rest, hrest⟩ := ih.mpr fun i hi => by
          rw [hshift]
          exact h (i + 1) (by omega)
        have hl' : sp.resolve a = some l := by simpa using hl
        exact ⟨m.byte l :: rest, by simp [readBytes, deref_of_resolve hl', hrest]⟩

theorem length_of_readBytes {n : Nat} : ∀ {a : UInt64} {bs : List UInt8},
    readBytes sp m a n = .ret bs → bs.length = n := by
  induction n with
  | zero =>
      intro a bs h
      cases h
      rfl
  | succ n ih =>
      intro a bs h
      obtain ⟨l, _, h⟩ := Outcome.bind_eq_ret.mp h
      obtain ⟨rest, hrest, h⟩ := Outcome.bind_eq_ret.mp h
      cases h
      rw [List.length_cons, ih hrest]

theorem loadDesc_of_resolve {p : UInt64} {l : Loc} {i : Nat} (h : sp.resolve p = some l)
    (hi : i < vhostVringSize) : loadDesc sp m p i = .ret (m.desc l i) := by
  simp [loadDesc, deref_of_resolve h, hi]

theorem storeDesc_of_resolve {p : UInt64} {l : Loc} {i : Nat} {d : VringDesc}
    (h : sp.resolve p = some l) (hi : i < vhostVringSize) :
    storeDesc sp m p i d = .ret (m.setDesc l i d) := by
  simp [storeDesc, deref_of_resolve h, hi]

theorem loadAvailIdx_of_resolve {p : UInt64} {l : Loc} (h : sp.resolve p = some l) :
    loadAvailIdx sp m p = .ret (m.avail l).idx := by
  simp [loadAvailIdx, deref_of_resolve h]

theorem loadAvailRing_of_resolve {p : UInt64} {l : Loc} {i : Nat} (h : sp.resolve p = some l)
    (hi : i < vhostVringSize) : loadAvailRing sp m p i = .ret ((m.avail l).ring i) := by
  simp [loadAvailRing, deref_of_resolve h, hi]

theorem loadUsedIdx_of_resolve {p : UInt64} {l : Loc} (h : sp.resolve p = some l) :
    loadUsedIdx sp m p = .ret (m.used l).idx := by
  simp [loadUsedIdx, deref_of_resolve h]

theorem loadUsedElem_of_resolve {p : UInt64} {l : Loc} {i : Nat} (h : sp.resolve p = some l)
    (hi : i < vhostVringSize) : loadUsedElem sp m p i = .ret ((m.used l).ring i) := by
  simp [loadUsedElem, deref_of_resolve h, hi]

theorem storeUsedElem_of_resolve {p : UInt64} {l : Loc} {i : Nat} {e : VringUsedElem}
    (h : sp.resolve p = some l) (hi : i < vhostVringSize) :
    storeUsedElem sp m p i e =
      .ret (m.setUsed l { m.used l with ring := Function.update (m.used l).ring i e }) := by
  simp [storeUsedElem, deref_of_resolve h, hi]

theorem storeUsedIdx_of_resolve {p : UInt64} {l : Loc} {i : UInt16} (h : sp.resolve p = some l) :
    storeUsedIdx sp m p i = .ret (m.setUsed l { m.used l with idx := i }) := by
  simp [storeUsedIdx, deref_of_resolve h]

end AccessLemmas

end Vapp
