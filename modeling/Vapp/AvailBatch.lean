import Vapp.DescChain

/-! # Consuming a list of heads

What `process_avail_vring` does to its entries depends on the descriptors they name and
not on the slots these were read from: `consumeHeads` is the loop without the avail ring.
It does not read the avail ring nor `used->idx`, so entries that are added in between do
not matter to it.
-/
namespace Vapp

open Counter16

variable {κ : Type} (sp : AddrSpace)

/-- What consuming some entries leaves behind, and the calls of `avail_handler`. -/
structure Consumed (κ : Type) where
  table : VringTable κ
  mem : Mem
  calls : List HandlerCall

/-- Consume the entries that name the given descriptors, one after the other. -/
def consumeHeads (fuel : Nat) (vIdx : RingIdx) :
    List UInt16 → VringTable κ → Mem → Run (Consumed κ)
  | [], t, m => .ret ⟨t, m, []⟩
  | d :: ds, t, m => do
      let r ← processHead sp fuel t vIdx d m
      let c ← consumeHeads fuel vIdx ds
        (r.table.setVring vIdx (r.table.vring vIdx).consumed) r.mem
      return { c with calls := r.call.toList ++ c.calls }

/-- Write entries for the given descriptors, as `put_vring` does. -/
def writeEntries (p : UInt64) (num : UInt32) : List UInt16 → Mem → Run Mem
  | [], m => .ret m
  | d :: ds, m => do
      let m ← addAvail sp p num d m
      writeEntries p num ds m

/-- The avail ring after entries for the given descriptors were added. -/
def VringAvail.addAll (num : UInt32) : List UInt16 → VringAvail → VringAvail
  | [], a => a
  | d :: ds, a => addAll num ds (a.add num d)

variable {sp} {t : VringTable κ} {i : RingIdx} {m : Mem} {fuel : Nat}

theorem consumeHeads_append {as : List UInt16} (bs : List UInt16) : ∀ {t : VringTable κ} {m : Mem},
    consumeHeads sp fuel i (as ++ bs) t m = (do
      let c ← consumeHeads sp fuel i as t m
      let c' ← consumeHeads sp fuel i bs c.table c.mem
      return { c' with calls := c.calls ++ c'.calls }) := by
  induction as with
  | nil =>
      intro t m
      simp only [List.nil_append, consumeHeads, Outcome.ret_bind]
      cases consumeHeads sp fuel i bs t m <;> rfl
  | cons a as ih =>
      intro t m
      simp only [List.cons_append, consumeHeads, Outcome.bind_assoc, ih, Outcome.pure_eq,
        Outcome.ret_bind, List.append_assoc]

/-- Both counters of a ring after `n` entries. -/
def Vring.advance (v : Vring) (n : Nat) : Vring :=
  { v with lastAvailIdx := v.lastAvailIdx + of n, lastUsedIdx := v.lastUsedIdx + of n }

@[simp] theorem Vring.advance_desc (v : Vring) (n : Nat) : (v.advance n).desc = v.desc := rfl
@[simp] theorem Vring.advance_avail (v : Vring) (n : Nat) : (v.advance n).avail = v.avail := rfl
@[simp] theorem Vring.advance_used (v : Vring) (n : Nat) : (v.advance n).used = v.used := rfl
@[simp] theorem Vring.advance_num (v : Vring) (n : Nat) : (v.advance n).num = v.num := rfl

/-- What consuming leaves alone, and where the counters are then. -/
structure ConsumeFrame (i : RingIdx) (n : Nat) (t t' : VringTable κ) (m m' : Mem) : Prop where
  vring : t'.vring i = (t.vring i).advance n
  translate : ∀ a, t'.translate a = t.translate a
  handlers : t'.handlers = t.handlers
  desc : m'.desc = m.desc
  avail : m'.avail = m.avail
  byte : m'.byte = m.byte
  usedIdx : ∀ l, (m'.used l).idx = (m.used l).idx

theorem consumeHeads_frame (ds : List UInt16) : ∀ {t : VringTable κ} {m : Mem} {c : Consumed κ},
    consumeHeads sp fuel i ds t m = .ret c → ConsumeFrame i ds.length t c.table m c.mem := by
  induction ds with
  | nil =>
      intro t m c h
      cases h
      refine ⟨?_, fun _ => rfl, rfl, rfl, rfl, rfl, fun _ => rfl⟩
      simp [Vring.advance]
  | cons d ds ih =>
      intro t m c h
      obtain ⟨r, hr, h⟩ := Outcome.bind_eq_ret.mp h
      obtain ⟨c', hc, h⟩ := Outcome.bind_eq_ret.mp h
      cases h
      obtain ⟨h1, h2, h3, h4, h5, h6, h7⟩ := processHead_frame hr
      obtain ⟨g1, g2, g3, g4, g5, g6, g7⟩ := ih hc
      refine ⟨?_, fun a => (g2 a).trans (h3 a), g3.trans h2, g4.trans h4, g5.trans h5,
        g6.trans h6, fun l => (g7 l).trans (h7 l)⟩
      have hstep : ∀ x : UInt16, x + 1 + of ds.length = x + of (d :: ds).length := by
        intro x
        rw [UInt16.add_assoc, UInt16.add_comm 1, of_add_one]
        rfl
      simp only [g1, VringTable.setVring_self, h1, Vring.advance, Vring.consumed, hstep]

/-! ### What consuming does not read -/

/-- A change of memory that keeps the descriptors and the packets and does not interfere
with the used entries. -/
structure Unread (sp : AddrSpace) (f : Mem → Mem) : Prop where
  desc : ∀ m, (f m).desc = m.desc
  byte : ∀ m, (f m).byte = m.byte
  store : ∀ m p k e, storeUsedElem sp (f m) p k e = storeUsedElem sp m p k e >>= fun m => .ret (f m)

theorem unread_setAvail (A : Loc) (a : VringAvail) : Unread sp (fun m => m.setAvail A a) := by
  refine ⟨fun _ => rfl, fun _ => rfl, fun m p k e => ?_⟩
  simp only [storeUsedElem, Outcome.bind_assoc]
  rfl

theorem unread_setUsedIdx (U : Loc) (idx : UInt16) :
    Unread sp (fun m => m.setUsed U { m.used U with idx := idx }) := by
  refine ⟨fun _ => rfl, fun _ => rfl, fun m p k e => ?_⟩
  simp only [storeUsedElem, Outcome.bind_assoc]
  refine congrArg _ (funext fun l => congrArg _ (funext fun _ => congrArg Outcome.ret ?_))
  by_cases h : l = U
  · subst h
    simp [Mem.setUsed]
  · simp only [Mem.setUsed, Function.update_of_ne h, Function.update_of_ne (Ne.symm h)]
    rw [Function.update_comm h]

theorem Unread.comp {f g : Mem → Mem} (hf : Unread sp f) (hg : Unread sp g) :
    Unread sp (fun m => g (f m)) := by
  refine ⟨fun m => (hg.desc _).trans (hf.desc m), fun m => (hg.byte _).trans (hf.byte m),
    fun m p k e => ?_⟩
  rw [hg.store, hf.store, Outcome.bind_assoc]
  rfl

/-- Reading packets only depends on the packets. -/
theorem readBytes_congr {m' : Mem} (h : m'.byte = m.byte) (n : Nat) :
    ∀ a, readBytes sp m' a n = readBytes sp m a n := by
  induction n with
  | zero => exact fun _ => rfl
  | succ n ih =>
      intro a
      simp only [readBytes, ih, h]

section Unread
variable {f : Mem → Mem} (hf : Unread sp f)
include hf

theorem Unread.copyTurn (desc : UInt64) :
    copyTurn sp t desc (f m) = Vapp.copyTurn sp t desc m := by
  funext s
  simp only [Vapp.copyTurn, loadDesc, hf.desc, readBytes_congr (hf.byte m) _]

theorem Unread.processHead (d : UInt16) :
    processHead sp fuel t i d (f m) =
      Vapp.processHead sp fuel t i d m >>= fun r => .ret { r with mem := f r.mem } := by
  simp only [Vapp.processHead, hf.copyTurn, Outcome.bind_assoc]
  refine congrArg _ (funext fun c => ?_)
  split
  · rfl
  · simp only [hf.store, Outcome.bind_assoc, Outcome.ret_bind]
    refine congrArg _ (funext fun m' => ?_)
    unfold consumePacket
    split
    · rfl
    · simp only [Outcome.bind_assoc]
      rfl

/-- **Consuming commutes with what it does not read.** -/
theorem Unread.consumeHeads (ds : List UInt16) : ∀ {t : VringTable κ} {m : Mem},
    consumeHeads sp fuel i ds t (f m) =
      Vapp.consumeHeads sp fuel i ds t m >>= fun c => .ret { c with mem := f c.mem } := by
  induction ds with
  | nil => exact rfl
  | cons d ds ih =>
      intro t m
      simp only [Vapp.consumeHeads, hf.processHead, Outcome.bind_assoc, Outcome.ret_bind, ih]
      rfl

end Unread

end Vapp
