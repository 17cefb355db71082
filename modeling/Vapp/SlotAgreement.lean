import Vapp.AvailSlots

/-! # When producer and consumer agree on avail slots

`_set_vring_num` accepts any size.  For a size that does not divide `2 ^ 16` the slot that
follows index 65535 is not slot 0 for the consumer, and a size above `VHOST_VRING_SIZE`
has slots past the end of the arrays.
-/
namespace Vapp

open Counter16

variable {κ : Type} {sp : AddrSpace} {t : VringTable κ} {i : RingIdx} {m : Mem} {fuel : Nat}
  {num : UInt32} {A U : Loc}

/-- Whatever `n` new entries are written from index `last` on: they can be written, one
call of `process_avail_vring` consumes each once, in order, from slot `k % num` for its
index `k`, and any way to split them into calls gives the same handler calls, the same
memory and the same counters. -/
def SlotsAgree (num : UInt32) (last : UInt16) (n : Nat) : Prop :=
  ∀ (κ : Type) (sp : AddrSpace) (fuel : Nat) (t : VringTable κ) (i : RingIdx) (m : Mem)
    (A U : Loc) (ds : List UInt16), sp.resolve (t.vring i).avail = some A →
    sp.resolve (t.vring i).used = some U → (t.vring i).num = num →
    (t.vring i).lastAvailIdx = last → (m.avail A).idx = last → ds.length = n →
    (∃ m', writeEntries sp (t.vring i).avail num ds m = .ret m' ∧
      (do
        let c ← processAvailVring sp fuel t i m'
        return (c.table, c.mem, c.calls, c.slots)) =
      (do
        let c ← consumeHeads sp fuel i ds t m'
        let m'' ← availLeave sp c.table i c.mem
        return (c.table, m'', c.calls, (List.range n).map fun j => of (slotOf num last j)))) ∧
    ∀ bss : List (List UInt16), bss ≠ [] → bss.flatten = ds →
      runBatches sp fuel i bss t m = runBatches sp fuel i [ds] t m

theorem visited_eq {last : UInt16} {n : Nat} (h : num.toNat ∣ 65536 ∨ last.toNat + n ≤ 65536) :
    visited num (of (last.toNat % num.toNat)) n =
      (List.range n).map fun j => of (slotOf num last j) := by
  refine List.map_congr_left fun j hj => ?_
  rw [slotOf_eq h (List.mem_range.mp hj),
    toNat_of_lt (Nat.lt_of_le_of_lt (Nat.mod_le _ _) last.toNat_lt), Nat.mod_add_mod]

theorem slotsAgree_of {last : UInt16} {n : Nat} (hnum : num ≠ 0) (hn : n ≤ num.toNat)
    (hrange : ∀ j, j < n → slotOf num last j < vhostVringSize)
    (hagree : num.toNat ∣ 65536 ∨ last.toNat + n ≤ 65536) : SlotsAgree num last n := by
  intro κ sp fuel t i m A U ds hA hU ht hlast hidx hlen
  subst ht hlast hlen
  have hwindow : Window sp i A U t m ds.length := ⟨hA, hU, hnum, hidx, hn, hrange, hagree⟩
  refine ⟨⟨_, (writeEntries_ret_iff hA hnum ds).mpr ⟨?_, rfl⟩, ?_⟩, fun bss hne hflat => ?_⟩
  · rw [hidx]
    exact hrange
  · obtain ⟨e, he⟩ := processAvailVring_of_pending fuel hwindow.pending
    rw [he, visited_eq hagree]
    simp only [Outcome.bind_assoc, Outcome.pure_eq, Outcome.ret_bind]
  · subst hflat
    rw [runBatches_eq bss hne hwindow, hwindow.runBatch]

/-! ### A ring of empty packets -/

/-- The slots a call that returned has visited. -/
theorem slots_of_processAvailVring {c : AvailLoop κ} (hnum : (t.vring i).num.toNat < 65536)
    (h : processAvailVring sp fuel t i m = .ret c) :
    c.slots = visited (t.vring i).num
      (of ((t.vring i).lastAvailIdx.toNat % (t.vring i).num.toNat)) c.slots.length := by
  have hne : (t.vring i).num ≠ 0 := by
    obtain ⟨_, henter, _⟩ := Outcome.bind_eq_ret.mp h
    obtain ⟨_, hpos, _⟩ := Outcome.bind_eq_ret.mp henter
    exact Outcome.require_eq_ret.mp hpos
  have hmod : 0 < (t.vring i).num.toNat :=
    Nat.pos_of_ne_zero fun hz => hne (UInt32.toNat_inj.mp hz)
  let a := of ((t.vring i).lastAvailIdx.toNat % (t.vring i).num.toNat)
  -- the slot of each turn is the one of before, stepped modulo `num`
  let I : AvailLoop κ → Prop := fun c => (c.table.vring i).num = (t.vring i).num ∧
    c.slots = visited (t.vring i).num a c.slots.length ∧
    c.aIdx = of ((a.toNat + c.slots.length) % (t.vring i).num.toNat)
  have henter : ∀ a, availEnter t i = .ret a → I ⟨t, m, a, 0, [], []⟩ := by
    intro a' ha'
    obtain ⟨_, _, ha'⟩ := Outcome.bind_eq_ret.mp ha'
    cases ha'
    refine ⟨rfl, rfl, ?_⟩
    show of _ = of ((a.toNat + 0) % _)
    rw [Nat.add_zero, toNat_of_lt (Nat.lt_trans (Nat.mod_lt _ hmod) hnum), Nat.mod_mod]
  have hturn : ∀ c r, I c → availTurn sp fuel c.table i c.aIdx c.mem = .ret (some r) →
      I (c.next r) := by
    rintro c r ⟨hnumc, hslots, haIdx⟩ hturn
    obtain ⟨_, d, -, -, -, hf, ht, -, hnext, -⟩ := availTurn_some hturn
    have hlt : (a.toNat + c.slots.length) % (t.vring i).num.toNat < 65536 :=
      Nat.lt_trans (Nat.mod_lt _ hmod) hnum
    refine ⟨?_, ?_, ?_⟩
    · simp [ht, hnumc]
    · rw [AvailLoop.next_slots, List.length_append, List.length_singleton, visited,
        List.range_succ, List.map_append, List.map_singleton, ← haIdx]
      exact congrArg (· ++ [c.aIdx]) hslots
    · rw [AvailLoop.next_aIdx, AvailLoop.next_slots, hnext, hnumc, nextSlot, haIdx,
        toNat_of_lt hlt, Nat.mod_add_mod, List.length_append, List.length_singleton,
        Nat.add_assoc]
      rfl
  obtain ⟨s, m', ⟨_, hslots, _⟩, _, _, rfl⟩ := processAvailVring_rule henter hturn h
  exact hslots

/-- A party without callbacks whose two rings have `num` slots and are at index `last`. -/
def bareTable (num : UInt32) (last : UInt16) : VringTable Unit where
  context := ()
  handlers := ⟨none, none, nofun⟩
  vring _ :=
    { initVring with
      desc := .ofNat offsetofDesc
      avail := .ofNat offsetofAvail
      used := .ofNat offsetofUsed
      num := num
      lastAvailIdx := last }

/-- An address space that shows one object from address 0 on. -/
def bareSpace : AddrSpace := [⟨0, vhostClientPageSize, 0⟩]

/-- An object without packets, whose avail ring is at index `last`. -/
def bareMem (last : UInt16) : Mem := { Mem.zero with avail := fun _ => ⟨last, fun _ => 0⟩ }

theorem bareSpace_resolve {a : UInt64} (h : a.toNat < vhostClientPageSize.toNat) :
    bareSpace.resolve a = some ⟨0, a.toNat⟩ := by
  have hle : (0 : UInt64) ≤ a := UInt64.zero_le
  have hres : Mapping.resolve ⟨0, vhostClientPageSize, 0⟩ a = some ⟨0, a.toNat⟩ := by
    rw [Mapping.resolve, if_pos ⟨hle, by simpa using h⟩]
    simp
  rw [bareSpace, AddrSpace.resolve, List.findSome?_cons, hres]

/-- Entries that name an empty descriptor are consumed without a packet. -/
theorem consumeHeads_empty {D : Loc} (n : Nat) : ∀ {t : VringTable κ} {m : Mem},
    sp.resolve (t.vring i).desc = some D → m.desc D 0 = ⟨0, 0, 0, 0⟩ →
    ∃ c, consumeHeads sp 1 i (List.replicate n 0) t m = .ret c ∧ c.calls = [] := by
  induction n with
  | zero => exact fun _ _ => ⟨_, rfl, rfl⟩
  | succ n ih =>
      intro t m hD hdesc
      have hchain : DescChain (m.desc D) (0 : UInt16).toNat [⟨0, 0, 0, 0⟩] := by
        rw [← hdesc]
        refine .last (by decide) ?_
        show (m.desc D 0).flags &&& _ = 0
        rw [hdesc]
        rfl
      have hhead : processHead sp 1 t i 0 m = .ret ⟨-1, t, m, none⟩ :=
        processHead_of_chain hD hchain (Nat.le_refl 1)
      obtain ⟨c, hc, hcalls⟩ := ih (t := t.setVring i (t.vring i).consumed) (m := m)
        (by simpa using hD) hdesc
      refine ⟨_, ?_, hcalls⟩
      rw [List.replicate_succ, consumeHeads, hhead, Outcome.ret_bind, hc]
      rfl

/-- What the agreement says of a ring of empty packets. -/
theorem SlotsAgree.bare {last : UInt16} {n : Nat} (hnum : num ≠ 0) (h : SlotsAgree num last n) :
    (∀ j, j < n → slotOf num last j < vhostVringSize) ∧
    ∃ m' c, processAvailVring bareSpace 1 (bareTable num last) rxIdx m' = .ret c ∧
      c.slots = (List.range n).map fun j => of (slotOf num last j) := by
  have hA := bareSpace_resolve (a := .ofNat offsetofAvail) (by decide)
  have hU := bareSpace_resolve (a := .ofNat offsetofUsed) (by decide)
  have hD := bareSpace_resolve (a := .ofNat offsetofDesc) (by decide)
  obtain ⟨⟨m', hwrite, heq⟩, -⟩ := h Unit bareSpace 1 (bareTable num last) rxIdx (bareMem last)
    _ _ (List.replicate n 0) hA hU rfl rfl rfl List.length_replicate
  obtain ⟨hrange, hm⟩ := (writeEntries_ret_iff hA hnum _).mp hwrite
  rw [List.length_replicate] at hrange
  refine ⟨hrange, m', ?_⟩
  obtain ⟨c, hc, -⟩ := consumeHeads_empty (i := rxIdx) n
    (t := bareTable num last) (m := m') hD (by rw [hm]; rfl)
  obtain ⟨U, hused⟩ : ∃ U, bareSpace.resolve (c.table.vring rxIdx).used = some U := by
    rw [(consumeHeads_frame _ hc).vring]
    exact ⟨_, hU⟩
  rw [hc, Outcome.ret_bind, availLeave, storeUsedIdx_of_resolve hused, Outcome.ret_bind] at heq
  obtain ⟨c', hc', hret⟩ := Outcome.bind_eq_ret.mp heq
  exact ⟨c', hc', congrArg (·.2.2.2) (Outcome.ret.inj hret)⟩

/-- Where the size does not divide `2 ^ 16`, the slot after index 65535 is not slot 0. -/
theorem SlotsAgree.agree {last : UInt16} {n : Nat} (hnum : num ≠ 0) (h : SlotsAgree num last n) :
    num.toNat ∣ 65536 ∨ last.toNat + n ≤ 65536 := by
  obtain ⟨hrange, m', c, hc, hslots⟩ := h.bare hnum
  apply Decidable.byContradiction
  intro hnot
  obtain ⟨hdvd, hwrap⟩ := not_or.mp hnot
  have hlast := last.toNat_lt
  have hpos : 0 < num.toNat := Nat.pos_of_ne_zero fun hz => hnum (UInt32.toNat_inj.mp hz)
  -- the slot of index 65535 lies in the array, so the size is at most 65535
  have hmax := hrange (65535 - last.toNat) (by omega)
  rw [slotOf, of_add, toNat_of, Nat.add_sub_cancel' (by omega)] at hmax
  have hsize : num.toNat < 65536 := by
    apply Decidable.byContradiction
    intro hge
    rw [Nat.mod_eq_of_lt (a := 65535 % 65536) (by omega)] at hmax
    exact absurd hmax (by decide)
  have hvisited := slots_of_processAvailVring (t := bareTable num last) hsize hc
  have hlen : c.slots.length = n := by rw [hslots, List.length_map, List.length_range]
  rw [hlen, hslots] at hvisited
  have hj : 65536 - last.toNat < n := by omega
  have hslot := congrArg (fun l : List UInt16 => l[65536 - last.toNat]?) hvisited
  simp only [visited, List.getElem?_map, List.getElem?_range hj, Option.map_some] at hslot
  have hslot := congrArg UInt16.toNat (Option.some.inj hslot)
  have hzero : slotOf num last (65536 - last.toNat) = 0 := by
    rw [slotOf, of_add, toNat_of, Nat.add_sub_cancel' (by omega)]
    exact Nat.zero_mod _
  have hstart : (of (last.toNat % num.toNat)).toNat = last.toNat % num.toNat :=
    toNat_of_lt (Nat.lt_of_le_of_lt (Nat.mod_le _ _) hlast)
  have hnext : (of ((last.toNat % num.toNat + (65536 - last.toNat)) % num.toNat)).toNat =
      65536 % num.toNat := by
    rw [Nat.mod_add_mod, Nat.add_sub_cancel' (by omega),
      toNat_of_lt (Nat.lt_trans (Nat.mod_lt _ hpos) hsize)]
  rw [hzero] at hslot
  have hslot : (of 0).toNat = 65536 % num.toNat := by
    refine hslot.trans ?_
    show (of (((of (last.toNat % num.toNat)).toNat + _) % num.toNat)).toNat = _
    rw [hstart, hnext]
  exact hdvd (Nat.dvd_of_mod_eq_zero hslot.symm)

/-- **When producer and consumer agree**: for any size, start and number of new entries,
they do exactly when the slots of the entries lie in the arrays and the size divides
`2 ^ 16` or the index does not wrap. -/
theorem avail_slots_agree_iff {num : UInt32} {last : UInt16} {n : Nat} (hnum : 1 ≤ num)
    (hn : n ≤ num.toNat) :
    SlotsAgree num last n ↔
      (∀ j, j < n → (last + .ofNat j).toNat % num.toNat < vhostVringSize) ∧
      (num.toNat ∣ 65536 ∨ last.toNat + n ≤ 65536) := by
  have hne : num ≠ 0 := by
    rintro rfl
    exact absurd hnum (by decide)
  constructor
  · exact fun h => ⟨(h.bare hne).1, h.agree hne⟩
  · rintro ⟨hrange, hagree⟩
    exact slotsAgree_of hne hn hrange hagree

/-- Two entries across the wrap of a full-size ring. -/
theorem avail_slots_agree_iff_wrap : SlotsAgree 32768 65535 2 ↔
    (∀ j, j < 2 → ((65535 : UInt16) + .ofNat j).toNat % 32768 < vhostVringSize) ∧
    (32768 ∣ 65536 ∨ 65535 + 2 ≤ 65536) :=
  avail_slots_agree_iff (by decide) (by decide)

/-- With three slots, the consumer looks for the entry of index 0 in slot 1. -/
theorem avail_slots_disagree : ¬ SlotsAgree 3 65535 2 := fun h =>
  absurd (h.agree (by decide)) (by decide)

end Vapp
