import Vapp.ChainEnds
import Vapp.UsedWalk

/-! # Indices that the peer has written

The entries of the avail ring, the links of the descriptors and the ids of the used entries
become subscripts of the descriptor table.  Nothing compares them with the size of the ring,
and the one assertion there is compares an id with the size of the arrays.
-/
namespace Vapp

open Outcome

variable {κ : Type} {sp : AddrSpace} {t : VringTable κ} {i : RingIdx} {m : Mem}

/-! ### What the calls use -/

/-- The states of its loop that a call of `process_avail_vring` comes to. -/
def AvailReached (sp : AddrSpace) (t : VringTable κ) (i : RingIdx) (m : Mem) (s : AvailLoop κ) :
    Prop :=
  ∃ a, availEnter t i = .ret a ∧
    Relation.ReflTransGen (NestedTurn fun fuel => availBody sp fuel i) ⟨t, m, a, 0, [], []⟩ s

/-- `_process_desc` uses `k` as a subscript of `desc` for some entry of the call. -/
def AvailSubscript (sp : AddrSpace) (t : VringTable κ) (i : RingIdx) (m : Mem) (k : Nat) : Prop :=
  ∃ s d l c, AvailReached sp t i m s ∧ NextHead sp i s d ∧
    CopyRun sp s.table (s.table.vring i).desc s.mem d.toNat l c ∧ c.i = k

/-- The used entry that is next when the loop of `process_used_vring` is at slot `u`. -/
structure UsedPending (sp : AddrSpace) (v : Vring) (m : Mem) (u : UInt16) (e : VringUsedElem) :
    Prop where
  pending : ∃ idx, loadUsedIdx sp m v.used = .ret idx ∧ u ≠ idx
  elem : loadUsedElem sp m v.used u.toNat = .ret e

/-- A turn of the loop that frees the descriptor of the entry `e`. -/
structure FreeTurn (sp : AddrSpace) (i : RingIdx) (s : UsedLoop κ) (e : VringUsedElem)
    (s' : UsedLoop κ) : Prop where
  entry : UsedPending sp (s.table.vring i) s.mem s.uIdx e
  turn : usedTurn sp i s = .ret (.inl s')

/-- The turns of a call of `process_used_vring`, and the entries they have freed. -/
abbrev UsedRun (sp : AddrSpace) (t : VringTable κ) (i : RingIdx) (m : Mem) :
    List VringUsedElem → UsedLoop κ → Prop :=
  Transition.Run (FreeTurn sp i) (.start t i m)

/-- `_free_vring` uses `k` as a subscript of `desc` for some entry of the call: its assertion
lets it pass. -/
def UsedSubscript (sp : AddrSpace) (t : VringTable κ) (i : RingIdx) (m : Mem) (k : Nat) : Prop :=
  ∃ l s e, UsedRun sp t i m l s ∧ UsedPending sp (s.table.vring i) s.mem s.uIdx e ∧
    e.id.toNat < vhostVringSize ∧ e.id.toNat = k

/-- Every subscript lies in the ring, and an entry that would lead out of it changes no
descriptor. -/
structure IndicesChecked (sp : AddrSpace) (t : VringTable κ) (i : RingIdx) (m : Mem) : Prop where
  avail : ∀ k, AvailSubscript sp t i m k → k < (t.vring i).num.toNat
  used : ∀ k, UsedSubscript sp t i m k → k < (t.vring i).num.toNat
  availKept : ∀ s fuel r, AvailReached sp t i m s →
    processDesc sp fuel s.table i s.aIdx s.mem = .ret r → r.mem.desc = s.mem.desc
  usedKept : ∀ l s e, UsedRun sp t i m l s → UsedPending sp (s.table.vring i) s.mem s.uIdx e →
    (t.vring i).num.toNat ≤ e.id.toNat → ∀ r, freeVring sp s.table i e.id s.mem = .ret r →
      r.2.desc = s.mem.desc

/-! ### The heads and links of avail entries -/

/-- The head and every link that is followed from it are below `num`. -/
structure LinksBelow (sp : AddrSpace) (t : VringTable κ) (desc : UInt64) (m : Mem)
    (num head : Nat) : Prop where
  first : head < num
  links : ∀ l p d q, Walk sp t desc m head l p → WalkStep sp t desc m p d q → d.next.toNat < num

section Avail
variable {desc : UInt64} {num head : Nat}

theorem linksBelow_iff :
    LinksBelow sp t desc m num head ↔ ∀ l p, Walk sp t desc m head l p → p.i < num := by
  constructor
  · intro h l p hwalk
    cases hwalk with
    | nil => exact h.first
    | snoc hwalk hstep =>
        rw [hstep.eq]
        exact h.links _ _ _ _ hwalk hstep
  · intro h
    refine ⟨h [] _ .nil, fun l p d q hwalk hstep => ?_⟩
    have hlast := h _ _ (.snoc hwalk hstep)
    rwa [hstep.eq] at hlast

/-- The walks of a call are the same before every turn. -/
theorem walk_reached {s : AvailLoop κ} (h : AvailReached sp t i m s) (head : Nat) :
    Walk sp s.table (s.table.vring i).desc s.mem head = Walk sp t (t.vring i).desc m head := by
  obtain ⟨a, -, hreach⟩ := h
  have hkept := chainsKept_reached hreach
  rw [hkept.desc, Walk, Walk, walkStep_congr hkept.translate hkept.table]

/-- **The subscripts of `process_avail_vring`** lie in the ring exactly if the heads and links
do that the call comes to. -/
theorem avail_below_iff (sp : AddrSpace) (t : VringTable κ) (i : RingIdx) (m : Mem) (num : Nat) :
    (∀ k, AvailSubscript sp t i m k → k < num) ↔
      ∀ d, ComesTo sp t i m d → LinksBelow sp t (t.vring i).desc m num d.toNat := by
  constructor
  · rintro h d ⟨a, s, ha, hreach, hd⟩
    refine linksBelow_iff.mpr fun l p hwalk => ?_
    rw [← walk_reached ⟨a, ha, hreach⟩] at hwalk
    obtain ⟨c, hrun, rfl⟩ := walk_copyRun hwalk
    exact h c.i ⟨s, d, l, c, ⟨a, ha, hreach⟩, hd, hrun, rfl⟩
  · rintro h k ⟨s, d, l, c, ⟨a, ha, hreach⟩, hd, hrun, rfl⟩
    have hwalk := (copyRun_walk hrun).2
    rw [walk_reached ⟨a, ha, hreach⟩] at hwalk
    exact linksBelow_iff.mp (h d ⟨a, s, ha, hreach, hd⟩) l _ hwalk

end Avail

/-! ### The ids of used entries -/

/-- The walk along the used ring goes on behind the entry `e`: the assertion lets its id pass,
and it can be freed. -/
structure UsedLink (sp : AddrSpace) (v : Vring) (m : Mem) (u : UInt16) (e : VringUsedElem)
    (u' : UInt16) : Prop where
  entry : UsedPending sp v m u e
  passes : e.id.toNat < vhostVringSize
  table : ∃ D, sp.resolve v.desc = some D
  num : v.num ≠ 0
  eq : u' = .ofNat ((u.toNat + 1) % v.num.toNat)

/-- Each id on the walk from `last_used_idx` lies in the ring, unless the assertion stops it. -/
def UsedIdsBelow (sp : AddrSpace) (v : Vring) (m : Mem) : Prop :=
  ∀ l u e, Transition.Run (UsedLink sp v m) v.lastUsedIdx l u → UsedPending sp v m u e →
    e.id.toNat < vhostVringSize → e.id.toNat < v.num.toNat

section Used
variable {s s' : UsedLoop κ} {e : VringUsedElem} {u u' : UInt16} {l : List VringUsedElem}

theorem UsedPending.congr {v v' : Vring} {m' : Mem} (h : UsedPending sp v m u e)
    (hv : v'.used = v.used) (hm : m'.used = m.used) : UsedPending sp v' m' u e := by
  obtain ⟨⟨idx, hidx, hne⟩, helem⟩ := h
  refine ⟨⟨idx, ?_, hne⟩, ?_⟩
  · rw [hv, ← hidx, loadUsedIdx, hm]
    rfl
  · rw [hv, ← helem, loadUsedElem, hm]
    rfl

/-- The walk does not depend on what the loop changes. -/
theorem usedLink_congr (h : UsedLoop.Frame i s s') :
    UsedLink sp (s'.table.vring i) s'.mem = UsedLink sp (s.table.vring i) s.mem := by
  obtain ⟨head, hhead⟩ := h.ring
  rw [hhead, VringTable.setVring_self]
  funext u e u'
  refine propext ⟨fun hl => ?_, fun hl => ?_⟩
  · exact ⟨hl.entry.congr rfl h.used.symm, hl.passes, hl.table, hl.num, hl.eq⟩
  · exact ⟨hl.entry.congr rfl h.used, hl.passes, hl.table, hl.num, hl.eq⟩

/-- A turn takes the walk one entry further. -/
theorem FreeTurn.link (h : FreeTurn sp i s e s') :
    UsedLink sp (s.table.vring i) s.mem s.uIdx e s'.uIdx ∧ UsedLoop.Frame i s s' := by
  obtain ⟨⟨⟨idx, hidx, hne⟩, helem⟩, hturn⟩ := h
  obtain ⟨idx', hidx', hturn⟩ := bind_eq_ret.mp hturn
  cases hidx.symm.trans hidx'
  rw [if_neg hne] at hturn
  obtain ⟨e', helem', hturn⟩ := bind_eq_ret.mp hturn
  cases helem.symm.trans helem'
  obtain ⟨⟨t', m'⟩, hfree, hturn⟩ := bind_eq_ret.mp hturn
  obtain ⟨_, hnum, hturn⟩ := bind_eq_ret.mp hturn
  obtain ⟨hlt, D, hD, rfl, rfl⟩ := freeVring_ret hfree
  cases hturn
  exact ⟨⟨⟨⟨idx, hidx, hne⟩, helem⟩, hlt, ⟨D, hD⟩, require_eq_ret.mp hnum, rfl⟩,
    rfl, rfl, rfl, ⟨_, rfl⟩, UsedLoop.freeMem_addr _ _ _ _⟩

/-- The loop follows the walk. -/
theorem UsedLink.turn (h : UsedLink sp (s.table.vring i) s.mem s.uIdx e u') :
    ∃ s', FreeTurn sp i s e s' ∧ s'.uIdx = u' := by
  obtain ⟨D, hD⟩ := h.table
  obtain ⟨idx, hidx, hne⟩ := h.entry.pending
  have hturn : usedTurn sp i s = .ret (.inl
      { table := s.table.setVring i { s.table.vring i with lastAvailIdx := e.id.toUInt16 }
        mem := freeMem s.mem D e.id.toNat (s.table.vring i).lastAvailIdx
        uIdx := .ofNat ((s.uIdx.toNat + 1) % (s.table.vring i).num.toNat)
        freed := s.freed ++ [(s.uIdx.toNat, e.id)] }) := by
    simp only [usedTurn, hidx, ret_bind, if_neg hne, h.entry.elem, freeVring_of_lt hD h.passes,
      require_pos h.num]
    rfl
  exact ⟨_, ⟨h.entry, hturn⟩, h.eq.symm⟩

/-- **The loop walks the used ring**, which it leaves as it is. -/
theorem usedRun_links (h : UsedRun sp t i m l s) :
    Transition.Run (UsedLink sp (t.vring i) m) (t.vring i).lastUsedIdx l s.uIdx ∧
      UsedLoop.Frame i (.start t i m) s := by
  induction h with
  | nil => exact ⟨.nil, UsedLoop.walk_frame (D := ⟨0, 0⟩) (U := ⟨0, 0⟩) 0 (.start t i m)⟩
  | snoc _ hs ih =>
      obtain ⟨hlink, hframe⟩ := hs.link
      rw [usedLink_congr ih.2] at hlink
      exact ⟨.snoc ih.1 hlink, ih.2.trans hframe⟩

/-- Every walk along the used ring is one of the loop. -/
theorem links_usedRun (h : Transition.Run (UsedLink sp (t.vring i) m) (t.vring i).lastUsedIdx l u) :
    ∃ s, UsedRun sp t i m l s ∧ s.uIdx = u := by
  induction h with
  | nil => exact ⟨_, .nil, rfl⟩
  | snoc _ hs ih =>
      obtain ⟨s, hrun, rfl⟩ := ih
      have hsame : UsedLink sp (s.table.vring i) s.mem = UsedLink sp (t.vring i) m :=
        usedLink_congr (usedRun_links hrun).2
      rw [← hsame] at hs
      obtain ⟨s', hturn, rfl⟩ := hs.turn
      exact ⟨s', .snoc hrun hturn, rfl⟩

/-- The entry that the loop is at is the one the walk is at. -/
theorem usedPending_run (h : UsedRun sp t i m l s) :
    UsedPending sp (s.table.vring i) s.mem s.uIdx e ↔ UsedPending sp (t.vring i) m s.uIdx e := by
  have hframe := (usedRun_links h).2
  obtain ⟨head, hhead⟩ := hframe.ring
  rw [hhead, VringTable.setVring_self]
  exact ⟨fun hp => hp.congr rfl hframe.used.symm, fun hp => hp.congr rfl hframe.used⟩

/-- **The subscripts of `_free_vring`** lie in the ring exactly if the ids do that its assertion
lets pass. -/
theorem used_below_iff (sp : AddrSpace) (t : VringTable κ) (i : RingIdx) (m : Mem) :
    (∀ k, UsedSubscript sp t i m k → k < (t.vring i).num.toNat) ↔
      UsedIdsBelow sp (t.vring i) m := by
  constructor
  · intro h l u e hwalk hpending hpasses
    obtain ⟨s, hrun, rfl⟩ := links_usedRun hwalk
    exact h _ ⟨l, s, e, hrun, (usedPending_run hrun).mpr hpending, hpasses, rfl⟩
  · rintro h k ⟨l, s, e, hrun, hpending, hpasses, rfl⟩
    exact h l s.uIdx e (usedRun_links hrun).1 ((usedPending_run hrun).mp hpending) hpasses

end Used

/-! ### Both calls -/

/-- **Indices of the peer stay in the ring** exactly if each head that is come to, each link
that is followed and each id that the assertion lets pass does. -/
theorem indices_checked_iff (sp : AddrSpace) (t : VringTable κ) (i : RingIdx) (m : Mem) :
    IndicesChecked sp t i m ↔
      (∀ d, ComesTo sp t i m d →
        LinksBelow sp t (t.vring i).desc m (t.vring i).num.toNat d.toNat) ∧
      UsedIdsBelow sp (t.vring i) m := by
  constructor
  · exact fun h => ⟨(avail_below_iff sp t i m _).mp h.avail, (used_below_iff sp t i m).mp h.used⟩
  · rintro ⟨havail, hused⟩
    have hbelow := (used_below_iff sp t i m).mpr hused
    refine ⟨(avail_below_iff sp t i m _).mpr havail, hbelow, fun _ _ _ _ hcall =>
      (processDesc_frame hcall).desc, fun l s e hrun hpending hid r hfree => ?_⟩
    -- an id outside the ring does not come to the store
    have hlt := hbelow _ ⟨l, s, e, hrun, hpending, (freeVring_ret hfree).1, rfl⟩
    exact absurd hlt (Nat.not_lt.mpr hid)

/-! ### Entries out of the ring -/

/-- An object whose first entries, in both rings, name the descriptor `k`. -/
def strayMem (k : UInt16) : Mem :=
  { Mem.zero with
    avail := fun _ => ⟨1, fun _ => k⟩
    used := fun _ => ⟨1, fun _ => ⟨k.toUInt32, 0⟩⟩ }

/-- The first entry of a ring that nobody has used. -/
theorem nextHead_bare {num : UInt32} (hnum : num ≠ 0) {m : Mem}
    (hidx : (m.avail ⟨0, offsetofAvail⟩).idx = 1) :
    NextHead bareSpace rxIdx ⟨bareTable num 0, m, 0, 0, [], []⟩
      ((m.avail ⟨0, offsetofAvail⟩).ring 0) := by
  have hA : bareSpace.resolve (.ofNat offsetofAvail) = some ⟨0, offsetofAvail⟩ :=
    bareSpace_resolve (by decide)
  have hslot : (0 : UInt16).toNat < vhostVringSize := by decide
  refine ⟨⟨1, ?_, show (0 : UInt16) ≠ 1 by decide⟩, hnum, loadAvailRing_of_resolve hA hslot⟩
  rw [← hidx]
  exact loadAvailIdx_of_resolve hA

/-- A head behind the table, a link out of a ring of four slots, and a used id out of such a
ring: each of them is used as it is. -/
theorem stray_indices_used :
    ¬ IndicesChecked bareSpace (bareTable (.ofNat vhostVringSize) 0) rxIdx (strayMem 0xffff) ∧
    ¬ IndicesChecked bareSpace (bareTable 4 0) rxIdx
      (tableMem fun _ => ⟨0, 12, virtioDescFNext, 7⟩) ∧
    ¬ IndicesChecked bareSpace (bareTable 4 0) rxIdx
      { strayMem 5 with avail := fun _ => ⟨0, fun _ => 0⟩ } := by
  refine ⟨fun h => ?_, fun h => ?_, fun h => ?_⟩
  · have hused := h.avail 0xffff
      ⟨_, _, [], _, ⟨0, rfl, .refl⟩, nextHead_bare (by decide) rfl, .nil, rfl⟩
    exact absurd hused (by decide)
  · have hturn : copyTurn bareSpace (bareTable 4 0) (.ofNat offsetofDesc)
        (tableMem fun _ => ⟨0, 12, virtioDescFNext, 7⟩) ⟨0, 0, []⟩ =
          .ret (.inl ⟨7, 12, List.replicate 12 0⟩) := by
      decide +kernel
    have hused := h.avail 7 ⟨_, _, _, _, ⟨0, rfl, .refl⟩, nextHead_bare (by decide) rfl,
      .one ⟨loadDesc_tableMem (by decide), hturn⟩, rfl⟩
    exact absurd hused (by decide)
  · have hU : bareSpace.resolve (.ofNat offsetofUsed) = some ⟨0, offsetofUsed⟩ :=
      bareSpace_resolve (by decide)
    have hused := h.used 5 ⟨[], _, ⟨5, 0⟩, .nil,
      ⟨⟨1, loadUsedIdx_of_resolve hU, show (0 : UInt16) ≠ 1 by decide⟩,
        loadUsedElem_of_resolve hU (by decide)⟩, by decide, rfl⟩
    exact absurd hused (by decide)

end Vapp
