import Mathlib.Data.Finite.Prod
import Vapp.ChainWalk
import Vapp.Library.EndlessLoop

/-! # When the walk along a chain ends

What bounds the copy loop is the room that is left in `buf`, and a buffer of no bytes takes
none of it.  The loop goes on for ever exactly when the walk comes to a cycle of empty
descriptors, and `process_avail_vring` with it.
-/
namespace Vapp

open Outcome

variable {κ : Type} {sp : AddrSpace} {t : VringTable κ} {desc : UInt64} {m : Mem} {fuel : Nat}

/-! ### Accesses always have an outcome -/

theorem deref_ne_spent {a : UInt64} : deref sp a ≠ .spent := by
  unfold deref
  split
  · exact nofun
  · exact nofun

theorem readBytes_ne_spent (n : Nat) : ∀ {a : UInt64}, readBytes sp m a n ≠ .spent := by
  induction n with
  | zero => exact nofun
  | succ n ih =>
      exact bind_ne_spent deref_ne_spent fun _ _ => bind_ne_spent ih fun _ _ => nofun

theorem loadDesc_ne_spent {i : Nat} : loadDesc sp m desc i ≠ .spent :=
  bind_ne_spent deref_ne_spent fun _ _ => bind_ne_spent require_ne_spent fun _ _ => nofun

theorem loadAvailIdx_ne_spent {p : UInt64} : loadAvailIdx sp m p ≠ .spent :=
  bind_ne_spent deref_ne_spent fun _ _ => nofun

theorem loadAvailRing_ne_spent {p : UInt64} {i : Nat} : loadAvailRing sp m p i ≠ .spent :=
  bind_ne_spent deref_ne_spent fun _ _ => bind_ne_spent require_ne_spent fun _ _ => nofun

theorem copyTurn_ne_spent (s : CopyLoop) : copyTurn sp t desc m s ≠ .spent := by
  refine bind_ne_spent loadDesc_ne_spent fun d _ => ?_
  dsimp only
  split
  · refine bind_ne_spent require_ne_spent fun _ _ =>
      bind_ne_spent (readBytes_ne_spent _) fun _ _ => ?_
    split
    · intro hspent
      cases hspent
    · intro hspent
      cases hspent
  · intro hspent
    cases hspent

/-! ### The copy loop -/

/-- Descriptor `i` has no bytes, and `j` is the next one. -/
def EmptyLink (sp : AddrSpace) (desc : UInt64) (m : Mem) (i j : Nat) : Prop :=
  ∃ d, loadDesc sp m desc i = .ret d ∧ d.len = 0 ∧ d.flags &&& virtioDescFNext ≠ 0 ∧
    d.next.toNat = j

/-- No walk from `head` comes to a cycle of empty descriptors. -/
def NoEmptyCycle (sp : AddrSpace) (t : VringTable κ) (desc : UInt64) (m : Mem) (head : Nat) :
    Prop :=
  ∀ l p, Walk sp t desc m head l p → ¬ Relation.TransGen (EmptyLink sp desc m) p.i p.i

section Loop
variable {head : Nat} {l : List VringDesc} {s : CopyLoop}

/-- A state whose place is on a cycle of empty descriptors. -/
theorem not_acc_of_cycle (hs : CopyState s)
    (hcycle : Relation.TransGen (EmptyLink sp desc m) s.i s.i) :
    ¬ Acc (Turn (copyTurn sp t desc m)) s := by
  intro hacc
  induction hacc with
  | intro s _ ih =>
      obtain ⟨j, ⟨d, hd, hlen, hflag, rfl⟩, hback⟩ := Relation.TransGen.head'_iff.mp hcycle
      have hzero : d.len.toNat = 0 := congrArg UInt32.toNat hlen
      have hstep : WalkStep sp t desc m ⟨s.i, s.len.toNat⟩ d ⟨d.next.toNat, s.len.toNat⟩ :=
        ⟨hd, by rw [hzero]; exact hs.len, fun k hk => absurd hk (by rw [hzero]; exact nofun), hflag,
          by rw [hzero]; rfl⟩
      obtain ⟨s', hcopy, heq⟩ := hstep.copy hs
      have hi : d.next.toNat = s'.i := congrArg WalkPoint.i heq
      refine ih s' hcopy.turn (hcopy.walk hs).1 ?_
      rw [← hi]
      exact .tail' hback ⟨d, hd, hlen, hflag, rfl⟩

/-- An endless loop comes back to where it was, without having copied anything. -/
theorem exists_cycle {f : Nat → CopyLoop} (h0 : f 0 = ⟨head, 0, []⟩)
    (hturn : ∀ n, Turn (copyTurn sp t desc m) (f (n + 1)) (f n)) :
    ∃ l n, CopyRun sp t desc m head l (f n) ∧
      Relation.TransGen (EmptyLink sp desc m) (f n).i (f n).i := by
  have hload : ∀ n, ∃ d, CopyStep sp t desc m (f n) d (f (n + 1)) := by
    intro n
    obtain ⟨d, hd, _⟩ := bind_eq_ret.mp (hturn n)
    exact ⟨d, hd, hturn n⟩
  have hrun : ∀ n, ∃ l, CopyRun sp t desc m head l (f n) := by
    intro n
    induction n with
    | zero => exact ⟨[], h0 ▸ .nil⟩
    | succ n ih =>
        obtain ⟨l, hl⟩ := ih
        obtain ⟨d, hd⟩ := hload n
        exact ⟨l ++ [d], .snoc hl hd⟩
  have hstate : ∀ n, CopyState (f n) := fun n => (copyRun_walk (hrun n).choose_spec).1
  -- each turn takes the walk one descriptor further
  have hwalk : ∀ n, ∃ d, WalkStep sp t desc m ⟨(f n).i, (f n).len.toNat⟩ d
      ⟨(f (n + 1)).i, (f (n + 1)).len.toNat⟩ := fun n =>
    ⟨_, ((hload n).choose_spec.walk (hstate n)).2⟩
  have hindex : ∀ n, (f n).i < vhostVringSize := fun n =>
    (loadDesc_ret (hload n).choose_spec.load).choose_spec.2.1
  have hmono : Monotone fun n => (f n).len.toNat := monotone_nat_of_le_succ fun n => by
    obtain ⟨d, hd⟩ := hwalk n
    have hlen := congrArg WalkPoint.len hd.eq
    dsimp only at hlen
    omega
  obtain ⟨a, b, hab, heq⟩ := exists_recurrence fun n =>
    ((⟨(f n).i, hindex n⟩, ⟨(f n).len.toNat, (hstate n).len⟩) :
      Fin vhostVringSize × Fin ethPacketSize)
  have hi : (f a).i = (f b).i := congrArg (·.1.val) heq
  have hlen : (f a).len.toNat = (f b).len.toNat := congrArg (·.2.val) heq
  have hlink : ∀ n, a ≤ n → n < b → EmptyLink sp desc m (f n).i (f (n + 1)).i := by
    intro n hn hnb
    obtain ⟨d, hd⟩ := hwalk n
    have hnext := congrArg WalkPoint.len hd.eq
    have hlow : (f a).len.toNat ≤ (f n).len.toNat := hmono hn
    have hhigh : (f (n + 1)).len.toNat ≤ (f b).len.toNat := hmono hnb
    dsimp only at hnext
    have hzero : d.len.toNat = 0 := by omega
    exact ⟨d, hd.load, UInt32.toNat_inj.mp hzero, hd.flag, (congrArg WalkPoint.i hd.eq).symm⟩
  have hchain : ∀ k, a + (k + 1) ≤ b →
      Relation.TransGen (EmptyLink sp desc m) (f a).i (f (a + (k + 1))).i := by
    intro k
    induction k with
    | zero => exact fun hk => .single (hlink a (Nat.le_refl a) hk)
    | succ k ih => exact fun hk => (ih (by omega)).tail (hlink _ (by omega) (by omega))
  obtain ⟨k, rfl⟩ : ∃ k, b = a + (k + 1) := ⟨b - a - 1, by omega⟩
  obtain ⟨l, hl⟩ := hrun a
  refine ⟨l, a, hl, ?_⟩
  have hcycle := hchain k (Nat.le_refl _)
  rwa [← hi] at hcycle

/-- **The copy loop ends** if and only if it comes to no cycle of empty descriptors. -/
theorem copyLoop_ends_iff (head : Nat) :
    (∃ fuel, Outcome.loop (copyTurn sp t desc m) fuel ⟨head, 0, []⟩ ≠ .spent) ↔
      NoEmptyCycle sp t desc m head := by
  rw [loop_ends_iff_acc copyTurn_ne_spent]
  constructor
  · intro hacc l p hwalk hcycle
    obtain ⟨s, hrun, rfl⟩ := walk_copyRun hwalk
    have hreached : Acc (Turn (copyTurn sp t desc m)) s :=
      Transition.Run.preserves (I := Acc (Turn (copyTurn sp t desc m)))
        (fun _ _ _ ha hstep => ha.inv hstep.turn) hacc hrun
    exact not_acc_of_cycle (copyRun_walk hrun).1 hcycle hreached
  · intro h
    refine not_not.mp fun hacc => ?_
    obtain ⟨f, h0, hturn⟩ := exists_turns_of_not_acc hacc
    obtain ⟨l, n, hrun, hcycle⟩ := exists_cycle h0 hturn
    exact h l _ (copyRun_walk hrun).2 hcycle

end Loop

/-! ### The loop of `process_avail_vring` -/

theorem storeUsedElem_ne_spent {p : UInt64} {k : Nat} {e : VringUsedElem} :
    storeUsedElem sp m p k e ≠ .spent :=
  bind_ne_spent deref_ne_spent fun _ _ => bind_ne_spent require_ne_spent fun _ _ => nofun

theorem consumePacket_ne_spent {c : CopyLoop} : consumePacket t m c ≠ .spent := by
  unfold consumePacket
  split
  · exact nofun
  · exact bind_ne_spent require_ne_spent fun _ _ => nofun

/-- The next entry that the loop handles names the descriptor `d`. -/
structure NextHead (sp : AddrSpace) (i : RingIdx) (s : AvailLoop κ) (d : UInt16) : Prop where
  pending : ∃ idx, loadAvailIdx sp s.mem (s.table.vring i).avail = .ret idx ∧
    (s.table.vring i).lastAvailIdx ≠ idx
  num : (s.table.vring i).num ≠ 0
  head : loadAvailRing sp s.mem (s.table.vring i).avail s.aIdx.toNat = .ret d

section Avail
variable {i : RingIdx} {s s' : AvailLoop κ}

/-- A call of `_process_desc` goes on for ever only in its copy loop. -/
theorem processDesc_spent_iff {aIdx : UInt16} :
    processDesc sp fuel t i aIdx m = .spent ↔ (t.vring i).num ≠ 0 ∧
      ∃ d, loadAvailRing sp m (t.vring i).avail aIdx.toNat = .ret d ∧
        Outcome.loop (copyTurn sp t (t.vring i).desc m) fuel ⟨d.toNat, 0, []⟩ = .spent := by
  have hend : ∀ (d : UInt16) (c : CopyLoop), (if c.len = 0 then .ret ⟨-1, t, m, none⟩ else do
      let m' ← storeUsedElem sp m (t.vring i).used
        ((t.vring i).lastUsedIdx.toNat % (t.vring i).num.toNat) ⟨d.toUInt32, c.len⟩
      consumePacket t m' c) ≠ .spent := by
    intro d c
    split
    · exact nofun
    · exact bind_ne_spent storeUsedElem_ne_spent fun _ _ => consumePacket_ne_spent
  unfold processDesc
  rw [bind_eq_spent]
  constructor
  · rintro (h | ⟨_, hnum, h⟩)
    · exact absurd h require_ne_spent
    · refine ⟨require_eq_ret.mp hnum, ?_⟩
      rcases bind_eq_spent.mp h with h | ⟨d, hd, h⟩
      · exact absurd h loadAvailRing_ne_spent
      · rcases bind_eq_spent.mp h with h | ⟨c, _, h⟩
        · exact ⟨d, hd, h⟩
        · exact absurd h (hend d c)
  · rintro ⟨hnum, d, hd, h⟩
    exact .inr ⟨(), require_pos hnum _, bind_eq_spent.mpr (.inr ⟨d, hd,
      bind_eq_spent.mpr (.inl h)⟩)⟩

/-- A turn of the loop goes on for ever only in the copy loop of its entry. -/
theorem availBody_spent_iff :
    availBody sp fuel i s = .spent ↔ ∃ d, NextHead sp i s d ∧
      Outcome.loop (copyTurn sp s.table (s.table.vring i).desc s.mem) fuel ⟨d.toNat, 0, []⟩ =
        .spent := by
  constructor
  · intro h
    rcases bind_eq_spent.mp h with h | ⟨o, _, h⟩
    · rcases bind_eq_spent.mp h with h | ⟨idx, hidx, h⟩
      · exact absurd h loadAvailIdx_ne_spent
      · split at h
        · cases h
        · rename_i hne
          rcases bind_eq_spent.mp h with h | ⟨_, _, h⟩
          · obtain ⟨hnum, d, hd, hloop⟩ := processDesc_spent_iff.mp h
            exact ⟨d, ⟨⟨idx, hidx, hne⟩, hnum, hd⟩, hloop⟩
          · cases h
    · cases o with
      | none => cases h
      | some r => cases h
  · rintro ⟨d, ⟨⟨idx, hidx, hne⟩, hnum, hd⟩, hloop⟩
    have hdesc := processDesc_spent_iff.mpr ⟨hnum, d, hd, hloop⟩
    rw [availBody, availTurn, hidx, ret_bind, if_neg hne, hdesc]
    rfl

theorem processDesc_of_le {a b : Nat} (hab : a ≤ b) {aIdx : UInt16}
    (h : processDesc sp a t i aIdx m ≠ .spent) :
    processDesc sp b t i aIdx m = processDesc sp a t i aIdx m := by
  by_cases hnum : (t.vring i).num ≠ 0
  · cases hd : loadAvailRing sp m (t.vring i).avail aIdx.toNat with
    | spent => exact absurd hd loadAvailRing_ne_spent
    | fault e => simp only [processDesc, hd, fault_bind]
    | ret d =>
        have hloop : Outcome.loop (copyTurn sp t (t.vring i).desc m) a ⟨d.toNat, 0, []⟩ ≠ .spent :=
          fun hs => h (processDesc_spent_iff.mpr ⟨hnum, d, hd, hs⟩)
        simp only [processDesc, hd, ret_bind, loop_of_le hab hloop]
  · simp only [processDesc, require_neg hnum, fault_bind]

theorem availBody_mono : FuelMono fun fuel (s : AvailLoop κ) => availBody sp fuel i s := by
  intro a b s hab h
  show availBody sp b i s = availBody sp a i s
  simp only [availBody, availTurn, Outcome.bind_assoc]
  cases hidx : loadAvailIdx sp s.mem (s.table.vring i).avail with
  | spent => rfl
  | fault e => rfl
  | ret idx =>
      simp only [ret_bind]
      split
      · rfl
      · rename_i hne
        have hdesc : processDesc sp a s.table i s.aIdx s.mem ≠ .spent := fun hs => h <| by
          show availBody sp a i s = .spent
          rw [availBody, availTurn, hidx, ret_bind, if_neg hne, hs]
          rfl
        rw [processDesc_of_le hab hdesc]

/-- The number of entries that are left. -/
def AvailLoop.remaining (sp : AddrSpace) (i : RingIdx) (s : AvailLoop κ) : Nat :=
  match sp.resolve (s.table.vring i).avail with
  | none => 0
  | some A => ((s.mem.avail A).idx - (s.table.vring i).lastAvailIdx).toNat

/-- What the loop leaves alone. -/
structure ChainsKept (i : RingIdx) (s s' : AvailLoop κ) : Prop where
  desc : (s'.table.vring i).desc = (s.table.vring i).desc
  translate : ∀ a, s'.table.translate a = s.table.translate a
  table : s'.mem.desc = s.mem.desc

/-- What a turn that handled an entry has done. -/
theorem availBody_inl (h : NestedTurn (fun fuel => availBody sp fuel i) s s') :
    ChainsKept i s s' ∧ s'.remaining sp i < s.remaining sp i := by
  obtain ⟨fuel, h⟩ := h
  obtain ⟨o, hturn, h⟩ := bind_eq_ret.mp h
  cases o with
  | none => cases h
  | some r =>
      cases h
      obtain ⟨A, d, hA, hne, -, hframe, htable, hmem, -, -⟩ := availTurn_some hturn
      have hvring : r.table.vring i = (s.table.vring i).consumed := by
        rw [htable, VringTable.setVring_self]
      refine ⟨⟨?_, fun a => ?_, ?_⟩, ?_⟩
      · show (r.table.vring i).desc = _
        rw [hvring, Vring.consumed_desc]
      · show r.table.translate a = _
        rw [htable]
        exact hframe.translate a
      · show r.mem.desc = _
        rw [hmem, hframe.desc]
      · show AvailLoop.remaining sp i ⟨r.table, r.mem, _, _, _, _⟩ < s.remaining sp i
        simp only [AvailLoop.remaining, hvring, Vring.consumed_avail, hA, hmem, hframe.avail]
        exact Counter16.toNat_sub_succ_lt hne

theorem loadDesc_congr {m' : Mem} (hdesc : m'.desc = m.desc) (i : Nat) :
    loadDesc sp m' desc i = loadDesc sp m desc i := by
  simp only [loadDesc, hdesc]

/-- Walks depend on the descriptors and on what their addresses are translated to. -/
theorem walkStep_congr {t' : VringTable κ} {m' : Mem}
    (htr : ∀ a, t'.translate a = t.translate a) (hdesc : m'.desc = m.desc) :
    WalkStep sp t' desc m' = WalkStep sp t desc m := by
  have hload : ∀ i, loadDesc sp m' desc i = loadDesc sp m desc i := loadDesc_congr hdesc
  have hread : ∀ d, Readable sp t' d ↔ Readable sp t d := fun d => by
    simp only [Readable, htr]
  funext p d q
  refine propext ⟨fun h => ?_, fun h => ?_⟩
  · exact ⟨hload p.i ▸ h.load, h.fits, (hread d).mp h.readable, h.flag, h.eq⟩
  · exact ⟨(hload p.i).symm ▸ h.load, h.fits, (hread d).mpr h.readable, h.flag, h.eq⟩

/-- The loop leaves the chains alone. -/
theorem noEmptyCycle_congr {t' : VringTable κ} {m' : Mem} {head : Nat}
    (htr : ∀ a, t'.translate a = t.translate a) (hdesc : m'.desc = m.desc) :
    NoEmptyCycle sp t' desc m' head ↔ NoEmptyCycle sp t desc m head := by
  have hlink : EmptyLink sp desc m' = EmptyLink sp desc m := by
    funext i j
    simp only [EmptyLink, loadDesc_congr hdesc]
  rw [NoEmptyCycle, NoEmptyCycle, Walk, Walk, walkStep_congr htr hdesc, hlink]

theorem chainsKept_reached (h : Relation.ReflTransGen
    (NestedTurn fun fuel => availBody sp fuel i) s s') : ChainsKept i s s' := by
  induction h with
  | refl => exact ⟨rfl, fun _ => rfl, rfl⟩
  | tail _ hturn ih =>
      have hframe := (availBody_inl hturn).1
      exact ⟨hframe.desc.trans ih.desc, fun a => (hframe.translate a).trans (ih.translate a),
        hframe.table.trans ih.table⟩

end Avail

/-- A call of `process_avail_vring` comes to an entry that names the descriptor `d`, all
entries before it having been handled. -/
def ComesTo (sp : AddrSpace) (t : VringTable κ) (i : RingIdx) (m : Mem) (d : UInt16) : Prop :=
  ∃ a s, availEnter t i = .ret a ∧
    Relation.ReflTransGen (NestedTurn fun fuel => availBody sp fuel i) ⟨t, m, a, 0, [], []⟩ s ∧
    NextHead sp i s d

section Call
variable {i : RingIdx}

/-- A turn of the loop ends exactly if the copy loop of its entry does. -/
theorem availBody_ends_iff {s : AvailLoop κ} :
    (∃ fuel, availBody sp fuel i s ≠ .spent) ↔
      ∀ d, NextHead sp i s d → NoEmptyCycle sp s.table (s.table.vring i).desc s.mem d.toNat := by
  constructor
  · rintro ⟨fuel, h⟩ d hd
    rw [← copyLoop_ends_iff]
    exact ⟨fuel, fun hloop => h (availBody_spent_iff.mpr ⟨d, hd, hloop⟩)⟩
  · intro h
    by_cases hnext : ∃ d, NextHead sp i s d
    · obtain ⟨d, hd⟩ := hnext
      obtain ⟨fuel, hloop⟩ := (copyLoop_ends_iff d.toNat).mpr (h d hd)
      refine ⟨fuel, fun hs => hloop ?_⟩
      obtain ⟨d', hd', hspent⟩ := availBody_spent_iff.mp hs
      cases hd.head.symm.trans hd'.head
      exact hspent
    · refine ⟨0, fun hs => ?_⟩
      obtain ⟨d, hd, -⟩ := availBody_spent_iff.mp hs
      exact hnext ⟨d, hd⟩

theorem processAvailVring_spent_iff :
    processAvailVring sp fuel t i m = .spent ↔ ∃ a, availEnter t i = .ret a ∧
      Outcome.loop (availBody sp fuel i) availTurns ⟨t, m, a, 0, [], []⟩ = .spent := by
  unfold processAvailVring
  constructor
  · intro h
    rcases bind_eq_spent.mp h with h | ⟨a, ha, h⟩
    · exact absurd h (bind_ne_spent require_ne_spent fun _ _ => nofun)
    · rcases bind_eq_spent.mp h with h | ⟨s, _, h⟩
      · exact ⟨a, ha, h⟩
      · exact absurd h (bind_ne_spent (bind_ne_spent deref_ne_spent fun _ _ => nofun)
          fun _ _ => nofun)
  · rintro ⟨a, ha, h⟩
    exact bind_eq_spent.mpr (.inr ⟨a, ha, bind_eq_spent.mpr (.inl h)⟩)

theorem remaining_lt (s : AvailLoop κ) : s.remaining sp i < availTurns := by
  unfold AvailLoop.remaining
  split
  · decide
  · exact UInt16.toNat_lt _

/-- **A call of `process_avail_vring` ends** if and only if no entry that it comes to leads
to a cycle of empty descriptors. -/
theorem processAvailVring_ends_iff (t : VringTable κ) (i : RingIdx) (m : Mem) :
    (∃ fuel, processAvailVring sp fuel t i m ≠ .spent) ↔
      ∀ d, ComesTo sp t i m d → NoEmptyCycle sp t (t.vring i).desc m d.toNat := by
  cases henter : availEnter t i with
  | ret a =>
      have hloop : (∃ fuel, processAvailVring sp fuel t i m ≠ .spent) ↔ ∃ fuel,
          Outcome.loop (availBody sp fuel i) availTurns ⟨t, m, a, 0, [], []⟩ ≠ .spent := by
        refine exists_congr fun fuel => not_congr (processAvailVring_spent_iff.trans ?_)
        rw [henter]
        exact ⟨fun ⟨_, ha, h⟩ => by cases ha; exact h, fun h => ⟨a, rfl, h⟩⟩
      rw [hloop, loop_ends_iff_turns availBody_mono (fun h => (availBody_inl h).2)
        (remaining_lt _)]
      -- the chains are the same before every turn
      have hsame : ∀ {s d}, Relation.ReflTransGen (NestedTurn fun fuel => availBody sp fuel i)
          ⟨t, m, a, 0, [], []⟩ s →
          (NoEmptyCycle sp s.table (s.table.vring i).desc s.mem d ↔
            NoEmptyCycle sp t (t.vring i).desc m d) := fun hreach => by
        have hframe := chainsKept_reached hreach
        rw [hframe.desc]
        exact noEmptyCycle_congr hframe.translate hframe.table
      constructor
      · rintro h d ⟨a', s, ha', hreach, hd⟩
        cases henter.symm.trans ha'
        exact (hsame hreach).mp (availBody_ends_iff.mp (h s hreach) d hd)
      · exact fun h s hreach => availBody_ends_iff.mpr fun d hd =>
          (hsame hreach).mpr (h d ⟨a, s, henter, hreach, hd⟩)
  | fault e =>
      constructor
      · rintro - d ⟨a, s, ha, -⟩
        cases henter.symm.trans ha
      · refine fun _ => ⟨0, fun h => ?_⟩
        obtain ⟨a, ha, -⟩ := processAvailVring_spent_iff.mp h
        cases henter.symm.trans ha
  | spent => exact absurd henter (bind_ne_spent require_ne_spent fun _ _ => nofun)

end Call

/-- **Walking a chain ends**, from any head and for all entries of a call, exactly where no
cycle of empty descriptors is come to. -/
theorem walks_end_iff (sp : AddrSpace) (t : VringTable κ) (i : RingIdx) (m : Mem) :
    (∀ head, (∃ fuel, Outcome.loop (copyTurn sp t (t.vring i).desc m) fuel ⟨head, 0, []⟩ ≠ .spent) ↔
      NoEmptyCycle sp t (t.vring i).desc m head) ∧
    ((∃ fuel, processAvailVring sp fuel t i m ≠ .spent) ↔
      ∀ d, ComesTo sp t i m d → NoEmptyCycle sp t (t.vring i).desc m d.toNat) :=
  ⟨copyLoop_ends_iff, processAvailVring_ends_iff t i m⟩

/-- A descriptor of no bytes that is followed by itself. -/
def loopTable : Nat → VringDesc := fun _ => ⟨0, 0, virtioDescFNext, 0⟩

/-- The walk along it does not end. -/
theorem self_loop_walks_forever :
    ¬ ((∀ head, ∃ fuel, Outcome.loop (copyTurn bareSpace (bareTable 1 0) (.ofNat offsetofDesc)
        (tableMem loopTable)) fuel ⟨head, 0, []⟩ ≠ .spent) ∧
      ∃ fuel, processAvailVring bareSpace fuel (bareTable 1 0) rxIdx (tableMem loopTable) ≠
        .spent) := by
  rintro ⟨h, -⟩
  have hlink : EmptyLink bareSpace (.ofNat offsetofDesc) (tableMem loopTable) 0 0 :=
    ⟨_, loadDesc_tableMem (by decide), rfl, by decide, rfl⟩
  exact (copyLoop_ends_iff 0).mp (h 0) [] _ .nil (.single hlink)

end Vapp
