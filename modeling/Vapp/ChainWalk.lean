import Mathlib.Logic.Relation
import Vapp.UsedReturn
import Vapp.Library.Transition

/-! # The walk of the copy loop

The chain that the peer has written need not end, and its lengths are any 32-bit words.
`Walk` follows it in unbounded numbers while what it meets fits and can be read; the copy
loop of `_process_desc` comes to the same descriptors, with the same number of bytes.
-/
namespace Vapp

variable {κ : Type} (sp : AddrSpace) (t : VringTable κ) (desc : UInt64) (m : Mem)

/-- A place on a walk: the index it has come to, and the number of bytes behind it. -/
structure WalkPoint where
  i : Nat
  len : Nat
  deriving DecidableEq, Repr

/-- All bytes of the buffer of a descriptor can be read. -/
def Readable (d : VringDesc) : Prop :=
  ∀ k, k < d.len.toNat → (sp.resolve (t.translate d.addr + .ofNat k)).isSome

/-- The walk goes on behind the descriptor `d`. -/
structure WalkStep (p : WalkPoint) (d : VringDesc) (q : WalkPoint) : Prop where
  load : loadDesc sp m desc p.i = .ret d
  fits : p.len + d.len.toNat < ethPacketSize
  readable : Readable sp t d
  flag : d.flags &&& virtioDescFNext ≠ 0
  eq : q = ⟨d.next.toNat, p.len + d.len.toNat⟩

/-- The walk from the descriptor `head` along the descriptors `l`. -/
abbrev Walk (head : Nat) : List VringDesc → WalkPoint → Prop :=
  Transition.Run (WalkStep sp t desc m) ⟨head, 0⟩

/-- A turn of the copy loop that copies the buffer of `d` and asks for another turn. -/
structure CopyStep (s : CopyLoop) (d : VringDesc) (s' : CopyLoop) : Prop where
  load : loadDesc sp m desc s.i = .ret d
  turn : copyTurn sp t desc m s = .ret (.inl s')

/-- The turns of the copy loop from the descriptor `head` on, and what they have copied. -/
abbrev CopyRun (head : Nat) : List VringDesc → CopyLoop → Prop :=
  Transition.Run (CopyStep sp t desc m) ⟨head, 0, []⟩

section Walks
variable {sp t desc m} {head : Nat} {l : List VringDesc} {p : WalkPoint} {s s' : CopyLoop}
  {d : VringDesc}

/-- What the copy loop keeps. -/
structure CopyState (s : CopyLoop) : Prop where
  len : s.len.toNat < ethPacketSize
  buf : s.buf.length = s.len.toNat

theorem totalLen_concat (l : List VringDesc) (d : VringDesc) :
    totalLen (l ++ [d]) = totalLen l + d.len.toNat := by
  rw [totalLen, List.map_append, List.sum_append]
  rfl

/-- The number of bytes on a walk is the sum of the lengths. -/
theorem walk_len (h : Walk sp t desc m head l p) : p.len = totalLen l := by
  induction h with
  | nil => rfl
  | snoc _ hs ih => rw [totalLen_concat, hs.eq, ← ih]

/-- **One turn of the copy loop**, by the descriptor it looks at. -/
theorem copyTurn_of_desc (hs : CopyState s) (hd : loadDesc sp m desc s.i = .ret d) :
    copyTurn sp t desc m s =
      if s.len.toNat + d.len.toNat < ethPacketSize then do
        let bytes ← readBytes sp m (t.translate d.addr) d.len.toNat
        let len : UInt32 := .ofNat (s.len.toNat + d.len.toNat)
        if d.flags &&& virtioDescFNext ≠ 0 then
          .ret (.inl ⟨d.next.toNat, len, s.buf ++ bytes⟩)
        else
          .ret (.inr ⟨s.i, len, s.buf ++ bytes⟩)
      else if s.len.toNat + d.len.toNat < 2 ^ 32 then
        .ret (.inr s)
      else
        .fault (.bufOverflow s.len.toNat d.len.toNat) := by
  obtain ⟨D, hD, hi, rfl⟩ := loadDesc_ret hd
  have hturn := copyTurn_eq (t := t) (m := m) hD hi hs.len hs.buf
  rwa [UInt32.ofNat_toNat] at hturn

/-- A sum that stays within the size of a packet. -/
theorem toNat_len {n : Nat} (h : n < ethPacketSize) : (UInt32.ofNat n).toNat = n :=
  UInt32.toNat_ofNat_of_lt' (Nat.lt_trans h (by decide))

/-- What a turn that asks for another one has done. -/
theorem copyTurn_inl (hs : CopyState s) (hd : loadDesc sp m desc s.i = .ret d)
    (h : copyTurn sp t desc m s = .ret (.inl s')) :
    s.len.toNat + d.len.toNat < ethPacketSize ∧ d.flags &&& virtioDescFNext ≠ 0 ∧
      ∃ bytes, readBytes sp m (t.translate d.addr) d.len.toNat = .ret bytes ∧
        s' = ⟨d.next.toNat, .ofNat (s.len.toNat + d.len.toNat), s.buf ++ bytes⟩ := by
  rw [copyTurn_of_desc hs hd] at h
  split at h
  · rename_i hfit
    obtain ⟨bytes, hbytes, h⟩ := Outcome.bind_eq_ret.mp h
    dsimp only at h
    split at h
    · rename_i hflag
      cases h
      exact ⟨hfit, hflag, bytes, hbytes, rfl⟩
    · cases h
  · split at h
    · cases h
    · cases h

/-- The turn before such a step: the pure walk takes it too. -/
theorem CopyStep.walk (hs : CopyState s) (h : CopyStep sp t desc m s d s') :
    CopyState s' ∧ WalkStep sp t desc m ⟨s.i, s.len.toNat⟩ d ⟨s'.i, s'.len.toNat⟩ := by
  obtain ⟨hfit, hflag, bytes, hbytes, rfl⟩ := copyTurn_inl hs h.load h.turn
  have hlen := toNat_len hfit
  refine ⟨⟨by rw [hlen]; exact hfit, ?_⟩, h.load, hfit,
    readBytes_returns_iff.mp ⟨bytes, hbytes⟩, hflag, by rw [hlen]⟩
  rw [List.length_append, hs.buf, length_of_readBytes hbytes, hlen]

/-- A step of the pure walk is taken by the copy loop. -/
theorem WalkStep.copy (hs : CopyState s) {q : WalkPoint}
    (h : WalkStep sp t desc m ⟨s.i, s.len.toNat⟩ d q) :
    ∃ s', CopyStep sp t desc m s d s' ∧ q = ⟨s'.i, s'.len.toNat⟩ := by
  obtain ⟨bytes, hbytes⟩ := (readBytes_returns_iff (m := m)).mpr h.readable
  refine ⟨⟨d.next.toNat, .ofNat (s.len.toNat + d.len.toNat), s.buf ++ bytes⟩, ⟨h.load, ?_⟩, ?_⟩
  · rw [copyTurn_of_desc hs h.load, if_pos h.fits, hbytes, Outcome.ret_bind]
    exact if_pos h.flag
  · rw [h.eq, toNat_len h.fits]

/-- **The copy loop walks the chain.** -/
theorem copyRun_walk (h : CopyRun sp t desc m head l s) :
    CopyState s ∧ Walk sp t desc m head l ⟨s.i, s.len.toNat⟩ := by
  induction h with
  | nil => exact ⟨⟨show 0 < ethPacketSize by decide, rfl⟩, .nil⟩
  | snoc _ hs ih =>
      obtain ⟨hstate, hstep⟩ := hs.walk ih.1
      exact ⟨hstate, .snoc ih.2 hstep⟩

/-- Every walk is one of the copy loop. -/
theorem walk_copyRun (h : Walk sp t desc m head l p) :
    ∃ s, CopyRun sp t desc m head l s ∧ p = ⟨s.i, s.len.toNat⟩ := by
  induction h with
  | nil => exact ⟨_, .nil, rfl⟩
  | snoc _ hs ih =>
      obtain ⟨s, hrun, rfl⟩ := ih
      obtain ⟨s', hstep, heq⟩ := hs.copy (copyRun_walk hrun).1
      exact ⟨s', .snoc hrun hstep, heq⟩

end Walks

/-! ### What is copied stays inside the buffer -/

/-- Every copy of the loop from `head` on writes inside `buf`, and `len` is at all times the
sum of the lengths that were copied. -/
structure CopiesInside (head : Nat) : Prop where
  exact : ∀ l s, CopyRun sp t desc m head l s → s.len.toNat = totalLen l
  inside : ∀ l s d, CopyRun sp t desc m head l s → loadDesc sp m desc s.i = .ret d →
    s.len + d.len < .ofNat ethPacketSize → s.len.toNat + d.len.toNat ≤ ethPacketSize
  last : ∀ l s d r, CopyRun sp t desc m head l s → loadDesc sp m desc s.i = .ret d →
    copyTurn sp t desc m s = .ret (.inr r) →
    r.len.toNat = if s.len + d.len < .ofNat ethPacketSize then totalLen (l ++ [d]) else totalLen l

/-- No length that a walk from `head` comes to wraps the 32-bit sum. -/
def SumsFit (head : Nat) : Prop :=
  ∀ l p d, Walk sp t desc m head l p → loadDesc sp m desc p.i = .ret d →
    totalLen l + d.len.toNat < 2 ^ 32

section Inside
variable {sp t desc m}

/-- The test of the loop, in unbounded numbers. -/
theorem test_iff {a b : UInt32} (ha : a.toNat < ethPacketSize) :
    a + b < .ofNat ethPacketSize ↔
      a.toNat + b.toNat < ethPacketSize ∨ 2 ^ 32 ≤ a.toNat + b.toNat := by
  have hb := b.toNat_lt
  have hsize : ethPacketSize = 1518 := rfl
  rw [UInt32.lt_iff_toNat_lt, UInt32.toNat_add, toNat_ethPacketSize]
  omega

/-- **The packet copy stays inside its buffer** if and only if no sum on the walk wraps. -/
theorem copies_inside_iff (sp : AddrSpace) (t : VringTable κ) (desc : UInt64) (m : Mem)
    (head : Nat) : CopiesInside sp t desc m head ↔ SumsFit sp t desc m head := by
  have hsize : ethPacketSize = 1518 := rfl
  constructor
  · intro h l p d hwalk hd
    obtain ⟨s, hrun, rfl⟩ := walk_copyRun hwalk
    have hlen := (copyRun_walk hrun).1.len
    refine Nat.not_le.mp fun hwrap => ?_
    have hsum := h.exact l s hrun
    have hin := h.inside l s d hrun hd ((test_iff hlen).mpr (.inr (by omega)))
    omega
  · intro h
    have hsum : ∀ {l s}, CopyRun sp t desc m head l s → s.len.toNat = totalLen l :=
      fun hrun => walk_len (copyRun_walk hrun).2
    have hfit : ∀ {l s d}, CopyRun sp t desc m head l s → loadDesc sp m desc s.i = .ret d →
        (s.len + d.len < .ofNat ethPacketSize ↔ s.len.toNat + d.len.toNat < ethPacketSize) := by
      intro l s d hrun hd
      obtain ⟨hstate, hwalk⟩ := copyRun_walk hrun
      have hno := h l _ d hwalk hd
      rw [test_iff hstate.len, hsum hrun]
      omega
    refine ⟨fun l s => hsum, fun l s d hrun hd htest => ?_, fun l s d r hrun hd hturn => ?_⟩
    · exact Nat.le_of_lt ((hfit hrun hd).mp htest)
    · rw [copyTurn_of_desc (copyRun_walk hrun).1 hd] at hturn
      rw [totalLen_concat, ← hsum hrun]
      by_cases htest : s.len.toNat + d.len.toNat < ethPacketSize
      · rw [if_pos ((hfit hrun hd).mpr htest)]
        rw [if_pos htest] at hturn
        obtain ⟨bytes, -, hturn⟩ := Outcome.bind_eq_ret.mp hturn
        dsimp only at hturn
        split at hturn
        · cases hturn
        · cases hturn
          exact toNat_len htest
      · rw [if_neg fun hlt => htest ((hfit hrun hd).mp hlt)]
        rw [if_neg htest] at hturn
        split at hturn
        · cases hturn
          rfl
        · cases hturn

end Inside

/-- An object with the given descriptors, whose first entry names the first of them. -/
def tableMem (table : Nat → VringDesc) : Mem :=
  { Mem.zero with desc := fun _ => table, avail := fun _ => ⟨1, fun _ => 0⟩ }

theorem loadDesc_tableMem {table : Nat → VringDesc} {k : Nat} (hk : k < vhostVringSize) :
    loadDesc bareSpace (tableMem table) (.ofNat offsetofDesc) k = .ret (table k) :=
  loadDesc_of_resolve (bareSpace_resolve (by decide)) hk

/-- A chain whose lengths are 1 and `2 ^ 32 - 1`. -/
def wrappingTable (k : Nat) : VringDesc :=
  if k = 0 then ⟨0, 1, virtioDescFNext, 1⟩ else ⟨0, 0xffffffff, 0, 0⟩

/-- The second buffer looks as if it fitted, since the sum is 0 as a 32-bit word. -/
theorem copy_past_buffer :
    ¬ CopiesInside bareSpace (bareTable 1 0) (.ofNat offsetofDesc) (tableMem wrappingTable) 0 := by
  have hfirst : copyTurn bareSpace (bareTable 1 0) (.ofNat offsetofDesc) (tableMem wrappingTable)
      ⟨0, 0, []⟩ = .ret (.inl ⟨1, 1, [0]⟩) := by
    decide +kernel
  have hrun : CopyRun bareSpace (bareTable 1 0) (.ofNat offsetofDesc) (tableMem wrappingTable) 0
      [wrappingTable 0] ⟨1, 1, [0]⟩ :=
    .one ⟨loadDesc_tableMem (by decide), hfirst⟩
  intro h
  have hin := h.inside _ _ _ hrun (loadDesc_tableMem (by decide)) (by decide)
  revert hin
  decide

end Vapp
