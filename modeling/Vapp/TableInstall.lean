import Vapp.MemTable

/-! # What `_set_mem_table` leaves

`_set_mem_table` stores a region at its index in the message and counts the stored ones
separately.  One lemma says where its loop ends from any earlier table; what is installed,
and whether that is what was sent, follows from it.
-/
namespace Vapp

namespace ServerMsg
variable (msg : ServerMsg)

/-- The mapping of region `k`, if it is attempted and succeeds. -/
def mapping (maps : Nat → Option MapResult) (k : Nat) : Option Mapping :=
  if 0 < msg.fds k then
    (maps k).map fun r => ⟨r.addr, (msg.msg.payload.region k).memorySize, r.shm⟩
  else
    none

/-- The mappings that the first `n` turns make, the last one first. -/
def mappings (maps : Nat → Option MapResult) : Nat → AddrSpace
  | 0 => []
  | n + 1 => (msg.mapping maps n).toList ++ mappings maps n

/-- `assert(idx < msg->fd_num)` fails for region `k`. -/
def Unsent (k : Nat) : Prop := 0 < msg.fds k ∧ msg.fdNum ≤ k

instance (k : Nat) : Decidable (msg.Unsent k) := inferInstanceAs (Decidable (_ ∧ _))

end ServerMsg

/-- The state after the first `n` turns of the loop. -/
def World.tabled (w : World) (msg : ServerMsg) (maps : Nat → Option MapResult) (n : Nat) : World :=
  { w.setContext { w.context with
      memory := msg.tableOver w.context.memory.regions (startOf maps) n } with
    space := msg.mappings maps n ++ w.space }

section Loop
variable {w : World} {msg : ServerMsg} {maps : Nat → Option MapResult} {n : Nat}

@[simp] theorem tabled_memory : (w.tabled msg maps n).context.memory =
    msg.tableOver w.context.memory.regions (startOf maps) n := rfl

@[simp] theorem tabled_space : (w.tabled msg maps n).space = msg.mappings maps n ++ w.space := rfl

@[simp] theorem tabled_vring (i : RingIdx) : (w.tabled msg maps n).vring i = w.vring i := rfl

/-- The first statement of `_set_mem_table`. -/
theorem tabled_zero : w.tabled msg maps 0 =
    w.setContext { w.context with memory := { w.context.memory with nregions := 0 } } := by
  have hnone : ∀ k, ¬ (k < 0 ∧ 0 < msg.fds k) := fun k hk => Nat.not_lt_zero k hk.1
  have htable : msg.tableOver w.context.memory.regions (startOf maps) 0 =
      { w.context.memory with nregions := 0 } :=
    congrArg (VhostServerMemory.mk 0) (funext fun k => if_neg (hnone k))
  rw [World.tabled, htable]
  rfl

/-- One turn of the loop. -/
theorem setMemTableTurn_tabled (hn : n < vhostMemoryMaxNregions) :
    setMemTableTurn msg (maps n) n (w.tabled msg maps n) =
      if msg.Unsent n then .fault .assertion else .ret (w.tabled msg maps (n + 1)) := by
  rw [setMemTableTurn, Outcome.require_pos hn, Outcome.ret_bind]
  by_cases hfd : 0 < msg.fds n
  · rw [if_pos hfd]
    by_cases hsent : n < msg.fdNum
    · rw [Outcome.require_pos hsent, Outcome.ret_bind,
        if_neg fun hu => absurd hu.2 (Nat.not_le.mpr hsent), World.tabled, World.tabled,
        ServerMsg.mappings, ServerMsg.mapping, if_pos hfd, tableOver_succ_of_pos _ _ hfd,
        List.append_assoc]
      rfl
    · rw [Outcome.require_neg hsent, if_pos ⟨hfd, Nat.not_lt.mp hsent⟩]
      rfl
  · rw [if_neg hfd, if_neg fun hu => hfd hu.1, World.tabled, World.tabled, ServerMsg.mappings,
      ServerMsg.mapping, if_neg hfd, tableOver_succ_of_neg _ _ hfd]
    rfl

/-- **Where the loop ends**: at the first region whose descriptor was not sent, behind the
last region of the message, or past the arrays. -/
theorem setMemTableLoop_tabled (todo : Nat) : ∀ {n : Nat}, n ≤ vhostMemoryMaxNregions →
    ((∃ k, k < n + todo ∧ k < vhostMemoryMaxNregions ∧ msg.Unsent k) ∧
      setMemTableLoop msg maps todo n (w.tabled msg maps n) = .fault .assertion) ∨
    ((∀ k, n ≤ k → k < n + todo → k < vhostMemoryMaxNregions → ¬ msg.Unsent k) ∧
      ((n + todo ≤ vhostMemoryMaxNregions ∧
        setMemTableLoop msg maps todo n (w.tabled msg maps n) =
          .ret (w.tabled msg maps (n + todo))) ∨
      (vhostMemoryMaxNregions < n + todo ∧
        setMemTableLoop msg maps todo n (w.tabled msg maps n) =
          .fault (.subscript vhostMemoryMaxNregions)))) := by
  induction todo with
  | zero => exact fun {n} hn => .inr ⟨fun k hle hlt => by omega, .inl ⟨hn, rfl⟩⟩
  | succ todo ih =>
      intro n hn
      rw [setMemTableLoop]
      by_cases hlast : n = vhostMemoryMaxNregions
      · subst hlast
        refine .inr ⟨fun k hle _ hlt => by omega, .inr ⟨by omega, ?_⟩⟩
        rw [setMemTableTurn, Outcome.require_neg (Nat.lt_irrefl _)]
        rfl
      · have hlt : n < vhostMemoryMaxNregions := by omega
        rw [setMemTableTurn_tabled hlt]
        by_cases hu : msg.Unsent n
        · rw [if_pos hu]
          exact .inl ⟨⟨n, by omega, hlt, hu⟩, rfl⟩
        · have hnext : n + 1 + todo = n + (todo + 1) := by omega
          have hrest := ih (n := n + 1) hlt
          rw [hnext] at hrest
          rw [if_neg hu, Outcome.ret_bind]
          refine hrest.imp id (And.imp_left fun hall k hle hk hmax => ?_)
          by_cases hk' : k = n
          · rw [hk']
            exact hu
          · exact hall k (by omega) hk hmax

end Loop

section Call
variable {w : World} {msg : ServerMsg} {maps : Nat → Option MapResult}

/-- **All that a call of `_set_mem_table` can end in.** -/
theorem setMemTable_cases (w : World) (msg : ServerMsg) (maps : Nat → Option MapResult) :
    ((∃ k, k < msg.msg.payload.nregions.toNat ∧ k < vhostMemoryMaxNregions ∧ msg.Unsent k) ∧
      (setMemTable maps w msg).out = .fault .assertion) ∨
    ((∀ k, k < msg.msg.payload.nregions.toNat → k < vhostMemoryMaxNregions → ¬ msg.Unsent k) ∧
      ((msg.msg.payload.nregions.toNat ≤ vhostMemoryMaxNregions ∧
        (setMemTable maps w msg).out =
          .ret (0, msg, w.tabled msg maps msg.msg.payload.nregions.toNat)) ∨
      (vhostMemoryMaxNregions < msg.msg.payload.nregions.toNat ∧
        (setMemTable maps w msg).out = .fault (.subscript vhostMemoryMaxNregions)))) := by
  have hloop := @setMemTableLoop_tabled w msg maps msg.msg.payload.nregions.toNat 0 (Nat.zero_le _)
  rw [Nat.zero_add, tabled_zero] at hloop
  have hout {x : Run World} (h : setMemTableLoop msg maps msg.msg.payload.nregions.toNat 0
      (w.setContext { w.context with memory := { w.context.memory with nregions := 0 } }) = x) :
      (setMemTable maps w msg).out = x >>= fun w' => .ret (0, msg, w') := by
    rw [setMemTable, Traced.bind_out, Traced.lift_out, h]
    rfl
  rcases hloop with ⟨hbad, hend⟩ | ⟨hall, ⟨hle, hend⟩ | ⟨hlt, hend⟩⟩
  · exact .inl ⟨hbad, hout hend⟩
  · exact .inr ⟨fun k => hall k (Nat.zero_le k), .inl ⟨hle, hout hend⟩⟩
  · exact .inr ⟨fun k => hall k (Nat.zero_le k), .inr ⟨hlt, hout hend⟩⟩

end Call

/-! ### The table that was sent -/

/-- The regions of a table. -/
def VhostServerMemory.list (memory : VhostServerMemory) : List VhostServerMemoryRegion :=
  (List.range memory.nregions.toNat).map memory.regions

/-- The regions of a message that came with a descriptor, in order. -/
def ServerMsg.sent (msg : ServerMsg) (start : Nat → UInt64) : List VhostServerMemoryRegion :=
  ((List.range msg.msg.payload.nregions.toNat).filter fun k => k < msg.fdNum).map (msg.entry start)

/-- `_set_mem_table` installs what was sent, and stays inside the arrays. -/
structure InstallsExactly (maps : Nat → Option MapResult) (w : World) (msg : ServerMsg) : Prop where
  table : ∀ r msg' w', (setMemTable maps w msg).out = .ret (r, msg', w') →
    w'.context.memory.list = msg.sent (startOf maps)
  inside : ∀ k, (setMemTable maps w msg).out ≠ .fault (.subscript k)

/-- The descriptors of a message are where `_set_mem_table` looks for them: either an
assertion stops it, or there are no more regions than fit and no descriptor that came with
one has the number `0`. -/
def ServerMsg.InPlace (msg : ServerMsg) : Prop :=
  (∃ k, k < msg.msg.payload.nregions.toNat ∧ k < vhostMemoryMaxNregions ∧ msg.Unsent k) ∨
  (msg.msg.payload.nregions.toNat ≤ vhostMemoryMaxNregions ∧
    ∀ k, k < msg.msg.payload.nregions.toNat → k < msg.fdNum → 0 < msg.fds k)

theorem filter_lt_range (n f : Nat) :
    ((List.range n).filter fun k => k < f) = List.range (min n f) := by
  induction n with
  | zero => simp
  | succ n ih =>
      rw [List.range_succ, List.filter_append, ih]
      by_cases hlt : n < f
      · rw [Nat.min_eq_left (Nat.le_of_lt hlt), Nat.min_eq_left hlt, List.range_succ]
        simp [hlt]
      · rw [Nat.min_eq_right (Nat.not_lt.mp hlt), Nat.min_eq_right (by omega)]
        simp [hlt]

section Exact
variable {w : World} {msg : ServerMsg} {maps : Nat → Option MapResult}

theorem regionCount_toNat (msg : ServerMsg) {n : Nat} (hn : n < 2 ^ 32) :
    (msg.regionCount n).toNat =
      ((List.range n).filter fun k => decide (0 < msg.fds k)).length := by
  induction n with
  | zero => rfl
  | succ n ih =>
      have hle := List.length_filter_le (fun k => decide (0 < msg.fds k)) (List.range n)
      rw [List.length_range] at hle
      rw [List.range_succ, List.filter_append, List.length_append, ServerMsg.regionCount,
        ← ih (by omega)]
      rw [← ih (by omega)] at hle
      by_cases hfd : 0 < msg.fds n
      · rw [if_pos hfd, UInt32.toNat_add]
        simp [hfd]
        omega
      · rw [if_neg hfd]
        simp [hfd]

/-- Without a failing assertion the stored regions are some of those that were sent. -/
theorem filter_stored {n : Nat} (h : ∀ k, k < n → ¬ msg.Unsent k) :
    ((List.range n).filter fun k => decide (0 < msg.fds k)) =
      ((List.range n).filter fun k => k < msg.fdNum).filter fun k => decide (0 < msg.fds k) := by
  rw [List.filter_filter]
  refine List.filter_congr fun k hk => ?_
  have hsent := h k (List.mem_range.mp hk)
  by_cases hfd : 0 < msg.fds k
  · have : k < msg.fdNum := Nat.lt_of_not_le fun hle => hsent ⟨hfd, hle⟩
    simp [hfd, this]
  · simp [hfd]

/-- **`VHOST_USER_SET_MEM_TABLE` installs exactly the table it was sent** if and only if the
descriptors are where it looks for them. -/
theorem installs_exactly_iff (maps : Nat → Option MapResult) (w : World) (msg : ServerMsg) :
    InstallsExactly maps w msg ↔ msg.InPlace := by
  rcases setMemTable_cases w msg maps with ⟨hbad, hout⟩ | ⟨hall, ⟨hle, hout⟩ | ⟨hlt, hout⟩⟩
  · refine ⟨fun _ => .inl hbad, fun _ => ⟨fun r msg' w' h => ?_, fun k h => ?_⟩⟩
    · rw [hout] at h
      cases h
    · rw [hout] at h
      cases h
  · have hstored := filter_stored fun k hk => hall k hk (Nat.lt_of_lt_of_le hk hle)
    have hcount := regionCount_toNat msg (Nat.lt_of_le_of_lt hle (by decide))
    rw [hstored] at hcount
    have htable : ∀ r msg' w', (setMemTable maps w msg).out = .ret (r, msg', w') →
        w'.context.memory =
          msg.tableOver w.context.memory.regions (startOf maps)
            msg.msg.payload.nregions.toNat := by
      intro r msg' w' h
      rw [hout] at h
      cases h
      rfl
    constructor
    · intro h
      refine .inr ⟨hle, fun k hk hsent => ?_⟩
      have hlist := congrArg List.length (h.table _ _ _ hout)
      rw [tabled_memory, VhostServerMemory.list, ServerMsg.sent, List.length_map, List.length_map,
        List.length_range, ServerMsg.tableOver, hcount, List.length_filter_eq_length_iff] at hlist
      have hmem : k ∈ (List.range msg.msg.payload.nregions.toNat).filter fun k => k < msg.fdNum :=
        List.mem_filter.mpr ⟨List.mem_range.mpr hk, decide_eq_true hsent⟩
      exact of_decide_eq_true (hlist k hmem)
    · intro h
      have hpos : ∀ k, k < msg.msg.payload.nregions.toNat → k < msg.fdNum → 0 < msg.fds k := by
        rcases h with ⟨k, hk, hmax, hu⟩ | h
        · exact absurd hu (hall k hk hmax)
        · exact h.2
      refine ⟨fun r msg' w' hret => ?_, fun k hk => ?_⟩
      · rw [htable r msg' w' hret, VhostServerMemory.list, ServerMsg.sent, filter_lt_range]
        have hfull : (msg.regionCount msg.msg.payload.nregions.toNat).toNat =
            min msg.msg.payload.nregions.toNat msg.fdNum := by
          rw [hcount, filter_lt_range, List.filter_eq_self.mpr, List.length_range]
          intro k hk
          have hk := List.mem_range.mp hk
          exact decide_eq_true (hpos k (by omega) (by omega))
        rw [ServerMsg.tableOver, hfull]
        refine List.map_congr_left fun k hk => ?_
        have hk := List.mem_range.mp hk
        exact if_pos ⟨by omega, hpos k (by omega) (by omega)⟩
      · rw [hout] at hk
        cases hk
  · constructor
    · intro h
      exact absurd hout (h.inside _)
    · rintro (⟨k, hk, hmax, hu⟩ | ⟨hle, -⟩)
      · exact absurd hu (hall k hk hmax)
      · omega

end Exact

/-- A message with two regions, of whose descriptors the first one has the number `0`. -/
def gapMsg : ServerMsg where
  msg :=
    { request := VhostUserRequest.setMemTable.word
      flags := 1
      size := 72
      payload := ((Payload.setU32 (fun _ => 0) 0 2).setRegion 0 ⟨0, 0x1000, 0x10000, 0⟩).setRegion 1
        ⟨0x1000, 0x1000, 0x20000, 0⟩ }
  fdNum := 2
  fds k := if k = 1 then 5 else 0

/-- A mapping somewhere in the process. -/
def someMap : MapResult := ⟨0x7f0000000000, 1, by decide⟩

/-- Its second region is stored at index `1` but counted as the first, and the table that is
searched consists of an entry that was never written. -/
theorem table_has_gap :
    ¬ InstallsExactly (fun _ => some someMap) ⟨newVhostServer 3 true, [], Mem.zero⟩ gapMsg := by
  intro h
  have hlist := h.table 0 gapMsg _ rfl
  revert hlist
  decide +kernel

end Vapp
