import Vapp.Translation
import Vapp.ServerPackets
import Vapp.Library.Releases

/-! # The mappings of the server process

`map_shm` is called for every region that a memory table brings, and `unmap_shm` only when the
server ends, for the entries of the last table.  Over a whole run the mappings and the table
are those of the memory tables that were received.
-/
namespace Vapp

/-- The calls of `munmap` that `end_vhost_server` makes, with their two arguments. -/
def endVhostServer (w : World) : List (UInt64 × UInt64) :=
  (List.range w.context.memory.nregions.toNat).map fun idx =>
    let region := w.context.memory.regions idx
    (region.userspaceAddr, region.memorySize)

/-- The two arguments that unmap a mapping. -/
def Mapping.range (mp : Mapping) : UInt64 × UInt64 := (mp.start, mp.length)

/-- The calls of `munmap` give back each mapping that `map_shm` has made, once. -/
def Unmaps (w : World) : Prop := Releases (w.space.map Mapping.range) (endVhostServer w)

/-! ### The memory tables of a run -/

/-- A memory table, and what `map_shm` returns for its regions. -/
abbrev Table := ServerMsg × (Nat → Option MapResult)

namespace Table

/-- The table of the server after another one has been received. -/
def onto (old : VhostServerMemory) (t : Table) : VhostServerMemory :=
  t.1.tableOver old.regions (startOf t.2) t.1.msg.payload.nregions.toNat

/-- The mappings of its regions. -/
def mappings (t : Table) : AddrSpace := t.1.mappings t.2 t.1.msg.payload.nregions.toNat

end Table

/-- The memory table that an event brings to the server, if any. -/
def Event.table (w : World) : Event → Option Table
  | .message sock msg maps =>
      if w.server.fdList.Registered sock .receiveSockServer ∧
          VhostUserRequest.ofWord msg.msg.request = some .setMemTable then
        some (msg, maps)
      else
        none
  | _ => none

/-- The memory tables that some events bring. -/
def tablesOf (fuel : Nat) : World → List Event → List Table
  | _, [] => []
  | w, e :: es =>
      (e.table w).toList ++
        match (exec fuel w e).out with
        | .ret w' => tablesOf fuel w' es
        | _ => []

/-- The table that some memory tables leave. -/
def lastTable (tables : List Table) (old : VhostServerMemory) : VhostServerMemory :=
  tables.foldl Table.onto old

/-- All mappings that are made for some memory tables, the last ones first. -/
def allMappings (tables : List Table) : AddrSpace := tables.reverse.flatMap Table.mappings

/-- The addresses and sizes that the peer has given for the regions counted in the last table
are the addresses and sizes of all mappings of the run. -/
def Matching (tables : List Table) : Prop :=
  let memory := lastTable tables ⟨0, fun _ => ⟨0, 0, 0, 0⟩⟩
  (memory.list.map fun r => (r.userspaceAddr, r.memorySize)).Perm
    ((allMappings tables).map Mapping.range)

section Steps
variable {fuel : Nat} {w w' : World} {maps : Nat → Option MapResult} {msg msg' : ServerMsg}
  {r : Int}

/-- The parts of the state that only a memory table changes. -/
structure SameMaps (w w' : World) : Prop where
  handlers : w'.server.table.handlers = w.server.table.handlers
  memory : w'.context.memory = w.context.memory
  space : w'.space = w.space

theorem SameMaps.refl (w : World) : SameMaps w w := ⟨rfl, rfl, rfl⟩

theorem SameMaps.trans {w'' : World} (h : SameMaps w w') (h' : SameMaps w' w'') :
    SameMaps w w'' :=
  ⟨h'.handlers.trans h.handlers, h'.memory.trans h.memory, h'.space.trans h.space⟩

/-- The handler of packets leaves the table alone. -/
theorem handlerKeeps_memory (memory : VhostServerMemory) :
    HandlerKeeps (fun c => c.memory = memory) serverHandlers := by
  rintro hd hhd ctx c hctx _ _
  cases hhd
  exact hctx

theorem pollAvailVring_sameMaps {i : RingIdx} (hhd : w.server.table.handlers = serverHandlers)
    (h : (pollAvailVring fuel w i).out = .ret w') : SameMaps w w' := by
  rcases pollAvailVring_cases h with ⟨_, s, hs, rfl⟩ | ⟨_, rfl⟩
  · have hkeeps : HandlerKeeps (fun c => c.memory = w.context.memory) w.server.table.handlers :=
      hhd ▸ handlerKeeps_memory w.context.memory
    obtain ⟨hhandlers, hmemory⟩ := processAvailVring_context hkeeps hs rfl
    exact ⟨hhandlers, hmemory, rfl⟩
  · exact .refl _

theorem pollRx_sameMaps (h : (pollRx w).out = .ret w') : SameMaps w w' := by
  rcases pollRx_cases h with ⟨_, r, t, m, hput, rfl⟩ | ⟨_, rfl⟩
  · rcases putVring_ret hput with ⟨_, rfl, _⟩ | ⟨_, _, _, _, _, _, _, rfl, _⟩
    · exact ⟨rfl, rfl, rfl⟩
    · exact ⟨rfl, rfl, rfl⟩
  · exact .refl _

theorem pollServer_sameMaps (hhd : w.server.table.handlers = serverHandlers)
    (h : (pollServer fuel w).out = .ret w') : SameMaps w w' := by
  rcases pollServer_cases h with ⟨_, w1, h1, h2⟩ | ⟨_, rfl⟩
  · rcases pollTx_cases h1 with ⟨_, h1⟩ | ⟨_, rfl⟩
    · exact (pollAvailVring_sameMaps hhd h1).trans (pollRx_sameMaps h2)
    · exact pollRx_sameMaps h2
  · exact .refl _

/-- A message that brings no memory table. -/
theorem msgHandler_sameMaps {req : VhostUserRequest} (htable : req ≠ .setMemTable)
    (h : (msgHandler maps req w msg).out = .ret (r, msg', w')) : SameMaps w w' := by
  cases msgHandler_cases h with
  | table _ => exact absurd rfl htable
  | num _ | addr _ _ | base _ => exact ⟨rfl, rfl, rfl⟩
  | @kick i validfd _ _ =>
      cases validfd with
      | false => exact ⟨rfl, rfl, rfl⟩
      | true =>
          rw [if_pos rfl, setKick_some]
          exact ⟨rfl, rfl, rfl⟩
  | @call i validfd _ _ =>
      cases validfd with
      | false => exact .refl _
      | true => exact ⟨rfl, rfl, rfl⟩
  | answered _ | ignored _ => exact .refl _

/-- **What an event does to the table and to the mappings.** -/
theorem exec_maps {e : Event} (hhd : w.server.table.handlers = serverHandlers)
    (h : (exec fuel w e).out = .ret w') :
    w'.server.table.handlers = serverHandlers ∧
      w'.context.memory = lastTable (e.table w).toList w.context.memory ∧
      w'.space = allMappings (e.table w).toList ++ w.space := by
  have hsame (hs : SameMaps w w') (hnone : e.table w = none) :
      w'.server.table.handlers = serverHandlers ∧
        w'.context.memory = lastTable (e.table w).toList w.context.memory ∧
        w'.space = allMappings (e.table w).toList ++ w.space := by
    rw [hnone]
    exact ⟨hs.handlers.trans hhd, hs.memory, hs.space⟩
  cases exec_cases h with
  | accept _ | hangup _ | peer => exact hsame ⟨rfl, rfl, rfl⟩ rfl
  | notListening _ | unreadHangup _ | unreadKick _ => exact hsame (.refl _) rfl
  | unreadMessage hreg => exact hsame (.refl _) (if_neg fun hr => hreg hr.1)
  | @message sock msg msg' maps r w' hreg hmsg =>
      obtain ⟨req, -, hreq, hout⟩ := inMsgServer_cases hmsg
      by_cases htable : req = .setMemTable
      · subst htable
        have hsome : Event.table w (.message sock msg maps) = some (msg, maps) :=
          if_pos ⟨hreg, hreq⟩
        rw [hsome]
        have hout : (setMemTable maps w msg).out = .ret (r, msg', w') := hout
        rcases setMemTable_cases w msg maps with ⟨-, hend⟩ | ⟨-, ⟨-, hend⟩ | ⟨-, hend⟩⟩
        · rw [hend] at hout
          cases hout
        · rw [hend] at hout
          cases hout
          exact ⟨hhd, rfl, by simp [allMappings, Table.mappings]⟩
        · rw [hend] at hout
          cases hout
      · refine hsame (msgHandler_sameMaps htable hout) (if_neg fun hr => htable ?_)
        exact Option.some.inj (hreq.symm.trans hr.2)
  | kick _ hkick =>
      refine hsame ?_ rfl
      rcases kickServer_cases hkick with ⟨_, rfl⟩ | ⟨_, rfl⟩ | ⟨_, hpoll⟩
      · exact .refl _
      · exact ⟨rfl, rfl, rfl⟩
      · exact pollAvailVring_sameMaps hhd hpoll
  | poll hpoll => exact hsame (pollServer_sameMaps hhd hpoll) rfl

/-- **What a run does to them.** -/
theorem execAll_maps (es : List Event) : ∀ {w w' : World},
    w.server.table.handlers = serverHandlers → (execAll fuel w es).out = .ret w' →
      w'.context.memory = lastTable (tablesOf fuel w es) w.context.memory ∧
      w'.space = allMappings (tablesOf fuel w es) ++ w.space := by
  induction es with
  | nil =>
      intro w w' _ h
      cases h
      exact ⟨rfl, rfl⟩
  | cons e es ih =>
      intro w w' hhd h
      obtain ⟨w1, h1, h2⟩ := Traced.bind_out_eq_ret.mp h
      obtain ⟨hhd1, hmemory1, hspace1⟩ := exec_maps hhd h1
      obtain ⟨hmemory, hspace⟩ := ih hhd1 h2
      rw [tablesOf, h1, hmemory, hspace, hmemory1, hspace1]
      constructor
      · exact (List.foldl_append ..).symm
      · simp [allMappings, List.flatMap_append]

end Steps

/-- **The mappings are balanced** over the life of a server if and only if the peer has given
the addresses that the server's own mappings got. -/
theorem mappings_balanced_iff {fuel : Nat} {sock : Int} {isListen : Bool} {mem : Mem}
    {es : List Event} {w : World}
    (h : (execAll fuel ⟨newVhostServer sock isListen, [], mem⟩ es).out = .ret w) :
    Unmaps w ↔ Matching (tablesOf fuel ⟨newVhostServer sock isListen, [], mem⟩ es) := by
  obtain ⟨hmemory, hspace⟩ := execAll_maps es rfl h
  rw [List.append_nil] at hspace
  have hcalls : endVhostServer w =
      w.context.memory.list.map fun r => (r.userspaceAddr, r.memorySize) := by
    rw [endVhostServer, VhostServerMemory.list, List.map_map]
    rfl
  rw [Unmaps, releases_iff_perm, hcalls, hmemory, hspace]
  rfl

/-- A connection is accepted, and one memory table comes. -/
def tableEvents (r : VhostUserMemoryRegion) : List Event :=
  [.accept 4, .message 4 (oneRegionMsg r) fun _ => some someMap]

/-- Where the peer has its page at the address where the server maps it, the mapping is
given back. -/
theorem mappings_balanced_iff_same :
    ∃ w, (execAll 0 ⟨newVhostServer 3 true, [], Mem.zero⟩
        (tableEvents { pageRegion with userspaceAddr := someMap.addr })).out = .ret w ∧
      Unmaps w := by
  have hret : ∃ w, (execAll 0 ⟨newVhostServer 3 true, [], Mem.zero⟩
      (tableEvents { pageRegion with userspaceAddr := someMap.addr })).out = .ret w := ⟨_, rfl⟩
  obtain ⟨w, hw⟩ := hret
  refine ⟨w, hw, (mappings_balanced_iff hw).mpr ?_⟩
  rw [Matching]
  decide +kernel

/-- Otherwise `munmap` is called with an address of the peer, and the mapping stays. -/
theorem page_never_unmapped :
    ∃ w, (execAll 0 ⟨newVhostServer 3 true, [], Mem.zero⟩ (tableEvents pageRegion)).out = .ret w ∧
      ¬ Unmaps w := by
  refine ⟨_, rfl, fun h => ?_⟩
  have hmem := h.1
  revert hmem
  decide +kernel

end Vapp
