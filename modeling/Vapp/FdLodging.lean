import Vapp.FdSystem
import Vapp.Library.SlotBag
import Vapp.Library.Lodging

/-! # Who is in the list of a listening server

The list has room for nine descriptors beside the listening socket.  Connections come and go;
the kick descriptors that they send stay, until one of them is read as closed.  So the list
is a house with guests and lodgers, and what it holds is a function of the events.
-/
namespace Vapp

open Lodging (State Label)

namespace FdList

/-- The registered descriptors, whatever their slots. -/
def entries (l : FdList) : Multiset FdNode := SlotTable.contents isFree l

section Entries
variable {l : FdList} {fd : Int} {k : FdHandler}

theorem mem_entries {node : FdNode} : node ∈ l.entries ↔ (∃ i, l i = node) ∧ node.fd ≠ -1 := by
  rw [entries, SlotTable.mem_contents, isFree, decide_eq_false_iff_not]

/-- `add_fd_list` adds the descriptor if a slot is free. -/
theorem entries_addFdList (hfd : fd ≠ -1) : (l.addFdList fd k).2.entries =
    if l.entries.card < fdListSize then ⟨fd, some k⟩ ::ₘ l.entries else l.entries := by
  rw [addFdList_snd]
  split
  · rename_i hroom
    exact SlotTable.contents_put (decide_eq_false hfd) hroom
  · rename_i hfull
    rw [SlotTable.put_of_full (Nat.le_of_not_lt hfull)]

/-- `del_fd_list` takes a descriptor out that is registered once. -/
theorem entries_delFdList (honce : SlotTable.Distinct FdNode.fd (-1) l)
    (hmem : ⟨fd, some k⟩ ∈ l.entries) :
    ⟨fd, some k⟩ ::ₘ (l.delFdList fd).2.entries = l.entries := by
  rw [delFdList_snd]
  exact SlotTable.contents_take honce (fun _ => rfl) hmem rfl

end Entries

end FdList

/-- The entry of a connection. -/
def connNode (sock : Int) : FdNode := ⟨sock, some .receiveSockServer⟩

/-- The entry of a kick descriptor. -/
def kickNode (fd : Int) : FdNode := ⟨fd, some .kickServer⟩

/-- Beside the listening socket `sock` the list holds the guests as connections and the
lodgers as kick descriptors, and its other slots are reset. -/
structure Lodges (sock : Int) (l : FdList) (s : State Int Int) : Prop where
  entries : l.entries = ⟨sock, some .acceptSockServer⟩ ::ₘ
    (s.guests.map connNode + (s.lodgers : Multiset Int).map kickNode)
  reset : ∀ i, (l i).fd = -1 → l i = resetFdNode

/-- The slots beside that of the listening socket. -/
def otherSlots : Nat := fdListSize - 1

/-- What an event is to the list. -/
def Event.door : Event → Option (Label Int Int)
  | .accept sock => some (.arrive sock)
  | .message sock msg _ => msg.kickFd.map (.bring sock)
  | .hangup sock => some (.leave sock)
  | .kick fd r => if r = 0 then some (.evict fd) else none
  | .poll | .peer _ => none

/-- Who is in the list after some events. -/
def lodging (es : List Event) : State Int Int :=
  Lodging.empty.afterAll otherSlots (es.filterMap Event.door)

/-- A slot of the list that `add_fd_list` leaves. -/
theorem reset_addFdList {l : FdList} {fd : Int} {k : FdHandler}
    (h : ∀ i, (l i).fd = -1 → l i = resetFdNode) (hfd : fd ≠ -1) :
    ∀ i, ((l.addFdList fd k).2 i).fd = -1 → (l.addFdList fd k).2 i = resetFdNode := by
  intro i hi
  rw [FdList.addFdList_snd] at hi ⊢
  rcases SlotTable.holds_before ⟨i, rfl⟩ with hnew | ⟨j, hj⟩
  · rw [hnew] at hi
    exact absurd hi hfd
  · rw [← hj] at hi ⊢
    exact h j hi

/-- A slot of the list that `del_fd_list` leaves. -/
theorem reset_delFdList {l : FdList} {fd : Int} (h : ∀ i, (l i).fd = -1 → l i = resetFdNode) :
    ∀ i, ((l.delFdList fd).2 i).fd = -1 → (l.delFdList fd).2 i = resetFdNode := by
  intro i hi
  rw [FdList.delFdList_snd] at hi ⊢
  rcases SlotTable.holds_before ⟨i, rfl⟩ with hnew | ⟨j, hj⟩
  · exact hnew
  · rw [← hj] at hi ⊢
    exact h j hi

namespace Lodges
variable {sock : Int} {l : FdList} {s : State Int Int} (h : Lodges sock l s)
include h

theorem card : l.entries.card = s.taken + 1 := by
  rw [h.entries, Multiset.card_cons, Multiset.card_add, Multiset.card_map, Multiset.card_map,
    Multiset.coe_card]
  rfl

/-- There is a free slot exactly if there is room. -/
theorem room_iff : l.entries.card < fdListSize ↔ s.taken < otherSlots := by
  rw [h.card]
  exact Nat.lt_sub_iff_add_lt.symm

theorem mem_iff {node : FdNode} : node ∈ l.entries ↔
    node = ⟨sock, some .acceptSockServer⟩ ∨ (∃ g ∈ s.guests, connNode g = node) ∨
      ∃ d ∈ s.lodgers, kickNode d = node := by
  rw [h.entries, Multiset.mem_cons, Multiset.mem_add, Multiset.mem_map, Multiset.mem_map]
  simp only [Multiset.mem_coe]

/-- **What is registered.** -/
theorem registered_iff {fd : Int} {k : FdHandler} : l.Registered fd k ↔
    (fd = sock ∧ k = .acceptSockServer) ∨ (fd ∈ s.guests ∧ k = .receiveSockServer) ∨
      (fd ∈ s.lodgers ∧ k = .kickServer) := by
  have hmem : l.Registered fd k ↔ ⟨fd, some k⟩ ∈ l.entries := by
    rw [FdList.mem_entries]
    refine ⟨fun hreg => ⟨hreg, ?_⟩, fun hmem => hmem.1⟩
    rintro rfl
    obtain ⟨i, hi⟩ := hreg
    have hreset := h.reset i (congrArg FdNode.fd hi)
    rw [hi] at hreset
    cases hreset
  rw [hmem, h.mem_iff]
  simp only [connNode, kickNode, FdNode.mk.injEq, Option.some.injEq]
  constructor
  · rintro (⟨rfl, rfl⟩ | ⟨g, hg, rfl, rfl⟩ | ⟨d, hd, rfl, rfl⟩)
    · exact .inl ⟨rfl, rfl⟩
    · exact .inr (.inl ⟨hg, rfl⟩)
    · exact .inr (.inr ⟨hd, rfl⟩)
  · rintro (⟨rfl, rfl⟩ | ⟨hg, rfl⟩ | ⟨hd, rfl⟩)
    · exact .inl ⟨rfl, rfl⟩
    · exact .inr (.inl ⟨fd, hg, rfl, rfl⟩)
    · exact .inr (.inr ⟨fd, hd, rfl, rfl⟩)

/-- The listening socket is registered. -/
theorem listens : l.Registered sock .acceptSockServer := h.registered_iff.mpr (.inl ⟨rfl, rfl⟩)

theorem connected_iff {g : Int} : l.Registered g .receiveSockServer ↔ g ∈ s.guests := by
  rw [h.registered_iff]
  simp

theorem listened_iff {d : Int} : l.Registered d .kickServer ↔ d ∈ s.lodgers := by
  rw [h.registered_iff]
  simp

/-! ### What the operations of the list do -/

theorem arrive {g : Int} (hg : g ≠ -1) :
    Lodges sock (l.addFdList g .receiveSockServer).2 (s.after otherSlots (.arrive g)) := by
  refine ⟨?_, reset_addFdList h.reset hg⟩
  rw [FdList.entries_addFdList hg, State.after]
  by_cases hroom : s.taken < otherSlots
  · rw [if_pos (h.room_iff.mpr hroom), if_pos hroom, h.entries, Multiset.map_cons,
      Multiset.cons_add, Multiset.cons_swap]
    rfl
  · rw [if_neg fun hlt => hroom (h.room_iff.mp hlt), if_neg hroom]
    exact h.entries

theorem bring {g d : Int} (hg : g ∈ s.guests) (hd : d ≠ -1) :
    Lodges sock (l.addFdList d .kickServer).2 (s.after otherSlots (.bring g d)) := by
  have hlodgers : ((s.lodgers ++ [d] : List Int) : Multiset Int) = d ::ₘ s.lodgers := by
    rw [← Multiset.coe_add, Multiset.add_comm, Multiset.coe_singleton, Multiset.singleton_add]
  refine ⟨?_, reset_addFdList h.reset hd⟩
  rw [FdList.entries_addFdList hd, State.after]
  by_cases hroom : s.taken < otherSlots
  · rw [if_pos (h.room_iff.mpr hroom), if_pos ⟨hg, hroom⟩, h.entries, hlodgers,
      Multiset.map_cons, Multiset.add_cons, Multiset.cons_swap]
    rfl
  · rw [if_neg fun hlt => hroom (h.room_iff.mp hlt), if_neg fun hlt => hroom hlt.2]
    exact h.entries

theorem leave {g : Int} (honce : SlotTable.Distinct FdNode.fd (-1) l) (hg : g ∈ s.guests) :
    Lodges sock (l.delFdList g).2 (s.after otherSlots (.leave g)) := by
  have hmem : connNode g ∈ l.entries := h.mem_iff.mpr (.inr (.inl ⟨g, hg, rfl⟩))
  have htake : connNode g ::ₘ (l.delFdList g).2.entries = l.entries :=
    FdList.entries_delFdList honce hmem
  refine ⟨?_, reset_delFdList h.reset⟩
  rw [State.after, ← Multiset.cons_inj_right (connNode g), htake, h.entries]
  conv_lhs => rw [← Multiset.cons_erase hg]
  rw [Multiset.map_cons, Multiset.cons_add, Multiset.cons_swap]

theorem evict {d : Int} (honce : SlotTable.Distinct FdNode.fd (-1) l) (hd : d ∈ s.lodgers) :
    Lodges sock (l.delFdList d).2 (s.after otherSlots (.evict d)) := by
  have hmem : kickNode d ∈ l.entries := h.mem_iff.mpr (.inr (.inr ⟨d, hd, rfl⟩))
  have htake : kickNode d ::ₘ (l.delFdList d).2.entries = l.entries :=
    FdList.entries_delFdList honce hmem
  have hlodgers : (s.lodgers : Multiset Int) =
      d ::ₘ ((s.lodgers.erase d : List Int) : Multiset Int) := by
    rw [← Multiset.coe_erase, Multiset.cons_erase (Multiset.mem_coe.mpr hd)]
  refine ⟨?_, reset_delFdList h.reset⟩
  rw [h.entries, hlodgers, Multiset.map_cons, Multiset.add_cons, Multiset.cons_swap] at htake
  rw [State.after, (Multiset.cons_inj_right (kickNode d)).mp htake]

end Lodges

/-! ### Every event -/

section Steps
variable {fuel : Nat} {sock : Int} {p q : Process} {e : Event} {s : State Int Int}

/-- The state of the house after an event. -/
def Event.lodged (e : Event) (s : State Int Int) : State Int Int :=
  s.afterAll otherSlots e.door.toList

theorem FdStep.unused (hs : FdStep fuel p e q) : Unused p.isOpen (e.opened p.world) := by
  cases hs with
  | event hnew _ => exact hnew

/-- **One event** does to the list what it does to the house. -/
theorem Lodges.step (h : Lodges sock p.fdList s) (honce : RegisteredOnce p)
    (hsock : p.world.server.sock = sock) (hs : FdStep fuel p e q) :
    Lodges sock q.fdList (e.lodged s) := by
  have hkick := @FdStep.kickFd_opened fuel p q
  have hnew := hs.unused
  rw [hs.fdList]
  cases e with
  | accept g =>
      have hlisten : p.world.server.fdList.Registered p.world.server.sock .acceptSockServer := by
        rw [hsock]
        exact h.listens
      have hmem : g ∈ (Event.accept g).opened p.world := by
        rw [Event.opened, if_pos hlisten]
        exact List.mem_singleton.mpr rfl
      have hnonneg := (hnew.2 g hmem).1
      rw [Event.nextFds, if_pos hlisten]
      exact h.arrive (by omega)
  | message g msg maps =>
      rw [Event.nextFds]
      cases hd : msg.kickFd with
      | none =>
          have hlodged : (Event.message g msg maps).lodged s = s := by
            rw [Event.lodged, Event.door, hd]
            rfl
          rw [ite_self, hlodged]
          exact h
      | some d =>
          have hlodged : (Event.message g msg maps).lodged s =
              s.after otherSlots (.bring g d) := by
            rw [Event.lodged, Event.door, hd]
            rfl
          rw [hlodged]
          by_cases hreg : p.world.server.fdList.Registered g .receiveSockServer
          · have hnonneg := (hnew.2 d (hkick hs hreg hd)).1
            rw [if_pos hreg]
            exact h.bring (h.connected_iff.mp hreg) (by omega)
          · rw [if_neg hreg, State.after, if_neg fun hg => hreg (h.connected_iff.mpr hg.1)]
            exact h
  | hangup g =>
      have hlodged : (Event.hangup g).lodged s = s.after otherSlots (.leave g) := rfl
      rw [Event.nextFds, hlodged]
      by_cases hreg : p.world.server.fdList.Registered g .receiveSockServer
      · rw [if_pos hreg]
        exact h.leave honce.once (h.connected_iff.mp hreg)
      · rw [if_neg hreg, State.after,
          Multiset.erase_of_notMem fun hg => hreg (h.connected_iff.mpr hg)]
        exact h
  | kick d r =>
      rw [Event.nextFds]
      by_cases hr : r = 0
      · have hlodged : (Event.kick d r).lodged s = s.after otherSlots (.evict d) := by
          rw [Event.lodged, Event.door, if_pos hr]
          rfl
        rw [hlodged]
        by_cases hreg : p.world.server.fdList.Registered d .kickServer
        · rw [if_pos ⟨hreg, hr⟩]
          exact h.evict honce.once (h.listened_iff.mp hreg)
        · rw [if_neg fun hand => hreg hand.1, State.after,
            List.erase_of_not_mem fun hd => hreg (h.listened_iff.mpr hd)]
          exact h
      · have hlodged : (Event.kick d r).lodged s = s := by
          rw [Event.lodged, Event.door, if_neg hr]
          rfl
        rw [if_neg fun hand => hr hand.2, hlodged]
        exact h
  | poll => exact h
  | peer mem => exact h

end Steps

/-! ### Every run -/

section Runs
variable {fuel : Nat} {sock : Int} {p q : Process} {es : List Event}

theorem run_registeredOnce (h : RegisteredOnce p)
    (hrun : Transition.Run (FdStep fuel) p es q) : RegisteredOnce q :=
  hrun.invariant (A := fun _ => True) (fun _ _ _ hp _ hs => registeredOnce_step hp hs) h
    fun _ _ => trivial

theorem run_sock (hrun : Transition.Run (FdStep fuel) p es q) :
    q.world.server.sock = p.world.server.sock :=
  hrun.invariant (I := fun r => r.world.server.sock = p.world.server.sock) (A := fun _ => True)
    (fun _ _ _ hp _ hs => hs.sock.trans hp) rfl fun _ _ => trivial

/-- A listening server starts with its socket only. -/
theorem Started.lodges (h : Started sock true p) : Lodges sock p.fdList Lodging.empty := by
  have hlist : p.fdList = (initFdList.addFdList sock .acceptSockServer).2 :=
    congrArg VhostServer.fdList h.server
  have hne : sock ≠ -1 := by
    have := h.sock_nonneg
    omega
  have hinit : initFdList.entries = 0 := by
    rw [FdList.entries, SlotTable.contents, Multiset.filter_eq_nil]
    simp [initFdList, resetFdNode, FdList.isFree]
  rw [hlist]
  refine ⟨?_, reset_addFdList (fun _ _ => rfl) hne⟩
  rw [FdList.entries_addFdList hne, hinit]
  rfl

theorem lodging_snoc (es : List Event) (e : Event) :
    lodging (es ++ [e]) = e.lodged (lodging es) := by
  rw [lodging, Event.lodged, List.filterMap_append, State.afterAll, List.foldl_append]
  rw [List.filterMap_cons, List.filterMap_nil]
  cases e.door with
  | none => rfl
  | some l => rfl

/-- **What the list holds after a run** is a function of the events. -/
theorem lodges_of_run (hstart : Started sock true p)
    (hrun : Transition.Run (FdStep fuel) p es q) : Lodges sock q.fdList (lodging es) := by
  induction hrun with
  | nil => exact hstart.lodges
  | @snoc es q r e hpre hs ih =>
      have hsock : q.world.server.sock = sock := by
        rw [run_sock hpre, hstart.server]
        rfl
      rw [lodging_snoc]
      exact ih.step (run_registeredOnce hstart.registeredOnce hpre) hsock hs

theorem lodging_within (es : List Event) : (lodging es).Within otherSlots :=
  (Lodging.within_empty otherSlots).afterAll _

end Runs

end Vapp
