import Vapp.FdSystem

/-! # One pass over the descriptor list

`process_fd_set` walks the slots of the list, which its handlers change, and tests the
descriptor that it finds in a slot against the set that `select` filled before the pass.  A
descriptor that was closed in the pass leaves its number in that set; if the kernel gives the
number to a new descriptor, and this is added to a slot that is still ahead, then its handler
is called although nobody has asked whether it is ready.
-/
namespace Vapp

/-- `get_fd_set`: the descriptors in the set. -/
def FdList.getFdSet (l : FdList) (fd : Int) : Prop := fd ≠ -1 ∧ ∃ i, (l i).fd = fd

/-! ### The handlers -/

/-- A call of the handler of a node with the descriptor `fd`, as the kernel and the peer may
have it end, and the descriptor that it hands to `add_fd_list`. -/
inductive NodeCall (fuel : Nat) (fd : Int) :
    FdHandler → Process → Option Int → Process → Prop
  /-- `accept` fails -/
  | refused {p : Process} : NodeCall fuel fd .acceptSockServer p none p
  | accepted {p : Process} {sock : Int} (hnew : Unused p.isOpen [sock]) :
      NodeCall fuel fd .acceptSockServer p (some sock)
        ⟨p.world.setFdList (p.fdList.addFdList sock .receiveSockServer).2,
          fun x => p.isOpen x ∨ x ∈ [sock]⟩
  /-- `recvmsg` fails, with or without the descriptors that came along -/
  | failed {p : Process} {fds : List Int} (hnew : Unused p.isOpen fds) :
      NodeCall fuel fd .receiveSockServer p none ⟨p.world, fun x => p.isOpen x ∨ x ∈ fds⟩
  | hungUp {p : Process} :
      NodeCall fuel fd .receiveSockServer p none
        ⟨p.world.setFdList (p.fdList.delFdList fd).2, fun x => p.isOpen x ∧ x ≠ fd⟩
  | message {p : Process} {mem : Mem} {maps : Nat → Option MapResult} {msg msg' : ServerMsg}
      {r : Int} {w : World} (hnew : Unused p.isOpen ((List.range msg.fdNum).map msg.fds))
      (h : (inMsgServer maps { p.world with mem := mem } msg).out = .ret (r, msg', w)) :
      NodeCall fuel fd .receiveSockServer p msg.kickFd
        ⟨w, fun x => p.isOpen x ∨ x ∈ (List.range msg.fdNum).map msg.fds⟩
  | kicked {p : Process} {mem : Mem} {r : Int} {w : World}
      (h : (kickServer fuel { p.world with mem := mem } fd r).out = .ret w) :
      NodeCall fuel fd .kickServer p none ⟨w, p.isOpen⟩

/-- What a handler does to the list: it adds a descriptor that was not open, removes its own
or leaves the list alone. -/
inductive ListEdit (fd : Int) (p : Process) : Option Int → Process → Prop
  | added {q : Process} {d : Int} (k : FdHandler) (hd : 0 ≤ d) (hnew : ¬ p.isOpen d)
      (hopen : ∀ x, p.isOpen x ∨ x = d → q.isOpen x)
      (hlist : q.fdList = (p.fdList.addFdList d k).2) : ListEdit fd p (some d) q
  | kept {q : Process} (hopen : ∀ x, p.isOpen x → q.isOpen x) (hlist : q.fdList = p.fdList) :
      ListEdit fd p none q
  | deleted {q : Process} (hopen : ∀ x, x ≠ fd → p.isOpen x → q.isOpen x)
      (hlist : q.fdList = (p.fdList.delFdList fd).2) : ListEdit fd p none q

section Calls
variable {fuel : Nat} {fd : Int} {p q : Process} {h : FdHandler} {new : Option Int}

/-- **Each handler edits the list at most once.** -/
theorem NodeCall.edit (hcall : NodeCall fuel fd h p new q) : ListEdit fd p new q := by
  cases hcall with
  | refused => exact .kept (fun _ hx => hx) rfl
  | accepted hnew =>
      have hsock := hnew.2 _ (List.mem_singleton.mpr rfl)
      refine .added .receiveSockServer hsock.1 hsock.2 (fun x hx => ?_) rfl
      exact hx.imp_right List.mem_singleton.mpr
  | failed _ => exact .kept (fun _ hx => .inl hx) rfl
  | hungUp => exact .deleted (fun _ hne hx => ⟨hx, hne⟩) rfl
  | @message _ mem maps msg msg' r w hnew hmsg =>
      obtain ⟨hfds, hnum⟩ := inMsgServer_fds hmsg
      have hlist := congrArg Prod.snd hfds
      cases hkick : msg.kickFd with
      | none =>
          rw [hkick] at hlist
          exact .kept (fun _ hx => .inl hx) hlist
      | some d =>
          rw [hkick] at hlist
          have hmem : d ∈ (List.range msg.fdNum).map msg.fds := by
            rw [hnum (by rw [hkick]; rfl), ← ServerMsg.fds_of_kickFd hkick]
            exact List.mem_singleton.mpr rfl
          refine .added .kickServer (hnew.2 d hmem).1 (hnew.2 d hmem).2 (fun x hx => ?_) hlist
          rcases hx with hx | rfl
          · exact .inl hx
          · exact .inr hmem
  | @kicked _ mem r w hkick =>
      rcases kickServer_cases hkick with ⟨_, rfl⟩ | ⟨_, rfl⟩ | ⟨_, hpoll⟩
      · exact .kept (fun _ hx => hx) rfl
      · exact .deleted (fun _ _ hx => hx) rfl
      · exact .kept (fun _ hx => hx) (congrArg Prod.snd (pollAvailVring_fds hpoll))

end Calls

/-! ### What a call does to the slots -/

/-- A list as `init_fd_list`, `add_fd_list` and `del_fd_list` leave it: the descriptors in it
are open, none is in two slots, and the slots without one have no handler. -/
structure Listed (p : Process) : Prop where
  once : RegisteredOnce p
  handled : ∀ i, (p.fdList i).fd = -1 ↔ (p.fdList i).handler = none

section Slots
variable {fd : Int} {p q : Process} {new : Option Int} {k : Fin fdListSize}

/-- The slot that a handler adds a descriptor to. -/
def addsTo (l : FdList) (new : Option Int) (i : Fin fdListSize) : Prop :=
  new.isSome = true ∧ l.findFdNode (-1) = some i

/-- A registered descriptor is found in its slot. -/
theorem Listed.findFdNode (h : Listed p) (hk : (p.fdList k).fd ≠ -1) :
    p.fdList.findFdNode (p.fdList k).fd = some k := by
  cases hfind : p.fdList.findFdNode (p.fdList k).fd with
  | some i =>
      have hfd := FdList.fd_of_findFdNode hfind
      rw [h.once.once i k hfd (hfd ▸ hk)]
  | none =>
      exact absurd (decide_eq_true rfl) (List.find?_eq_none.mp hfind k (List.mem_finRange k))

/-- **The slots after a call** of the handler in slot `k`: another slot is as it was, or it is
the one that a new descriptor was added to. -/
theorem ListEdit.slots (h : Listed p) (hk : (p.fdList k).fd ≠ -1)
    (hedit : ListEdit (p.fdList k).fd p new q) (i : Fin fdListSize) (hi : i ≠ k) :
    (¬ addsTo p.fdList new i ∧ q.fdList i = p.fdList i) ∨
    (addsTo p.fdList new i ∧ ∃ d h, new = some d ∧ 0 ≤ d ∧ q.fdList i = ⟨d, some h⟩) := by
  cases hedit with
  | @added _ d h hd _ _ hlist =>
      by_cases hadd : p.fdList.findFdNode (-1) = some i
      · refine .inr ⟨⟨rfl, hadd⟩, d, h, rfl, hd, ?_⟩
        rw [hlist, FdList.addFdList_of_found hadd, Function.update_self]
      · refine .inl ⟨fun hto => hadd hto.2, ?_⟩
        cases hfind : p.fdList.findFdNode (-1) with
        | none => rw [hlist, FdList.addFdList_of_full hfind]
        | some j =>
            have hij : i ≠ j := fun hij => hadd (hij ▸ hfind)
            rw [hlist, FdList.addFdList_of_found hfind, Function.update_of_ne hij]
  | kept _ hlist => exact .inl ⟨nofun, by rw [hlist]⟩
  | deleted _ hlist =>
      refine .inl ⟨nofun, ?_⟩
      rw [hlist, FdList.delFdList_of_found (h.findFdNode hk), Function.update_of_ne hi]

/-- Every handler keeps the list in order. -/
theorem ListEdit.listed (h : Listed p) (hk : (p.fdList k).fd ≠ -1)
    (hedit : ListEdit (p.fdList k).fd p new q) : Listed q := by
  cases hedit with
  | @added _ d hd hpos hnew hopen hlist =>
      refine ⟨?_, fun i => ?_⟩
      · rw [RegisteredOnce, hlist]
        exact (OnceOpen.add h.once hnew).mono fun i _ hi => hopen _ hi
      · cases hfind : p.fdList.findFdNode (-1) with
        | none =>
            rw [hlist, FdList.addFdList_of_full hfind]
            exact h.handled i
        | some j =>
            rw [hlist, FdList.addFdList_of_found hfind]
            by_cases hij : i = j
            · have hne : d ≠ -1 := by omega
              rw [hij, Function.update_self]
              exact iff_of_false hne (Option.some_ne_none _)
            · rw [Function.update_of_ne hij]
              exact h.handled i
  | kept hopen hlist =>
      refine ⟨?_, fun i => by rw [hlist]; exact h.handled i⟩
      rw [RegisteredOnce, hlist]
      exact h.once.mono fun i _ hi => hopen _ hi
  | deleted hopen hlist =>
      refine ⟨?_, fun i => ?_⟩
      · obtain ⟨hdel, hne⟩ := OnceOpen.del h.once (p.fdList k).fd
        rw [RegisteredOnce, hlist]
        exact hdel.mono fun i _ hi => hopen _ (hne hk i) hi
      · rw [hlist, FdList.delFdList_of_found (h.findFdNode hk)]
        by_cases hik : i = k
        · rw [hik, Function.update_self]
          exact ⟨fun _ => rfl, fun _ => rfl⟩
        · rw [Function.update_of_ne hik]
          exact h.handled i

end Slots

/-! ### The walk -/

/-- The handler of the node in slot `k` is called. -/
def Called (ready : Int → Bool) (l : FdList) (k : Fin fdListSize) : Prop :=
  ready (l k).fd = true ∧ (l k).handler.isSome = true

instance (ready : Int → Bool) (l : FdList) (k : Fin fdListSize) : Decidable (Called ready l k) :=
  inferInstanceAs (Decidable (_ ∧ _))

/-- One turn of the loop of `process_fd_set`, and the descriptor that is added in it. -/
inductive Visit (fuel : Nat) (ready : Int → Bool) (k : Fin fdListSize) :
    Process → Option Int → Process → Prop
  | called {p q : Process} {h : FdHandler} {new : Option Int}
      (hready : ready (p.fdList k).fd = true) (hh : (p.fdList k).handler = some h)
      (hcall : NodeCall fuel (p.fdList k).fd h p new q) : Visit fuel ready k p new q
  | skipped {p : Process} (hno : ¬ Called ready p.fdList k) : Visit fuel ready k p none p

/-- A call of `process_fd_set` after `select`: the process before each slot, and what is added
in each turn. -/
structure Pass (fuel : Nat) (ready : Int → Bool) (st : Nat → Process) (new : Nat → Option Int) :
    Prop where
  selected : ∀ d, d ≠ -1 → ready d = true → (st 0).fdList.getFdSet d
  visit : ∀ k : Fin fdListSize, Visit fuel ready k (st k) (new k) (st (k + 1))

/-- The slots whose handlers are called, one after the other. -/
def calledSlots (ready : Int → Bool) (st : Nat → Process) : List (Fin fdListSize) :=
  (List.finRange fdListSize).filter fun k => Called ready (st k).fdList k

/-- When slot `i` is visited it still holds the node that was there when the set was built. -/
def Kept (st : Nat → Process) (i : Fin fdListSize) : Prop :=
  ∀ j, j < i.val → (st (j + 1)).fdList i = (st j).fdList i

/-- **Dispatch only on descriptors that were ready**: the handler of every node of the set that
is ready and has not been deleted is called once, and that of no other node. -/
structure DispatchesReady (ready : Int → Bool) (st : Nat → Process) : Prop where
  once : ∀ i, (st 0).fdList.getFdSet ((st 0).fdList i).fd →
    ready ((st 0).fdList i).fd = true → Kept st i → (calledSlots ready st).count i = 1
  noneAdded : ∀ i ∈ calledSlots ready st, Kept st i

section Walk
variable {fuel : Nat} {ready : Int → Bool} {st : Nat → Process} {new : Nat → Option Int}
  {p q : Process} {o : Option Int} {k i : Fin fdListSize}

theorem mem_calledSlots : i ∈ calledSlots ready st ↔ Called ready (st i).fdList i := by
  rw [calledSlots, List.mem_filter, decide_eq_true_eq]
  exact ⟨fun h => h.2, fun h => ⟨List.mem_finRange i, h⟩⟩

theorem count_calledSlots (h : Called ready (st i).fdList i) :
    (calledSlots ready st).count i = 1 :=
  List.count_eq_one_of_mem ((List.nodup_finRange _).filter _) (mem_calledSlots.mpr h)

/-- A node whose handler is called has a descriptor. -/
theorem Listed.fd_ne (h : Listed p) (hk : (p.fdList k).handler.isSome = true) :
    (p.fdList k).fd ≠ -1 := fun hfd => by
  rw [(h.handled k).mp hfd] at hk
  cases hk

theorem Visit.listed (h : Listed p) (hv : Visit fuel ready k p o q) : Listed q := by
  cases hv with
  | called _ hh hcall => exact hcall.edit.listed h (h.fd_ne (by rw [hh]; rfl))
  | skipped _ => exact h

/-- The slots after a turn. -/
theorem Visit.slots (h : Listed p) (hv : Visit fuel ready k p o q) (hi : i ≠ k) :
    (¬ addsTo p.fdList o i ∧ q.fdList i = p.fdList i) ∨
    (addsTo p.fdList o i ∧ ∃ d h, o = some d ∧ 0 ≤ d ∧ q.fdList i = ⟨d, some h⟩) := by
  cases hv with
  | called _ hh hcall => exact hcall.edit.slots h (h.fd_ne (by rw [hh]; rfl)) i hi
  | skipped _ => exact .inl ⟨nofun, rfl⟩

/-- The list is in order all the way. -/
theorem Pass.listed (hp : Pass fuel ready st new) (h : Listed (st 0)) :
    ∀ {k : Nat}, k ≤ fdListSize → Listed (st k) := by
  intro k
  induction k with
  | zero => exact fun _ => h
  | succ k ih => exact fun hk => (hp.visit ⟨k, hk⟩).listed (ih (Nat.le_of_succ_le hk))

/-- No descriptor of the set is added to a slot that is still ahead. -/
def NoneReused (ready : Int → Bool) (st : Nat → Process) (new : Nat → Option Int) : Prop :=
  ∀ (k i : Fin fdListSize) (d : Int), new k = some d →
    (st k).fdList.findFdNode (-1) = some i → k < i → ready d = false

/-- A slot ahead holds its old node, or one that is not in the set. -/
theorem Pass.kept_or_not_ready (hp : Pass fuel ready st new) (h : Listed (st 0))
    (hnone : NoneReused ready st new) (i : Fin fdListSize) : ∀ {k : Nat}, k ≤ i.val →
      (∀ j, j < k → (st (j + 1)).fdList i = (st j).fdList i) ∨
        ready ((st k).fdList i).fd = false := by
  intro k
  induction k with
  | zero => exact fun _ => .inl fun j hj => absurd hj (Nat.not_lt_zero j)
  | succ k ih =>
      intro hk
      have hlt : k < fdListSize := Nat.lt_trans hk i.isLt
      have hne : i ≠ ⟨k, hlt⟩ := fun heq => Nat.ne_of_gt hk (congrArg Fin.val heq)
      rcases (hp.visit ⟨k, hlt⟩).slots (hp.listed h (Nat.le_of_lt hlt)) hne with
        ⟨-, hsame⟩ | ⟨hadd, d, hd, hnew, -, hslot⟩
      · have hsame : (st (k + 1)).fdList i = (st k).fdList i := hsame
        rcases ih (Nat.le_of_succ_le hk) with hkept | hunready
        · refine .inl fun j hj => ?_
          rcases Nat.lt_succ_iff_lt_or_eq.mp hj with hj | rfl
          · exact hkept j hj
          · exact hsame
        · exact .inr (by rw [hsame]; exact hunready)
      · have hslot : (st (k + 1)).fdList i = ⟨d, some hd⟩ := hslot
        refine .inr ?_
        rw [hslot]
        exact hnone ⟨k, hlt⟩ i d hnew hadd.2 hk

/-- What was added to a slot ahead is there when the slot is visited. -/
theorem Pass.stays (hp : Pass fuel ready st new) (h : Listed (st 0)) {node : FdNode}
    (hnode : node.fd ≠ -1) {k : Nat} (hk : (st k).fdList i = node) : ∀ {n : Nat}, k + n ≤ i.val →
      (st (k + n)).fdList i = node := by
  intro n
  induction n with
  | zero => exact fun _ => hk
  | succ n ih =>
      intro hn
      have hlt : k + n < fdListSize := Nat.lt_trans hn i.isLt
      have hne : i ≠ ⟨k + n, hlt⟩ := fun heq => Nat.ne_of_gt hn (congrArg Fin.val heq)
      have hbefore := ih (Nat.le_of_succ_le hn)
      rcases (hp.visit ⟨k + n, hlt⟩).slots (hp.listed h (Nat.le_of_lt hlt)) hne with
        ⟨-, hsame⟩ | ⟨hadd, -⟩
      · exact hsame.trans hbefore
      · -- only a free slot takes a descriptor
        have hfree : ((st (k + n)).fdList i).fd = -1 := FdList.fd_of_findFdNode hadd.2
        rw [hbefore] at hfree
        exact absurd hfree hnode

/-- The node that a pass comes to is the old one, if none was deleted. -/
theorem Kept.eq (hkept : Kept st i) : (st i).fdList i = (st 0).fdList i := by
  have hall : ∀ n, n ≤ i.val → (st n).fdList i = (st 0).fdList i := by
    intro n
    induction n with
    | zero => exact fun _ => rfl
    | succ n ih => exact fun hn => (hkept n hn).trans (ih (Nat.le_of_succ_le hn))
  exact hall i (Nat.le_refl _)

/-- **Handlers are called for the ready descriptors only** if and only if no descriptor of the
set is added again to a slot that is still ahead. -/
theorem dispatches_ready_iff (hp : Pass fuel ready st new) (h : Listed (st 0)) :
    DispatchesReady ready st ↔ NoneReused ready st new := by
  constructor
  · intro hdisp k i d hnew hfind hki
    refine Bool.eq_false_iff.mpr fun hready => ?_
    have hne : i ≠ k := Fin.ne_of_gt hki
    rcases (hp.visit k).slots (hp.listed h (Nat.le_of_lt k.isLt)) hne with
      ⟨hno, -⟩ | ⟨-, d', hd, hnew', hpos, hslot⟩
    · exact hno ⟨by rw [hnew]; rfl, hfind⟩
    · cases hnew.symm.trans hnew'
      have hfd : d ≠ -1 := by omega
      have hslot : (st (k + 1)).fdList i = ⟨d, some hd⟩ := hslot
      obtain ⟨n, hn⟩ := Nat.exists_eq_add_of_le (show k.val + 1 ≤ i.val from hki)
      have hat : (st (k + 1 + n)).fdList i = ⟨d, some hd⟩ :=
        hp.stays h hfd hslot (Nat.le_of_eq hn.symm)
      rw [← hn] at hat
      have hcalled : Called ready (st i).fdList i := by
        rw [Called, hat]
        exact ⟨hready, rfl⟩
      -- the slot was free before, so it does not hold its old node
      have hkept := hdisp.noneAdded i (mem_calledSlots.mpr hcalled) k hki
      have hfree := FdList.fd_of_findFdNode hfind
      rw [← hkept, hslot] at hfree
      exact hfd hfree
  · intro hnone
    refine ⟨fun i hset hready hkept => count_calledSlots ?_, fun i hi => ?_⟩
    · rw [Called, hkept.eq]
      refine ⟨hready, Option.isSome_iff_ne_none.mpr fun hh => hset.1 ((h.handled i).mpr hh)⟩
    · have hcalled := mem_calledSlots.mp hi
      rcases hp.kept_or_not_ready h hnone i (Nat.le_refl i.val) with hkept | hunready
      · exact hkept
      · exact absurd (hcalled.1.symm.trans hunready) nofun

end Walk

/-! ### A connection is accepted -/

/-- The process before and after the call of `accept_sock_server`. -/
def acceptStates : Nat → Process
  | 0 => ⟨freshWorld 3 true, fun x => x = 3⟩
  | _ =>
      ⟨(freshWorld 3 true).setFdList
          ((freshWorld 3 true).server.fdList.addFdList 4 .receiveSockServer).2,
        fun x => x = 3 ∨ x ∈ [4]⟩

/-- The new socket. -/
def acceptNew : Nat → Option Int
  | 0 => some 4
  | _ => none

theorem listed_acceptStates : Listed (acceptStates 0) :=
  have hstart : Started 3 true (acceptStates 0) := ⟨rfl, by decide, rfl⟩
  ⟨hstart.registeredOnce, by decide⟩

theorem pass_acceptStates : Pass 0 (fun d => decide (d = 3)) acceptStates acceptNew := by
  refine ⟨fun d hne hd => ?_, fun ⟨k, hk⟩ => ?_⟩
  · obtain rfl := of_decide_eq_true hd
    exact ⟨hne, ⟨0, by decide⟩, rfl⟩
  · cases k with
    | zero =>
        refine .called rfl rfl (.accepted ⟨List.nodup_singleton 4, fun d hd => ?_⟩)
        obtain rfl := List.mem_singleton.mp hd
        exact ⟨by decide, show ¬ (4 : Int) = 3 by decide⟩
    | succ k =>
        have hno : ∀ i : Fin fdListSize, i.val ≠ 0 →
            ¬ Called (fun d => decide (d = 3)) (acceptStates 1).fdList i := by
          decide
        exact .skipped (hno ⟨k + 1, hk⟩ (Nat.succ_ne_zero k))

theorem dispatches_ready_iff_demo : DispatchesReady (fun d => decide (d = 3)) acceptStates := by
  refine (dispatches_ready_iff pass_acceptStates listed_acceptStates).mpr
    fun ⟨k, _⟩ i d hd _ _ => ?_
  cases k with
  | zero =>
      cases hd
      rfl
  | succ k => cases hd

/-! ### A number is used again -/

/-- A list with a listening socket and three connections. -/
def reuseFds : FdList := fun i =>
  match i.val with
  | 0 => ⟨3, some .acceptSockServer⟩
  | 1 => ⟨9, some .receiveSockServer⟩
  | 2 => ⟨7, some .receiveSockServer⟩
  | 3 => ⟨8, some .receiveSockServer⟩
  | _ => resetFdNode

/-- The number 6 is not in use. -/
def reuseStart : Process where
  world := (freshWorld 3 true).setFdList reuseFds
  isOpen x := 0 ≤ x ∧ x ≤ 9 ∧ x ≠ 6

/-- The connection in slot 1 is closed. -/
def reuseHangup : Process :=
  ⟨reuseStart.world.setFdList (reuseStart.fdList.delFdList 9).2,
    fun x => reuseStart.isOpen x ∧ x ≠ 9⟩

/-- The process after a message that brings the descriptor `d` for kicks of the TX ring. -/
def Process.kickSet (p : Process) (d : Int) : Process :=
  ⟨p.world.setKick txIdx (some d), fun x => p.isOpen x ∨ x ∈ [d]⟩

/-- The connections in slots 2 and 3 bring descriptors for kicks, to which the kernel gives the
lowest numbers that are not in use. -/
def reuseStates : Nat → Process
  | 0 | 1 => reuseStart
  | 2 => reuseHangup
  | 3 => reuseHangup.kickSet 6
  | _ => (reuseHangup.kickSet 6).kickSet 9

/-- The descriptors for kicks. -/
def reuseNew : Nat → Option Int
  | 2 => some 6
  | 3 => some 9
  | _ => none

/-- The three connections have something to read. -/
def reuseReady (d : Int) : Bool := decide (7 ≤ d ∧ d ≤ 9)

theorem nodeCall_txKick {fuel n : Nat} {fd d : Int} {p : Process} (hd : d = (n + 1 : Nat))
    (hnew : Unused p.isOpen [d]) :
    NodeCall fuel fd .receiveSockServer p (some d) (p.kickSet d) := by
  subst hd
  have hfd : (txKick n).msg.fds 0 = ((n + 1 : Nat) : Int) := ((txKick n).first _ rfl).1
  have hfds : (List.range (txKick n).msg.fdNum).map (txKick n).msg.fds =
      [((n + 1 : Nat) : Int)] := by
    rw [(txKick n).single rfl, ← hfd]
    rfl
  have hkick : (txKick n).msg.kickFd = some ((n + 1 : Nat) : Int) := by
    rw [ServerMsg.kickFd, if_pos ⟨(txKick n).request, (txKick n).payload⟩, hfd]
  have hcall := @NodeCall.message fuel fd p p.world.mem _ _ _ _ _
    (hfds.symm ▸ hnew) (inMsgServer_kick p.world (txKick n) fun _ => none)
  rwa [hkick, hfds] at hcall

theorem listed_reuseStates : Listed (reuseStates 0) := by
  have honce : ∀ i j, (reuseFds i).fd = (reuseFds j).fd → (reuseFds i).fd ≠ -1 → i = j := by
    decide
  have hopen : ∀ i, (reuseFds i).fd ≠ -1 →
      0 ≤ (reuseFds i).fd ∧ (reuseFds i).fd ≤ 9 ∧ (reuseFds i).fd ≠ 6 := by
    decide
  exact ⟨⟨honce, hopen⟩, by decide⟩

theorem pass_reuseStates : Pass 0 reuseReady reuseStates reuseNew := by
  refine ⟨fun d hne hd => ⟨hne, ?_⟩, fun ⟨k, hk⟩ => ?_⟩
  · obtain ⟨hlo, hhi⟩ := of_decide_eq_true hd
    have hcase : d = 7 ∨ d = 8 ∨ d = 9 := by omega
    rcases hcase with rfl | rfl | rfl
    · exact ⟨⟨2, by decide⟩, rfl⟩
    · exact ⟨⟨3, by decide⟩, rfl⟩
    · exact ⟨⟨1, by decide⟩, rfl⟩
  · match k with
    | 0 =>
        have hno : ¬ Called reuseReady reuseStart.fdList ⟨0, by decide⟩ := by decide
        exact .skipped hno
    | 1 => exact .called rfl rfl .hungUp
    | 2 =>
        refine .called rfl rfl (nodeCall_txKick rfl ⟨List.nodup_singleton 6, fun d hd => ?_⟩)
        obtain rfl := List.mem_singleton.mp hd
        exact ⟨by decide, fun h => h.1.2.2 rfl⟩
    | 3 =>
        refine .called rfl rfl (nodeCall_txKick rfl ⟨List.nodup_singleton 9, fun d hd => ?_⟩)
        obtain rfl := List.mem_singleton.mp hd
        refine ⟨by decide, fun h => ?_⟩
        rcases h with h | h
        · exact h.2 rfl
        · exact absurd (List.mem_singleton.mp h) (by decide)
    | 4 =>
        -- a read that brings nothing
        have hkick : (kickServer 0 { (reuseStates 4).world with mem := (reuseStates 4).world.mem }
            9 (-1)).out = .ret (reuseStates 4).world := rfl
        exact .called rfl rfl (.kicked hkick)
    | k + 5 =>
        have hno : ∀ i : Fin fdListSize, 5 ≤ i.val →
            ¬ Called reuseReady (reuseStates 4).fdList i := by
          decide
        exact .skipped (hno ⟨k + 5, hk⟩ (Nat.le_add_left ..))

/-- **A handler is called for a descriptor that came in the same pass**: the connection 9 hangs
up, and the second descriptor for kicks gets its number. -/
theorem reused_descriptor_dispatched :
    Pass 0 reuseReady reuseStates reuseNew ∧ Listed (reuseStates 0) ∧
      ¬ DispatchesReady reuseReady reuseStates := by
  refine ⟨pass_reuseStates, listed_reuseStates, fun hdisp => ?_⟩
  have hcalled : (⟨4, by decide⟩ : Fin fdListSize) ∈ calledSlots reuseReady reuseStates :=
    mem_calledSlots.mpr (by decide)
  -- the slot was free until the turn before
  have hkept : (reuseStates 4).fdList ⟨4, by decide⟩ = (reuseStates 3).fdList ⟨4, by decide⟩ :=
    hdisp.noneAdded _ hcalled 3 (by decide)
  have hnode := congrArg FdNode.fd hkept
  revert hnode
  decide

end Vapp
