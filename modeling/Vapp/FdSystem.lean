import Vapp.KickMode
import Vapp.ServerSteps
import Vapp.Library.Transition

/-! # The descriptors of the server process

What each event does to the descriptor list, and to the descriptors that are open: `accept`
and the ancillary data of a message bring new ones, whose numbers the kernel takes from
those that are not in use, and a connection that the peer has closed is closed.
-/
namespace Vapp

/-! ### What an event does to the list -/

/-- The descriptor that `_set_vring_kick` adds to the list for a message. -/
def ServerMsg.kickFd (msg : ServerMsg) : Option Int :=
  if msg.msg.request = VhostUserRequest.setVringKick.word ∧
      kickIndex msg.msg.payload.u64 = .ret (txIdx, true) then
    some (msg.fds 0)
  else
    none

theorem ServerMsg.fds_of_kickFd {msg : ServerMsg} {d : Int} (h : msg.kickFd = some d) :
    msg.fds 0 = d := by
  unfold ServerMsg.kickFd at h
  split at h
  · exact Option.some.inj h
  · cases h

/-- The descriptor list after an event. -/
def Event.nextFds (w : World) : Event → FdList
  | .accept sock =>
      if w.server.fdList.Registered w.server.sock .acceptSockServer then
        (w.server.fdList.addFdList sock .receiveSockServer).2
      else
        w.server.fdList
  | .message sock msg _ =>
      if w.server.fdList.Registered sock .receiveSockServer then
        match msg.kickFd with
        | some d => (w.server.fdList.addFdList d .kickServer).2
        | none => w.server.fdList
      else
        w.server.fdList
  | .hangup sock =>
      if w.server.fdList.Registered sock .receiveSockServer then
        (w.server.fdList.delFdList sock).2
      else
        w.server.fdList
  | .kick fd r =>
      if w.server.fdList.Registered fd .kickServer ∧ r = 0 then
        (w.server.fdList.delFdList fd).2
      else
        w.server.fdList
  | .poll | .peer _ => w.server.fdList

/-- The parts of the server that have to do with descriptors. -/
def World.fds (w : World) : Int × FdList := (w.server.sock, w.server.fdList)

/-- A request is known by its number. -/
theorem VhostUserRequest.word_of_ofWord {u : UInt32} {r : VhostUserRequest}
    (h : ofWord u = some r) : u = r.word := by
  obtain ⟨hlt, hr⟩ := List.getElem?_eq_some_iff.mp h
  have hall : ∀ k : Fin 15, UInt32.ofNat k.val = ([none, getFeatures, setFeatures, setOwner,
      resetOwner, setMemTable, setLogBase, setLogFd, setVringNum, setVringAddr, setVringBase,
      getVringBase, setVringKick, setVringCall, setVringErr][k]).word := by decide
  have := hall ⟨u.toNat, hlt⟩
  rw [UInt32.ofNat_toNat] at this
  rw [this]
  exact congrArg word hr

section Handlers
variable {fuel : Nat} {w w' : World} {msg msg' : ServerMsg} {maps : Nat → Option MapResult}
  {r : Int}

/-- The handlers of the other messages change the table of the server only. -/
theorem msgHandler_server {req : VhostUserRequest} (hkick : req ≠ .setVringKick)
    (h : (msgHandler maps req w msg).out = .ret (r, msg', w')) :
    w'.server = { w.server with table := w'.server.table } := by
  cases msgHandler_cases h with
  | table hloop =>
      obtain ⟨_, _, rfl⟩ := setMemTableLoop_frame _ hloop
      rfl
  | num _ | addr _ _ | base _ => rfl
  | kick _ _ => exact absurd rfl hkick
  | @call i validfd _ _ => cases validfd <;> rfl
  | answered _ | ignored _ => rfl

theorem inMsgServer_server {req : VhostUserRequest}
    (hreq : VhostUserRequest.ofWord msg.msg.request = some req) (hkick : req ≠ .setVringKick)
    (h : (inMsgServer maps w msg).out = .ret (r, msg', w')) :
    w'.server = { w.server with table := w'.server.table } := by
  obtain ⟨req', -, hreq', hout⟩ := inMsgServer_cases h
  obtain rfl : req' = req := Option.some.inj (hreq'.symm.trans hreq)
  exact msgHandler_server hkick hout

/-- They leave the list alone. -/
theorem msgHandler_fds {req : VhostUserRequest} (hkick : req ≠ .setVringKick)
    (h : (msgHandler maps req w msg).out = .ret (r, msg', w')) : w'.fds = w.fds := by
  rw [World.fds, msgHandler_server hkick h]
  rfl

/-- `_set_vring_kick` adds a descriptor for the TX ring. -/
theorem setVringKick_fds (hreq : msg.msg.request = VhostUserRequest.setVringKick.word)
    (h : (setVringKick w msg).out = .ret (r, msg', w')) :
    w'.fds = (w.server.sock, match msg.kickFd with
      | some d => (w.server.fdList.addFdList d .kickServer).2
      | none => w.server.fdList) ∧ (msg.kickFd.isSome = true → msg.fdNum = 1) := by
  obtain ⟨i, validfd, hindex, hnum, rfl⟩ := setVringKick_ret h
  by_cases hadd : i = txIdx ∧ validfd = true
  · obtain ⟨rfl, rfl⟩ := hadd
    have hkick : msg.kickFd = some (msg.fds 0) := if_pos ⟨hreq, hindex⟩
    rw [hkick]
    exact ⟨rfl, fun _ => hnum rfl⟩
  · have hkick : msg.kickFd = none := by
      refine if_neg fun hk => hadd ?_
      have := hindex.symm.trans hk.2
      cases this
      exact ⟨rfl, rfl⟩
    rw [hkick]
    refine ⟨?_, fun hsome => absurd hsome Bool.false_ne_true⟩
    refine (setKick_fds w i _).trans ?_
    cases validfd with
    | false => rfl
    | true =>
        have hi : i ≠ txIdx := fun hi => hadd ⟨hi, rfl⟩
        simp only [if_true, if_neg hi]

/-- **Only `_set_vring_kick` touches the list**, and only with a descriptor for the TX
ring. -/
theorem inMsgServer_fds (h : (inMsgServer maps w msg).out = .ret (r, msg', w')) :
    w'.fds = (w.server.sock, match msg.kickFd with
      | some d => (w.server.fdList.addFdList d .kickServer).2
      | none => w.server.fdList) ∧ (msg.kickFd.isSome = true → msg.fdNum = 1) := by
  obtain ⟨req, -, hreq, hout⟩ := inMsgServer_cases h
  have hword := VhostUserRequest.word_of_ofWord hreq
  by_cases hkick : req = .setVringKick
  · rw [hkick] at hout
    exact setVringKick_fds (by rw [hword, hkick]) hout
  · have hnone : msg.kickFd = none := by
      refine if_neg fun hk => hkick ?_
      have := hk.1
      rw [this, VhostUserRequest.ofWord_word] at hreq
      exact (Option.some.inj hreq).symm
    rw [hnone]
    exact ⟨msgHandler_fds hkick hout, fun hsome => absurd hsome Bool.false_ne_true⟩

/-- A handler leaves the descriptors that the server waits for in the list. -/
theorem inMsgServer_registered {fd : Int} {k : FdHandler} (hfd : fd ≠ -1)
    (h : (inMsgServer maps w msg).out = .ret (r, msg', w'))
    (hreg : w.server.fdList.Registered fd k) : w'.server.fdList.Registered fd k := by
  have hlist : w'.server.fdList = _ := congrArg Prod.snd (inMsgServer_fds h).1
  rw [hlist]
  cases msg.kickFd with
  | none => exact hreg
  | some d =>
      show ((w.server.fdList.addFdList d .kickServer).2).Registered fd k
      rw [FdList.Registered, FdList.addFdList_snd]
      exact SlotTable.holds_of_holds (decide_eq_false hfd) hreg

theorem pollAvailVring_fds {i : RingIdx} (h : (pollAvailVring fuel w i).out = .ret w') :
    w'.fds = w.fds := by
  rcases pollAvailVring_cases h with ⟨_, s, _, rfl⟩ | ⟨_, rfl⟩
  · rfl
  · rfl

theorem pollTx_fds (h : (pollTx fuel w).out = .ret w') : w'.fds = w.fds := by
  rcases pollTx_cases h with ⟨_, h⟩ | ⟨_, rfl⟩
  · exact pollAvailVring_fds h
  · rfl

theorem pollRx_fds (h : (pollRx w).out = .ret w') : w'.fds = w.fds := by
  rcases pollRx_cases h with ⟨_, r, t, m, _, rfl⟩ | ⟨_, rfl⟩
  · rfl
  · rfl

theorem pollServer_fds (h : (pollServer fuel w).out = .ret w') : w'.fds = w.fds := by
  rcases pollServer_cases h with ⟨_, w1, h1, h2⟩ | ⟨_, rfl⟩
  · exact (pollRx_fds h2).trans (pollTx_fds h1)
  · rfl

/-- **What an event does to the descriptor list.** -/
theorem exec_fds {e : Event} (h : (exec fuel w e).out = .ret w') :
    w'.fds = (w.server.sock, e.nextFds w) := by
  cases exec_cases h with
  | accept hreg =>
      rw [Event.nextFds, if_pos hreg]
      rfl
  | message hreg hmsg =>
      rw [Event.nextFds, if_pos hreg]
      exact (inMsgServer_fds hmsg).1
  | hangup hreg =>
      rw [Event.nextFds, if_pos hreg]
      rfl
  | kick hreg hkick =>
      rw [Event.nextFds]
      rcases kickServer_cases hkick with ⟨hr, rfl⟩ | ⟨hr, rfl⟩ | ⟨hr, hpoll⟩
      · rw [if_neg fun hclosed => by omega]
        rfl
      · rw [if_pos ⟨hreg, hr⟩]
        rfl
      · rw [if_neg fun hclosed => by omega]
        exact pollAvailVring_fds hpoll
  | poll hpoll => exact pollServer_fds hpoll
  | peer => rfl
  | notListening hreg | unreadMessage hreg | unreadHangup hreg =>
      rw [Event.nextFds, if_neg hreg]
      rfl
  | unreadKick hreg =>
      rw [Event.nextFds, if_neg fun hr => hreg hr.1]
      rfl

end Handlers

/-! ### The process and the kernel -/

/-- The server process with the descriptors that it has open. -/
structure Process where
  world : World
  isOpen : Int → Prop

/-- The descriptor list of the process. -/
def Process.fdList (p : Process) : FdList := p.world.server.fdList

/-- The descriptors that an event brings: an accepted connection, and those that came with a
message. -/
def Event.opened (w : World) : Event → List Int
  | .accept sock =>
      if w.server.fdList.Registered w.server.sock .acceptSockServer then [sock] else []
  | .message sock msg _ =>
      if w.server.fdList.Registered sock .receiveSockServer then
        (List.range msg.fdNum).map msg.fds
      else
        []
  | _ => []

/-- The descriptor that `receive_sock_server` closes. -/
def Event.closed (w : World) : Event → Option Int
  | .hangup sock => if w.server.fdList.Registered sock .receiveSockServer then some sock else none
  | _ => none

/-- The kernel numbers new descriptors by numbers that are not in use. -/
def Unused (isOpen : Int → Prop) (fds : List Int) : Prop :=
  fds.Nodup ∧ ∀ fd ∈ fds, 0 ≤ fd ∧ ¬ isOpen fd

theorem unused_nil (isOpen : Int → Prop) : Unused isOpen [] :=
  ⟨List.nodup_nil, fun _ hfd => absurd hfd List.not_mem_nil⟩

/-- One event of the process. -/
inductive FdStep (fuel : Nat) : Process → Event → Process → Prop
  | event {p : Process} {e : Event} {w : World} (hnew : Unused p.isOpen (e.opened p.world))
      (h : (exec fuel p.world e).out = .ret w) :
      FdStep fuel p e
        ⟨w, fun fd => (p.isOpen fd ∨ fd ∈ e.opened p.world) ∧ e.closed p.world ≠ some fd⟩

/-- A process that has just been started by `new_vhost_server`. -/
structure Started (sock : Int) (isListen : Bool) (p : Process) : Prop where
  server : p.world.server = newVhostServer sock isListen
  sock_nonneg : 0 ≤ sock
  sock_open : p.isOpen sock

/-! ### Every registered descriptor is open and registered once -/

/-- No descriptor is in two slots, and those in the list are open. -/
structure OnceOpen (l : FdList) (isOpen : Int → Prop) : Prop where
  once : SlotTable.Distinct FdNode.fd (-1) l
  opened : ∀ i, (l i).fd ≠ -1 → isOpen (l i).fd

/-- The same of the list of a process. -/
def RegisteredOnce (p : Process) : Prop := OnceOpen p.fdList p.isOpen

section Once
variable {l : FdList} {isOpen isOpen' : Int → Prop} {d : Int} {k : FdHandler}

theorem OnceOpen.mono (h : OnceOpen l isOpen)
    (hopen : ∀ i, (l i).fd ≠ -1 → isOpen (l i).fd → isOpen' (l i).fd) : OnceOpen l isOpen' :=
  ⟨h.once, fun i hi => hopen i hi (h.opened i hi)⟩

theorem onceOpen_init : OnceOpen initFdList fun _ => False :=
  ⟨fun _ _ _ h => absurd rfl h, fun _ h => absurd rfl h⟩

/-- Adding a descriptor that was not open before. -/
theorem OnceOpen.add (h : OnceOpen l isOpen) (hd : ¬ isOpen d) :
    OnceOpen (l.addFdList d k).2 fun fd => isOpen fd ∨ fd = d := by
  rw [FdList.addFdList_snd]
  refine ⟨h.once.replaceFirst ?_, fun i hi => ?_⟩
  · by_cases hfree : d = -1
    · exact .inl hfree
    · refine .inr fun i hi => hd ?_
      have hi : (l i).fd = d := hi
      rw [← hi]
      exact h.opened i (by rw [hi]; exact hfree)
  · rcases SlotTable.holds_before ⟨i, rfl⟩ with hnew | ⟨j, hj⟩
    · exact .inr (congrArg FdNode.fd hnew)
    · rw [← hj] at hi ⊢
      exact .inl (h.opened j hi)

/-- Removing one. -/
theorem OnceOpen.del (h : OnceOpen l isOpen) (d : Int) :
    OnceOpen (l.delFdList d).2 isOpen ∧
      (d ≠ -1 → ∀ i, ((l.delFdList d).2 i).fd ≠ d) := by
  rw [FdList.delFdList_snd]
  refine ⟨⟨h.once.replaceFirst (.inl rfl), fun i hi => ?_⟩, fun hd i =>
    h.once.key_ne_of_removed hd rfl i⟩
  rcases SlotTable.holds_before ⟨i, rfl⟩ with hnew | ⟨j, hj⟩
  · rw [hnew] at hi
    exact absurd rfl hi
  · rw [← hj] at hi ⊢
    exact h.opened j hi

end Once

section Steps
variable {fuel : Nat} {p q : Process} {e : Event}

/-- The list after a step. -/
theorem FdStep.fdList (hs : FdStep fuel p e q) : q.fdList = e.nextFds p.world := by
  cases hs with
  | event _ h => exact congrArg Prod.snd (exec_fds h)

theorem FdStep.sock (hs : FdStep fuel p e q) : q.world.server.sock = p.world.server.sock := by
  cases hs with
  | event _ h => exact congrArg Prod.fst (exec_fds h)

/-- The descriptor that a message adds is one that came with it. -/
theorem FdStep.kickFd_opened {sock d : Int} {msg : ServerMsg} {maps : Nat → Option MapResult}
    (hs : FdStep fuel p (.message sock msg maps) q)
    (hreg : p.world.server.fdList.Registered sock .receiveSockServer)
    (hd : msg.kickFd = some d) :
    d ∈ (Event.message sock msg maps).opened p.world := by
  cases hs with
  | event _ h =>
      have hnum : msg.fdNum = 1 := by
        cases exec_cases h with
        | message _ hmsg => exact (inMsgServer_fds hmsg).2 (by rw [hd]; rfl)
        | unreadMessage hunread => exact absurd hreg hunread
      rw [Event.opened, if_pos hreg, hnum, ← ServerMsg.fds_of_kickFd hd]
      exact List.mem_singleton.mpr rfl

/-- **Every event keeps the registered descriptors open and registered once.** -/
theorem registeredOnce_step (h : RegisteredOnce p) (hs : FdStep fuel p e q) :
    RegisteredOnce q := by
  have hlist := hs.fdList
  rw [RegisteredOnce, hlist]
  have hkick := @FdStep.kickFd_opened fuel p q
  cases hs with
  | @event w hnew hexec =>
  cases e with
  | accept sock =>
      rw [Event.nextFds]
      split
      · rename_i hreg
        have hmem : sock ∈ (Event.accept sock).opened p.world := by
          rw [Event.opened, if_pos hreg]
          exact List.mem_singleton.mpr rfl
        refine (h.add (hnew.2 sock hmem).2).mono fun i _ hi => ⟨?_, nofun⟩
        rcases hi with hi | hi
        · exact .inl hi
        · rw [hi]
          exact .inr hmem
      · exact h.mono fun i _ hi => ⟨.inl hi, nofun⟩
  | message sock msg maps =>
      rw [Event.nextFds]
      split
      · rename_i hreg
        cases hd : msg.kickFd with
        | none => exact h.mono fun i _ hi => ⟨.inl hi, nofun⟩
        | some d =>
            have hmem := hkick (.event hnew hexec) hreg hd
            refine (h.add (hnew.2 d hmem).2).mono fun i _ hi => ⟨?_, nofun⟩
            rcases hi with hi | hi
            · exact .inl hi
            · rw [hi]
              exact .inr hmem
      · exact h.mono fun i _ hi => ⟨.inl hi, nofun⟩
  | hangup sock =>
      rw [Event.nextFds]
      split
      · rename_i hreg
        obtain ⟨hdel, hne⟩ := OnceOpen.del h sock
        refine hdel.mono fun i hi hopen => ⟨.inl hopen, ?_⟩
        rw [Event.closed, if_pos hreg, ne_eq, Option.some.injEq]
        intro heq
        by_cases hsock : sock = -1
        · exact hi (heq.symm.trans hsock)
        · exact hne hsock i heq.symm
      · rename_i hreg
        refine h.mono fun i _ hi => ⟨.inl hi, ?_⟩
        rw [Event.closed, if_neg hreg]
        exact nofun
  | kick fd r =>
      rw [Event.nextFds]
      split
      · exact (OnceOpen.del h fd).1.mono fun i _ hi => ⟨.inl hi, nofun⟩
      · exact h.mono fun i _ hi => ⟨.inl hi, nofun⟩
  | poll => exact h.mono fun i _ hi => ⟨.inl hi, nofun⟩
  | peer mem => exact h.mono fun i _ hi => ⟨.inl hi, nofun⟩

end Steps

/-! ### The two start modes -/

/-- A listening server registers its socket once. -/
theorem Started.registeredOnce {sock : Int} {p : Process} (h : Started sock true p) :
    RegisteredOnce p := by
  have hlist : p.fdList = (initFdList.addFdList sock .acceptSockServer).2 :=
    congrArg VhostServer.fdList h.server
  rw [RegisteredOnce, hlist]
  refine (onceOpen_init.add (d := sock) id).mono fun i _ hi => ?_
  rcases hi with hi | hi
  · exact hi.elim
  · rw [hi]
    exact h.sock_open

/-- A connecting server registers its socket twice. -/
theorem Started.not_registeredOnce {sock : Int} {p : Process} (h : Started sock false p) :
    ¬ RegisteredOnce p := by
  have hne : sock ≠ -1 := by
    have := h.sock_nonneg
    omega
  have hlist : p.fdList = ((initFdList.addFdList sock .receiveSockServer).2.addFdList sock
      .receiveSockServer).2 := congrArg VhostServer.fdList h.server
  have hinit : 0 < initFdList.freeSlots := by decide
  obtain ⟨i, hi⟩ := (FdList.registered_addFdList (d := sock) (h := .receiveSockServer)
    hinit hne).mpr (.inl ⟨rfl, rfl⟩)
  have hcount := FdList.freeSlots_addFdList (h := .receiveSockServer) hinit hne
  have hten : initFdList.freeSlots = 10 := by decide
  generalize (initFdList.addFdList sock .receiveSockServer).2 = l at hlist hi hcount
  obtain ⟨k, hk⟩ := SlotTable.exists_of_count_pos
    (show 0 < SlotTable.count FdList.isFree l from by unfold FdList.freeSlots at hcount hten; omega)
  intro hp
  rw [RegisteredOnce, hlist, FdList.addFdList_snd] at hp
  rcases SlotTable.replaceFirst_cases FdList.isFree ⟨sock, some .receiveSockServer⟩ l with
    ⟨hnone, -⟩ | ⟨j, hj, heq⟩
  · rw [hnone k] at hk
    cases hk
  · -- the second slot was free, so it is another one than the first
    have hij : i ≠ j := by
      rintro rfl
      rw [hi] at hj
      exact hne (of_decide_eq_true hj)
    rw [heq] at hp
    refine hij (hp.once i j ?_ ?_)
    · rw [Function.update_of_ne hij, Function.update_self, hi]
    · rw [Function.update_of_ne hij, hi]
      exact hne

/-- **Every registered descriptor is open and registered once, in every state of every run,
exactly in a server that listens.** -/
theorem registered_once_iff (fuel : Nat) (isListen : Bool) :
    (∀ sock p ls q, Started sock isListen p → Transition.Run (FdStep fuel) p ls q →
      RegisteredOnce q) ↔ isListen = true := by
  constructor
  · intro h
    cases isListen with
    | true => rfl
    | false =>
        have hstart : Started 0 false ⟨freshWorld 0 false, fun fd => fd = 0⟩ :=
          ⟨rfl, Int.le_refl 0, rfl⟩
        exact absurd (h 0 _ [] _ hstart .nil) hstart.not_registeredOnce
  · rintro rfl sock p ls q hstart hrun
    exact hrun.invariant (A := fun _ => True)
      (fun _ _ _ hp _ hs => registeredOnce_step hp hs) hstart.registeredOnce fun _ _ => trivial

/-- A connecting server: its socket is in two slots, and once the peer has closed it, one of
them holds a descriptor that is closed. -/
theorem connecting_keeps_closed_socket :
    ∃ p q, Started 3 false p ∧ ¬ RegisteredOnce p ∧
      Transition.Run (FdStep 0) p [.hangup 3] q ∧
      ¬ q.isOpen 3 ∧ q.fdList.Registered 3 .receiveSockServer := by
  have hstart : Started 3 false ⟨freshWorld 3 false, fun fd => fd = 3⟩ :=
    ⟨rfl, by decide, rfl⟩
  have hreg : (freshWorld 3 false).server.fdList.Registered 3 .receiveSockServer := by decide
  have hexec : (exec 0 (freshWorld 3 false) (.hangup 3)).out = .ret
      ((freshWorld 3 false).setFdList ((freshWorld 3 false).server.fdList.delFdList 3).2) := by
    rw [exec, if_pos hreg]
    rfl
  refine ⟨_, _, hstart, hstart.not_registeredOnce,
    .one (.event (unused_nil _) hexec), ?_, ?_⟩
  · rintro ⟨-, hclosed⟩
    rw [Event.closed, if_pos hreg] at hclosed
    exact hclosed rfl
  · show ((freshWorld 3 false).server.fdList.delFdList 3).2.Registered 3 .receiveSockServer
    decide

end Vapp
