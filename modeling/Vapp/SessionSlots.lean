import Vapp.FdLodging

/-! # The slots of a client session

A session takes a slot for its connection and gives it back when the peer closes.  The slot
of a kick descriptor is only given back when the descriptor is read as closed, so the list is
as it was before the session exactly if this has happened to every one that was sent.
-/
namespace Vapp

open Lodging (State)

/-- The descriptor that an event adds for kicks on the TX ring. -/
def Event.kickFd : Event → Option Int
  | .message _ msg _ => msg.kickFd
  | _ => none

/-- What happens while a client is connected through `sock`. -/
def Event.During (sock : Int) : Event → Prop
  | .message s _ _ => s = sock
  | .kick _ _ | .poll | .peer _ => True
  | .accept _ | .hangup _ => False

/-- One client: it is accepted, and closes its connection after some events. -/
structure ClientSession where
  sock : Int
  events : List Event
  during : ∀ e ∈ events, e.During sock

/-- All events of a session. -/
def ClientSession.all (c : ClientSession) : List Event :=
  .accept c.sock :: (c.events ++ [.hangup c.sock])

/-- The events of some sessions, one after the other. -/
def allEvents (sessions : List ClientSession) : List Event := sessions.flatMap ClientSession.all

/-- The kick descriptors that are waited for after an event of a session: a new one if there
is room, beside the sockets, and all but one that is read as closed. -/
def Event.kicksAfter (ds : List Int) : Event → List Int
  | .message _ msg _ =>
      match msg.kickFd with
      | some d => if ds.length < otherSlots - 1 then ds ++ [d] else ds
      | none => ds
  | .kick d r => if r = 0 then ds.erase d else ds
  | .accept _ | .hangup _ | .poll | .peer _ => ds

/-- Those left after some events. -/
def kicksLeft (ds : List Int) (es : List Event) : List Int := es.foldl Event.kicksAfter ds

/-- The slot of the listening socket. -/
def listenNode (p : Process) : FdNode := ⟨p.world.server.sock, some .acceptSockServer⟩

/-- The list holds the listening socket and nothing else. -/
structure OnlyListening (p : Process) : Prop where
  listens : ∃ i, p.fdList i = listenNode p
  only : ∀ i, p.fdList i = resetFdNode ∨ p.fdList i = listenNode p

/-! ### Who is in the list -/

section Kicks
variable {g : Int} {es : List Event} {ds : List Int}

theorem kicksLeft_append (ds : List Int) (es es' : List Event) :
    kicksLeft ds (es ++ es') = kicksLeft (kicksLeft ds es) es' := List.foldl_append

/-- At the door only the kick descriptors of the session come and go. -/
theorem door_staying {e : Event} (he : e.During g) {l : Lodging.Label Int Int}
    (hl : e.door = some l) : l.Staying g := by
  cases e with
  | accept _ | hangup _ => exact he.elim
  | message s msg maps =>
      obtain rfl : s = g := he
      obtain ⟨d, -, rfl⟩ := Option.map_eq_some_iff.mp hl
      rfl
  | kick d r =>
      rw [Event.door] at hl
      split at hl
      · cases hl
        trivial
      · cases hl
  | poll | peer _ => cases hl

/-- An event does to the kick descriptors what it does to the lodgers. -/
theorem kicksAfter_eq (ds : List Int) (e : Event) :
    e.kicksAfter ds = Lodging.lodgersAll (otherSlots - 1) ds e.door.toList := by
  cases e with
  | message s msg maps =>
      rw [Event.kicksAfter, Event.door]
      cases msg.kickFd with
      | none => rfl
      | some d => rfl
  | kick d r =>
      rw [Event.kicksAfter, Event.door]
      split
      · rfl
      · rfl
  | accept _ | hangup _ | poll | peer _ => rfl

theorem kicksLeft_eq (es : List Event) : ∀ ds,
    kicksLeft ds es = Lodging.lodgersAll (otherSlots - 1) ds (es.filterMap Event.door) := by
  induction es with
  | nil => exact fun _ => rfl
  | cons e es ih =>
      intro ds
      rw [kicksLeft, List.foldl_cons, kicksAfter_eq]
      refine (ih _).trans ?_
      rw [List.filterMap_cons]
      cases e.door with
      | none => rfl
      | some l => rfl

/-- A session, as a visit to the house. -/
def ClientSession.visit (c : ClientSession) : Int × List (Lodging.Label Int Int) :=
  (c.sock, c.events.filterMap Event.door)

theorem door_session (c : ClientSession) :
    c.all.filterMap Event.door = Lodging.visit c.visit := by
  rw [ClientSession.all, List.filterMap_cons, List.filterMap_append]
  rfl

theorem door_sessions (sessions : List ClientSession) :
    (allEvents sessions).filterMap Event.door =
      (sessions.map ClientSession.visit).flatMap Lodging.visit := by
  rw [allEvents, List.filterMap_flatMap, List.flatMap_map]
  exact congrArg (fun f => sessions.flatMap f) (funext door_session)

theorem kicksLeft_all (ds : List Int) (c : ClientSession) :
    kicksLeft ds c.all = kicksLeft ds c.events := by
  rw [ClientSession.all, kicksLeft, List.foldl_cons, List.foldl_append]
  rfl

theorem kicksLeft_sessions (sessions : List ClientSession) (ds : List Int) :
    kicksLeft ds (allEvents sessions) = Lodging.lodgersAll (otherSlots - 1) ds
      ((sessions.map ClientSession.visit).flatMap Prod.snd) := by
  induction sessions generalizing ds with
  | nil => rfl
  | cons c sessions ih =>
      rw [allEvents, List.flatMap_cons, kicksLeft_append, kicksLeft_all]
      refine (ih _).trans ?_
      rw [kicksLeft_eq]
      exact List.foldl_append.symm

/-- **After whole sessions** no connection is left, but their kick descriptors are. -/
theorem lodging_after (sessions : List ClientSession) :
    lodging (allEvents sessions) = ⟨0, kicksLeft [] (allEvents sessions)⟩ := by
  have hroom : ([] : List Int).length ≤ otherSlots - 1 := Nat.zero_le _
  have hvisits := Lodging.afterAll_visits (sessions.map ClientSession.visit) hroom
    fun v hv l hl => by
      obtain ⟨c, -, rfl⟩ := List.mem_map.mp hv
      obtain ⟨e, he, hdoor⟩ := List.mem_filterMap.mp hl
      exact door_staying (c.during e he) hdoor
  rw [← door_sessions, ← kicksLeft_sessions] at hvisits
  exact hvisits

/-- Who is in the list during a session that follows others. -/
theorem lodging_during (sessions : List ClientSession) (hes : ∀ e ∈ es, e.During g) :
    lodging (allEvents sessions ++ .accept g :: es) =
      ⟨{g}, kicksLeft [] (allEvents sessions ++ es)⟩ := by
  have hroom : (kicksLeft [] (allEvents sessions)).length ≤ otherSlots - 1 := by
    rw [kicksLeft_eq]
    exact Lodging.length_lodgersAll (Nat.zero_le _) _
  have hdoors : ∀ l ∈ es.filterMap Event.door, l.Staying g := by
    intro l hl
    obtain ⟨e, he, hdoor⟩ := List.mem_filterMap.mp hl
    exact door_staying (hes e he) hdoor
  have hstay := Lodging.afterAll_stay hroom hdoors
  rw [lodging, List.filterMap_append, State.afterAll, List.foldl_append]
  refine (congrArg (fun s => List.foldl _ s _) (lodging_after sessions)).trans
    (hstay.trans ?_)
  rw [kicksLeft_append, kicksLeft_eq es]

end Kicks

/-! ### Only the listening socket -/

theorem Lodges.onlyListening_iff {sock : Int} {p : Process} {s : State Int Int}
    (h : Lodges sock p.fdList s) (hsock : p.world.server.sock = sock) :
    OnlyListening p ↔ s.guests = 0 ∧ s.lodgers = [] := by
  have hnode : listenNode p = ⟨sock, some .acceptSockServer⟩ := by
    rw [listenNode, hsock]
  constructor
  · intro honly
    have hnone : ∀ fd k, p.fdList.Registered fd k → k = .acceptSockServer := by
      rintro fd k ⟨i, hi⟩
      rcases honly.only i with hfree | hlisten
      · rw [hi] at hfree
        cases hfree
      · rw [hi] at hlisten
        cases hlisten
        rfl
    constructor
    · exact Multiset.eq_zero_of_forall_notMem fun g hg =>
        nomatch hnone g _ (h.connected_iff.mpr hg)
    · exact List.eq_nil_iff_forall_not_mem.mpr fun d hd =>
        nomatch hnone d _ (h.listened_iff.mpr hd)
  · rintro ⟨hguests, hlodgers⟩
    refine ⟨hnode ▸ h.listens, fun i => ?_⟩
    by_cases hfree : (p.fdList i).fd = -1
    · exact .inl (h.reset i hfree)
    · have hmem : p.fdList i ∈ p.fdList.entries := FdList.mem_entries.mpr ⟨⟨i, rfl⟩, hfree⟩
      rw [h.entries, hguests, hlodgers] at hmem
      rw [hnode]
      exact .inr (Multiset.mem_singleton.mp hmem)

/-- **After whole sessions** only the listening socket is registered exactly if no kick
descriptor is left. -/
theorem onlyListening_after {fuel : Nat} {sock : Int} {p q : Process}
    {sessions : List ClientSession} (hstart : Started sock true p)
    (hrun : Transition.Run (FdStep fuel) p (allEvents sessions) q) :
    OnlyListening q ↔ kicksLeft [] (allEvents sessions) = [] := by
  have hsock : q.world.server.sock = sock := by
    rw [run_sock hrun, hstart.server]
    rfl
  rw [(lodges_of_run hstart hrun).onlyListening_iff hsock, lodging_after]
  exact and_iff_right rfl

/-! ### What later sessions find -/

/-- The slots that sessions took are free again: only the listening socket is registered,
`accept_sock_server` and then `_set_vring_kick` find a slot, and no other function can be
called for a descriptor. -/
structure GaveBack (p : Process) : Prop where
  only : OnlyListening p
  free : ∃ i j, i ≠ j ∧ FdList.isFree (p.fdList i) = true ∧ FdList.isFree (p.fdList j) = true
  silent : ∀ fd k, p.fdList.Registered fd k →
    fd = p.world.server.sock ∧ k = .acceptSockServer

theorem OnlyListening.gaveBack {p : Process} (h : OnlyListening p) (honce : RegisteredOnce p)
    (hne : p.world.server.sock ≠ -1) : GaveBack p := by
  refine ⟨h, ?_, ?_⟩
  · have hused : ∀ i,
        FdList.isFree (p.fdList i) = true ∨ (p.fdList i).fd = p.world.server.sock := by
      intro i
      rcases h.only i with hi | hi
      · exact .inl (by rw [hi]; rfl)
      · exact .inr (by rw [hi]; rfl)
    -- of three slots, two are not that of the listening socket
    have hone : ∀ i j, i ≠ j → FdList.isFree (p.fdList i) = true ∨
        FdList.isFree (p.fdList j) = true := by
      intro i j hij
      rcases hused i with hi | hi
      · exact .inl hi
      rcases hused j with hj | hj
      · exact .inr hj
      · exact absurd (honce.once i j (hi.trans hj.symm) (by rw [hi]; exact hne)) hij
    rcases hone (0 : Fin 10) (1 : Fin 10) (show (0 : Fin 10) ≠ 1 from by decide) with h0 | h1
    · rcases hone (1 : Fin 10) (2 : Fin 10) (show (1 : Fin 10) ≠ 2 from by decide) with h1 | h2
      · exact ⟨(0 : Fin 10), (1 : Fin 10), show (0 : Fin 10) ≠ 1 from by decide, h0, h1⟩
      · exact ⟨(0 : Fin 10), (2 : Fin 10), show (0 : Fin 10) ≠ 2 from by decide, h0, h2⟩
    · rcases hone (0 : Fin 10) (2 : Fin 10) (show (0 : Fin 10) ≠ 2 from by decide) with h0 | h2
      · exact ⟨(0 : Fin 10), (1 : Fin 10), show (0 : Fin 10) ≠ 1 from by decide, h0, h1⟩
      · exact ⟨(1 : Fin 10), (2 : Fin 10), show (1 : Fin 10) ≠ 2 from by decide, h1, h2⟩
  · rintro fd k ⟨i, hi⟩
    rcases h.only i with hfree | hlisten
    · rw [hi] at hfree
      cases hfree
    · rw [hi] at hlisten
      cases hlisten
      exact ⟨rfl, rfl⟩

/-- If every session leaves none of its kick descriptors then none is left. -/
theorem kicksLeft_of_each {sessions : List ClientSession}
    (h : ∀ c ∈ sessions, kicksLeft [] c.events = []) : kicksLeft [] (allEvents sessions) = [] := by
  induction sessions with
  | nil => rfl
  | cons c sessions ih =>
      rw [allEvents, List.flatMap_cons, kicksLeft_append, kicksLeft_all, h c List.mem_cons_self]
      exact ih fun c' hc' => h c' (List.mem_cons_of_mem c hc')

/-- **The slots of every session of a run are free after it exactly if in every session each
kick descriptor that has been registered is read as closed later.** -/
theorem sessions_give_back_slots_iff {fuel : Nat} {sock : Int} {p q : Process}
    {sessions : List ClientSession} (hstart : Started sock true p)
    (hrun : Transition.Run (FdStep fuel) p (allEvents sessions) q) :
    (∀ pre post r, sessions = pre ++ post → Transition.Run (FdStep fuel) p (allEvents pre) r →
      Transition.Run (FdStep fuel) r (allEvents post) q → GaveBack r) ↔
    ∀ c ∈ sessions, kicksLeft [] c.events = [] := by
  have hne : sock ≠ -1 := by
    have := hstart.sock_nonneg
    omega
  constructor
  · intro hall c hc
    obtain ⟨pre, post, rfl⟩ := List.append_of_mem hc
    -- nothing is left before the session, and nothing after it
    have hnone : ∀ pre' post', pre ++ c :: post = pre' ++ post' →
        kicksLeft [] (allEvents pre') = [] := by
      intro pre' post' heq
      have hrun' := hrun
      rw [heq, allEvents, List.flatMap_append] at hrun'
      obtain ⟨r, h1, h2⟩ := hrun'.split
      exact (onlyListening_after hstart h1).mp (hall pre' post' r heq h1 h2).only
    have hpast := hnone pre (c :: post) rfl
    have hlast := hnone (pre ++ [c]) post (List.append_cons pre c post)
    rw [allEvents, List.flatMap_append] at hlast
    rw [allEvents] at hpast
    rwa [kicksLeft_append, hpast, List.flatMap_cons, List.flatMap_nil, List.append_nil,
      kicksLeft_all] at hlast
  · intro hnone pre post r heq hpre _
    have hsock : r.world.server.sock ≠ -1 := by
      rw [run_sock hpre, hstart.server]
      exact hne
    refine OnlyListening.gaveBack ?_ (run_registeredOnce hstart.registeredOnce hpre) hsock
    refine (onlyListening_after hstart hpre).mpr (kicksLeft_of_each fun c hc => hnone c ?_)
    rw [heq]
    exact List.mem_append_left post hc

/-- A process that listens on descriptor `3`. -/
def listening : Process := ⟨freshWorld 3 true, fun fd => fd = 3⟩

theorem started_listening : Started 3 true listening := ⟨rfl, by decide, rfl⟩

theorem listening_isOpen (fd : Int) :
    listening.isOpen fd ↔ fd = 3 ∨ (6 ≤ fd ∧ fd < (0 : Nat) + 6) := by
  show fd = 3 ↔ _
  omega

theorem no_session_yet (fuel : Nat) :
    Transition.Run (FdStep fuel) listening (allEvents []) listening := .nil

/-! ### Clients without end -/

section Clients
variable {p : Process} {g : Int}

theorem exists_accept (fuel : Nat)
    (hlisten : p.world.server.fdList.Registered p.world.server.sock .acceptSockServer)
    (hnonneg : 0 ≤ g) (hnew : ¬ p.isOpen g) :
    ∃ q, FdStep fuel p (.accept g) q ∧ ∀ fd, q.isOpen fd ↔ p.isOpen fd ∨ fd = g := by
  have hopened : (Event.accept g).opened p.world = [g] := if_pos hlisten
  have hunused : Unused p.isOpen ((Event.accept g).opened p.world) := by
    rw [hopened]
    refine ⟨List.nodup_singleton g, fun fd hfd => ?_⟩
    rw [List.mem_singleton.mp hfd]
    exact ⟨hnonneg, hnew⟩
  have hexec : (exec fuel p.world (.accept g)).out = .ret (p.world.setFdList
      (p.world.server.fdList.addFdList g .receiveSockServer).2) := by
    rw [exec, if_pos hlisten]
    rfl
  refine ⟨_, .event hunused hexec, fun fd => ?_⟩
  rw [hopened]
  exact ⟨fun h => h.1.imp_right List.mem_singleton.mp,
    fun h => ⟨h.imp_right List.mem_singleton.mpr, (Option.some_ne_none fd).symm⟩⟩

/-- The message that hands over the kick descriptor `fd + 1`. -/
def kickEvent (g : Int) (fd : Nat) : Event := .message g (txKick fd).msg fun _ => none

theorem kickEvent_kickFd (g : Int) (fd : Nat) : (kickEvent g fd).kickFd = some (fd + 1 : Int) := by
  have hfirst := ((txKick fd).first (fd + 1) rfl).1
  have hkick : (txKick fd).msg.kickFd = some ((txKick fd).msg.fds 0) :=
    if_pos ⟨(txKick fd).request, (txKick fd).payload⟩
  rw [kickEvent, Event.kickFd, hkick, hfirst]

theorem exists_kick (fuel : Nat)
    (hconn : p.world.server.fdList.Registered g .receiveSockServer) (fd : Nat)
    (hnew : ¬ p.isOpen (fd + 1)) :
    ∃ q, FdStep fuel p (kickEvent g fd) q ∧ q.world.server.isPolling = false ∧
      ∀ d, q.isOpen d ↔ p.isOpen d ∨ d = fd + 1 := by
  have hfirst := ((txKick fd).first (fd + 1) rfl).1
  have hopened : (kickEvent g fd).opened p.world = [(fd + 1 : Int)] := by
    have hnum := (txKick fd).single rfl
    rw [kickEvent, Event.opened, if_pos hconn, hnum]
    exact congrArg (fun d => [d]) hfirst
  have hunused : Unused p.isOpen ((kickEvent g fd).opened p.world) := by
    rw [hopened]
    refine ⟨List.nodup_singleton _, fun d hd => ?_⟩
    rw [List.mem_singleton.mp hd]
    exact ⟨by omega, hnew⟩
  have hexec : (exec fuel p.world (kickEvent g fd)).out =
      .ret (p.world.setKick txIdx (some (fd + 1 : Int))) := by
    rw [kickEvent, exec, if_pos hconn]
    exact Traced.bind_out_eq_ret.mpr ⟨_, inMsgServer_kick p.world (txKick fd) _, rfl⟩
  refine ⟨_, .event hunused hexec, setKick_isPolling _ txIdx _, fun d => ?_⟩
  rw [hopened]
  exact ⟨fun h => h.1.imp_right List.mem_singleton.mp,
    fun h => ⟨h.imp_right List.mem_singleton.mpr, (Option.some_ne_none d).symm⟩⟩

theorem exists_close (fuel : Nat)
    (hconn : p.world.server.fdList.Registered g .receiveSockServer) :
    ∃ q, FdStep fuel p (.hangup g) q ∧ ∀ fd, q.isOpen fd ↔ p.isOpen fd ∧ fd ≠ g := by
  have hexec : (exec fuel p.world (.hangup g)).out =
      .ret (p.world.setFdList (p.world.server.fdList.delFdList g).2) := by
    rw [exec, if_pos hconn]
    rfl
  refine ⟨_, .event (unused_nil _) hexec, fun fd => ?_⟩
  have hclosed : (Event.hangup g).closed p.world = some g := if_pos hconn
  have hne : some g ≠ some fd ↔ fd ≠ g := by
    rw [Ne, Option.some.injEq, eq_comm]
  show (p.isOpen fd ∨ fd ∈ []) ∧ (Event.hangup g).closed p.world ≠ some fd ↔ _
  rw [hclosed, hne]
  exact and_congr_left fun _ => or_iff_left List.not_mem_nil

theorem exists_readClosed (fuel : Nat) (p : Process) (d : Int) :
    ∃ q, FdStep fuel p (.kick d 0) q ∧ ∀ fd, q.isOpen fd ↔ p.isOpen fd := by
  have hsame : ∀ fd, (p.isOpen fd ∨ fd ∈ (Event.kick d 0).opened p.world) ∧
      (Event.kick d 0).closed p.world ≠ some fd ↔ p.isOpen fd := fun fd =>
    ⟨fun h => h.1.resolve_right List.not_mem_nil, fun h => ⟨.inl h, nofun⟩⟩
  by_cases hreg : p.world.server.fdList.Registered d .kickServer
  · have hexec : (exec fuel p.world (.kick d 0)).out =
        .ret (p.world.setFdList (p.world.server.fdList.delFdList d).2) := by
      rw [exec, if_pos hreg]
      rfl
    exact ⟨_, .event (unused_nil _) hexec, hsame⟩
  · have hexec : (exec fuel p.world (.kick d 0)).out = .ret p.world := by
      rw [exec, if_neg hreg]
      rfl
    exact ⟨_, .event (unused_nil _) hexec, hsame⟩

end Clients

section Existence
variable {fuel n : Nat} {q : Process} {sessions : List ClientSession}

/-- One more client comes and hands over the kick descriptor `n + 6`. -/
theorem exists_next (hrun : Transition.Run (FdStep fuel) listening (allEvents sessions) q)
    (hopen : ∀ fd, q.isOpen fd ↔ fd = 3 ∨ (6 ≤ fd ∧ fd < n + 6)) : ∃ q',
    Transition.Run (FdStep fuel) listening
      (allEvents sessions ++ .accept 4 :: [kickEvent 4 (n + 5)]) q' ∧
    q'.world.server.isPolling = false ∧ q'.world.server.fdList.Registered 4 .receiveSockServer ∧
    ∀ fd, q'.isOpen fd ↔ fd = 3 ∨ fd = 4 ∨ (6 ≤ fd ∧ fd < n + 7) := by
  have hsock : q.world.server.sock = 3 := run_sock hrun
  have hlisten := (lodges_of_run started_listening hrun).listens
  rw [← hsock] at hlisten
  obtain ⟨q1, h1, hopen1⟩ := exists_accept (g := 4) fuel hlisten (by decide)
    (by rw [hopen]; omega)
  have hconn : q1.world.server.fdList.Registered 4 .receiveSockServer := by
    refine (lodges_of_run started_listening (hrun.append (.one h1))).connected_iff.mpr ?_
    rw [lodging_during (g := 4) sessions (List.forall_mem_nil _)]
    exact Multiset.mem_singleton_self 4
  obtain ⟨q2, h2, hmode, hopen2⟩ := exists_kick fuel hconn (n + 5)
    (by rw [hopen1, hopen]; omega)
  have hrun2 : Transition.Run (FdStep fuel) listening
      (allEvents sessions ++ .accept 4 :: [kickEvent 4 (n + 5)]) q2 :=
    hrun.append (.snoc (.one h1) h2)
  have hduring : ∀ e ∈ [kickEvent 4 (n + 5)], e.During 4 := fun e he => by
    rw [List.mem_singleton.mp he]
    rfl
  refine ⟨q2, hrun2, hmode, ?_, fun fd => ?_⟩
  · refine (lodges_of_run started_listening hrun2).connected_iff.mpr ?_
    rw [lodging_during sessions hduring]
    exact Multiset.mem_singleton_self 4
  · rw [hopen2, hopen1, hopen]
    push_cast
    omega

theorem allEvents_snoc (sessions : List ClientSession) (c : ClientSession) :
    allEvents (sessions ++ [c]) = allEvents sessions ++ c.all := by
  rw [allEvents, List.flatMap_append]
  exact congrArg _ (List.append_nil _)

end Existence

/-- The session of a client that hands over the kick descriptor `fd + 1`. -/
def kickSession (fd : Nat) : ClientSession where
  sock := 4
  events := [kickEvent 4 fd]
  during e he := by
    rw [List.mem_singleton.mp he]
    rfl

/-- In this session the descriptor is read as closed. -/
def closingSession (fd : Nat) : ClientSession where
  sock := 4
  events := [kickEvent 4 fd, .kick (fd + 1) 0]
  during e he := by
    rcases List.mem_cons.mp he with rfl | he
    · rfl
    · rw [List.mem_singleton.mp he]
      trivial

theorem kicksLeft_kickSession (fd : Nat) :
    kicksLeft [] (kickSession fd).events = [(fd + 1 : Int)] := by
  have hkick : (txKick fd).msg.kickFd = some (fd + 1 : Int) := kickEvent_kickFd 4 fd
  show (kickEvent 4 fd).kicksAfter [] = _
  rw [kickEvent, Event.kicksAfter, hkick]
  rfl

theorem kicksLeft_closingSession (fd : Nat) : kicksLeft [] (closingSession fd).events = [] := by
  have hfirst := kicksLeft_kickSession fd
  show (Event.kick (fd + 1) 0).kicksAfter (kicksLeft [] (kickSession fd).events) = []
  rw [hfirst, Event.kicksAfter, if_pos rfl, List.erase_cons_head]

/-- One more client comes and goes, and its kick descriptor is read as closed. -/
theorem exists_closingSession {fuel n : Nat} {q : Process} {sessions : List ClientSession}
    (hrun : Transition.Run (FdStep fuel) listening (allEvents sessions) q)
    (hopen : ∀ fd, q.isOpen fd ↔ fd = 3 ∨ (6 ≤ fd ∧ fd < n + 6)) : ∃ q',
    Transition.Run (FdStep fuel) listening (allEvents (sessions ++ [closingSession (n + 5)])) q' ∧
    ∀ fd, q'.isOpen fd ↔ fd = 3 ∨ (6 ≤ fd ∧ fd < n + 7) := by
  obtain ⟨q1, hrun1, -, -, hopen1⟩ := exists_next hrun hopen
  obtain ⟨q2, h2, hopen2⟩ := exists_readClosed fuel q1 (((n + 5 : Nat) : Int) + 1)
  have hrun2 : Transition.Run (FdStep fuel) listening
      (allEvents sessions ++ .accept 4 :: (closingSession (n + 5)).events) q2 := by
    have := hrun1.snoc h2
    rwa [List.append_assoc] at this
  have hconn : q2.world.server.fdList.Registered 4 .receiveSockServer := by
    refine (lodges_of_run started_listening hrun2).connected_iff.mpr ?_
    rw [lodging_during (g := 4) sessions (closingSession (n + 5)).during]
    exact Multiset.mem_singleton_self 4
  obtain ⟨q3, h3, hopen3⟩ := exists_close fuel hconn
  refine ⟨q3, ?_, fun fd => ?_⟩
  · rw [allEvents_snoc]
    have := hrun2.snoc h3
    rwa [List.append_assoc] at this
  · rw [hopen3, hopen2, hopen1]
    omega

/-- Two clients whose kick descriptors are read as closed give their slots back. -/
theorem sessions_give_back_slots_demo : ∃ q,
    Transition.Run (FdStep 0) listening (allEvents [closingSession 5, closingSession 6]) q ∧
    ∀ pre post r, [closingSession 5, closingSession 6] = pre ++ post →
      Transition.Run (FdStep 0) listening (allEvents pre) r →
      Transition.Run (FdStep 0) r (allEvents post) q → GaveBack r := by
  obtain ⟨q1, hrun1, hopen1⟩ := exists_closingSession (n := 0)
    (no_session_yet 0) listening_isOpen
  obtain ⟨q, hrun, -⟩ := exists_closingSession (n := 1) hrun1 hopen1
  refine ⟨q, hrun, (sessions_give_back_slots_iff started_listening hrun).mpr ?_⟩
  intro c hc
  rcases List.mem_cons.mp hc with rfl | hc
  · exact kicksLeft_closingSession 5
  · rw [List.mem_singleton.mp hc]
    exact kicksLeft_closingSession 6

/-- A client that sends one kick descriptor, `6`, and closes its connection: the descriptor
stays registered, with the function that serves the ring of the finished session. -/
theorem kick_descriptor_outlives_session : ∃ (c : ClientSession) (q : Process),
    c.sock = 4 ∧ c.events = [.message 4 (txKick 5).msg fun _ => none] ∧
    Transition.Run (FdStep 0) listening (allEvents [c]) q ∧
    ¬ GaveBack q ∧ q.fdList.Registered 6 .kickServer := by
  obtain ⟨q1, h1, -, hconn, -⟩ := exists_next (n := 0)
    (no_session_yet 0) listening_isOpen
  obtain ⟨q, h2, -⟩ := exists_close 0 hconn
  have hrun : Transition.Run (FdStep 0) listening (allEvents [kickSession 5]) q := h1.snoc h2
  have hlast : q.fdList.Registered 6 .kickServer := by
    refine (lodges_of_run started_listening hrun).listened_iff.mpr ?_
    rw [lodging_after, allEvents, List.flatMap_cons, List.flatMap_nil, List.append_nil,
      kicksLeft_all, kicksLeft_kickSession]
    exact List.mem_singleton.mpr rfl
  refine ⟨kickSession 5, q, rfl, rfl, hrun, fun h => ?_, hlast⟩
  cases (h.silent 6 .kickServer hlast).2

end Vapp
