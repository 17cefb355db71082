import Vapp.SessionSlots
import Vapp.StoppedRing

/-! # How many kick descriptors a server listens to

There is always room for the next client once the others are gone, since kick descriptors
never fill the list.  But of all clients that come one after the other only the first eight
kick descriptors are ever listened to, as long as none of them is read as closed.
-/
namespace Vapp

section Runs
variable {fuel : Nat} {sock : Int} {p q : Process} {es : List Event}

/-- **No client is shut out for good.**  At most eight kick descriptors are listened to at a
time, and once no connection is left the next one is registered. -/
theorem never_shut_out (hstart : Started sock true p)
    (hrun : Transition.Run (FdStep fuel) p es q) :
    (∀ ds : List Int, ds.Nodup → (∀ d ∈ ds, q.fdList.Registered d .kickServer) →
      ds.length ≤ 8) ∧
    ((∀ g, ¬ q.fdList.Registered g .receiveSockServer) → ∀ g r,
      FdStep fuel q (.accept g) r → r.fdList.Registered g .receiveSockServer) := by
  have h := lodges_of_run hstart hrun
  have hwithin := lodging_within es
  constructor
  · intro ds hnodup hds
    have hsub : ds ⊆ (lodging es).lodgers := fun d hd => h.listened_iff.mp (hds d hd)
    exact Nat.le_trans (hnodup.subperm hsub).length_le hwithin.lodgers
  · intro hgone g r hs
    have hsome := lodges_of_run hstart (hrun.snoc hs)
    have hguests : (lodging es).guests = 0 := by
      refine Multiset.eq_zero_of_forall_notMem fun g hg => ?_
      exact hgone g (h.connected_iff.mpr hg)
    have hroom := hwithin.room (by decide) hguests
    rw [hsome.connected_iff, lodging_snoc]
    show g ∈ ((lodging es).after otherSlots (.arrive g)).guests
    rw [Lodging.State.after, if_pos hroom]
    exact Multiset.mem_cons_self g _

end Runs

/-! ### One client after the other -/

/-- The kick descriptors for the TX ring that some events hand over. -/
def sentKicks (es : List Event) : List Int := es.filterMap Event.kickFd

theorem sentKicks_append (es es' : List Event) :
    sentKicks (es ++ es') = sentKicks es ++ sentKicks es' := List.filterMap_append

/-- The server reads a kick descriptor as closed. -/
def Event.ReadsClosed : Event → Prop
  | .kick _ r => r = 0
  | _ => False

section Sessions
variable {fuel : Nat} {sock g : Int} {p q : Process} {es : List Event}
  {sessions : List ClientSession}

/-- **Beside the listening socket and the connection** the kick descriptors that are left are
registered, in a session that follows others. -/
theorem registered_during (hstart : Started sock true p) (hes : ∀ e ∈ es, e.During g)
    (hrun : Transition.Run (FdStep fuel) p (allEvents sessions ++ .accept g :: es) q) (fd : Int)
    (k : FdHandler) : q.fdList.Registered fd k ↔
      (fd = sock ∧ k = .acceptSockServer) ∨ (fd = g ∧ k = .receiveSockServer) ∨
        (fd ∈ kicksLeft [] (allEvents sessions ++ es) ∧ k = .kickServer) := by
  rw [(lodges_of_run hstart hrun).registered_iff, lodging_during sessions hes,
    Multiset.mem_singleton]

/-- Where none is read as closed, the first eight that were handed over are left. -/
theorem kicksLeft_of_open (hopen : ∀ e ∈ es, ¬ e.ReadsClosed) :
    kicksLeft [] es = (sentKicks es).take 8 := by
  have hnone : ∀ l ∈ es.filterMap Event.door, ∀ d, l ≠ .evict d := by
    rintro l hl d rfl
    obtain ⟨e, he, hdoor⟩ := List.mem_filterMap.mp hl
    cases e with
    | kick fd r =>
        rw [Event.door] at hdoor
        split at hdoor
        · rename_i hr
          exact hopen _ he hr
        · cases hdoor
    | message g msg maps =>
        obtain ⟨_, _, hbring⟩ := Option.map_eq_some_iff.mp hdoor
        cases hbring
    | accept _ | hangup _ | poll | peer _ => cases hdoor
  have hbrought : (es.filterMap Event.door).filterMap Lodging.Label.brought = sentKicks es := by
    rw [List.filterMap_filterMap]
    refine congrArg (fun f => es.filterMap f) (funext fun e => ?_)
    cases e with
    | message g msg maps =>
        rw [Event.door, Event.kickFd]
        cases msg.kickFd with
        | none => rfl
        | some d => rfl
    | kick fd r =>
        rw [Event.door]
        split
        · rfl
        · rfl
    | accept _ | hangup _ | poll | peer _ => rfl
  rw [kicksLeft_eq, ← hbrought]
  exact Lodging.lodgersAll_take hnone []

/-- **Only the first eight kick descriptors are ever listened to**, as long as none is read as
closed.  In a session that follows others, beside the listening socket and the connection,
those for the TX ring that came first are registered. -/
theorem first_eight_kicks (hstart : Started sock true p) (hes : ∀ e ∈ es, e.During g)
    (hopen : ∀ e ∈ allEvents sessions ++ es, ¬ e.ReadsClosed)
    (hrun : Transition.Run (FdStep fuel) p (allEvents sessions ++ .accept g :: es) q) (fd : Int)
    (k : FdHandler) : q.fdList.Registered fd k ↔
      (fd = sock ∧ k = .acceptSockServer) ∨ (fd = g ∧ k = .receiveSockServer) ∨
        (fd ∈ (sentKicks (allEvents sessions ++ es)).take 8 ∧ k = .kickServer) := by
  rw [registered_during hstart hes hrun, kicksLeft_of_open hopen]

end Sessions

/-! ### A client that comes too late -/

/-- The message asks for a ring to be polled. -/
def Event.AsksPolling : Event → Prop
  | .message _ msg _ =>
      VhostUserRequest.ofWord msg.msg.request = some .setVringKick ∧
        ∃ i, kickIndex msg.msg.payload.u64 = .ret (i, false)
  | _ => False

/-- What happens after the client `g` has set up the TX ring to be served on kicks: it sets
it up no other way, and nobody kicks the descriptors `old` of the clients that have gone. -/
structure Event.Afterwards (g : Int) (old : List Int) (e : Event) : Prop where
  during : e.During g
  based : ¬ e.Rebases txIdx
  mode : ¬ e.AsksPolling
  gone : ∀ d r, e = .kick d r → d ∉ old

section Late
variable {fuel : Nat} {sock g : Int} {p q r : Process} {es later : List Event}
  {sessions : List ClientSession} {e : Event} {old : List Int}

/-- Only a message that asks for it starts polling, and a kick descriptor ends it. -/
theorem inMsgServer_isPolling {maps : Nat → Option MapResult} {w w' : World}
    {msg msg' : ServerMsg} {a g : Int} (hmode : ¬ (Event.message g msg maps).AsksPolling)
    (hw : VhostUserRequest.ofWord msg.msg.request = some .setVringKick ∨
      w.server.isPolling = false)
    (h : (inMsgServer maps w msg).out = .ret (a, msg', w')) : w'.server.isPolling = false := by
  obtain ⟨req, -, hreq, hout⟩ := inMsgServer_cases h
  by_cases hkick : req = .setVringKick
  · rw [hkick] at hout hreq
    obtain ⟨i, validfd, hindex, -, rfl⟩ := setVringKick_ret hout
    rw [setKick_isPolling]
    cases validfd with
    | false => exact absurd ⟨hreq, i, hindex⟩ hmode
    | true => rfl
  · rw [inMsgServer_server hreq hkick h]
    exact hw.resolve_left fun hreq' => hkick (Option.some.inj (hreq.symm.trans hreq'))

/-- **Nothing consumes the TX ring** while the server listens to old descriptors only. -/
theorem afterwards_step (hkicks : ∀ d, p.fdList.Registered d .kickServer → d ∈ old)
    (hmode : p.world.server.isPolling = false) (he : e.Afterwards g old)
    (hs : FdStep fuel p e q) : q.world.server.isPolling = false ∧
      q.world.position txIdx = p.world.position txIdx := by
  cases hs with
  | event _ hexec =>
      cases exec_cases hexec with
      | accept _ | hangup _ => exact he.during.elim
      | message _ hmsg =>
          exact ⟨inMsgServer_isPolling he.mode (.inr hmode) hmsg,
            (inMsgServer_position he.based hmsg).2⟩
      | kick hreg _ => exact absurd (hkicks _ hreg) (he.gone _ _ rfl)
      | poll hpoll =>
          rcases pollServer_cases hpoll with ⟨_, w1, h1, h2⟩ | ⟨_, rfl⟩
          · rcases pollTx_cases h1 with ⟨hpolling, _⟩ | ⟨_, rfl⟩
            · rw [hmode] at hpolling
              cases hpolling
            · refine ⟨?_, (pollRx_frame h2).1⟩
              rcases pollRx_cases h2 with ⟨_, _, t, m, _, rfl⟩ | ⟨_, rfl⟩
              · exact hmode
              · exact hmode
          · exact ⟨hmode, rfl⟩
      | peer => exact ⟨hmode, rfl⟩
      | notListening _ | unreadMessage _ | unreadHangup _ | unreadKick _ => exact ⟨hmode, rfl⟩

/-- The server listens to old descriptors only, once there are eight. -/
theorem listens_to_old (hstart : Started sock true p)
    (hfull : 8 ≤ (sentKicks (allEvents sessions)).length) (hes : ∀ e ∈ es, e.During g)
    (hopen : ∀ e ∈ allEvents sessions ++ es, ¬ e.ReadsClosed)
    (hrun : Transition.Run (FdStep fuel) p (allEvents sessions ++ .accept g :: es) q) {d : Int}
    (hd : q.fdList.Registered d .kickServer) : d ∈ sentKicks (allEvents sessions) := by
  rw [(lodges_of_run hstart hrun).listened_iff, lodging_during sessions hes,
    kicksLeft_of_open hopen, sentKicks_append, List.take_append_of_le_length hfull] at hd
  exact List.mem_of_mem_take hd

/-- **A client that comes after the eighth kick descriptor is not served**, as long as none is
read as closed.  When it has set up the TX ring to be served on kicks, the server stays where
it is in that ring. -/
theorem late_client_unserved (hstart : Started sock true p)
    (hfull : 8 ≤ (sentKicks (allEvents sessions)).length) (hes : ∀ e ∈ es, e.During g)
    (hrun : Transition.Run (FdStep fuel) p (allEvents sessions ++ .accept g :: es) q)
    (hmode : q.world.server.isPolling = false)
    (hlater : ∀ e ∈ later, e.Afterwards g (sentKicks (allEvents sessions)))
    (hopen : ∀ e ∈ allEvents sessions ++ (es ++ later), ¬ e.ReadsClosed)
    (hrest : Transition.Run (FdStep fuel) q later r) :
    r.world.position txIdx = q.world.position txIdx := by
  suffices h : r.world.server.isPolling = false ∧
      r.world.position txIdx = q.world.position txIdx from h.2
  induction hrest with
  | nil => exact ⟨hmode, rfl⟩
  | @snoc pre r t e hpre hs ih =>
      have hpast := fun e he => hlater e (List.mem_append_left [_] he)
      have hstillOpen : ∀ e ∈ allEvents sessions ++ (es ++ pre), ¬ e.ReadsClosed := by
        intro e he
        refine hopen e ?_
        rw [← List.append_assoc, ← List.append_assoc]
        rw [← List.append_assoc] at he
        exact List.mem_append_left [_] he
      obtain ⟨hpolling, hpos⟩ := ih hpast hstillOpen
      have hduring : ∀ e ∈ es ++ pre, e.During g := by
        intro e he
        rcases List.mem_append.mp he with he | he
        · exact hes e he
        · exact (hpast e he).during
      have hall : Transition.Run (FdStep fuel) p
          (allEvents sessions ++ .accept g :: (es ++ pre)) r := by
        have := hrun.append hpre
        rwa [List.append_assoc, List.cons_append] at this
      have hkicks := fun d => listens_to_old (d := d) hstart hfull hduring hstillOpen hall
      have he := hlater e (List.mem_append_right pre (List.mem_singleton.mpr rfl))
      obtain ⟨hstill, hstep⟩ := afterwards_step hkicks hpolling he hs
      exact ⟨hstill, hstep.trans hpos⟩

end Late

/-! ### Clients without end -/

/-- Some clients, with the kick descriptors `6`, `7` and so on. -/
def kickSessions (n : Nat) : List ClientSession := (List.range n).map fun k => kickSession (k + 5)

theorem kickSessions_succ (n : Nat) :
    kickSessions (n + 1) = kickSessions n ++ [kickSession (n + 5)] := by
  rw [kickSessions, List.range_succ, List.map_append]
  rfl

theorem sentKicks_kickSession (fd : Nat) : sentKicks (kickSession fd).all = [(fd + 1 : Int)] := by
  rw [ClientSession.all, ← List.singleton_append, sentKicks_append, sentKicks_append]
  show [] ++ (List.filterMap Event.kickFd [kickEvent 4 fd] ++ []) = _
  rw [List.filterMap_cons, kickEvent_kickFd]
  rfl

theorem length_sentKicks (n : Nat) :
    (sentKicks (allEvents (kickSessions n))).length = n := by
  induction n with
  | zero => rfl
  | succ n ih =>
      rw [kickSessions_succ, allEvents_snoc, sentKicks_append, List.length_append, ih,
        sentKicks_kickSession]
      rfl

/-- None of their descriptors is read. -/
theorem kickSessions_open {n : Nat} {e : Event} (he : e ∈ allEvents (kickSessions n)) :
    ¬ e.ReadsClosed := by
  obtain ⟨c, hc, he⟩ := List.mem_flatMap.mp he
  obtain ⟨k, -, rfl⟩ := List.mem_map.mp hc
  have hall : (kickSession (k + 5)).all = [.accept 4, kickEvent 4 (k + 5), .hangup 4] := rfl
  rw [hall] at he
  simp only [List.mem_cons, List.not_mem_nil, or_false] at he
  rcases he with rfl | rfl | rfl
  · exact id
  · exact id
  · exact id

/-- Any number of clients can come one after the other. -/
theorem exists_kickSessions (fuel n : Nat) : ∃ q,
    Transition.Run (FdStep fuel) listening (allEvents (kickSessions n)) q ∧
    ∀ fd, q.isOpen fd ↔ fd = 3 ∨ (6 ≤ fd ∧ fd < n + 6) := by
  induction n with
  | zero => exact ⟨listening, no_session_yet fuel, listening_isOpen⟩
  | succ n ih =>
      obtain ⟨q, hrun, hopen⟩ := ih
      obtain ⟨q1, hrun1, -, hconn, hopen1⟩ := exists_next hrun hopen
      obtain ⟨q2, h2, hopen2⟩ := exists_close fuel hconn
      refine ⟨q2, ?_, fun fd => ?_⟩
      · rw [kickSessions_succ, allEvents_snoc]
        have := hrun1.snoc h2
        rwa [List.append_assoc] at this
      · rw [hopen2, hopen1]
        push_cast
        omega

/-- Twenty clients have come and gone, each with a kick descriptor. -/
theorem never_shut_out_demo : ∃ q, Transition.Run (FdStep 0) listening
      (allEvents (kickSessions 20)) q ∧
    (∀ ds : List Int, ds.Nodup → (∀ d ∈ ds, q.fdList.Registered d .kickServer) →
      ds.length ≤ 8) ∧
    ((∀ g, ¬ q.fdList.Registered g .receiveSockServer) → ∀ g r,
      FdStep 0 q (.accept g) r → r.fdList.Registered g .receiveSockServer) := by
  obtain ⟨q, hrun, -⟩ := exists_kickSessions 0 20
  exact ⟨q, hrun, never_shut_out started_listening hrun⟩

/-- The kick descriptor of the ninth client is not registered, that of the eighth is. -/
theorem first_eight_kicks_demo : ∃ q, Transition.Run (FdStep 0) listening
      (allEvents (kickSessions 8) ++ .accept 4 :: (kickSession 13).events) q ∧
    q.fdList.Registered 13 .kickServer ∧ ¬ q.fdList.Registered 14 .kickServer := by
  obtain ⟨q, hrun, hopen⟩ := exists_kickSessions 0 8
  obtain ⟨q', hrun', -⟩ := exists_next hrun hopen
  have hfds : (sentKicks (allEvents (kickSessions 8) ++ (kickSession 13).events)).take 8 =
      [6, 7, 8, 9, 10, 11, 12, 13] := rfl
  have hnone : ∀ e ∈ allEvents (kickSessions 8) ++ (kickSession 13).events,
      ¬ e.ReadsClosed := by
    intro e he
    rcases List.mem_append.mp he with he | he
    · exact kickSessions_open he
    · rw [List.mem_singleton.mp he]
      exact id
  refine ⟨q', hrun', ?_, ?_⟩
  · rw [first_eight_kicks started_listening (kickSession 13).during hnone hrun', hfds]
    decide
  · rw [first_eight_kicks started_listening (kickSession 13).during hnone hrun', hfds]
    decide

/-- The ninth client writes to its ring and kicks. -/
theorem late_client_unserved_demo : ∃ q r, Transition.Run (FdStep 0) listening
      (allEvents (kickSessions 8) ++ .accept 4 :: (kickSession 13).events) q ∧
    Transition.Run (FdStep 0) q [.peer Mem.zero, .kick 14 1] r ∧
    r.world.position txIdx = q.world.position txIdx := by
  obtain ⟨q0, hrun0, hopen⟩ := exists_kickSessions 0 8
  obtain ⟨q, hrun, hmode, -⟩ := exists_next hrun0 hopen
  have hnone : ∀ e ∈ allEvents (kickSessions 8) ++
      ((kickSession 13).events ++ [.peer Mem.zero, .kick 14 1]), ¬ e.ReadsClosed := by
    intro e he
    rcases List.mem_append.mp he with he | he
    · exact kickSessions_open he
    · have hlast : (kickSession 13).events ++ [.peer Mem.zero, .kick 14 1] =
          [kickEvent 4 13, .peer Mem.zero, .kick 14 1] := rfl
      rw [hlast] at he
      simp only [List.mem_cons, List.not_mem_nil, or_false] at he
      rcases he with rfl | rfl | rfl
      · exact id
      · exact id
      · exact show ¬ (1 : Int) = 0 by decide
  have hdeaf : ¬ q.fdList.Registered 14 .kickServer := by
    intro hreg
    have hold := listens_to_old started_listening (length_sentKicks 8).ge
      (kickSession 13).during (fun e he => hnone e ?_) hrun hreg
    · rw [show sentKicks (allEvents (kickSessions 8)) = [6, 7, 8, 9, 10, 11, 12, 13] from rfl]
        at hold
      exact absurd hold (by decide)
    · rw [← List.append_assoc]
      exact List.mem_append_left _ he
  obtain ⟨q1, h1, hlist⟩ : ∃ q1, FdStep 0 q (.peer Mem.zero) q1 ∧ q1.fdList = q.fdList :=
    ⟨_, .event (unused_nil _) rfl, rfl⟩
  have hexec : (exec 0 q1.world (.kick 14 1)).out = .ret q1.world := by
    have hdeaf1 : ¬ q1.world.server.fdList.Registered 14 .kickServer := by
      rw [← hlist] at hdeaf
      exact hdeaf
    rw [exec, if_neg hdeaf1]
    rfl
  have hrest : Transition.Run (FdStep 0) q [.peer Mem.zero, .kick 14 1] _ :=
    .snoc (.one h1) (.event (unused_nil _) hexec)
  have hlater : ∀ e ∈ [Event.peer Mem.zero, .kick 14 1],
      e.Afterwards 4 (sentKicks (allEvents (kickSessions 8))) := by
    have hold : (14 : Int) ∉ sentKicks (allEvents (kickSessions 8)) := by
      rw [show sentKicks (allEvents (kickSessions 8)) = [6, 7, 8, 9, 10, 11, 12, 13] from rfl]
      decide
    intro e he
    rcases List.mem_cons.mp he with rfl | he
    · refine ⟨trivial, id, id, fun d r heq => ?_⟩
      cases heq
    · obtain rfl := List.mem_singleton.mp he
      refine ⟨trivial, id, id, fun d r heq => ?_⟩
      cases heq
      exact hold
  have hfull : 8 ≤ (sentKicks (allEvents (kickSessions 8))).length :=
    (length_sentKicks 8).ge
  exact ⟨q, _, hrun, hrest, late_client_unserved started_listening hfull (kickSession 13).during
    hrun hmode hlater hnone hrest⟩

end Vapp
