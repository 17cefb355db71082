import Vapp.EchoRuns
import Vapp.LostKick

/-! # From the start of both programs

The client uses the TX ring as soon as it has sent its last message, while the server may still
be at the first one.  Until it has handled the last one the server uses neither ring: what the
client does then is what it would do beside a server that has been set up.
-/
namespace Vapp

/-! ### The server between two messages -/

namespace Session
variable (S : Session)

/-- What the five messages of `set_host_vring` do to a ring. -/
def ringSteps (i : RingIdx) : List (Vring → Vring) :=
  [fun v => { v with num := .ofNat vhostVringSize },
    fun v => { v with lastAvailIdx := 0 },
    fun v => { v with kickfd := S.kickfd i },
    fun v => { v with callfd := S.callfd i },
    fun v =>
      { v with
        desc := S.serverBase i + .ofNat offsetofDesc
        avail := S.serverBase i + .ofNat offsetofAvail
        used := S.serverBase i + .ofNat offsetofUsed
        lastUsedIdx := 0 }]

/-- A ring of the server after the first `n` of them. -/
def vringAfter (i : RingIdx) (n : Nat) : Vring :=
  ((S.ringSteps i).take n).foldl (fun v f => f v) initVring

/-- The table of the server after the first `k` messages of the set-up. -/
def tableAfter (k : Nat) : VringTable ServerContext where
  context := ⟨if k < 3 then noRegions else S.memory, fun _ => 0, 0⟩
  handlers := serverHandlers
  vring i := S.vringAfter i (k - (3 + 5 * i))

/-- What it has mapped by then. -/
def spaceAfter (k : Nat) : AddrSpace := if k < 3 then [] else regionSpace S.serverBase

variable {S} {k n : Nat} {i : RingIdx} {f : Vring → Vring}

theorem vringAfter_succ (hf : (S.ringSteps i)[n]? = some f) :
    S.vringAfter i (n + 1) = f (S.vringAfter i n) := by
  rw [vringAfter, List.take_add_one, hf, List.foldl_append]
  rfl

theorem vringAfter_of_le (hn : 5 ≤ n) : S.vringAfter i n = S.vringAfter i 5 := by
  rw [vringAfter, List.take_of_length_le (show (S.ringSteps i).length ≤ n from hn)]
  rfl

/-- One more message for a ring. -/
theorem tableAfter_succ (hn : n < 5) (hf : (S.ringSteps i)[n]? = some f) :
    S.tableAfter (3 + 5 * i + n + 1) =
      (S.tableAfter (3 + 5 * i + n)).setVring i (f ((S.tableAfter (3 + 5 * i + n)).vring i)) := by
  have hi : i.val < 2 := i.isLt
  have hvring : ∀ k j, (S.tableAfter k).vring j = S.vringAfter j (k - (3 + 5 * j.val)) :=
    fun _ _ => rfl
  refine VringTable.mk.injEq .. ▸ ⟨?_, rfl, funext fun j => ?_⟩
  · show (⟨if _ then _ else _, _, _⟩ : ServerContext) = ⟨if _ then _ else _, _, _⟩
    rw [if_neg (by omega), if_neg (by omega)]
  · show S.vringAfter j _ = ((S.tableAfter _).setVring i _).vring j
    by_cases hj : j = i
    · subst hj
      rw [VringTable.setVring_self, hvring, Nat.add_assoc, Nat.add_sub_cancel_left,
        Nat.add_sub_cancel_left, vringAfter_succ hf]
    · have hj2 : j.val < 2 := j.isLt
      have hne : j.val ≠ i.val := fun heq => hj (Fin.ext heq)
      rw [VringTable.setVring_of_ne _ _ hj, hvring]
      rcases Nat.lt_or_gt_of_ne hne with hlt | hgt
      · rw [vringAfter_of_le (by omega)]
        exact (vringAfter_of_le (by omega)).symm
      · refine congrArg (S.vringAfter j) ?_
        omega

/-- The first three messages set up no ring. -/
theorem tableAfter_early (hk : k ≤ 3) : S.tableAfter k =
    { context := ⟨if k < 3 then noRegions else S.memory, fun _ => 0, 0⟩
      handlers := serverHandlers
      vring := fun _ => initVring } := by
  refine VringTable.mk.injEq .. ▸ ⟨rfl, rfl, funext fun i => ?_⟩
  rw [Nat.sub_eq_zero_of_le (by omega)]
  rfl

/-- The TX ring is set up by the last message. -/
theorem tableAfter_unset (hk : k < setupCount) : ((S.tableAfter k).vring txIdx).desc = 0 := by
  show (S.vringAfter txIdx (k - (3 + 5 * 1))).desc = 0
  rw [setupCount] at hk
  have hn : k - 8 < 5 := by omega
  generalize k - 8 = n at hn
  obtain rfl | rfl | rfl | rfl | rfl : n = 0 ∨ n = 1 ∨ n = 2 ∨ n = 3 ∨ n = 4 := by omega
  all_goals rfl

theorem tableAfter_all (m : Mem) : S.tableAfter setupCount = S.serverTable (S.layout m) := by
  refine VringTable.mk.injEq .. ▸ ⟨rfl, rfl, funext fun i => ?_⟩
  rw [S.layout_usedIdx]
  rcases ringIdx_cases i with rfl | rfl <;> rfl

/-- **Every message of the set-up is handled**, and only `VHOST_USER_GET_FEATURES` is
answered. -/
theorem handled_at {w : World} {msg : ServerMsg} (hmsg : SetupMsg S k msg)
    (htable : w.server.table = S.tableAfter k) (hspace : w.space = S.spaceAfter k)
    (hused : ∀ i : RingIdx, (w.mem.used ⟨i, offsetofUsed⟩).idx = 0) :
    ∃ r msg' w', (inMsgServer S.maps w msg).out = .ret (r, msg', w') ∧
      w'.server.table = S.tableAfter (k + 1) ∧ w'.space = S.spaceAfter (k + 1) ∧
      w'.mem = w.mem ∧ (0 < r ↔ k = 1) := by
  have hring : ∀ {i : RingIdx} {n : Nat} {f : Vring → Vring} {msg : ServerMsg},
      (∃ w', SetsRing S.maps w msg i f w') → k = 3 + 5 * i + n → n < 5 →
      (S.ringSteps i)[n]? = some f →
      ∃ r msg' w', (inMsgServer S.maps w msg).out = .ret (r, msg', w') ∧
        w'.server.table = S.tableAfter (k + 1) ∧ w'.space = S.spaceAfter (k + 1) ∧
        w'.mem = w.mem ∧ (0 < r ↔ k = 1) := by
    rintro i n f msg ⟨w', hset⟩ rfl hn hf
    obtain ⟨msg', hout⟩ := hset.out
    refine ⟨0, msg', w', hout, ?_, ?_, hset.mem, by omega⟩
    · rw [hset.table, htable, tableAfter_succ hn hf]
    · rw [hset.space, hspace, spaceAfter, spaceAfter, if_neg (by omega), if_neg (by omega)]
  cases hmsg with
  | owner =>
      refine ⟨0, _, w, rfl, ?_, hspace, rfl, by decide⟩
      rw [htable, tableAfter_early (by decide), tableAfter_early (by decide)]
      rfl
  | features =>
      refine ⟨1, _, w, rfl, ?_, hspace, rfl, by decide⟩
      rw [htable, tableAfter_early (by decide), tableAfter_early (by decide)]
      rfl
  | memTable =>
      obtain ⟨w', msg', hout, hspace', hmem, htable'⟩ :=
        S.inMsgServer_memTable_of_fresh hspace (by rw [World.context, htable]; rfl)
      refine ⟨0, msg', w', hout, ?_, hspace', hmem, by decide⟩
      rw [htable', htable, tableAfter_early (by decide), tableAfter_early (by decide)]
      rfl
  | num i => exact hring (setsRing_num S.maps w i _) (n := 0) (by omega) (by omega) rfl
  | base i => exact hring (setsRing_base S.maps w i 0) (n := 1) (by omega) (by omega) rfl
  | kick i =>
      exact hring (setsRing_kick S.maps w i (S.kickfd_pos i)) (n := 2) (by omega) (by omega) rfl
  | call i =>
      exact hring (setsRing_call S.maps w i (S.callfd_pos i)) (n := 3) (by omega) (by omega) rfl
  | addr i =>
      have hmemory : w.context.memory = S.memory := by
        rw [World.context, htable]
        exact if_neg (by omega)
      have hmap : ∀ off, off < vhostClientPageSize.toNat →
          mapUserAddr w.context.memory (S.clientBase i + .ofNat off) =
            S.serverBase i + .ofNat off :=
        fun off hoff => by rw [hmemory, S.mapUserAddr_eq i hoff]
      have hU : w.space.resolve (mapUserAddr w.context.memory
          (vringAddr (.ofNat i) (S.clientBase i)).usedUserAddr) = some ⟨i, offsetofUsed⟩ := by
        rw [vringAddr, hmap offsetofUsed (by decide), hspace, spaceAfter, if_neg (by omega)]
        exact S.server.resolve i (by decide)
      obtain ⟨w', hset⟩ := setsRing_addr S.maps w i (a := vringAddr (.ofNat i) (S.clientBase i))
        rfl hU
      refine hring (i := i) ⟨w', ?_⟩ (n := 4) (by omega) (by omega) rfl
      rw [vringAddr, hmap _ (by decide), hmap _ (by decide), hmap _ (by decide), hused i] at hset
      exact hset

end Session

/-- Only `VHOST_USER_GET_FEATURES` asks for a reply. -/
theorem SetupMsg.of_asksReply {S : Session} {k : Nat} {msg : ServerMsg} (h : SetupMsg S k msg)
    (hask : msg.asksReply = true) : k = 1 := by
  cases h with
  | features => rfl
  | _ => cases hask

/-! ### The set-up is under way -/

/-- Beside a server that has handled all messages. -/
def EchoState.ahead (S : Session) (e : EchoState) : EchoState :=
  { e with
    world :=
      { e.world with
        server := { e.world.server with table := S.tableAfter setupCount }
        space := S.spaceAfter setupCount }
    unsent := []
    queue := [] }

/-- The server has handled the first `k` messages, but not all. -/
structure Starting (S : Session) (k : Nat) (e : EchoState) : Prop where
  lt : k < setupCount
  left : e.queue ++ e.unsent = S.setupMsgs.drop k
  awaiting : e.awaiting = true → k ≤ 1 ∧ k + e.queue.length = 2
  table : e.world.server.table = S.tableAfter k
  space : e.world.space = S.spaceAfter k
  cursor : e.cursor = none
  outcomes : e.outcomes = []
  placed : e.placed = []
  rxKicks : e.rxKicks = 0
  rxMustKick : e.rxMustKick = false
  rxCursor : e.rxCursor = none
  rxOutcomes : e.rxOutcomes = []
  ahead : Echoing S (e.ahead S)

/-- Both programs when they have been started. -/
def Session.echoStart (S : Session) (sock : Int) (m : Mem) : EchoState :=
  { toLoopState := S.loopStart sock m
    rxKicks := 0
    rxMustKick := false
    rxCursor := none
    rxOutcomes := []
    rxPublished := 0 }

section Keep
variable {S : Session} {k : Nat} {e f : EchoState} {l : EchoLabel}

theorem Session.echoStart_starting (S : Session) (sock : Int) (m : Mem) :
    Starting S 0 (S.echoStart sock m) := by
  obtain ⟨w, hw⟩ := S.opened_exists sock m
  obtain ⟨hspace, hmem, htable⟩ := hw.eqs
  rw [← Session.tableAfter_all] at htable
  refine ⟨by decide, rfl, nofun, ?_, rfl, rfl, rfl, rfl, rfl, rfl, rfl, rfl,
    (hw.echoConfigured initFdList false).echoing.congr rfl rfl hspace.symm ?_ ?_⟩
  · rw [Session.tableAfter_early (by decide)]
    rfl
  · refine RingState.mk.injEq .. ▸ ⟨rfl, htable.symm, hmem.symm, rfl, rfl, rfl, rfl, rfl⟩
  · refine RingState.mk.injEq .. ▸ ⟨htable.symm, rfl, hmem.symm, rfl, rfl, rfl, rfl, rfl⟩

namespace Starting

theorem empty (h : Starting S k e) : e.world.context.bufferSize = 0 := by
  rw [World.context, h.table]
  rfl

/-- The TX ring is not set up. -/
theorem unset (h : Starting S k e) : (e.world.vring txIdx).desc = 0 := by
  rw [World.vring, h.table]
  exact Session.tableAfter_unset h.lt

/-- Nothing has been published in either used ring. -/
theorem used_zero (h : Starting S k e) (i : RingIdx) :
    (e.world.mem.used ⟨i, offsetofUsed⟩).idx = 0 := by
  rcases ringIdx_cases i with rfl | rfl
  · have hc := h.ahead.rx.counters
    have hle : e.rxPublished ≤ e.rxOutcomes.length := hc.publishedLe
    rw [h.rxOutcomes] at hle
    refine hc.usedIdx.trans ?_
    rw [show (e.ahead S).rxRing.published = 0 from Nat.le_zero.mp hle]
    rfl
  · have hc := h.ahead.tx.counters
    have hle : e.published ≤ e.outcomes.length := hc.publishedLe
    rw [h.outcomes] at hle
    refine hc.usedIdx.trans ?_
    rw [show (e.ahead S).tx.published = 0 from Nat.le_zero.mp hle]
    rfl

/-- The message that is handled is the next one. -/
theorem handled (h : Starting S k e) {msg msg' : ServerMsg} {rest : List ServerMsg} {r : Int}
    {w : World} (hqueue : e.queue = msg :: rest)
    (hcall : (inMsgServer S.maps e.world msg).out = .ret (r, msg', w)) :
    rest ++ e.unsent = S.setupMsgs.drop (k + 1) ∧ w.server.table = S.tableAfter (k + 1) ∧
      w.space = S.spaceAfter (k + 1) ∧ w.mem = e.world.mem ∧ (0 < r ↔ k = 1) := by
  have hleft := h.left
  rw [hqueue, List.cons_append] at hleft
  obtain ⟨hmsg, hrest⟩ := Session.setupMsg_of_drop hleft
  obtain ⟨r', msg'', w', hcall', hafter⟩ := Session.handled_at hmsg h.table h.space h.used_zero
  rw [hcall] at hcall'
  cases hcall'
  exact ⟨hrest, hafter⟩

/-- When all messages have been handled the server is where it was ahead. -/
theorem done (hleft : e.queue ++ e.unsent = [])
    (htable : e.world.server.table = S.tableAfter setupCount)
    (hspace : e.world.space = S.spaceAfter setupCount) (h : Echoing S (e.ahead S)) :
    Echoing S e := by
  obtain ⟨hqueue, hunsent⟩ := List.append_eq_nil_iff.mp hleft
  refine h.congr hunsent hqueue hspace ?_ ?_
  · exact RingState.mk.injEq .. ▸ ⟨rfl, htable, rfl, rfl, rfl, rfl, rfl, rfl⟩
  · exact RingState.mk.injEq .. ▸ ⟨htable, rfl, rfl, rfl, rfl, rfl, rfl, rfl⟩

end Starting

/-- What holds in every state of a run from the start. -/
def Lives (S : Session) (e : EchoState) : Prop :=
  (∃ k, Starting S k e) ∨ Echoing S e ∧ RxAwake e

/-- No step but a `forward` brings `poll_server` in front of its `kick`. -/
theorem Starting.unkicked (h : Starting S k e) (l : LoopLabel) :
    (e.rxMustKick || decide (l = .forward ∧ e.world.context.bufferSize ≠ 0)) = false := by
  rw [h.rxMustKick, Bool.false_or]
  exact decide_eq_false fun hput => hput.2 h.empty

/-- **What both programs do during the set-up**, but for the handling of a message. -/
theorem Starting.step (h : Starting S k e) (hl : ∀ buf, l = .loop (.put buf) → TxPayload buf)
    (hne : l ≠ .loop .receive) (hs : EchoStep S e l f) : Starting S k f := by
  have hahead := h.ahead
  have hmust := h.unkicked
  cases hs with
  | @loop l t hclient hserver hs =>
      cases hs with
      | @send msg rest hunsent hfree =>
          refine ⟨h.lt, ?_, fun hask => ?_, h.table, h.space, h.cursor, h.outcomes, h.placed,
            h.rxKicks, hmust _, h.rxCursor, h.rxOutcomes, hahead.congr rfl rfl rfl rfl rfl⟩
          · show e.queue ++ [msg] ++ rest = _
            rw [← h.left, hunsent, List.append_assoc]
            rfl
          · have hdrop : msg :: rest = S.setupMsgs.drop (k + e.queue.length) := by
              rw [← List.drop_drop, ← h.left, List.drop_left, hunsent]
            have hone := (Session.setupMsg_of_drop hdrop).1.of_asksReply hask
            show k ≤ 1 ∧ k + (e.queue ++ [msg]).length = 2
            rw [List.length_append, List.length_singleton]
            omega
      | @put buf r t m hrun hput =>
          have hstep : EchoStep S (e.ahead S) (.loop (.put buf)) _ :=
            .loop hclient nofun (.put ⟨rfl, hrun.awaiting, hrun.mustKick⟩ hput)
          exact ⟨h.lt, h.left, h.awaiting, h.table, h.space, h.cursor, h.outcomes, h.placed,
            h.rxKicks, hmust _, h.rxCursor, h.rxOutcomes,
            (echoing_step hahead hl hstep).congr rfl rfl rfl rfl rfl⟩
      | reclaim hrun hcall =>
          have hstep : EchoStep S (e.ahead S) (.loop .reclaim) _ :=
            .loop hclient nofun (.reclaim ⟨rfl, hrun.awaiting, hrun.mustKick⟩ hcall)
          exact ⟨h.lt, h.left, h.awaiting, h.table, h.space, h.cursor, h.outcomes, h.placed,
            h.rxKicks, hmust _, h.rxCursor, h.rxOutcomes,
            (echoing_step (l := .loop .reclaim) hahead nofun hstep).congr rfl rfl rfl rfl rfl⟩
      | receive _ _ _ _ => exact absurd rfl hne
      | kicked _ _ hdesc _ => exact absurd h.unset hdesc
      | pollEnter _ _ _ _ hset _ => exact absurd h.unset hset
      | serve hcur _ | leave hcur _ _ => cases h.cursor.symm.trans hcur
      | forward _ _ hfull _ => exact absurd h.empty hfull
      | _ =>
          exact ⟨h.lt, h.left, h.awaiting, h.table, h.space, h.cursor, h.outcomes, h.placed,
            h.rxKicks, hmust _, h.rxCursor, h.rxOutcomes, hahead.congr rfl rfl rfl rfl rfl⟩
  | rxKick hkick => cases h.rxMustKick.symm.trans hkick
  | rxRead _ _ hkicks _ => exact absurd h.rxKicks hkicks
  | rxServe hcur _ | rxLeave hcur _ _ => cases h.rxCursor.symm.trans hcur

/-- **A message is handled**: the next one, and after the last one both rings are set up. -/
theorem Starting.receive (h : Starting S k e) (hs : EchoStep S e (.loop .receive) f) :
    Starting S (k + 1) f ∨ k + 1 = setupCount ∧ Echoing S f ∧ RxAwake f := by
  cases hs with
  | loop _ _ hs =>
      cases hs with
      | @receive ready j fd r msg msg' rest w hvisit hconn hqueue hcall =>
          obtain ⟨hrest, htable, hspace, hmem, hreply⟩ := h.handled hqueue hcall
          have hahead : Echoing S (EchoState.ahead S { e with world := w }) := by
            refine h.ahead.congr rfl rfl rfl ?_ ?_
            · exact RingState.mk.injEq .. ▸ ⟨rfl, rfl, hmem, rfl, rfl, rfl, rfl, rfl⟩
            · exact RingState.mk.injEq .. ▸ ⟨rfl, rfl, hmem, rfl, rfl, rfl, rfl, rfl⟩
          have hwait : (if 0 < r then false else e.awaiting) = true →
              k + 1 ≤ 1 ∧ k + 1 + rest.length = 2 := by
            intro hwait
            by_cases hr : 0 < r
            · rw [if_pos hr] at hwait
              cases hwait
            · rw [if_neg hr] at hwait
              have hle := h.awaiting hwait
              have hne : k ≠ 1 := fun heq => hr (hreply.mpr heq)
              rw [hqueue, List.length_cons] at hle
              omega
          rcases Nat.lt_or_eq_of_le (Nat.succ_le_of_lt h.lt) with hlt | heq
          · exact .inl ⟨hlt, hrest, hwait, htable, hspace, h.cursor, h.outcomes, h.placed,
              h.rxKicks, h.unkicked _, h.rxCursor, h.rxOutcomes,
              hahead.congr rfl rfl rfl rfl rfl⟩
          · rw [show k + 1 = setupCount from heq] at htable hspace hrest
            refine .inr ⟨heq, Starting.done hrest htable hspace (hahead.congr rfl rfl rfl rfl rfl),
              ?_, fun hcall => absurd h.rxCursor hcall, fun hlt => ?_⟩
            · refine Bool.eq_false_iff.mpr fun hask => ?_
              exact absurd (heq.symm.trans_le (hwait hask).1) (by decide)
            · rw [show e.rxOutcomes = [] from h.rxOutcomes, show e.placed = [] from h.placed] at hlt
              exact absurd hlt (Nat.lt_irrefl 0)

theorem Starting.lives (h : Starting S k e) (hs : PayloadStep S e l f) : Lives S f := by
  by_cases hl : l = .loop .receive
  · subst hl
    rcases h.receive hs.step with hnext | ⟨-, hdone⟩
    · exact .inl ⟨k + 1, hnext⟩
    · exact .inr hdone
  · exact .inl ⟨k, h.step hs.payload hl hs.step⟩

/-- During the set-up the relay gets what the client puts, and loses nothing. -/
theorem Starting.relayed (h : Starting S k e) {y : Relay (List UInt8)} (hy : Relayed e y)
    (hs : EchoStep S e l f) :
    ∃ ms z, Transition.Run Relay.Step y ms z ∧ Relayed f z ∧
      z.lost = y.lost ++ e.overwritten l := by
  have hsame : ∀ {g : EchoState}, g.sent = e.sent → g.outcomes = e.outcomes →
      g.world.context.bufferSize = e.world.context.bufferSize → g.placed = e.placed →
      g.rxOutcomes = e.rxOutcomes →
      ∃ ms z, Transition.Run Relay.Step y ms z ∧ Relayed g z ∧ z.lost = y.lost ++ [] := by
    intro g hsent houtcomes hsize hplaced hrx
    refine ⟨[], y, .nil, hy.congr hsent houtcomes ?_ hplaced hrx, (List.append_nil _).symm⟩
    rw [g.buffered_eq_nil_iff.mpr (hsize.trans h.empty), e.buffered_eq_nil_iff.mpr h.empty]
  cases hs with
  | @loop l t hclient hserver hs =>
      cases hs with
      | put _ _ =>
          rw [show e.overwritten (.loop (.put _)) = [] from rfl, List.append_nil]
          refine hy.put ?_ rfl rfl rfl rfl rfl
          rw [h.outcomes]
          exact Nat.zero_le _
      | @receive ready j fd r msg msg' rest w hvisit hconn hqueue hcall =>
          obtain ⟨-, htable, -⟩ := h.handled hqueue hcall
          have hsize : w.context.bufferSize = 0 := by
            rw [World.context, htable]
            rfl
          exact hsame rfl rfl (hsize.trans h.empty.symm) rfl rfl
      | serve hcur _ => cases h.cursor.symm.trans hcur
      | forward _ _ hfull _ => exact absurd h.empty hfull
      | _ => exact hsame rfl rfl rfl rfl rfl
  | rxServe hcur _ => cases h.rxCursor.symm.trans hcur
  | rxKick _ | rxRead _ _ _ _ | rxLeave _ _ _ => exact hsame rfl rfl rfl rfl rfl

theorem lives_step (h : Lives S e) (hs : PayloadStep S e l f) : Lives S f := by
  rcases h with ⟨k, h⟩ | ⟨h, hawake⟩
  · exact h.lives hs
  · exact .inr ⟨echoing_step h hs.payload hs.step, rxAwake_step hawake h hs.step⟩

/-- **Both programs implement the relay from their start.** -/
theorem Lives.refines {sock : Int} {m : Mem} {ls : List EchoLabel} {lost : List (List UInt8)}
    (hrun : Overwrites S (S.echoStart sock m) ls e lost) :
    Lives S e ∧ ∃ ms y, Transition.Run Relay.Step Relay.empty ms y ∧ Relayed e y ∧
      y.lost = lost := by
  have hstart := S.echoStart_starting sock m
  have hempty := (S.echoStart sock m).buffered_eq_nil_iff.mpr hstart.empty
  have hrel : Relayed (S.echoStart sock m) Relay.empty := ⟨rfl, rfl, hempty.symm, rfl, rfl⟩
  obtain ⟨ms, y, hy, hlives, hrel⟩ := Transition.Run.simulate_rel
    (R := fun (x : EchoState × List (List UInt8)) y =>
      Lives S x.1 ∧ Relayed x.1 y ∧ y.lost = x.2) (fun e l f y hx hs => by
      obtain ⟨hlives, hrel, hlost⟩ := hx
      obtain ⟨hs, hnote⟩ := hs
      have hnext := lives_step hlives hs
      have hsim : ∃ ms z, Transition.Run Relay.Step y ms z ∧ Relayed f.1 z ∧
          z.lost = y.lost ++ e.1.overwritten l := by
        rcases hlives with ⟨k, h⟩ | ⟨h, -⟩
        · exact h.relayed hrel hs.step
        · exact relayed_step h hrel hs.step
      obtain ⟨ms, z, hz, hrel', hlost'⟩ := hsim
      exact ⟨ms, z, hz, hnext, hrel', hlost'.trans (by rw [hlost, hnote])⟩)
    ⟨.inl ⟨0, hstart⟩, hrel, rfl⟩ hrun
  exact ⟨hlives, ms, y, hy, hrel⟩

/-- What came back are the first packets of the RX ring. -/
theorem Lives.echoed_eq (h : Lives S e) :
    e.echoed = (e.placed.take e.rxOutcomes.length).map callOf := by
  rcases h with ⟨k, h⟩ | ⟨h, -⟩
  · rw [EchoState.echoed, h.rxOutcomes, List.length_nil, List.take_zero]
    rfl
  · exact h.echoed_eq

theorem Lives.awake (h : Lives S e) (hlt : e.rxOutcomes.length < e.placed.length) :
    e.rxKicks ≠ 0 ∨ e.rxMustKick = true ∨ e.rxCursor ≠ none := by
  rcases h with ⟨k, h⟩ | ⟨-, h⟩
  · rw [h.placed] at hlt
    exact absurd hlt (Nat.not_lt_zero _)
  · exact h.awake hlt

end Keep

/-! ### The results -/

section Results
variable {S : Session} {f : EchoState} {ls : List EchoLabel} {lost : List (List UInt8)}

/-- **From the start of both programs nothing comes back that was not sent**, nothing twice and
nothing out of order, whatever the client puts while the server is being set up: what is missing
was overwritten in the private buffer.  And no kick of the server is lost. -/
theorem echoed_in_order_from_start {sock : Int} {m : Mem}
    (hrun : Overwrites S (S.echoStart sock m) ls f lost) :
    f.Accounts lost ∧
    (f.rxOutcomes.length < f.placed.length →
      f.rxKicks ≠ 0 ∨ f.rxMustKick = true ∨ f.rxCursor ≠ none) := by
  obtain ⟨hlives, ms, y, hy, hrel, hlost⟩ := Lives.refines hrun
  exact ⟨hrel.accounts hy hlost hlives.echoed_eq, hlives.awake⟩

/-- Nothing is put before the client has sent all its messages. -/
theorem quiet_of_unsent {s t : LoopState} {ls : List LoopLabel}
    (hrun : Transition.Run (TimelyStep S) s ls t) (hleft : t.unsent ≠ []) :
    Transition.Run (fun s l t => LoopStep S s l t ∧ ∀ buf, l = .put buf → TxPayload buf)
      s ls t := by
  induction hrun with
  | nil => exact .nil
  | @snoc ls t u l _ hs ih =>
      obtain ⟨hs, -⟩ := hs
      have hput : ∀ buf, l ≠ .put buf := by
        rintro buf rfl
        cases hs with
        | put hrun _ => exact hleft hrun.sent
      refine (ih fun hnone => ?_).snoc ⟨hs, fun buf heq => absurd heq (hput buf)⟩
      cases hs with
      | send hunsent _ => cases hnone.symm.trans hunsent
      | _ => exact hleft hnone

/-- The client puts a packet while two messages are still in the socket. -/
theorem echoed_in_order_from_start_demo : ∃ ls f lost,
    Overwrites .demo (Session.demo.echoStart 10 Mem.zero) ls f lost ∧
    f.queue.length = 2 ∧ [0] ∈ f.sent ∧ f.Accounts lost ∧
    (f.rxOutcomes.length < f.placed.length →
      f.rxKicks ≠ 0 ∨ f.rxMustKick = true ∨ f.rxCursor ≠ none) := by
  obtain ⟨ls, s, hrun, hs⟩ := exists_inStep Mem.zero 11 (by decide)
  have hleft : s.unsent ≠ [] := by
    rw [hs.unsent]
    exact nofun
  obtain ⟨hsend, h1⟩ := hs.send hs.free (hs.unsent.trans (List.drop_eq_getElem_cons (by decide)))
    nofun
  obtain ⟨hsend', -⟩ := h1.send rfl (List.drop_eq_getElem_cons (i := 12) (by decide)) nofun
  obtain ⟨c, m, hput, -⟩ := Session.demo.first_put Mem.zero [0] (by decide)
  rw [← hs.client, ← hs.mem] at hput
  have hall := ((quiet_of_unsent hrun hleft).snoc ⟨hsend.1, nofun⟩).snoc ⟨hsend'.1, nofun⟩
  have hlast := hall.snoc ⟨.put ⟨rfl, rfl, hs.mustKick⟩ hput, fun _ heq =>
    LoopLabel.put.inj heq ▸ by decide⟩
  obtain ⟨ms, n, hms⟩ := run_of_loop (e := Session.demo.echoStart 10 Mem.zero)
    (fun _ _ _ => id) rfl rfl hlast
  obtain ⟨lost, hnote⟩ := hms.noting EchoState.overwritten []
  obtain ⟨haccounts, hkicked⟩ := echoed_in_order_from_start hnote
  refine ⟨ms, _, lost, hnote, ?_, List.mem_append_right _ (List.mem_singleton_self _),
    haccounts, hkicked⟩
  show (s.queue ++ [_] ++ [_]).length = 2
  rw [hs.queue]
  rfl

end Results

end Vapp
