import Vapp.FdSystem

/-! # What `VHOST_USER_GET_VRING_BASE` leaves behind

The answer to `VHOST_USER_GET_VRING_BASE` is the position at which a ring can be resumed.
The server keeps no mark of it: the ring stays where it is as long as no kick and no poll
finds work for it, and not longer.  Nor does it look where the other process has put the
rings and the buffers, so work on the other ring may store into this one.
-/
namespace Vapp

/-- Where the server stands in a ring. -/
def World.position (w : World) (i : RingIdx) : UInt16 × UInt16 :=
  ((w.vring i).lastAvailIdx, (w.vring i).lastUsedIdx)

/-- Ring `i` is as it was: both counters, and what its avail and its used ring hold. -/
structure RingKept (w w' : World) (i : RingIdx) : Prop where
  position : w'.position i = w.position i
  avail : ∀ A, w.space.resolve (w.vring i).avail = some A → w'.mem.avail A = w.mem.avail A
  used : ∀ U, w.space.resolve (w.vring i).used = some U → w'.mem.used U = w.mem.used U

/-! ### The bytes of the rings

Memory is kept apart by type, so a write through one part of a ring never shows in another
part, where in the real process it would if both lie in the same bytes.  What follows says
when they do.  A write that the typed memory does not show in a later step is one of the
other process, a `peer` event. -/

/-- The parts of a ring. -/
inductive VringPart where
  | desc | avail | used
  deriving DecidableEq

/-- Where a part begins, and its size for `num` entries. -/
def RingSetup.part (v : RingSetup) : VringPart → UInt64 × Nat
  | .desc => (v.desc, sizeofVringDesc * v.num.toNat)
  | .avail => (v.avail, 4 + 2 * v.num.toNat)
  | .used => (v.used, 4 + 8 * v.num.toNat)

/-- The process sees the byte `l` at one of the `n` addresses from `a` on. -/
def World.Sees (w : World) (a : UInt64) (n : Nat) (l : Loc) : Prop :=
  ∃ k, k < n ∧ w.space.resolve (a + .ofNat k) = some l

/-- The byte `l` lies in a part of ring `i`. -/
def World.InPart (w : World) (i : RingIdx) (c : VringPart) (l : Loc) : Prop :=
  w.Sees ((w.setup i).part c).1 ((w.setup i).part c).2 l

/-- No two parts of the rings share a byte. -/
def World.Apart (w : World) : Prop :=
  ∀ i c j d l, (i, c) ≠ (j, d) → w.InPart i c l → ¬ w.InPart j d l

/-- The descriptor at the head of the free list of the RX ring. -/
def World.rxHead (w : World) (D : Loc) : VringDesc :=
  w.mem.desc D (w.vring rxIdx).lastAvailIdx.toNat

/-- A byte that `put_vring` stores the packet of the private buffer or its header in. -/
def World.InPacket (w : World) (l : Loc) : Prop :=
  ∃ D, w.space.resolve (w.vring rxIdx).desc = some D ∧
    w.Sees (w.server.table.translate (w.rxHead D).addr)
      (virtioNetHdrSize + w.context.packet.length) l

/-- A byte of the descriptor that `put_vring` takes. -/
def World.InHead (w : World) (l : Loc) : Prop :=
  w.Sees ((w.vring rxIdx).desc + .ofNat (sizeofVringDesc * (w.vring rxIdx).lastAvailIdx.toNat))
    sizeofVringDesc l

/-- `put_vring` stores a packet inside one of the rings, or takes a descriptor that lies in
another part than its own. -/
def World.Spills (w : World) : Prop :=
  ∃ i c l, w.InPart i c l ∧ (w.InPacket l ∨ (w.InHead l ∧ (i, c) ≠ (rxIdx, .desc)))

/-! ### Work on a ring -/

/-- `process_avail_vring` finds work on ring `i`: an entry, or a `used->idx` that is not
where the server left it. -/
def World.Waiting (w : World) (i : RingIdx) : Prop :=
  ∃ A U, w.space.resolve (w.vring i).avail = some A ∧ w.space.resolve (w.vring i).used = some U ∧
    ((w.vring i).lastAvailIdx ≠ (w.mem.avail A).idx ∨ (w.mem.used U).idx ≠ (w.vring i).lastUsedIdx)

/-- The packet in the private buffer fits the descriptor at the head of the free list. -/
def World.Takes (w : World) : Prop :=
  ∃ D, w.space.resolve (w.vring rxIdx).desc = some D ∧
    w.context.packet.length ≤ (w.rxHead D).len.toNat

namespace Event

/-- The message sets the counters of ring `i`. -/
def Rebases (e : Event) (i : RingIdx) : Prop :=
  match e with
  | .message _ msg _ =>
      (VhostUserRequest.ofWord msg.msg.request = some .setVringBase ∧
        msg.msg.payload.state.index.toNat = i) ∨
      (VhostUserRequest.ofWord msg.msg.request = some .setVringAddr ∧
        msg.msg.payload.addr.index.toNat = i)
  | _ => False

/-- The event gets past the guards for ring `i` and finds work there. -/
def Works (fuel : Nat) (w : World) (e : Event) (i : RingIdx) : Prop :=
  e.Uses fuel w i ∧
    ((i = txIdx ∧ w.Waiting txIdx) ∨
      (i = rxIdx ∧ ∃ w', (pollTx fuel w).out = .ret w' ∧ w'.Takes))

/-- The event finds work for ring `i`; or it does so for the other ring, while parts of the
rings share a byte or with a packet that is stored inside a ring. -/
def Reaches (fuel : Nat) (w : World) (e : Event) (i : RingIdx) : Prop :=
  e.Works fuel w i ∨ ((∃ j, e.Works fuel w j) ∧ ¬ w.Apart) ∨
    (e.Works fuel w rxIdx ∧ ∃ w', (pollTx fuel w).out = .ret w' ∧ w'.Spills)

/-- A write of the other process. -/
def IsPeer : Event → Prop
  | .peer _ => True
  | _ => False

end Event

/-! ### Messages -/

section Messages
variable {w w' : World} {msg msg' : ServerMsg} {maps : Nat → Option MapResult} {r : Int}
  {i : RingIdx}

/-- Replacing a ring keeps the counters of ring `i`, unless it is the one with others. -/
theorem World.position_setVring {j : RingIdx} {v : Vring}
    (h : j = i → (v.lastAvailIdx, v.lastUsedIdx) = w.position i) :
    (w.setVring j v).position i = w.position i := by
  by_cases hj : i = j
  · subst hj
    rw [World.position, World.setVring_vring_self]
    exact h rfl
  · rw [World.position, World.setVring_vring_of_ne w v hj]
    rfl

theorem position_setKick (w : World) (j i : RingIdx) (fd : Option Int) :
    (w.setKick j fd).position i = w.position i := by
  rw [World.position, World.vring, setKick_table]
  cases fd with
  | none => rfl
  | some d => exact World.position_setVring (w := w) fun hj => by rw [hj]; rfl

/-- A message leaves memory and the counters alone, but for the two that set them. -/
theorem msgHandler_position {req : VhostUserRequest}
    (hbase : ¬ (req = .setVringBase ∧ msg.msg.payload.state.index.toNat = i))
    (haddr : ¬ (req = .setVringAddr ∧ msg.msg.payload.addr.index.toNat = i))
    (h : (msgHandler maps req w msg).out = .ret (r, msg', w')) :
    w'.mem = w.mem ∧ w'.position i = w.position i := by
  cases msgHandler_cases h with
  | table hloop =>
      obtain ⟨_, _, rfl⟩ := setMemTableLoop_frame _ hloop
      exact ⟨rfl, rfl⟩
  | num _ => exact ⟨rfl, World.position_setVring fun hj => by rw [hj]; rfl⟩
  | base hj =>
      exact ⟨rfl, World.position_setVring fun heq =>
        absurd ⟨rfl, heq ▸ ringIndex_ret hj⟩ hbase⟩
  | addr hj _ =>
      exact ⟨rfl, World.position_setVring fun heq =>
        absurd ⟨rfl, heq ▸ ringIndex_ret hj⟩ haddr⟩
  | kick _ _ => exact ⟨setKick_mem .., position_setKick w _ i _⟩
  | @call j validfd _ _ =>
      cases validfd with
      | false => exact ⟨rfl, rfl⟩
      | true => exact ⟨rfl, World.position_setVring fun hj => by rw [hj]; rfl⟩
  | answered _ | ignored _ => exact ⟨rfl, rfl⟩

theorem inMsgServer_position {sock : Int} (hquiet : ¬ (Event.message sock msg maps).Rebases i)
    (h : (inMsgServer maps w msg).out = .ret (r, msg', w')) :
    w'.mem = w.mem ∧ w'.position i = w.position i := by
  obtain ⟨req, -, hreq, hout⟩ := inMsgServer_cases h
  refine msgHandler_position (fun hbase => hquiet (.inl ⟨?_, hbase.2⟩))
    (fun haddr => hquiet (.inr ⟨?_, haddr.2⟩)) hout
  · rw [hreq, hbase.1]
  · rw [hreq, haddr.1]

end Messages

/-! ### Kicks and polls -/

section Polls
variable {fuel : Nat} {w w' : World} {i j : RingIdx}

theorem RingKept.of_eq (hvring : w'.vring i = w.vring i) (hmem : w'.mem = w.mem) :
    RingKept w w' i := by
  refine ⟨?_, fun A _ => by rw [hmem], fun U _ => by rw [hmem]⟩
  rw [World.position, World.position, hvring]

theorem RingKept.trans {w'' : World} (h : RingKept w w' i) (h' : RingKept w' w'' i)
    (hsetup : w'.setup = w.setup) (hspace : w'.space = w.space) : RingKept w w'' i := by
  have havail : (w'.vring i).avail = (w.vring i).avail :=
    congrArg RingSetup.avail (congrFun hsetup i)
  have hused : (w'.vring i).used = (w.vring i).used :=
    congrArg RingSetup.used (congrFun hsetup i)
  refine ⟨h'.position.trans h.position, fun A hA => ?_, fun U hU => ?_⟩
  · exact (h'.avail A (by rwa [hspace, havail])).trans (h.avail A hA)
  · exact (h'.used U (by rwa [hspace, hused])).trans (h.used U hU)

theorem World.Apart.congr (h : w.Apart) (hsetup : w'.setup = w.setup)
    (hspace : w'.space = w.space) : w'.Apart := by
  have hin : ∀ k c l, w'.InPart k c l ↔ w.InPart k c l := fun k c l => by
    rw [World.InPart, World.InPart, World.Sees, World.Sees, hsetup, hspace]
  intro k c l d x hne hx
  rw [hin] at hx ⊢
  exact h k c l d x hne hx

/-- Parts that are apart begin at different bytes. -/
theorem World.Apart.start_ne (h : w.Apart) {c : VringPart} (hij : i ≠ j) {l : Loc}
    (hpos : ∀ k, 0 < ((w.setup k).part c).2)
    (hi : w.space.resolve ((w.setup i).part c).1 = some l) :
    w.space.resolve ((w.setup j).part c).1 ≠ some l := by
  have hfirst : ∀ k, w.space.resolve ((w.setup k).part c).1 = some l → w.InPart k c l :=
    fun k hk => ⟨0, hpos k, by rwa [show UInt64.ofNat 0 = 0 from rfl, UInt64.add_zero]⟩
  have hne : (i, c) ≠ (j, c) := fun heq => hij (congrArg Prod.fst heq)
  exact fun hj => h i c j c l hne (hfirst i hi) (hfirst j hj)

theorem World.Apart.avail_ne (h : w.Apart) (hij : i ≠ j) {A : Loc}
    (hA : w.space.resolve (w.vring i).avail = some A) :
    w.space.resolve (w.vring j).avail ≠ some A :=
  h.start_ne (c := .avail) hij (fun _ => Nat.add_pos_left (by decide) _) hA

theorem World.Apart.used_ne (h : w.Apart) (hij : i ≠ j) {U : Loc}
    (hU : w.space.resolve (w.vring i).used = some U) :
    w.space.resolve (w.vring j).used ≠ some U :=
  h.start_ne (c := .used) hij (fun _ => Nat.add_pos_left (by decide) _) hU

/-- What `process_avail_vring` does to another ring, and to its own if it finds no work. -/
theorem pollAvailVring_kept (h : (pollAvailVring fuel w j).out = .ret w')
    (hwork : (w.vring j).desc ≠ 0 → w.Waiting j → i ≠ j ∧ w.Apart) : RingKept w w' i := by
  rcases pollAvailVring_cases h with ⟨hdesc, c, hc, rfl⟩ | ⟨_, rfl⟩
  · by_cases hwait : w.Waiting j
    · obtain ⟨hij, hapart⟩ := hwork hdesc hwait
      have hframe := processAvailVring_availFrame hc
      refine ⟨?_, fun A _ => congrFun hframe.avail A, fun U hU => ?_⟩
      · rw [World.position, World.position, World.vring, World.vring]
        exact congrArg (fun v : Vring => (v.lastAvailIdx, v.lastUsedIdx)) (hframe.other i hij)
      · exact hframe.used U (hapart.used_ne hij hU)
    · obtain ⟨A, U, hA, hU⟩ := processAvailVring_resolves hc
      obtain ⟨heq, hstored⟩ : (w.vring j).lastAvailIdx = (w.mem.avail A).idx ∧
          (w.mem.used U).idx = (w.vring j).lastUsedIdx := by
        by_contra hne
        exact hwait ⟨A, U, hA, hU, not_and_or.mp hne⟩
      obtain ⟨htable, U', hU', hmem⟩ := processAvailVring_of_eq hA heq hc
      cases hU.symm.trans hU'
      have hidx : (w.server.table.vring j).lastUsedIdx = (w.mem.used U).idx := hstored.symm
      have hsame : c.mem = w.mem := by
        rw [hmem, hidx]
        show ({ w.mem with used := Function.update w.mem.used U (w.mem.used U) } : Mem) = w.mem
        rw [Function.update_eq_self]
      rw [htable, hsame]
      exact .of_eq rfl rfl
  · exact .of_eq rfl rfl

/-- What `put_vring` does to the other ring, and to its own if the packet is refused. -/
theorem pollRx_kept (h : (pollRx w).out = .ret w')
    (hwork : w.context.bufferSize ≠ 0 → w.Takes → i ≠ rxIdx ∧ w.Apart) : RingKept w w' i := by
  rcases pollRx_cases h with ⟨hsize, r, t, m, hput, rfl⟩ | ⟨_, rfl⟩
  · rcases putVring_ret hput with ⟨_, rfl, rfl⟩ | ⟨_, D, A, hD, hA, _, hfit, rfl, _, havail, hused⟩
    · exact .of_eq rfl rfl
    · obtain ⟨hi, hapart⟩ := hwork hsize ⟨D, hD, hfit⟩
      refine ⟨?_, fun A' hA' => ?_, fun U _ => congrFun hused U⟩
      · exact congrArg (fun v : Vring => (v.lastAvailIdx, v.lastUsedIdx))
          (VringTable.setVring_of_ne _ _ hi)
      · have hne : A' ≠ A := by
          rintro rfl
          exact hapart.avail_ne hi hA' hA
        exact (congrFun havail A').trans (Function.update_of_ne hne _ _)
  · exact .of_eq rfl rfl

/-- `poll_server` maps nothing and writes no avail ring while it consumes. -/
theorem pollTx_frame (h : (pollTx fuel w).out = .ret w') :
    w'.space = w.space ∧ w'.mem.avail = w.mem.avail := by
  rcases pollTx_cases h with ⟨_, h⟩ | ⟨_, rfl⟩
  · rcases pollAvailVring_cases h with ⟨_, c, hc, rfl⟩ | ⟨_, rfl⟩
    · exact ⟨rfl, (processAvailVring_availFrame hc).avail⟩
    · exact ⟨rfl, rfl⟩
  · exact ⟨rfl, rfl⟩

/-- An event that does not reach ring `i` keeps it. -/
theorem exec_kept {e : Event} (hbase : ¬ e.Rebases i) (hpeer : ¬ e.IsPeer)
    (hreach : ¬ e.Reaches fuel w i) (h : (exec fuel w e).out = .ret w') : RingKept w w' i := by
  -- work on another ring, in memory that the rings do not share
  have hworks : ∀ j, e.Works fuel w j → i ≠ j ∧ w.Apart := by
    intro j hj
    refine ⟨?_, ?_⟩
    · rintro rfl
      exact hreach (.inl hj)
    · by_contra hapart
      exact hreach (.inr (.inl ⟨⟨j, hj⟩, hapart⟩))
  cases exec_cases h with
  | accept _ | hangup _ => exact .of_eq rfl rfl
  | message _ hmsg =>
      obtain ⟨hmem, hpos⟩ := inMsgServer_position hbase hmsg
      exact ⟨hpos, fun A _ => by rw [hmem], fun U _ => by rw [hmem]⟩
  | kick hreg hkick =>
      rcases kickServer_cases hkick with ⟨_, rfl⟩ | ⟨_, rfl⟩ | ⟨hr, hpoll⟩
      · exact .of_eq rfl rfl
      · exact .of_eq rfl rfl
      · exact pollAvailVring_kept hpoll fun hdesc hwait =>
          hworks txIdx ⟨⟨rfl, hreg, hr, hdesc⟩, .inl ⟨rfl, hwait⟩⟩
  | poll hpoll =>
      rcases pollServer_cases hpoll with ⟨hdesc, w1, h1, h2⟩ | ⟨_, rfl⟩
      · have hsetup := pollTx_setup h1
        have hspace := (pollTx_frame h1).1
        have htx : RingKept w w1 i := by
          rcases pollTx_cases h1 with ⟨hpoll, h1⟩ | ⟨_, rfl⟩
          · exact pollAvailVring_kept h1 fun htx hwait =>
              hworks txIdx ⟨⟨hdesc, .inl ⟨rfl, hpoll, htx⟩⟩, .inl ⟨rfl, hwait⟩⟩
          · exact .of_eq rfl rfl
        refine htx.trans (pollRx_kept h2 fun hsize htakes => ?_) hsetup hspace
        have hrx : Event.poll.Works fuel w rxIdx :=
          ⟨⟨hdesc, .inr ⟨rfl, w1, h1, hsize⟩⟩, .inr ⟨rfl, w1, h1, htakes⟩⟩
        exact ⟨(hworks rxIdx hrx).1, (hworks rxIdx hrx).2.congr hsetup hspace⟩
      · exact .of_eq rfl rfl
  | peer => exact absurd trivial hpeer
  | notListening _ | unreadMessage _ | unreadHangup _ | unreadKick _ => exact .of_eq rfl rfl

/-- A ring on which work was found has moved. -/
theorem pollAvailVring_moves (h : (pollAvailVring fuel w j).out = .ret w')
    (hdesc : (w.vring j).desc ≠ 0) (hwait : w.Waiting j) (hpos : w'.position j = w.position j) :
    ∃ U, w.space.resolve (w.vring j).used = some U ∧ w'.mem.used U ≠ w.mem.used U := by
  obtain ⟨c, hc, rfl⟩ := ((pollAvailVring_cases h).resolve_right fun hn => hdesc hn.1).2
  obtain ⟨A, U, hA, hU, hwork⟩ := hwait
  obtain ⟨hlast, hidx⟩ := processAvailVring_done hc hA hU
  have havail : (c.table.vring j).lastAvailIdx = (w.vring j).lastAvailIdx :=
    congrArg Prod.fst hpos
  have hused : (c.table.vring j).lastUsedIdx = (w.vring j).lastUsedIdx := congrArg Prod.snd hpos
  rcases hwork with hpending | hstale
  · exact absurd (havail.symm.trans hlast) hpending
  · refine ⟨U, hU, fun hsame => hstale ?_⟩
    have hstored : (c.mem.used U).idx = (w.mem.used U).idx := congrArg VringUsed.idx hsame
    exact hstored.symm.trans (hidx.trans hused)

/-- `poll_server` keeps the TX ring while it forwards a packet. -/
theorem pollRx_frame (h : (pollRx w).out = .ret w') :
    w'.position txIdx = w.position txIdx ∧ w'.mem.used = w.mem.used := by
  rcases pollRx_cases h with ⟨_, r, t, m, hput, rfl⟩ | ⟨_, rfl⟩
  · rcases putVring_ret hput with ⟨_, rfl, rfl⟩ | ⟨_, D, A, _, _, _, _, htable, _, _, hused⟩
    · exact ⟨rfl, rfl⟩
    · have htx : t.vring txIdx = w.vring txIdx := by
        rw [htable]
        exact VringTable.setVring_of_ne _ _ (by decide)
      exact ⟨congrArg (fun v : Vring => (v.lastAvailIdx, v.lastUsedIdx)) htx, hused⟩
  · exact ⟨rfl, rfl⟩

/-- A packet that is taken is entered in avail. -/
theorem pollRx_moves (h : (pollRx w).out = .ret w') (hsize : w.context.bufferSize ≠ 0)
    (htakes : w.Takes) : ∃ A, w.space.resolve (w.vring rxIdx).avail = some A ∧
      (w'.mem.avail A).idx = (w.mem.avail A).idx + 1 := by
  obtain ⟨r, t, m, hput, rfl⟩ := ((pollRx_cases h).resolve_right fun hn => hsize hn.1).2
  obtain ⟨D, hD, hfit⟩ := htakes
  have haccepted := putVring_accepts hput hD hfit
  rcases putVring_ret hput with ⟨hr, -, -⟩ | ⟨_, D', A, _, hA, _, _, _, _, havail, _⟩
  · exact absurd (hr.symm.trans haccepted) (by decide)
  · refine ⟨A, hA, ?_⟩
    have hidx := congrArg VringAvail.idx (congrFun havail A)
    rw [Mem.setAvail_avail_self] at hidx
    exact hidx

/-- **An event that finds work on a ring changes it**, whatever messages came before. -/
theorem exec_moves {e : Event} (hworks : e.Works fuel w i)
    (h : (exec fuel w e).out = .ret w') : ¬ RingKept w w' i := by
  obtain ⟨huses, hwork⟩ := hworks
  intro hkept
  cases e with
  | kick fd r =>
      obtain ⟨rfl, hreg, hr, hdesc⟩ := huses
      rcases hwork with ⟨-, hwait⟩ | ⟨hrx, -⟩
      · rw [exec, if_pos hreg, kickServer, if_neg (by omega), if_neg (by omega)] at h
        obtain ⟨U, hU, hne⟩ := pollAvailVring_moves h hdesc hwait hkept.position
        exact hne (hkept.used U hU)
      · exact absurd hrx (by decide)
  | poll =>
      obtain ⟨hdesc, huses⟩ := huses
      rw [exec, pollServer, if_pos hdesc] at h
      obtain ⟨w1, h1, h2⟩ := Traced.bind_out_eq_ret.mp h
      rcases huses with ⟨rfl, hpoll, htx⟩ | ⟨rfl, w2, hw2, hsize⟩
      · have hwait : w.Waiting txIdx := by
          rcases hwork with ⟨-, hwait⟩ | ⟨hrx, -⟩
          · exact hwait
          · exact absurd hrx (by decide)
        obtain ⟨hpos, hused⟩ := pollRx_frame h2
        rw [pollTx, if_pos hpoll] at h1
        obtain ⟨U, hU, hne⟩ :=
          pollAvailVring_moves h1 htx hwait (hpos.symm.trans hkept.position)
        exact hne ((congrFun hused U).symm.trans (hkept.used U hU))
      · obtain ⟨w3, hw3, htakes⟩ : ∃ w3, (pollTx fuel w).out = .ret w3 ∧ w3.Takes := by
          rcases hwork with ⟨htx, -⟩ | ⟨-, htakes⟩
          · exact absurd htx (by decide)
          · exact htakes
        cases hw2.symm.trans h1
        cases hw3.symm.trans h1
        obtain ⟨A, hA, hidx⟩ := pollRx_moves h2 hsize htakes
        have havail : (w1.vring rxIdx).avail = (w.vring rxIdx).avail :=
          congrArg RingSetup.avail (congrFun (pollTx_setup h1) rxIdx)
        rw [(pollTx_frame h1).1, havail] at hA
        rw [(pollTx_frame h1).2, hkept.avail A hA] at hidx
        have hsucc := congrArg UInt16.toNat hidx
        rw [UInt16.toNat_add] at hsucc
        have hone : (1 : UInt16).toNat = 1 := rfl
        omega
  | _ => exact huses.elim

/-- The counters stay also while the other process writes. -/
theorem exec_position {e : Event} (hbase : ¬ e.Rebases i) (hreach : ¬ e.Reaches fuel w i)
    (h : (exec fuel w e).out = .ret w') : w'.position i = w.position i := by
  by_cases hpeer : e.IsPeer
  · cases e with
    | peer mem =>
        cases h
        rfl
    | _ => exact absurd hpeer id
  · exact (exec_kept hbase hpeer hreach h).position

end Polls

/-! ### Whole runs -/

section Runs
variable {fuel : Nat} {w w' : World} {i : RingIdx}

/-- No event of the run finds work on ring `i`. -/
def NeverReached (fuel : Nat) (i : RingIdx) (w : World) (es : List Event) : Prop :=
  ∀ pre e post w', es = pre ++ e :: post → (execAll fuel w pre).out = .ret w' →
    ¬ e.Reaches fuel w' i

theorem NeverReached.tail {e : Event} {es : List Event} (h : NeverReached fuel i w (e :: es))
    (he : (exec fuel w e).out = .ret w') : NeverReached fuel i w' es := by
  intro pre e' post w1 heq hpre
  refine h (e :: pre) e' post w1 (congrArg (e :: ·) heq) ?_
  exact Traced.bind_out_eq_ret.mpr ⟨w', he, hpre⟩

theorem execAll_position (es : List Event) : ∀ {w w' : World}, NeverReached fuel i w es →
    (∀ e ∈ es, ¬ e.Rebases i) → (execAll fuel w es).out = .ret w' →
    w'.position i = w.position i := by
  induction es with
  | nil =>
      intro w w' _ _ h
      cases h
      rfl
  | cons e es ih =>
      intro w w' hidle hbase h
      obtain ⟨w1, he, hes⟩ := Traced.bind_out_eq_ret.mp h
      have hfirst := exec_position (hbase e List.mem_cons_self) (hidle [] e es w rfl rfl) he
      exact (ih (hidle.tail he) (fun e' he' => hbase e' (List.mem_cons_of_mem _ he')) hes).trans
        hfirst

/-- The answer of `_get_vring_base`, which changes nothing. -/
theorem getVringBase_answer {maps : Nat → Option MapResult} {msg msg' : ServerMsg} {r : Int}
    (hreq : VhostUserRequest.ofWord msg.msg.request = some .getVringBase)
    (hindex : msg.msg.payload.state.index.toNat = i)
    (h : (inMsgServer maps w msg).out = .ret (r, msg', w')) :
    w' = w ∧ msg'.msg.payload.state.num = (w.vring i).lastAvailIdx.toUInt32 := by
  rw [inMsgServer, hreq] at h
  obtain ⟨j, hj, h⟩ := Traced.bind_out_eq_ret.mp h
  obtain rfl : j = i := Fin.ext ((ringIndex_ret hj).symm.trans hindex)
  cases h
  exact ⟨rfl, Payload.u32At_setU32 4 _⟩

/-- **After `VHOST_USER_GET_VRING_BASE`** the ring stays where it was answered to be, and no
step of the server changes its avail or its used ring, as long as no message sets its
counters, no kick and no poll finds work for it, and none that finds work for the other ring
stores into the bytes of a ring where it should not. -/
theorem base_stays {maps : Nat → Option MapResult} {w0 : World} {msg msg' : ServerMsg} {r : Int}
    {es : List Event} (hreq : VhostUserRequest.ofWord msg.msg.request = some .getVringBase)
    (hindex : msg.msg.payload.state.index.toNat = i)
    (hanswer : (inMsgServer maps w0 msg).out = .ret (r, msg', w))
    (hbase : ∀ e ∈ es, ¬ e.Rebases i) (hidle : NeverReached fuel i w es)
    (hrun : (execAll fuel w es).out = .ret w') :
    msg'.msg.payload.state.num = (w'.vring i).lastAvailIdx.toUInt32 ∧
    w'.position i = w0.position i ∧
    ∀ pre e post w1 w2, es = pre ++ e :: post → (execAll fuel w pre).out = .ret w1 →
      (exec fuel w1 e).out = .ret w2 → ¬ e.IsPeer → RingKept w1 w2 i := by
  obtain ⟨rfl, hnum⟩ := getVringBase_answer hreq hindex hanswer
  have hpos := execAll_position es hidle hbase hrun
  refine ⟨?_, hpos, fun pre e post w1 w2 heq hpre he hpeer => ?_⟩
  · have hlast : (w'.vring i).lastAvailIdx = (w.vring i).lastAvailIdx := congrArg Prod.fst hpos
    rw [hnum, hlast]
  · refine exec_kept (hbase e ?_) hpeer (hidle pre e post w1 heq hpre) he
    rw [heq]
    exact List.mem_append_right _ List.mem_cons_self

end Runs

/-- Where a ring stands after some events. -/
def positionAfter (fuel : Nat) (w : World) (es : List Event) (i : RingIdx) :
    Option (UInt16 × UInt16) :=
  match (execAll fuel w es).out with
  | .ret w => some (w.position i)
  | _ => none

/-- The TX ring is set up and its base is asked for. -/
def stoppedTx (S : Session) : List Event :=
  [.accept 11,
    .message 11 S.memTable S.maps,
    .message 11 (stateMsg .setVringNum ⟨1, .ofNat vhostVringSize⟩) S.maps,
    .message 11 (fileMsg .setVringKick 1 (S.kickfd txIdx)) S.maps,
    .message 11 (addrMsg (vringAddr 1 (S.clientBase txIdx))) S.maps,
    .message 11 (stateMsg .getVringBase ⟨1, 0⟩) S.maps]

/-! ### The rings of a session -/

/-- Where a part lies in the region of its ring. -/
def VringPart.offset : VringPart → Nat
  | .desc => offsetofDesc
  | .avail => offsetofAvail
  | .used => offsetofUsed

/-- **The rings of a session are apart.** -/
theorem Session.apart (S : Session) {w : World} (hspace : w.space = regionSpace S.serverBase)
    (hsetup : ∀ i, w.setup i = (S.serverVring i 0).setup) : w.Apart := by
  have hsize : (UInt32.ofNat vhostVringSize).toNat = 32768 := rfl
  have hdesc : offsetofDesc = 8 := rfl
  have havail : offsetofAvail = 524296 := rfl
  have hused : offsetofUsed = 593920 := by decide
  -- a byte of a part, by its offset in the region
  have hbyte : ∀ i c l, w.InPart i c l → ∃ k, k < ((w.setup i).part c).2 ∧
      l = ⟨i, c.offset + k⟩ := by
    rintro i c l ⟨k, hk, hl⟩
    refine ⟨k, hk, ?_⟩
    have hstart : ((w.setup i).part c).1 = S.serverBase i + .ofNat c.offset := by
      rw [hsetup]
      cases c with
      | desc | avail | used => rfl
    have hfits : c.offset + ((w.setup i).part c).2 ≤ vhostClientPageSize.toNat := by
      rw [hsetup, vhostClientPageSize_toNat]
      cases c with
      | desc | avail | used =>
          simp only [VringPart.offset, RingSetup.part, serverVring, Vring.setup,
            sizeofVringDesc]
          omega
    rw [hstart, hspace, S.server.shows i hfits k hk] at hl
    exact (Option.some.inj hl).symm
  intro i c j d l hne hi hj
  obtain ⟨k, hk, rfl⟩ := hbyte i c l hi
  obtain ⟨k', hk', heq⟩ := hbyte j d _ hj
  obtain rfl : i = j := Fin.ext (congrArg Loc.shm heq)
  have hoff : c.offset + k = d.offset + k' := congrArg Loc.off heq
  rw [hsetup] at hk hk'
  have hcd : c ≠ d := fun hcd => hne (congrArg (Prod.mk i) hcd)
  cases c <;> cases d <;>
    simp only [VringPart.offset, RingSetup.part, serverVring, Vring.setup, sizeofVringDesc]
      at hk hk' hoff <;>
    first | exact hcd rfl | omega

/-- What the server sees of memory and where its rings are, after some events. -/
def viewAfter (fuel : Nat) (w : World) (es : List Event) :
    Option (AddrSpace × RingSetup × RingSetup) :=
  match (execAll fuel w es).out with
  | .ret w => some (w.space, w.setup rxIdx, w.setup txIdx)
  | _ => none

/-- Both rings are set up, and the server is told to go on at entry `5` of the RX ring. -/
def openedAtFive (S : Session) : List Event :=
  .accept 11 :: (S.setupMsgs ++ [stateMsg .setVringBase ⟨0, 5⟩]).map fun msg =>
    .message 11 msg S.maps

/-- The other process sends a packet of ten bytes on the TX ring. -/
def sentTx (S : Session) : Mem :=
  (Mem.zero.setDesc ⟨1, offsetofDesc⟩ 0 ⟨S.clientBase txIdx + 0xf0000, 20, 0, 0⟩).setAvail
    ⟨1, offsetofAvail⟩ ⟨1, fun _ => 0⟩

/-- The base of the RX ring is asked for, and then a packet of the TX ring is consumed. -/
theorem base_stays_demo : ∃ w w' msg',
    (execAll 1 (Session.serverWorld 10 Mem.zero) (openedAtFive .demo)).out = .ret w ∧
    (inMsgServer Session.demo.maps w (stateMsg .getVringBase ⟨0, 0⟩)).out = .ret (1, msg', w) ∧
    (execAll 1 w [.peer (sentTx .demo), .kick (Session.demo.kickfd txIdx) 8]).out = .ret w' ∧
    w'.position txIdx = (1, 1) ∧
    msg'.msg.payload.state.num = (w'.vring rxIdx).lastAvailIdx.toUInt32 ∧
    w'.position rxIdx = w.position rxIdx ∧ w.position rxIdx = (5, 0) ∧
    ∀ pre e post w1 w2, [.peer (sentTx .demo), .kick (Session.demo.kickfd txIdx) 8] =
      pre ++ e :: post → (execAll 1 w pre).out = .ret w1 → (exec 1 w1 e).out = .ret w2 →
      ¬ e.IsPeer → RingKept w1 w2 rxIdx := by
  have hview : viewAfter 1 (Session.serverWorld 10 Mem.zero) (openedAtFive .demo) =
      some (regionSpace Session.demo.serverBase, (Session.demo.serverVring rxIdx 0).setup,
        (Session.demo.serverVring txIdx 0).setup) := by decide +kernel
  have hopened : positionAfter 1 (Session.serverWorld 10 Mem.zero) (openedAtFive .demo) rxIdx =
      some (5, 0) := by decide +kernel
  have hserved : positionAfter 1 (Session.serverWorld 10 Mem.zero) (openedAtFive .demo ++
      [.peer (sentTx .demo), .kick (Session.demo.kickfd txIdx) 8]) txIdx = some (1, 1) := by
    decide +kernel
  obtain ⟨w, hw⟩ : ∃ w, (execAll 1 (Session.serverWorld 10 Mem.zero)
      (openedAtFive .demo)).out = .ret w := by
    unfold positionAfter at hopened
    split at hopened
    · rename_i w hw
      exact ⟨w, hw⟩
    · cases hopened
  rw [positionAfter, execAll, Traced.runAll_append _ _ hw] at hserved
  obtain ⟨w', hw', hpos⟩ : ∃ w', (execAll 1 w [.peer (sentTx .demo),
      .kick (Session.demo.kickfd txIdx) 8]).out = .ret w' ∧ w'.position txIdx = (1, 1) := by
    split at hserved
    · rename_i w' hw'
      exact ⟨w', hw', Option.some.inj hserved⟩
    · cases hserved
  rw [viewAfter, hw] at hview
  rw [positionAfter, hw] at hopened
  have hapart : w.Apart := by
    have hview := Option.some.inj hview
    refine Session.demo.apart (congrArg Prod.fst hview) fun i => ?_
    rcases ringIdx_cases i with rfl | rfl
    · exact congrArg (fun v => v.2.1) hview
    · exact congrArg (fun v => v.2.2) hview
  have hidle : NeverReached 1 rxIdx w
      [.peer (sentTx .demo), .kick (Session.demo.kickfd txIdx) 8] := by
    intro pre e post w1 heq hpre
    rcases pre with _ | ⟨e1, _ | ⟨e2, pre⟩⟩
    · cases heq
      rintro (hworks | ⟨⟨j, hworks⟩, -⟩ | ⟨hworks, -⟩)
      · exact hworks.1
      · exact hworks.1
      · exact hworks.1
    · -- the kick serves the other ring, which lies elsewhere
      cases heq
      cases hpre
      rintro (hworks | ⟨-, hmeet⟩ | ⟨hworks, -⟩)
      · exact absurd hworks.1.1 (by decide)
      · exact hmeet (hapart.congr rfl rfl)
      · exact absurd hworks.1.1 (by decide)
    · have hlen := congrArg List.length heq
      simp only [List.length_cons, List.length_nil, List.length_append] at hlen
      omega
  have hreq : VhostUserRequest.ofWord (stateMsg .getVringBase ⟨0, 0⟩).msg.request =
    some .getVringBase := rfl
  have hanswer : (inMsgServer Session.demo.maps w (stateMsg .getVringBase ⟨0, 0⟩)).out =
      .ret (1, _, w) := rfl
  have hbase : ∀ e ∈ [.peer (sentTx .demo), .kick (Session.demo.kickfd txIdx) 8],
      ¬ Event.Rebases e rxIdx := by
    intro e he
    rcases List.mem_cons.mp he with rfl | he
    · exact id
    · rw [List.mem_singleton.mp he]
      exact id
  have hstays := base_stays hreq rfl hanswer hbase hidle hw'
  exact ⟨w, w', _, hw, hanswer, hw', hpos, hstays.1, hstays.2.1, Option.some.inj hopened,
    hstays.2.2⟩

/-- A kick on the old descriptor serves the TX ring after `VHOST_USER_GET_VRING_BASE` was
answered: it consumes the entry that the client has put since. -/
theorem kick_moves_stopped_ring :
    positionAfter 1 ⟨newVhostServer 10 true, [], Mem.zero⟩ (stoppedTx .demo) txIdx =
      some (0, 0) ∧
    positionAfter 1 ⟨newVhostServer 10 true, [], Mem.zero⟩
      (stoppedTx .demo ++ [.peer { Mem.zero with avail := fun _ => ⟨1, fun _ => 0⟩ },
        .kick (Session.demo.kickfd txIdx) 8]) txIdx = some (1, 1) := by
  constructor <;> decide +kernel

end Vapp
