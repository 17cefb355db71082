import Vapp.ServerCalls
import Vapp.VringSpec

/-! # What one event does to the rings of the server

Four members of a ring are set up by messages, each by the last message of its kind, and
nothing that the server does with the ring changes them.  `Effect` says once what an event
can do to them, which acts it leaves in the trace, and which rings it uses.
-/
namespace Vapp

/-! ### What the messages set up -/

/-- The members of a `Vring` that only messages set. -/
structure RingSetup where
  desc : UInt64
  avail : UInt64
  used : UInt64
  num : UInt32
  deriving DecidableEq, Repr

def Vring.setup (v : Vring) : RingSetup := ⟨v.desc, v.avail, v.used, v.num⟩

def World.setup (w : World) (i : RingIdx) : RingSetup := (w.vring i).setup

@[simp] theorem World.setup_setContext (w : World) (c : ServerContext) :
    (w.setContext c).setup = w.setup := rfl

@[simp] theorem World.setup_setFdList (w : World) (l : FdList) :
    (w.setFdList l).setup = w.setup := rfl

theorem World.setup_setVring (w : World) (i : RingIdx) (v : Vring) :
    (w.setVring i v).setup = Function.update w.setup i v.setup := by
  funext j
  by_cases h : j = i
  · subst h
    rw [Function.update_self, setup, setVring_vring_self]
  · rw [Function.update_of_ne h, setup, setVring_vring_of_ne w v h, setup]

/-- A change of the other members. -/
theorem World.setup_setVring_of_eq {w : World} {i : RingIdx} {v : Vring}
    (h : v.setup = w.setup i) : (w.setVring i v).setup = w.setup := by
  rw [setup_setVring, h, Function.update_eq_self]

theorem translate_server {t : VringTable ServerContext} (h : t.handlers = serverHandlers)
    (a : UInt64) : t.translate a = mapGuestAddr t.context.memory a := by
  rw [VringTable.translate, h]
  rfl

section Calls
variable {κ : Type} {sp : AddrSpace} {t : VringTable κ} {i : RingIdx} {m : Mem}

/-- What `process_avail_vring` leaves alone: the other ring, the members of its own that
messages set, what the callbacks translate, and everything in memory but its used ring. -/
structure AvailFrame (sp : AddrSpace) (i : RingIdx) (t t' : VringTable κ) (m m' : Mem) :
    Prop where
  other : ∀ j, j ≠ i → t'.vring j = t.vring j
  setup : (t'.vring i).setup = (t.vring i).setup
  handlers : t'.handlers = t.handlers
  translate : ∀ a, t'.translate a = t.translate a
  desc : m'.desc = m.desc
  avail : m'.avail = m.avail
  byte : m'.byte = m.byte
  used : ∀ l, sp.resolve (t.vring i).used ≠ some l → m'.used l = m.used l

theorem AvailFrame.refl (t : VringTable κ) (m : Mem) : AvailFrame sp i t t m m :=
  ⟨fun _ _ => rfl, rfl, rfl, fun _ => rfl, rfl, rfl, rfl, fun _ _ => rfl⟩

theorem AvailFrame.trans {t t' t'' : VringTable κ} {m m' m'' : Mem}
    (h : AvailFrame sp i t t' m m') (h' : AvailFrame sp i t' t'' m' m'') :
    AvailFrame sp i t t'' m m'' where
  other j hj := (h'.other j hj).trans (h.other j hj)
  setup := h'.setup.trans h.setup
  handlers := h'.handlers.trans h.handlers
  translate a := (h'.translate a).trans (h.translate a)
  desc := h'.desc.trans h.desc
  avail := h'.avail.trans h.avail
  byte := h'.byte.trans h.byte
  used l hl := by
    have hused : (t'.vring i).used = (t.vring i).used := congrArg RingSetup.used h.setup
    exact (h'.used l (by rwa [hused])).trans (h.used l hl)

/-- `_process_desc` writes no used ring but that of its own ring. -/
theorem processDesc_used {fuel : Nat} {a : UInt16} {r : DescResult κ}
    (h : processDesc sp fuel t i a m = .ret r) {l : Loc}
    (hl : sp.resolve (t.vring i).used ≠ some l) : r.mem.used l = m.used l := by
  obtain ⟨_, c, _, ⟨_, rfl⟩ | ⟨_, m', hstore, h⟩⟩ := processDesc_cases h
  · rfl
  · obtain ⟨U, hU, _, rfl⟩ := storeUsedElem_ret hstore
    have hne : l ≠ U := by
      rintro rfl
      exact hl hU
    rw [consumePacket_mem h]
    exact Function.update_of_ne hne _ _

/-- A turn of `process_avail_vring` changes its own ring only. -/
theorem availTurn_availFrame {fuel : Nat} {a : UInt16} {r : AvailTurn κ}
    (h : availTurn sp fuel t i a m = .ret (some r)) : AvailFrame sp i t r.table m r.mem := by
  obtain ⟨_, d, _, _, hd, hf, htable, hmem, _⟩ := availTurn_some h
  rw [htable, hmem]
  refine ⟨fun j hj => ?_, ?_, hf.handlers, hf.translate, hf.desc, hf.avail, hf.byte,
    fun l hl => processDesc_used hd hl⟩
  · rw [VringTable.setVring_of_ne _ _ hj, hf.vring]
  · rw [VringTable.setVring_self]
    rfl

/-- A call that returned has reached the end of avail and stored `used->idx`. -/
theorem processAvailVring_end {fuel : Nat} {c : AvailLoop κ}
    (h : processAvailVring sp fuel t i m = .ret c) :
    ∃ (s : AvailLoop κ) (A U : Loc), AvailFrame sp i t s.table m s.mem ∧
      sp.resolve (t.vring i).avail = some A ∧
      sp.resolve (t.vring i).used = some U ∧
      (s.table.vring i).lastAvailIdx = (m.avail A).idx ∧
      c = { s with mem :=
        s.mem.setUsed U { s.mem.used U with idx := (s.table.vring i).lastUsedIdx } } := by
  obtain ⟨s, m', hs, hend, hleave, rfl⟩ := processAvailVring_rule
    (I := fun s => AvailFrame sp i t s.table m s.mem) (fun _ _ => .refl t m)
    (fun _ _ hs hturn => hs.trans (availTurn_availFrame hturn)) h
  have havail : (s.table.vring i).avail = (t.vring i).avail := congrArg RingSetup.avail hs.setup
  have hused : (s.table.vring i).used = (t.vring i).used := congrArg RingSetup.used hs.setup
  obtain ⟨A, hA, hlast⟩ := availTurn_none hend
  obtain ⟨U, hU, rfl⟩ := availLeave_ret hleave
  exact ⟨s, A, U, hs, havail ▸ hA, hused ▸ hU,
    hlast.trans (congrArg VringAvail.idx (congrFun hs.avail A)), rfl⟩

/-- **`process_avail_vring` changes its own ring only.** -/
theorem processAvailVring_availFrame {fuel : Nat} {c : AvailLoop κ}
    (h : processAvailVring sp fuel t i m = .ret c) : AvailFrame sp i t c.table m c.mem := by
  obtain ⟨s, A, U, hturns, _, hU, _, rfl⟩ := processAvailVring_end h
  have hused : (s.table.vring i).used = (t.vring i).used :=
    congrArg RingSetup.used hturns.setup
  refine hturns.trans ⟨fun _ _ => rfl, rfl, rfl, fun _ => rfl, rfl, rfl, rfl, fun l hl => ?_⟩
  refine Function.update_of_ne ?_ _ _
  rintro rfl
  exact hl (hused ▸ hU)

/-- `process_avail_vring` only moves the two counters of its ring. -/
theorem processAvailVring_setup {fuel : Nat} {c : AvailLoop κ}
    (h : processAvailVring sp fuel t i m = .ret c) (j : RingIdx) :
    (c.table.vring j).setup = (t.vring j).setup := by
  have hf := processAvailVring_availFrame h
  by_cases hj : j = i
  · subst hj
    exact hf.setup
  · rw [hf.other j hj]

/-- Both rings of a call that returned could be accessed. -/
theorem processAvailVring_resolves {fuel : Nat} {c : AvailLoop κ}
    (h : processAvailVring sp fuel t i m = .ret c) :
    ∃ A U, sp.resolve (t.vring i).avail = some A ∧ sp.resolve (t.vring i).used = some U := by
  obtain ⟨_, A, U, _, hA, hU, _⟩ := processAvailVring_end h
  exact ⟨A, U, hA, hU⟩

/-- At the end of avail, `process_avail_vring` only stores `used->idx`. -/
theorem processAvailVring_of_eq {fuel : Nat} {A : Loc} {c : AvailLoop κ}
    (hA : sp.resolve (t.vring i).avail = some A)
    (heq : (t.vring i).lastAvailIdx = (m.avail A).idx)
    (h : processAvailVring sp fuel t i m = .ret c) :
    c.table = t ∧ ∃ U, sp.resolve (t.vring i).used = some U ∧
      c.mem = m.setUsed U { m.used U with idx := (t.vring i).lastUsedIdx } := by
  -- no turn is taken
  obtain ⟨s, m', ⟨htable, hmem⟩, _, hleave, rfl⟩ := processAvailVring_rule
    (I := fun s => s.table = t ∧ s.mem = m) (fun _ _ => ⟨rfl, rfl⟩)
    (fun s r hs hturn => by
      rw [hs.1, hs.2, availTurn_of_eq hA heq] at hturn
      cases hturn) h
  rw [htable, hmem] at hleave
  obtain ⟨U, hU, rfl⟩ := availLeave_ret hleave
  exact ⟨htable, U, hU, rfl⟩

/-- A call that returned has reached the end of avail, and `used->idx` says so. -/
theorem processAvailVring_done {fuel : Nat} {c : AvailLoop κ}
    (h : processAvailVring sp fuel t i m = .ret c) {A U : Loc}
    (hA : sp.resolve (t.vring i).avail = some A) (hU : sp.resolve (t.vring i).used = some U) :
    (c.table.vring i).lastAvailIdx = (m.avail A).idx ∧
      (c.mem.used U).idx = (c.table.vring i).lastUsedIdx := by
  obtain ⟨s, A', U', _, hA', hU', hlast, rfl⟩ := processAvailVring_end h
  cases hA.symm.trans hA'
  cases hU.symm.trans hU'
  exact ⟨hlast, by rw [Mem.setUsed_used_self]⟩

/-- What `put_vring` leaves alone: the other ring, the members of its own that messages set,
the context, and every descriptor table and every avail ring but its own. -/
structure PutFrame (sp : AddrSpace) (i : RingIdx) (t t' : VringTable κ) (m m' : Mem) : Prop where
  other : ∀ j, j ≠ i → t'.vring j = t.vring j
  setup : (t'.vring i).setup = (t.vring i).setup
  lastUsed : (t'.vring i).lastUsedIdx = (t.vring i).lastUsedIdx
  handlers : t'.handlers = t.handlers
  context : t'.context = t.context
  desc : ∀ l, sp.resolve (t.vring i).desc ≠ some l → m'.desc l = m.desc l
  avail : ∀ l, sp.resolve (t.vring i).avail ≠ some l → m'.avail l = m.avail l
  used : m'.used = m.used

theorem putVring_putFrame {buf : List UInt8} {r : Int} {t' : VringTable κ} {m' : Mem}
    (h : putVring sp t i buf m = .ret (r, t', m')) : PutFrame sp i t t' m m' := by
  rcases putVring_ret h with
    ⟨_, rfl, rfl⟩ | ⟨_, D, A, hD, hA, _, _, rfl, hdesc, havail, hused⟩
  · exact ⟨fun _ _ => rfl, rfl, rfl, rfl, rfl, fun _ _ => rfl, fun _ _ => rfl, rfl⟩
  · refine ⟨fun j hj => VringTable.setVring_of_ne _ _ hj, ?_, ?_, rfl, rfl, fun l hl => ?_,
      fun l hl => ?_, hused⟩
    · rw [VringTable.setVring_self]
      rfl
    · rw [VringTable.setVring_self]
    · have hne : l ≠ D := by
        rintro rfl
        exact hl hD
      rw [hdesc]
      exact Function.update_of_ne hne _ _
    · have hne : l ≠ A := by
        rintro rfl
        exact hl hA
      rw [havail]
      exact Function.update_of_ne hne _ _

/-- `put_vring` only moves the head of the free list. -/
theorem putVring_setup {buf : List UInt8} {r : Int} {t' : VringTable κ} {m' : Mem}
    (h : putVring sp t i buf m = .ret (r, t', m')) (j : RingIdx) :
    (t'.vring j).setup = (t.vring j).setup := by
  have hf := putVring_putFrame h
  by_cases hji : j = i
  · rw [hji]
    exact hf.setup
  · rw [hf.other j hji]

/-- What `process_used_vring` leaves alone: the other ring, the members of its own that
messages set, the context, and everything in memory but its descriptor table. -/
structure UsedFrame (sp : AddrSpace) (i : RingIdx) (t t' : VringTable κ) (m m' : Mem) : Prop where
  other : ∀ j, j ≠ i → t'.vring j = t.vring j
  setup : (t'.vring i).setup = (t.vring i).setup
  handlers : t'.handlers = t.handlers
  context : t'.context = t.context
  desc : ∀ l, sp.resolve (t.vring i).desc ≠ some l → m'.desc l = m.desc l
  avail : m'.avail = m.avail
  used : m'.used = m.used
  byte : m'.byte = m.byte

theorem UsedFrame.trans {t t' t'' : VringTable κ} {m m' m'' : Mem}
    (h : UsedFrame sp i t t' m m') (h' : UsedFrame sp i t' t'' m' m'') :
    UsedFrame sp i t t'' m m'' where
  other j hj := (h'.other j hj).trans (h.other j hj)
  setup := h'.setup.trans h.setup
  handlers := h'.handlers.trans h.handlers
  context := h'.context.trans h.context
  desc l hl := by
    have hdesc : (t'.vring i).desc = (t.vring i).desc := congrArg RingSetup.desc h.setup
    exact (h'.desc l (by rwa [hdesc])).trans (h.desc l hl)
  avail := h'.avail.trans h.avail
  used := h'.used.trans h.used
  byte := h'.byte.trans h.byte

/-- Moving the two indices of its ring. -/
theorem usedFrame_setVring (sp : AddrSpace) (i : RingIdx) (t : VringTable κ) (m : Mem)
    (head idx : UInt16) : UsedFrame sp i t
      (t.setVring i { t.vring i with lastAvailIdx := head, lastUsedIdx := idx }) m m where
  other _ hj := VringTable.setVring_of_ne _ _ hj
  setup := by
    rw [VringTable.setVring_self]
    rfl
  handlers := rfl
  context := rfl
  desc _ _ := rfl
  avail := rfl
  used := rfl
  byte := rfl

theorem freeVring_usedFrame {d : UInt32} {t' : VringTable κ} {m' : Mem}
    (h : freeVring sp t i d m = .ret (t', m')) : UsedFrame sp i t t' m m' := by
  obtain ⟨_, D, hD, rfl, rfl⟩ := freeVring_ret h
  have hring := usedFrame_setVring sp i t m d.toUInt16 (t.vring i).lastUsedIdx
  refine ⟨hring.other, hring.setup, rfl, rfl, fun l hl => ?_, rfl, rfl, rfl⟩
  refine Function.update_of_ne ?_ _ _
  rintro rfl
  exact hl hD

/-- **`process_used_vring` changes its own descriptors only.** -/
theorem processUsedVring_usedFrame {fuel : Nat} {u : UsedLoop κ}
    (h : processUsedVring sp fuel t i m = .ret u) : UsedFrame sp i t u.table m u.mem := by
  obtain ⟨c, hloop, h⟩ := Outcome.bind_eq_ret.mp h
  cases h
  refine UsedFrame.trans ?_ (usedFrame_setVring sp i c.table c.mem _ _)
  refine Outcome.loop_invariant (I := fun s : UsedLoop κ => UsedFrame sp i t s.table m s.mem)
    (Q := fun s => UsedFrame sp i t s.table m s.mem) ?_ ?_
    ⟨fun _ _ => rfl, rfl, rfl, rfl, fun _ _ => rfl, rfl, rfl, rfl⟩ hloop
  · intro s s' hs hb
    obtain ⟨idx, _, hb⟩ := Outcome.bind_eq_ret.mp hb
    split at hb
    · cases hb
    · obtain ⟨e, _, hb⟩ := Outcome.bind_eq_ret.mp hb
      obtain ⟨⟨t', m'⟩, hfree, hb⟩ := Outcome.bind_eq_ret.mp hb
      obtain ⟨_, _, hb⟩ := Outcome.bind_eq_ret.mp hb
      cases hb
      exact hs.trans (freeVring_usedFrame hfree)
  · intro s c hs hb
    obtain ⟨idx, _, hb⟩ := Outcome.bind_eq_ret.mp hb
    split at hb
    · cases hb
      exact hs
    · obtain ⟨e, _, hb⟩ := Outcome.bind_eq_ret.mp hb
      obtain ⟨_, _, hb⟩ := Outcome.bind_eq_ret.mp hb
      obtain ⟨_, _, hb⟩ := Outcome.bind_eq_ret.mp hb
      cases hb

end Calls

/-! ### What is remembered of the messages -/

/-- What the messages that were received say of a ring: whether its addresses were set
after the last memory table, the last size, and the last translated address of its avail
ring. -/
structure RingHistory where
  current : Bool
  num : UInt32
  avail : UInt64
  deriving DecidableEq, Repr

/-- Before the first message. -/
def RingHistory.start : RingHistory := ⟨false, 0, 0⟩

/-- Remember one more message; `memory` is the table it finds installed. -/
def RingHistory.note (memory : VhostServerMemory) (p : Payload) (i : RingIdx) (h : RingHistory) :
    VhostUserRequest → RingHistory
  | .setMemTable => { h with current := false }
  | .setVringNum => if p.state.index.toNat = i then { h with num := p.state.num } else h
  | .setVringAddr =>
      if p.addr.index.toNat = i then
        { h with current := true, avail := mapUserAddr memory p.addr.availUserAddr }
      else
        h
  | _ => h

namespace Event

/-- The message that an event delivers to `in_msg_server`, if any. -/
def received (w : World) : Event → Option (VhostUserRequest × Payload)
  | .message sock msg _ =>
      if w.server.fdList.Registered sock .receiveSockServer then
        (VhostUserRequest.ofWord msg.msg.request).map fun r => (r, msg.msg.payload)
      else
        none
  | _ => none

/-- What is remembered of both rings after an event. -/
def note (w : World) (e : Event) (g : RingIdx → RingHistory) (i : RingIdx) : RingHistory :=
  match e.received w with
  | some (r, p) => (g i).note w.context.memory p i r
  | none => g i

/-- The pointer `_set_vring_addr` is going to read `used->idx` from. -/
def usedAddr (w : World) (e : Event) : Option UInt64 :=
  match e.received w with
  | some (.setVringAddr, p) =>
      if p.addr.index.toNat < vhostClientVringNum then
        some (mapUserAddr w.context.memory p.addr.usedUserAddr)
      else
        none
  | _ => none

/-- The event gets past the guards in front of `process_avail_vring` and `put_vring` for
ring `i`: the descriptor table of the TX ring is set when a kick arrives, or that of the RX
ring is when the server is polled; then the TX ring is used if the server is polling and
its own table is set, and the RX ring if a packet is in the private buffer. -/
def Uses (fuel : Nat) (w : World) (e : Event) (i : RingIdx) : Prop :=
  match e with
  | .kick fd r =>
      i = txIdx ∧ w.server.fdList.Registered fd .kickServer ∧ 0 < r ∧ (w.vring txIdx).desc ≠ 0
  | .poll =>
      (w.vring rxIdx).desc ≠ 0 ∧
        ((i = txIdx ∧ w.server.isPolling = true ∧ (w.vring txIdx).desc ≠ 0) ∨
          (i = rxIdx ∧ ∃ w', (pollTx fuel w).out = .ret w' ∧ w'.context.bufferSize ≠ 0))
  | _ => False

end Event

/-! ### The effect of an event -/

/-- **What an event can do** to the rings: use them as they are set up, install a memory
table, or set the size or the addresses of one of them. -/
inductive Effect (fuel : Nat) (w : World) (e : Event) : Prop
  | run
      (acts : ∀ a ∈ (exec fuel w e).acts, ∃ i v, a = .ringRun i v ∧ v.setup = w.setup i ∧
        e.Uses fuel w i)
      (uses : ∀ i, e.Uses fuel w i → ∃ v, .ringRun i v ∈ (exec fuel w e).acts)
      (usedAddr : e.usedAddr w = none)
      (ret : ∀ w', (exec fuel w e).out = .ret w' →
        w'.setup = w.setup ∧ ∀ g, e.note w g = g)
  | table
      (acts : (exec fuel w e).acts = [.tableSet])
      (unused : ∀ i, ¬ e.Uses fuel w i)
      (usedAddr : e.usedAddr w = none)
      (ret : ∀ w', (exec fuel w e).out = .ret w' →
        w'.setup = w.setup ∧ ∀ g, e.note w g = fun i => { g i with current := false })
  | num (i : RingIdx) (n : UInt32)
      (acts : (exec fuel w e).acts = [.numSet i n])
      (unused : ∀ i, ¬ e.Uses fuel w i)
      (usedAddr : e.usedAddr w = none)
      (ret : ∀ w', (exec fuel w e).out = .ret w' →
        w'.setup = Function.update w.setup i { w.setup i with num := n } ∧
        ∀ g, e.note w g = Function.update g i { g i with num := n })
  | addr (i : RingIdx) (d a u : UInt64)
      (acts : (exec fuel w e).acts = [.addrSet i d a u, .usedRead i u])
      (unused : ∀ i, ¬ e.Uses fuel w i)
      (usedAddr : e.usedAddr w = some u)
      (ret : ∀ w', (exec fuel w e).out = .ret w' →
        w'.setup = Function.update w.setup i ⟨d, a, u, (w.setup i).num⟩ ∧
        ∀ g, e.note w g = Function.update g i { g i with current := true, avail := a })

section Effect
variable {fuel : Nat} {w : World} {e : Event}

/-- An event that does nothing to the rings. -/
theorem Effect.quiet (hacts : (exec fuel w e).acts = []) (hunused : ∀ i, ¬ e.Uses fuel w i)
    (husedAddr : e.usedAddr w = none)
    (hret : ∀ w', (exec fuel w e).out = .ret w' → w'.setup = w.setup ∧ ∀ g, e.note w g = g) :
    Effect fuel w e := by
  refine .run ?_ (fun i hi => absurd hi (hunused i)) husedAddr hret
  intro a ha
  rw [hacts] at ha
  cases ha

end Effect

/-! ### Messages -/

/-- A handler that leaves no trace and the rings as they are set up. -/
def Quiet (w : World) (c : Call (Int × ServerMsg × World)) : Prop :=
  c.acts = [] ∧ ∀ r, c.out = .ret r → r.2.2.setup = w.setup

section Handlers
variable {w : World} {msg : ServerMsg}

theorem quiet_pure {r : Int × ServerMsg × World} (h : r.2.2.setup = w.setup) :
    Quiet w (pure r) := by
  refine ⟨rfl, fun r' hr => ?_⟩
  cases hr
  exact h

theorem quiet_lift {α : Type} {x : Run α} {f : α → Call (Int × ServerMsg × World)}
    (h : ∀ a, x = .ret a → Quiet w (f a)) : Quiet w (Traced.lift x >>= f) := by
  cases x with
  | ret a => exact h a rfl
  | fault e => exact ⟨rfl, nofun⟩
  | spent => exact ⟨rfl, nofun⟩

theorem quiet_setVringBase (w : World) (msg : ServerMsg) : Quiet w (setVringBase w msg) :=
  quiet_lift fun _ _ => quiet_pure (World.setup_setVring_of_eq rfl)

theorem quiet_getVringBase (w : World) (msg : ServerMsg) : Quiet w (getVringBase w msg) :=
  quiet_lift fun _ _ => quiet_pure rfl

theorem quiet_setVringKick (w : World) (msg : ServerMsg) : Quiet w (setVringKick w msg) := by
  refine quiet_lift fun x _ => ?_
  obtain ⟨i, validfd⟩ := x
  cases validfd with
  | false => exact quiet_pure rfl
  | true =>
      refine quiet_lift fun _ _ => quiet_pure ?_
      by_cases hi : i = txIdx
      · rw [if_pos hi]
        exact World.setup_setVring_of_eq rfl
      · rw [if_neg hi]
        exact World.setup_setVring_of_eq rfl

theorem quiet_setVringCall (w : World) (msg : ServerMsg) : Quiet w (setVringCall w msg) := by
  refine quiet_lift fun x _ => ?_
  obtain ⟨i, validfd⟩ := x
  cases validfd with
  | false => exact quiet_pure rfl
  | true => exact quiet_lift fun _ _ => quiet_pure (World.setup_setVring_of_eq rfl)

/-- The handlers of the messages that do not set up a ring. -/
theorem quiet_msgHandler {maps : Nat → Option MapResult} {r : VhostUserRequest}
    (hmem : r ≠ .setMemTable) (hnum : r ≠ .setVringNum) (haddr : r ≠ .setVringAddr) :
    Quiet w (msgHandler maps r w msg) := by
  cases r with
  | setMemTable => exact absurd rfl hmem
  | setVringNum => exact absurd rfl hnum
  | setVringAddr => exact absurd rfl haddr
  | setVringBase => exact quiet_setVringBase w msg
  | getVringBase => exact quiet_getVringBase w msg
  | setVringKick => exact quiet_setVringKick w msg
  | setVringCall => exact quiet_setVringCall w msg
  | _ => exact quiet_pure rfl

/-- **The loop of `_set_mem_table`** changes the region table and the mappings only. -/
theorem setMemTableLoop_frame {maps : Nat → Option MapResult} (todo : Nat) :
    ∀ {idx : Nat} {w w' : World}, setMemTableLoop msg maps todo idx w = .ret w' →
      ∃ memory space,
        w' = { w.setContext { w.context with memory := memory } with space := space } := by
  induction todo with
  | zero =>
      intro idx w w' h
      cases h
      exact ⟨w.context.memory, w.space, rfl⟩
  | succ todo ih =>
      intro idx w w' h
      obtain ⟨w1, hturn, h⟩ := Outcome.bind_eq_ret.mp h
      obtain ⟨memory, space, rfl⟩ := ih h
      refine ⟨memory, space, ?_⟩
      obtain ⟨_, _, hturn⟩ := Outcome.bind_eq_ret.mp hturn
      split at hturn
      · obtain ⟨_, _, hturn⟩ := Outcome.bind_eq_ret.mp hturn
        cases hturn
        rfl
      · cases hturn
        rfl

theorem setMemTableLoop_setup {maps : Nat → Option MapResult} (todo : Nat) {idx : Nat}
    {w w' : World} (h : setMemTableLoop msg maps todo idx w = .ret w') : w'.setup = w.setup := by
  obtain ⟨_, _, rfl⟩ := setMemTableLoop_frame todo h
  rfl

end Handlers

/-- The ring that a valid index selects. -/
theorem ringIndex_ret {index : UInt32} {i : RingIdx} (h : ringIndex index = .ret i) :
    index.toNat = i := by
  unfold ringIndex at h
  split at h
  · cases h
    rfl
  · split at h <;> cases h

theorem ringIndex_eq_ret {index : UInt32} (h : index.toNat < vhostClientVringNum) :
    ringIndex index = .ret ⟨index.toNat, h⟩ := dif_pos h

section Message
variable {fuel : Nat} {w : World} {sock : Int} {msg : ServerMsg} {maps : Nat → Option MapResult}

theorem received_message (maps : Nat → Option MapResult)
    (hreg : w.server.fdList.Registered sock .receiveSockServer)
    {r : VhostUserRequest} (hr : VhostUserRequest.ofWord msg.msg.request = some r) :
    (Event.message sock msg maps).received w = some (r, msg.msg.payload) := by
  rw [Event.received, if_pos hreg, hr]
  rfl

/-- A message that was received runs its handler. -/
theorem exec_message (fuel : Nat) (msg : ServerMsg) (maps : Nat → Option MapResult)
    (hreg : w.server.fdList.Registered sock .receiveSockServer) :
    (exec fuel w (.message sock msg maps)).acts = (inMsgServer maps w msg).acts ∧
    ∀ w', (exec fuel w (.message sock msg maps)).out = .ret w' →
      ∃ r msg', (inMsgServer maps w msg).out = .ret (r, msg', w') := by
  have hexec : exec fuel w (.message sock msg maps) =
      inMsgServer maps w msg >>= fun x => pure x.2.2 := by
    rw [exec, if_pos hreg]
  rw [hexec]
  refine ⟨Traced.bind_pure_acts _ _, fun w' h => ?_⟩
  obtain ⟨⟨r, msg', w1⟩, hout, hw⟩ := Traced.bind_out_eq_ret.mp h
  cases hw
  exact ⟨r, msg', hout⟩

/-- A message of none of the three kinds. -/
theorem effect_quiet (hreg : w.server.fdList.Registered sock .receiveSockServer)
    {r : VhostUserRequest} (hr : VhostUserRequest.ofWord msg.msg.request = some r)
    (hmem : r ≠ .setMemTable) (hnum : r ≠ .setVringNum) (haddr : r ≠ .setVringAddr) :
    Effect fuel w (.message sock msg maps) := by
  obtain ⟨hacts, hout⟩ := exec_message fuel msg maps hreg
  have hrecv := received_message maps hreg hr
  have hquiet : Quiet w (inMsgServer maps w msg) := by
    rw [inMsgServer, hr]
    cases r with
    | none => exact ⟨rfl, fun _ h => by cases h⟩
    | _ => exact quiet_msgHandler hmem hnum haddr
  refine .quiet (hacts.trans hquiet.1) (fun _ => id) ?_ fun w' h => ?_
  · rw [Event.usedAddr, hrecv]
    cases r with
    | setVringAddr => exact absurd rfl haddr
    | _ => rfl
  · obtain ⟨_, _, h⟩ := hout w' h
    refine ⟨hquiet.2 _ h, fun g => funext fun i => ?_⟩
    rw [Event.note, hrecv]
    cases r with
    | setMemTable => exact absurd rfl hmem
    | setVringNum => exact absurd rfl hnum
    | setVringAddr => exact absurd rfl haddr
    | _ => rfl

/-- A message whose handler stopped the process at its first check. -/
theorem effect_stopped (hreg : w.server.fdList.Registered sock .receiveSockServer)
    (hused : (Event.message sock msg maps).usedAddr w = none) {α : Type} {x : Run α}
    {f : α → Call (Int × ServerMsg × World)}
    (hcall : inMsgServer maps w msg = Traced.lift x >>= f) (hx : ∀ a, x ≠ .ret a) :
    Effect fuel w (.message sock msg maps) := by
  obtain ⟨hacts, hout⟩ := exec_message fuel msg maps hreg
  obtain ⟨hnil, hstop⟩ := Traced.bind_of_not_ret (x := Traced.lift x) hx f
  rw [hcall] at hacts hout
  refine .quiet (hacts.trans hnil) (fun _ => id) hused fun w' h => ?_
  obtain ⟨_, _, h⟩ := hout w' h
  exact absurd h (hstop _)

/-- A request outside the enumeration stops the process. -/
theorem effect_unknown (hreg : w.server.fdList.Registered sock .receiveSockServer)
    (hr : VhostUserRequest.ofWord msg.msg.request = none) :
    Effect fuel w (.message sock msg maps) := by
  have hcall : inMsgServer maps w msg = Traced.lift (.fault .assertion) >>= pure := by
    rw [inMsgServer, hr]
    rfl
  have hused : (Event.message sock msg maps).usedAddr w = none := by
    rw [Event.usedAddr, Event.received, if_pos hreg, hr]
    rfl
  exact effect_stopped hreg hused hcall fun _ h => by cases h

theorem effect_setMemTable (hreg : w.server.fdList.Registered sock .receiveSockServer)
    (hr : VhostUserRequest.ofWord msg.msg.request = some .setMemTable) :
    Effect fuel w (.message sock msg maps) := by
  have hrecv := received_message maps hreg hr
  have hused : (Event.message sock msg maps).usedAddr w = none := by
    rw [Event.usedAddr, hrecv]
  have hcall : inMsgServer maps w msg = setMemTable maps w msg := by
    rw [inMsgServer, hr]
    rfl
  rw [setMemTable] at hcall
  generalize hloop : setMemTableLoop msg maps _ 0 _ = loop at hcall
  by_cases hret : ∃ w1, loop = .ret w1
  · obtain ⟨w1, rfl⟩ := hret
    obtain ⟨hacts, hout⟩ := exec_message fuel msg maps hreg
    rw [hcall] at hacts hout
    refine .table hacts (fun _ => id) hused fun w' h => ?_
    obtain ⟨_, _, h⟩ := hout w' h
    cases h
    have hsetup := setMemTableLoop_setup _ hloop
    refine ⟨hsetup, fun g => funext fun i => ?_⟩
    rw [Event.note, hrecv]
    rfl
  · exact effect_stopped hreg hused hcall (not_exists.mp hret)

theorem note_update {g : RingIdx → RingHistory} {i : RingIdx} {n : Nat} (hn : n = i)
    (f : RingHistory → RingHistory) :
    (fun j : RingIdx => if n = j then f (g j) else g j) = Function.update g i (f (g i)) := by
  funext j
  by_cases h : j = i
  · subst h
    rw [if_pos hn, Function.update_self]
  · rw [if_neg fun hj => h (Fin.ext (hj.symm.trans hn)), Function.update_of_ne h]

theorem effect_setVringNum (hreg : w.server.fdList.Registered sock .receiveSockServer)
    (hr : VhostUserRequest.ofWord msg.msg.request = some .setVringNum) :
    Effect fuel w (.message sock msg maps) := by
  have hrecv := received_message maps hreg hr
  have hused : (Event.message sock msg maps).usedAddr w = none := by
    rw [Event.usedAddr, hrecv]
  have hcall : inMsgServer maps w msg = setVringNum w msg := by
    rw [inMsgServer, hr]
    rfl
  rw [setVringNum] at hcall
  by_cases hret : ∃ i, ringIndex msg.msg.payload.state.index = .ret i
  · obtain ⟨i, hi⟩ := hret
    obtain ⟨hacts, hout⟩ := exec_message fuel msg maps hreg
    rw [hcall, hi] at hacts hout
    refine .num i msg.msg.payload.state.num hacts (fun _ => id) hused fun w' h => ?_
    obtain ⟨_, _, h⟩ := hout w' h
    cases h
    refine ⟨World.setup_setVring _ _ _, fun g => ?_⟩
    rw [← note_update (ringIndex_ret hi) fun h => { h with num := msg.msg.payload.state.num }]
    funext j
    rw [Event.note, hrecv]
    rfl
  · exact effect_stopped hreg hused hcall (not_exists.mp hret)

theorem effect_setVringAddr (hreg : w.server.fdList.Registered sock .receiveSockServer)
    (hr : VhostUserRequest.ofWord msg.msg.request = some .setVringAddr) :
    Effect fuel w (.message sock msg maps) := by
  have hrecv := received_message maps hreg hr
  have hcall : inMsgServer maps w msg = setVringAddr w msg := by
    rw [inMsgServer, hr]
    rfl
  rw [setVringAddr] at hcall
  by_cases hret : ∃ i, ringIndex msg.msg.payload.addr.index = .ret i
  · obtain ⟨i, hi⟩ := hret
    have hindex := ringIndex_ret hi
    have hused : (Event.message sock msg maps).usedAddr w =
        some (mapUserAddr w.context.memory msg.msg.payload.addr.usedUserAddr) := by
      rw [Event.usedAddr, hrecv]
      exact if_pos (by rw [hindex]; exact i.isLt)
    obtain ⟨hacts, hout⟩ := exec_message fuel msg maps hreg
    rw [hcall, hi] at hacts hout
    simp only [Traced.lift_ret_bind, Traced.act_bind, Traced.bind_pure_acts] at hacts hout
    refine .addr i _ _ _ hacts (fun _ => id) hused fun w' h => ?_
    obtain ⟨_, _, h⟩ := hout w' h
    obtain ⟨idx, _, h⟩ := Traced.bind_out_eq_ret.mp h
    cases h
    refine ⟨World.setup_setVring _ _ _, fun g => ?_⟩
    rw [← note_update hindex fun h => { h with
      current := true
      avail := mapUserAddr w.context.memory msg.msg.payload.addr.availUserAddr }]
    funext j
    rw [Event.note, hrecv]
    rfl
  · have hused : (Event.message sock msg maps).usedAddr w = none := by
      rw [Event.usedAddr, hrecv]
      exact if_neg fun hlt => hret ⟨_, ringIndex_eq_ret hlt⟩
    exact effect_stopped hreg hused hcall (not_exists.mp hret)

end Message

/-! ### Kicks and polls -/

section Poll
variable {fuel : Nat} {w w' : World}

theorem mem_pollAvailVring_acts {i : RingIdx} {a : Act} :
    a ∈ (pollAvailVring fuel w i).acts ↔
      a = .ringRun i (w.vring i) ∧ (w.vring i).desc ≠ 0 := by
  rw [pollAvailVring]
  split
  · rename_i hdesc
    rw [Traced.act_bind, Traced.bind_pure_acts, Traced.lift_acts, List.mem_singleton]
    exact (and_iff_left hdesc).symm
  · rename_i hdesc
    exact ⟨fun ha => absurd ha List.not_mem_nil, fun h => absurd h.2 hdesc⟩

theorem pollAvailVring_setup {i : RingIdx} (h : (pollAvailVring fuel w i).out = .ret w') :
    w'.setup = w.setup := by
  rcases pollAvailVring_cases h with ⟨_, s, hs, rfl⟩ | ⟨_, rfl⟩
  · exact funext (processAvailVring_setup hs)
  · rfl

theorem mem_pollTx_acts {a : Act} : a ∈ (pollTx fuel w).acts ↔
    a = .ringRun txIdx (w.vring txIdx) ∧ w.server.isPolling = true ∧
      (w.vring txIdx).desc ≠ 0 := by
  rw [pollTx]
  by_cases hpoll : w.server.isPolling
  · rw [if_pos hpoll, mem_pollAvailVring_acts]
    exact and_congr_right fun _ => (and_iff_right hpoll).symm
  · rw [if_neg hpoll]
    exact ⟨fun ha => absurd ha List.not_mem_nil, fun h => absurd h.2.1 hpoll⟩

theorem pollTx_setup (h : (pollTx fuel w).out = .ret w') : w'.setup = w.setup := by
  rcases pollTx_cases h with ⟨_, h⟩ | ⟨_, rfl⟩
  · exact pollAvailVring_setup h
  · rfl

theorem mem_pollRx_acts {a : Act} : a ∈ (pollRx w).acts ↔
    a = .ringRun rxIdx (w.vring rxIdx) ∧ w.context.bufferSize ≠ 0 := by
  rw [pollRx]
  split
  · rename_i hsize
    rw [Traced.act_bind, Traced.bind_pure_acts, Traced.lift_acts, List.mem_singleton]
    exact (and_iff_left hsize).symm
  · rename_i hsize
    exact ⟨fun ha => absurd ha List.not_mem_nil, fun h => absurd h.2 hsize⟩

theorem pollRx_setup (h : (pollRx w).out = .ret w') : w'.setup = w.setup := by
  rcases pollRx_cases h with ⟨_, r, t, m, hput, rfl⟩ | ⟨_, rfl⟩
  · exact funext fun j => putVring_setup hput j
  · rfl

theorem effect_kick (fd r : Int) : Effect fuel w (.kick fd r) := by
  by_cases hreg : w.server.fdList.Registered fd .kickServer
  · have hexec : exec fuel w (.kick fd r) = kickServer fuel w fd r := if_pos hreg
    by_cases hr : 0 < r
    · rw [kickServer, if_neg (by omega), if_neg (by omega)] at hexec
      refine .run (fun a ha => ?_) ?_ rfl fun w' h => ⟨?_, fun _ => rfl⟩
      · rw [hexec, mem_pollAvailVring_acts] at ha
        exact ⟨txIdx, _, ha.1, rfl, rfl, hreg, hr, ha.2⟩
      · rintro i ⟨rfl, _, _, hdesc⟩
        exact ⟨_, by rw [hexec]; exact mem_pollAvailVring_acts.mpr ⟨rfl, hdesc⟩⟩
      · rw [hexec] at h
        exact pollAvailVring_setup h
    · -- the descriptor was closed, or could not be read
      have hquiet : ∃ l, exec fuel w (.kick fd r) = pure (w.setFdList l) := by
        rw [hexec, kickServer]
        split
        · exact ⟨w.server.fdList, rfl⟩
        · rw [if_pos (by omega)]
          exact ⟨_, rfl⟩
      obtain ⟨l, hl⟩ := hquiet
      refine .quiet (congrArg Traced.acts hl) (fun i hi => hr hi.2.2.1) rfl
        fun w' h => ⟨?_, fun _ => rfl⟩
      rw [hl] at h
      cases h
      rfl
  · have hexec : exec fuel w (.kick fd r) = pure w := if_neg hreg
    refine .quiet (congrArg Traced.acts hexec) (fun i hi => hreg hi.2.1) rfl
      fun w' h => ⟨?_, fun _ => rfl⟩
    rw [hexec] at h
    cases h
    rfl

theorem effect_poll : Effect fuel w .poll := by
  by_cases hdesc : (w.vring rxIdx).desc ≠ 0
  · have hexec : exec fuel w .poll = pollTx fuel w >>= pollRx := if_pos hdesc
    refine .run (fun a ha => ?_) ?_ rfl fun w' h => ⟨?_, fun _ => rfl⟩
    · rw [hexec, Traced.mem_bind_acts] at ha
      rcases ha with ha | ⟨w1, h1, ha⟩
      · obtain ⟨rfl, hpoll, htx⟩ := mem_pollTx_acts.mp ha
        exact ⟨txIdx, _, rfl, rfl, hdesc, .inl ⟨rfl, hpoll, htx⟩⟩
      · obtain ⟨rfl, hsize⟩ := mem_pollRx_acts.mp ha
        exact ⟨rxIdx, _, rfl, congrFun (pollTx_setup h1) rxIdx, hdesc, .inr ⟨rfl, w1, h1, hsize⟩⟩
    · rintro i ⟨_, ⟨rfl, hpoll, htx⟩ | ⟨rfl, w1, h1, hsize⟩⟩
      · refine ⟨w.vring txIdx, ?_⟩
        rw [hexec, Traced.mem_bind_acts]
        exact .inl (mem_pollTx_acts.mpr ⟨rfl, hpoll, htx⟩)
      · refine ⟨w1.vring rxIdx, ?_⟩
        rw [hexec, Traced.mem_bind_acts]
        exact .inr ⟨w1, h1, mem_pollRx_acts.mpr ⟨rfl, hsize⟩⟩
    · rw [hexec] at h
      obtain ⟨w1, h1, h2⟩ := Traced.bind_out_eq_ret.mp h
      rw [pollRx_setup h2, pollTx_setup h1]
  · have hexec : exec fuel w .poll = pure w := if_neg hdesc
    refine .quiet (congrArg Traced.acts hexec) (fun i hi => hdesc hi.1) rfl
      fun w' h => ⟨?_, fun _ => rfl⟩
    rw [hexec] at h
    cases h
    rfl

end Poll

/-! ### All events -/

/-- An event that only changes the list of descriptors or the memory. -/
theorem effect_pure {fuel : Nat} {w w1 : World} {e : Event} (h : exec fuel w e = pure w1)
    (hsetup : w1.setup = w.setup) (hunused : ∀ i, ¬ e.Uses fuel w i)
    (hrecv : e.received w = none) : Effect fuel w e := by
  refine .quiet (congrArg Traced.acts h) hunused ?_ fun w' hw => ?_
  · rw [Event.usedAddr, hrecv]
  · rw [h] at hw
    cases hw
    refine ⟨hsetup, fun g => funext fun i => ?_⟩
    rw [Event.note, hrecv]

/-- **Every event has one of the effects.** -/
theorem exec_effect (fuel : Nat) (w : World) (e : Event) : Effect fuel w e := by
  cases e with
  | accept sock =>
      by_cases hreg : w.server.fdList.Registered w.server.sock .acceptSockServer
      · exact effect_pure (if_pos hreg) rfl (fun _ => id) rfl
      · exact effect_pure (if_neg hreg) rfl (fun _ => id) rfl
  | message sock msg maps =>
      by_cases hreg : w.server.fdList.Registered sock .receiveSockServer
      · cases hr : VhostUserRequest.ofWord msg.msg.request with
        | none => exact effect_unknown hreg hr
        | some r =>
            by_cases hmem : r = .setMemTable
            · exact effect_setMemTable hreg (hmem ▸ hr)
            by_cases hnum : r = .setVringNum
            · exact effect_setVringNum hreg (hnum ▸ hr)
            by_cases haddr : r = .setVringAddr
            · exact effect_setVringAddr hreg (haddr ▸ hr)
            exact effect_quiet hreg hr hmem hnum haddr
      · exact effect_pure (if_neg hreg) rfl (fun _ => id) (if_neg hreg)
  | hangup sock =>
      by_cases hreg : w.server.fdList.Registered sock .receiveSockServer
      · exact effect_pure (if_pos hreg) rfl (fun _ => id) rfl
      · exact effect_pure (if_neg hreg) rfl (fun _ => id) rfl
  | kick fd r => exact effect_kick fd r
  | poll => exact effect_poll
  | peer mem => exact effect_pure rfl rfl (fun _ => id) rfl

end Vapp
