import Vapp.Session
import Vapp.AvailBatch
import Vapp.MemTable
import Vapp.SameRing

/-! # Resuming the TX ring in another server

A server that is stopped between two calls of `process_avail_vring` can be replaced by a
fresh one.  The base that `VHOST_USER_GET_VRING_BASE` returns and the `used->idx` in memory
are all that the fresh server needs to go on where the old one stopped.
-/
namespace Vapp

open Outcome

/-- How a master sets up the TX ring. -/
structure TxSetup where
  table : ServerMsg
  num : UInt32
  addr : VhostVringAddr

/-- The messages for it, from the position `base` on. -/
def TxSetup.msgs (S : TxSetup) (base : UInt32) : List ServerMsg :=
  [S.table, stateMsg .setVringNum ⟨.ofNat txIdx, S.num⟩,
    stateMsg .setVringBase ⟨.ofNat txIdx, base⟩, addrMsg { S.addr with index := .ofNat txIdx }]

/-- A process that serves the ring: how it was started, and the answers of its kernel. -/
structure ServerProcess where
  sock : Int
  isListen : Bool
  maps : Nat → Option MapResult

/-- The process before the first message; the shared objects hold `mem`. -/
def ServerProcess.fresh (P : ServerProcess) (mem : Mem) : World :=
  ⟨newVhostServer P.sock P.isListen, [], mem⟩

section Calls
variable {κ : Type}

/-- Calls of `process_avail_vring`, before each of which the other process has written to
memory. -/
def serveCalls (sp : AddrSpace) (fuel : Nat) (i : RingIdx) :
    List (Mem → Mem) → VringTable κ → Mem → Run (Consumed κ)
  | [], t, m => .ret ⟨t, m, []⟩
  | f :: fs, t, m => do
      let c ← processAvailVring sp fuel t i (f m)
      let r ← serveCalls sp fuel i fs c.table c.mem
      return { r with calls := c.calls ++ r.calls }

end Calls

/-- The run that is not cut: the packets handed over and the memory afterwards. -/
def wholeRun (S : TxSetup) (P : ServerProcess) (fuel : Nat) (base : UInt32)
    (fs : List (Mem → Mem)) (mem : Mem) : Run (List HandlerCall × Mem) := do
  let w ← (serveMsgs P.maps (P.fresh mem) (S.msgs base)).out
  let r ← serveCalls w.space fuel txIdx fs w.server.table w.mem
  return (r.calls, r.mem)

/-- The run that is cut: the first process is asked for its base and a second one, which gets
the memory table as `table'`, goes on from there. -/
def cutRun (S : TxSetup) (table' : ServerMsg) (P P' : ServerProcess) (fuel : Nat) (base : UInt32)
    (fs gs : List (Mem → Mem)) (mem : Mem) : Run (List HandlerCall × Mem) := do
  let w ← (serveMsgs P.maps (P.fresh mem) (S.msgs base)).out
  let r ← serveCalls w.space fuel txIdx fs w.server.table w.mem
  let (_, reply, w) ← (inMsgServer P.maps { w.setTable r.table with mem := r.mem }
    (stateMsg .getVringBase ⟨.ofNat txIdx, 0⟩)).out
  let S' := { S with table := table' }
  let w' ← (serveMsgs P'.maps (P'.fresh w.mem) (S'.msgs reply.msg.payload.state.num)).out
  let r' ← serveCalls w'.space fuel txIdx gs w'.server.table w'.mem
  return (r.calls ++ r'.calls, r'.mem)

/-! ### The calls of one process -/

section Serve
variable {κ : Type} {sp sp' : AddrSpace} {i : RingIdx} {fuel : Nat}

theorem serveCalls_append (fs gs : List (Mem → Mem)) : ∀ (t : VringTable κ) (m : Mem),
    serveCalls sp fuel i (fs ++ gs) t m = (do
      let r ← serveCalls sp fuel i fs t m
      let r' ← serveCalls sp fuel i gs r.table r.mem
      return { r' with calls := r.calls ++ r'.calls }) := by
  induction fs with
  | nil =>
      intro t m
      simp only [List.nil_append, serveCalls, Outcome.ret_bind]
      cases serveCalls sp fuel i gs t m <;> rfl
  | cons f fs ih =>
      intro t m
      simp only [List.cons_append, serveCalls, Outcome.bind_assoc, ih, Outcome.pure_eq,
        Outcome.ret_bind, List.append_assoc]

variable {J : (Loc → Nat → VringDesc) → Prop}

/-- Writes of the other process that keep a property of the descriptors. -/
def PeerWrites (J : (Loc → Nat → VringDesc) → Prop) (fs : List (Mem → Mem)) : Prop :=
  ∀ f ∈ fs, ∀ m, J m.desc → J (f m).desc

theorem PeerWrites.tail {f : Mem → Mem} {fs : List (Mem → Mem)} (h : PeerWrites J (f :: fs)) :
    PeerWrites J fs := fun g hg => h g (List.mem_cons_of_mem _ hg)

/-- `used->idx` is where the server left it. -/
def UsedCurrent (sp : AddrSpace) (i : RingIdx) (t : VringTable κ) (m : Mem) : Prop :=
  ∀ U, sp.resolve (t.vring i).used = some U → (m.used U).idx = (t.vring i).lastUsedIdx

/-- What serving the ring leaves alone, and that `used->idx` is kept current. -/
structure Served (sp : AddrSpace) (i : RingIdx) (t t' : VringTable κ) (m' : Mem) : Prop where
  setup : (t'.vring i).setup = (t.vring i).setup
  handlers : t'.handlers = t.handlers
  translate : ∀ a, t'.translate a = t.translate a
  current : UsedCurrent sp i t' m'

theorem serveCalls_served (fs : List (Mem → Mem)) : ∀ {t : VringTable κ} {m : Mem} {r : Consumed κ},
    PeerWrites J fs → UsedCurrent sp i t m → J m.desc →
    serveCalls sp fuel i fs t m = .ret r → Served sp i t r.table r.mem ∧ J r.mem.desc := by
  induction fs with
  | nil =>
      intro t m r _ hcur hm h
      cases h
      exact ⟨⟨rfl, rfl, fun _ => rfl, hcur⟩, hm⟩
  | cons f fs ih =>
      intro t m r hpeer hcur hm h
      obtain ⟨c, hc, h⟩ := Outcome.bind_eq_ret.mp h
      obtain ⟨r', hr, h⟩ := Outcome.bind_eq_ret.mp h
      cases h
      have hframe := processAvailVring_availFrame hc
      have hcur1 : UsedCurrent sp i c.table c.mem := by
        intro U hU
        obtain ⟨A, _, hA, _⟩ := processAvailVring_resolves hc
        have hused : (c.table.vring i).used = (t.vring i).used :=
          congrArg RingSetup.used hframe.setup
        exact (processAvailVring_done hc hA (hused ▸ hU)).2
      have hm1 : J c.mem.desc := by
        rw [hframe.desc]
        exact hpeer f List.mem_cons_self m hm
      obtain ⟨hrest, hlast⟩ := ih hpeer.tail hcur1 hm1 hr
      exact ⟨⟨hrest.setup.trans hframe.setup, hrest.handlers.trans hframe.handlers,
        fun a => (hrest.translate a).trans (hframe.translate a), hrest.current⟩, hlast⟩

/-- **Both processes serve the ring alike.** -/
theorem serveCalls_simulates (fs : List (Mem → Mem)) : ∀ {t t' : VringTable κ} {m : Mem},
    SameRing sp sp' i t t' → (∀ m : Mem, J m.desc → SamePackets sp sp' i t t' m) →
    PeerWrites J fs → J m.desc →
    Simulates (fun r r' => r'.mem = r.mem ∧ r'.calls = r.calls) (serveCalls sp fuel i fs t m)
      (serveCalls sp' fuel i fs t' m) := by
  induction fs with
  | nil => exact fun _ _ _ _ => .ret ⟨rfl, rfl⟩
  | cons f fs ih =>
      intro t t' m hring hpackets hpeer hm
      have hf := hpeer f List.mem_cons_self m hm
      refine (processAvailVring_simulates ⟨hring, hpackets _ hf, rfl⟩).bind
        fun c c' hc hc' hcc => ?_
      obtain ⟨htog, -, hcalls⟩ := hcc
      have hframe := processAvailVring_availFrame hc
      have hframe' := processAvailVring_availFrame hc'
      have hdesc : (c.table.vring i).desc = (t.vring i).desc :=
        congrArg RingSetup.desc hframe.setup
      have hnext : ∀ m : Mem, J m.desc → SamePackets sp sp' i c.table c'.table m := fun m hm =>
        (hpackets m hm).keep hdesc rfl hframe.translate hframe'.translate
      have hm1 : J c.mem.desc := by
        rw [hframe.desc]
        exact hf
      rw [htog.mem]
      refine (ih htog.ring hnext hpeer.tail hm1).bind fun r r' _ _ hrr => .ret ⟨hrr.1, ?_⟩
      show c'.calls ++ r'.calls = c.calls ++ r.calls
      rw [hcalls, hrr.2]

end Serve

/-! ### The set-up -/

/-- The three parts of the ring begin in the memory table.  This is all that the translation of
their addresses needs; a ring that lies in the table as a whole has it. -/
structure TxSetup.InTable (S : TxSetup) : Prop where
  desc : S.table.Holds (·.userspaceAddr) S.addr.descUserAddr 1
  avail : S.table.Holds (·.userspaceAddr) S.addr.availUserAddr 1
  used : S.table.Holds (·.userspaceAddr) S.addr.usedUserAddr 1

/-- The packets of the ring lie in the memory table.  Any slot of the descriptor table can hold
one: `process_desc` goes to the slot that an entry or a `next` names, and does not compare it
with `num`.  A slot that is not used has no length. -/
def TxSetup.PacketsIn (S : TxSetup) (shm : Nat → Nat) (descs : Loc → Nat → VringDesc) : Prop :=
  ∀ D, S.table.locOf (·.userspaceAddr) shm S.addr.descUserAddr = some D →
    ∀ k, k < vhostVringSize → (descs D k).len ≠ 0 →
      S.table.Holds (·.guestPhysAddr) (descs D k).addr (descs D k).len.toNat

/-- A server with the TX ring set up. -/
structure TxSetup.Ready (S : TxSetup) (P : ServerProcess) (base : UInt32) (mem : Mem) (w : World) :
    Prop where
  installed : Installed S.table P.maps S.table.msg.payload.nregions.toNat w
  mem : w.mem = mem
  handlers : w.server.table.handlers = serverHandlers
  desc : (w.vring txIdx).desc = mapUserAddr w.context.memory S.addr.descUserAddr
  avail : (w.vring txIdx).avail = mapUserAddr w.context.memory S.addr.availUserAddr
  used : (w.vring txIdx).used = mapUserAddr w.context.memory S.addr.usedUserAddr
  num : (w.vring txIdx).num = S.num
  lastAvailIdx : (w.vring txIdx).lastAvailIdx = base.toUInt16
  current : UsedCurrent w.space txIdx w.server.table w.mem

section Setup
variable {S : TxSetup} {P : ServerProcess} {shm : Nat → Nat} {base : UInt32} {mem : Mem} {w : World}

/-- What the messages about the ring do to a server that has the memory table. -/
structure TxSetup.RingSet (S : TxSetup) (base : UInt32) (U : Loc) (w w' : World) : Prop where
  space : w'.space = w.space
  mem : w'.mem = w.mem
  context : w'.context = w.context
  handlers : w'.server.table.handlers = w.server.table.handlers
  ring : w'.vring txIdx =
    { w.vring txIdx with
      desc := mapUserAddr w.context.memory S.addr.descUserAddr
      avail := mapUserAddr w.context.memory S.addr.availUserAddr
      used := mapUserAddr w.context.memory S.addr.usedUserAddr
      num := S.num
      lastAvailIdx := base.toUInt16
      lastUsedIdx := (w.mem.used U).idx }

theorem TxSetup.ringSet_exists {maps : Nat → Option MapResult} {U : Loc} (base : UInt32)
    (hU : w.space.resolve (mapUserAddr w.context.memory S.addr.usedUserAddr) = some U) :
    ∃ w', (serveMsgs maps w (S.msgs base).tail).out = .ret w' ∧ S.RingSet base U w w' := by
  obtain ⟨w1, ⟨_, h1⟩, hs1, hm1, ht1⟩ := setsRing_num maps w txIdx S.num
  obtain ⟨w2, ⟨_, h2⟩, hs2, hm2, ht2⟩ := setsRing_base maps w1 txIdx base
  have hctx : w2.context = w.context := by
    simp only [World.context, ht2, ht1, VringTable.setVring_context]
  have hspace : w2.space = w.space := hs2.trans hs1
  have hmem : w2.mem = w.mem := hm2.trans hm1
  obtain ⟨w3, ⟨_, h3⟩, hs3, hm3, ht3⟩ := setsRing_addr maps w2 txIdx
    (a := { S.addr with index := .ofNat txIdx }) (U := U) rfl (by
      rw [hspace, hctx]
      exact hU)
  refine ⟨w3, ?_, hs3.trans hspace, hm3.trans hmem, ?_, ?_, ?_⟩
  · rw [TxSetup.msgs, List.tail_cons, serveMsgs_cons maps _ h1, serveMsgs_cons maps _ h2,
      serveMsgs_cons maps _ h3]
    rfl
  · rw [World.context, ht3, VringTable.setVring_context]
    exact hctx
  · rw [ht3, VringTable.setVring_handlers, ht2, VringTable.setVring_handlers, ht1,
      VringTable.setVring_handlers]
  · rw [World.vring, ht3, hctx, hmem]
    simp only [ht2, ht1, VringTable.setVring_self]
    rfl

theorem TxSetup.ready_exists (base : UInt32)
    (hreq : VhostUserRequest.ofWord S.table.msg.request = some .setMemTable)
    (hm : Mapped S.table P.maps shm) (hin : S.InTable) {msg' : ServerMsg} {r : Int}
    (h : (inMsgServer P.maps (P.fresh mem) S.table).out = .ret (r, msg', w)) :
    ∃ w', (serveMsgs P.maps (P.fresh mem) (S.msgs base)).out = .ret w' ∧
      S.Ready P base mem w' := by
  have hcall : inMsgServer P.maps (P.fresh mem) S.table =
      setMemTable P.maps (P.fresh mem) S.table := by
    rw [inMsgServer, hreq]
    rfl
  have hfirst := h
  rw [hcall] at h
  obtain ⟨hinst, memory, space, hframe⟩ := installed_of_setMemTable hm rfl h
  obtain ⟨U, -, hU⟩ := hinst.shows_mapAddr hm (fun _ _ => rfl) hin.used
  obtain ⟨w', hrest, hset⟩ := TxSetup.ringSet_exists base hU.head
  have hmem : w.mem = mem := by
    rw [hframe]
    rfl
  have hhandlers : w.server.table.handlers = serverHandlers := by
    rw [hframe]
    rfl
  refine ⟨w', ?_, ?_⟩
  · rw [TxSetup.msgs, serveMsgs_cons P.maps _ hfirst]
    exact hrest
  · refine
      { installed := ⟨?_, ?_⟩
        mem := hset.mem.trans hmem
        handlers := hset.handlers.trans hhandlers
        desc := by rw [hset.ring, hset.context]
        avail := by rw [hset.ring, hset.context]
        used := by rw [hset.ring, hset.context]
        num := by rw [hset.ring]
        lastAvailIdx := by rw [hset.ring]
        current := ?_ }
    · rw [hset.context]
      exact hinst.memory
    · rw [hset.space]
      exact hinst.shows
    · intro U' hU'
      have hused : w'.space.resolve (w'.vring txIdx).used = some U := by
        rw [hset.ring, hset.space]
        exact hU.head
      cases hused.symm.trans hU'
      show (w'.mem.used U).idx = (w'.vring txIdx).lastUsedIdx
      rw [hset.ring, hset.mem]

/-- The first message of a set-up that went through. -/
theorem TxSetup.table_ret (h : (serveMsgs P.maps (P.fresh mem) (S.msgs base)).out = .ret w) :
    ∃ r msg' w', (inMsgServer P.maps (P.fresh mem) S.table).out = .ret (r, msg', w') := by
  obtain ⟨⟨r, msg', w'⟩, h, -⟩ := Traced.bind_out_eq_ret.mp h
  exact ⟨r, msg', w', h⟩

theorem TxSetup.ready (hreq : VhostUserRequest.ofWord S.table.msg.request = some .setMemTable)
    (hm : Mapped S.table P.maps shm) (hin : S.InTable)
    (h : (serveMsgs P.maps (P.fresh mem) (S.msgs base)).out = .ret w) :
    S.Ready P base mem w := by
  obtain ⟨_, _, _, htable⟩ := TxSetup.table_ret h
  obtain ⟨w', hw', hready⟩ := TxSetup.ready_exists base hreq hm hin htable
  rw [h] at hw'
  cases hw'
  exact hready

/-- A second process installs the table whenever the first one did. -/
theorem SameTable.inMsgServer_exists {table table' : ServerMsg} (hsame : SameTable table table')
    (hreq : VhostUserRequest.ofWord table.msg.request = some .setMemTable) (P' : ServerProcess)
    (mem' : Mem) {r : Int} {msg' : ServerMsg}
    (h : (inMsgServer P.maps (P.fresh mem) table).out = .ret (r, msg', w)) :
    ∃ r' msg'' w', (inMsgServer P'.maps (P'.fresh mem') table').out = .ret (r', msg'', w') := by
  have hreq' : VhostUserRequest.ofWord table'.msg.request = some .setMemTable := by
    rw [hsame.body, hreq]
  rw [inMsgServer, hreq] at h
  obtain ⟨w1, hloop, -⟩ := Traced.bind_out_eq_ret.mp h
  rw [Traced.lift_out] at hloop
  obtain ⟨w1', hloop', -⟩ := hsame.setMemTableLoop_simulates P'.maps _ 0 _
    ((P'.fresh mem').setContext { (P'.fresh mem').context with
      memory := { (P'.fresh mem').context.memory with nregions := 0 } }) w1 hloop
  rw [← hsame.body] at hloop'
  refine ⟨0, table', w1', ?_⟩
  rw [inMsgServer, hreq']
  exact Traced.bind_out_eq_ret.mpr ⟨w1', hloop', rfl⟩

/-- The answer of `_get_vring_base` to a message of a master. -/
theorem getVringBase_reply (maps : Nat → Option MapResult) (w : World) : ∃ reply,
    (inMsgServer maps w (stateMsg .getVringBase ⟨.ofNat txIdx, 0⟩)).out = .ret (1, reply, w) ∧
      reply.msg.payload.state.num = (w.vring txIdx).lastAvailIdx.toUInt32 := by
  have hindex : ringIndex (stateMsg .getVringBase ⟨.ofNat txIdx, 0⟩).msg.payload.state.index =
      .ret txIdx := by
    simp only [stateMsg, vhostIoctl, Payload.state_setState, ringIndex_ofNat]
  refine ⟨_, Traced.bind_out_eq_ret.mpr ⟨txIdx, hindex, rfl⟩, ?_⟩
  exact Payload.u32At_setU32 4 _

end Setup

/-! ### The two runs -/

/-- A descriptor address leads to the same bytes in both processes. -/
theorem sameBytes_of_holds {table table' : ServerMsg} {P P' : ServerProcess} {shm : Nat → Nat}
    {w w' : World} {t t' : VringTable ServerContext} (hsame : SameTable table table')
    (hm : Mapped table P.maps shm) (hm' : Mapped table' P'.maps shm)
    (hinst : Installed table P.maps table.msg.payload.nregions.toNat w)
    (hinst' : Installed table' P'.maps table'.msg.payload.nregions.toNat w')
    (ht : ∀ a, t.translate a = mapGuestAddr w.context.memory a)
    (ht' : ∀ a, t'.translate a = mapGuestAddr w'.context.memory a) {a : UInt64} {n : Nat}
    (h : table.Holds (·.guestPhysAddr) a n) : SameBytes w.space w'.space t t' a n := by
  obtain ⟨l, hl, hshows⟩ := hinst.shows_mapAddr hm (fun _ _ => rfl) h
  obtain ⟨l', hl', hshows'⟩ := hinst'.shows_mapAddr hm' (fun _ _ => rfl)
    ((hsame.holds _ a n).mpr h)
  rw [hsame.locOf] at hl'
  cases hl.symm.trans hl'
  intro k hk
  rw [ht, ht']
  exact (hshows' k hk).trans (hshows k hk).symm

/-- So does an address of one of the three parts of a ring. -/
theorem resolve_same {table table' : ServerMsg} {P P' : ServerProcess} {shm : Nat → Nat}
    {w w' : World} (hsame : SameTable table table') (hm : Mapped table P.maps shm)
    (hm' : Mapped table' P'.maps shm)
    (hinst : Installed table P.maps table.msg.payload.nregions.toNat w)
    (hinst' : Installed table' P'.maps table'.msg.payload.nregions.toNat w') {a : UInt64}
    (h : table.Holds (·.userspaceAddr) a 1) :
    w.space.resolve (mapUserAddr w.context.memory a) = table.locOf (·.userspaceAddr) shm a ∧
      w'.space.resolve (mapUserAddr w'.context.memory a) =
        table.locOf (·.userspaceAddr) shm a := by
  obtain ⟨l, hl, hshows⟩ := hinst.shows_mapAddr hm (fun _ _ => rfl) h
  obtain ⟨l', hl', hshows'⟩ := hinst'.shows_mapAddr hm' (fun _ _ => rfl)
    ((hsame.holds _ a 1).mpr h)
  rw [hsame.locOf] at hl'
  rw [hl]
  cases hl.symm.trans hl'
  exact ⟨hshows.head, hshows'.head⟩

section Handover
variable {S : TxSetup} {table' : ServerMsg} {P P' : ServerProcess} {shm : Nat → Nat}
  {base : UInt32} {mem : Mem} {w w' : World} {fs : List (Mem → Mem)} {fuel : Nat}
  {r : Consumed ServerContext}

/-- **The handover**: the fresh server is where the stopped one is. -/
theorem handover (hsame : SameTable S.table table') (hm : Mapped S.table P.maps shm)
    (hm' : Mapped table' P'.maps shm) (hin : S.InTable) (hready : S.Ready P base mem w)
    (hserved : Served w.space txIdx w.server.table r.table r.mem)
    (hready' : TxSetup.Ready { S with table := table' } P'
      (r.table.vring txIdx).lastAvailIdx.toUInt32 r.mem w') :
    SameRing w.space w'.space txIdx r.table w'.server.table ∧
      ∀ m : Mem, S.PacketsIn shm m.desc →
        SamePackets w.space w'.space txIdx r.table w'.server.table m := by
  have hplace : ∀ a, S.table.Holds (·.userspaceAddr) a 1 → _ := fun a ha =>
    resolve_same hsame hm hm' hready.installed hready'.installed ha
  have hdesc : (r.table.vring txIdx).desc = mapUserAddr w.context.memory S.addr.descUserAddr :=
    (congrArg RingSetup.desc hserved.setup).trans hready.desc
  have havail : (r.table.vring txIdx).avail = mapUserAddr w.context.memory S.addr.availUserAddr :=
    (congrArg RingSetup.avail hserved.setup).trans hready.avail
  have hused : (r.table.vring txIdx).used = mapUserAddr w.context.memory S.addr.usedUserAddr :=
    (congrArg RingSetup.used hserved.setup).trans hready.used
  have hnum : (r.table.vring txIdx).num = S.num :=
    (congrArg RingSetup.num hserved.setup).trans hready.num
  have hloc : w.space.resolve (r.table.vring txIdx).desc =
      S.table.locOf (·.userspaceAddr) shm S.addr.descUserAddr := by
    rw [hdesc]
    exact (hplace _ hin.desc).1
  constructor
  · refine
      { desc := ?_
        avail := ?_
        used := ?_
        num := hready'.num.trans hnum.symm
        lastAvailIdx := ?_
        lastUsedIdx := ?_
        handlers := ?_ }
    · rw [hloc]
      exact (congrArg w'.space.resolve hready'.desc).trans (hplace _ hin.desc).2
    · rw [havail, (hplace _ hin.avail).1]
      exact (congrArg w'.space.resolve hready'.avail).trans (hplace _ hin.avail).2
    · rw [hused, (hplace _ hin.used).1]
      exact (congrArg w'.space.resolve hready'.used).trans (hplace _ hin.used).2
    · refine hready'.lastAvailIdx.trans ?_
      exact UInt16.toUInt16_toUInt32 _
    · -- the fresh server read what the stopped one stored last
      obtain ⟨U, hU, -⟩ := hready.installed.shows_mapAddr hm (fun _ _ => rfl) hin.used
      have hold : w.space.resolve (r.table.vring txIdx).used = some U := by
        rw [hused, (hplace _ hin.used).1, hU]
      have hnew : w'.space.resolve (w'.vring txIdx).used = some U := by
        rw [hready'.used]
        exact (hplace _ hin.used).2.trans hU
      rw [← hserved.current U hold, ← hready'.mem]
      exact (hready'.current U hnew).symm
    · exact hready'.handlers.trans (hready.handlers.symm.trans hserved.handlers.symm)
  · intro m hpackets D hD k hk
    rw [hloc] at hD
    by_cases hlen : (m.desc D k).len = 0
    · rw [hlen]
      exact fun j hj => absurd hj (Nat.not_lt_zero j)
    · refine sameBytes_of_holds hsame hm hm' hready.installed hready'.installed (fun a => ?_)
        (translate_server hready'.handlers) (hpackets D hD k hk hlen)
      exact (hserved.translate a).trans (translate_server hready.handlers a)

end Handover

/-- What happens up to the cut, and in the fresh server before its first call. -/
theorem handed_over {S : TxSetup} {table' : ServerMsg} {P P' : ServerProcess}
    {shm : Nat → Nat} (hreq : VhostUserRequest.ofWord S.table.msg.request = some .setMemTable)
    (hsame : SameTable S.table table') (hm : Mapped S.table P.maps shm)
    (hm' : Mapped table' P'.maps shm) (hin : S.InTable) {fuel : Nat} {base : UInt32}
    {fs : List (Mem → Mem)} {mem : Mem} (hmem : S.PacketsIn shm mem.desc)
    (hfs : PeerWrites (S.PacketsIn shm) fs) {w : World} {r : Consumed ServerContext}
    (hw : (serveMsgs P.maps (P.fresh mem) (S.msgs base)).out = .ret w)
    (hr : serveCalls w.space fuel txIdx fs w.server.table w.mem = .ret r) :
    ∃ reply w', (inMsgServer P.maps { w.setTable r.table with mem := r.mem }
        (stateMsg .getVringBase ⟨.ofNat txIdx, 0⟩)).out =
        .ret (1, reply, { w.setTable r.table with mem := r.mem }) ∧
      (serveMsgs P'.maps (P'.fresh r.mem) (TxSetup.msgs { S with table := table' }
        reply.msg.payload.state.num)).out = .ret w' ∧ w'.mem = r.mem ∧
      S.PacketsIn shm r.mem.desc ∧ SameRing w.space w'.space txIdx r.table w'.server.table ∧
      ∀ m : Mem, S.PacketsIn shm m.desc →
        SamePackets w.space w'.space txIdx r.table w'.server.table m := by
  have hready := TxSetup.ready hreq hm hin hw
  obtain ⟨hserved, hlast⟩ := serveCalls_served fs hfs hready.current
    (by rw [hready.mem]; exact hmem) hr
  obtain ⟨reply, hreply, hnum⟩ :=
    getVringBase_reply P.maps { w.setTable r.table with mem := r.mem }
  obtain ⟨_, _, _, htable⟩ := TxSetup.table_ret hw
  obtain ⟨_, _, _, htable'⟩ := hsame.inMsgServer_exists hreq P' r.mem htable
  obtain ⟨w', hw', hready'⟩ := TxSetup.ready_exists (S := { S with table := table' })
    reply.msg.payload.state.num (by rw [hsame.body]; exact hreq) hm'
    ⟨(hsame.holds _ _ _).mpr hin.desc, (hsame.holds _ _ _).mpr hin.avail,
      (hsame.holds _ _ _).mpr hin.used⟩ htable'
  obtain ⟨hring, hpackets⟩ := handover hsame hm hm' hin hready hserved
    (show TxSetup.Ready { S with table := table' } P' (r.table.vring txIdx).lastAvailIdx.toUInt32
      r.mem w' from hnum ▸ hready')
  exact ⟨reply, w', hreply, hw', hready'.mem, hlast, hring, hpackets⟩

/-- **Stop and resume is invisible on the TX ring.**  Wherever a run is cut, and whatever
addresses and descriptor numbers the second process gets from its kernel, the two runs hand
over the same packets and leave the same memory. -/
theorem resumed_iff {S : TxSetup} {table' : ServerMsg} {P P' : ServerProcess} {shm : Nat → Nat}
    (hreq : VhostUserRequest.ofWord S.table.msg.request = some .setMemTable)
    (hsame : SameTable S.table table') (hm : Mapped S.table P.maps shm)
    (hm' : Mapped table' P'.maps shm) (hin : S.InTable) (fuel : Nat) (base : UInt32)
    {fs gs : List (Mem → Mem)} {mem : Mem} (hmem : S.PacketsIn shm mem.desc)
    (hpeer : PeerWrites (S.PacketsIn shm) (fs ++ gs)) (res : List HandlerCall × Mem) :
    wholeRun S P fuel base (fs ++ gs) mem = .ret res ↔
      cutRun S table' P P' fuel base fs gs mem = .ret res := by
  have hfs : PeerWrites (S.PacketsIn shm) fs := fun f hf => hpeer f (List.mem_append_left _ hf)
  have hgs : PeerWrites (S.PacketsIn shm) gs := fun f hf => hpeer f (List.mem_append_right _ hf)
  constructor
  · intro h
    obtain ⟨w, hw, h⟩ := Outcome.bind_eq_ret.mp h
    obtain ⟨r0, hr0, h⟩ := Outcome.bind_eq_ret.mp h
    cases h
    rw [serveCalls_append] at hr0
    obtain ⟨r, hr, hr0⟩ := Outcome.bind_eq_ret.mp hr0
    obtain ⟨r1, hr1, hr0⟩ := Outcome.bind_eq_ret.mp hr0
    cases hr0
    obtain ⟨reply, w', hreply, hw', hmem', hlast, hring, hpackets⟩ :=
      handed_over hreq hsame hm hm' hin hmem hfs hw hr
    obtain ⟨r1', hr1', hm1, hcalls⟩ := serveCalls_simulates gs hring hpackets hgs hlast r1 hr1
    rw [← hmem'] at hr1'
    refine Outcome.bind_eq_ret.mpr ⟨w, hw, Outcome.bind_eq_ret.mpr ⟨r, hr,
      Outcome.bind_eq_ret.mpr ⟨_, hreply, Outcome.bind_eq_ret.mpr ⟨w', hw',
        Outcome.bind_eq_ret.mpr ⟨r1', hr1', ?_⟩⟩⟩⟩⟩
    rw [hm1, hcalls]
    rfl
  · intro h
    obtain ⟨w, hw, h⟩ := Outcome.bind_eq_ret.mp h
    obtain ⟨r, hr, h⟩ := Outcome.bind_eq_ret.mp h
    obtain ⟨⟨_, reply1, w1⟩, hreply1, h⟩ := Outcome.bind_eq_ret.mp h
    obtain ⟨w2, hw2, h⟩ := Outcome.bind_eq_ret.mp h
    obtain ⟨r1', hr1', h⟩ := Outcome.bind_eq_ret.mp h
    cases h
    obtain ⟨reply, w', hreply, hw', hmem', hlast, hring, hpackets⟩ :=
      handed_over hreq hsame hm hm' hin hmem hfs hw hr
    cases hreply.symm.trans hreply1
    cases hw'.symm.trans hw2
    rw [hmem'] at hr1'
    obtain ⟨r1, hr1, hm1, hcalls⟩ := serveCalls_simulates gs hring.symm
      (fun m h => (hpackets m h).symm hring) hgs hlast r1' hr1'
    refine Outcome.bind_eq_ret.mpr ⟨w, hw, Outcome.bind_eq_ret.mpr
      ⟨{ r1 with calls := r.calls ++ r1.calls }, ?_, ?_⟩⟩
    · rw [serveCalls_append]
      exact Outcome.bind_eq_ret.mpr ⟨r, hr, Outcome.bind_eq_ret.mpr ⟨r1, hr1, rfl⟩⟩
    · show Outcome.ret (r.calls ++ r1.calls, r1.mem) = _
      rw [hm1, hcalls]

/-! ### The table of a client -/

/-- The kernel of a server that is connected to a client. -/
theorem Session.mapped (S : Session) : Mapped S.memTable S.maps fun k => k := by
  have hn : S.memTable.msg.payload.nregions.toNat = vhostClientVringNum := by
    rw [show S.memTable.msg.payload.nregions = _ from nregions_foldl _ _ _,
      Payload.nregions, Payload.u32At_setU32]
    rfl
  have hmaps : ∀ k r, S.memTable.HasRegion k → S.maps k = some r →
      ∃ i : RingIdx, k = i ∧ r.addr = S.serverBase i ∧ r.shm = i ∧
        (S.memTable.msg.payload.region k).memorySize = vhostClientPageSize := by
    intro k r hk hr
    obtain ⟨hlt, -⟩ := hk
    rw [hn] at hlt
    have hr' := S.maps_eq ⟨k, hlt⟩
    cases hr.symm.trans hr'
    refine ⟨⟨k, hlt⟩, rfl, rfl, rfl, ?_⟩
    rw [show k = (⟨k, hlt⟩ : RingIdx).val from rfl, S.region_memTable]
    rfl
  refine ⟨fun k hk => ?_, fun k r hk hr => ?_, fun k l r s hk hl hkl hr hs => ?_⟩
  · obtain ⟨hlt, -⟩ := hk
    rw [hn] at hlt
    exact ⟨_, S.maps_eq ⟨k, hlt⟩, rfl⟩
  · obtain ⟨i, -, haddr, -, hsize⟩ := hmaps k r hk hr
    have := S.server.fits i
    rw [haddr, hsize]
    omega
  · obtain ⟨i, hi, haddr, -, hsize⟩ := hmaps k r hk hr
    obtain ⟨j, hj, haddr', -, hsize'⟩ := hmaps l s hl hs
    rw [haddr, haddr', hsize, hsize']
    have hij : i ≠ j := by
      rintro rfl
      exact hkl (hi.trans hj.symm)
    have hapart := S.server.apart
    rcases ringIdx_cases i with rfl | rfl <;> rcases ringIdx_cases j with rfl | rfl
    · exact absurd rfl hij
    · exact hapart
    · exact hapart.symm
    · exact absurd rfl hij

/-- The same client, connected to another server process. -/
def Session.demoAgain : Session :=
  { Session.demo with
    serverBase := fun i => if i = rxIdx then 0x7e4000000000 else 0x7e4010000000
    shmFd := fun i => 8 + i
    server := ⟨by decide, by decide, by decide, by decide⟩
    shmFd_pos := by decide }

/-- The TX ring of that client. -/
def demoSetup : TxSetup where
  table := Session.demo.memTable
  num := .ofNat vhostVringSize
  addr := vringAddr 1 (Session.demo.clientBase txIdx)

/-- The client enters descriptor `0` in the avail ring up to the index `n`. -/
def enterZero (n : UInt16) (m : Mem) : Mem := { m with avail := fun _ => ⟨n, fun _ => 0⟩ }

/-- A ring whose descriptors all hold the first packet buffer, with two bytes in it. -/
def onePacket : Mem :=
  { Mem.zero with
    desc := fun _ _ => ⟨Session.demo.clientBase txIdx + .ofNat sizeofVhostVring, 12, 0, 0⟩ }

/-- A client that puts an entry before each of two calls; the second call is made by another
server process. -/
theorem resumed_iff_demo : ∃ res, res.1 = [⟨[0, 0], 2⟩, ⟨[0, 0], 2⟩] ∧
    wholeRun demoSetup ⟨10, true, Session.demo.maps⟩ 1 0 [enterZero 1, enterZero 2] onePacket =
      .ret res ∧
    cutRun demoSetup Session.demoAgain.memTable ⟨10, true, Session.demo.maps⟩
      ⟨10, true, Session.demoAgain.maps⟩ 1 0 [enterZero 1] [enterZero 2] onePacket = .ret res := by
  have hsame : SameTable demoSetup.table Session.demoAgain.memTable := by
    refine ⟨rfl, rfl, fun k => ?_⟩
    match k with
    | 0 => exact iff_of_true (by decide) (by decide)
    | 1 => exact iff_of_true (by decide) (by decide)
    | _ + 2 => exact iff_of_false (Int.lt_irrefl 0) (Int.lt_irrefl 0)
  have hin : demoSetup.InTable :=
    ⟨⟨1, by decide +kernel, by decide +kernel⟩, ⟨1, by decide +kernel, by decide +kernel⟩,
      ⟨1, by decide +kernel, by decide +kernel⟩⟩
  have hbuffer : demoSetup.table.Holds (·.guestPhysAddr)
      (Session.demo.clientBase txIdx + .ofNat sizeofVhostVring) 12 :=
    ⟨1, by decide +kernel, by decide +kernel⟩
  have hpeer : PeerWrites (demoSetup.PacketsIn fun k => k) [enterZero 1, enterZero 2] := by
    intro f hf m hm
    rcases List.mem_cons.mp hf with rfl | hf
    · exact hm
    · rw [List.mem_singleton.mp hf]
      exact hm
  -- both calls of the whole run hand over the packet
  have hcalls : (wholeRun demoSetup ⟨10, true, Session.demo.maps⟩ 1 0
      [enterZero 1, enterZero 2] onePacket >>= fun res => .ret res.1) =
      .ret [⟨[0, 0], 2⟩, ⟨[0, 0], 2⟩] := by
    decide +kernel
  obtain ⟨res, hres, hlist⟩ := Outcome.bind_eq_ret.mp hcalls
  have hiff := @resumed_iff demoSetup Session.demoAgain.memTable
    ⟨10, true, Session.demo.maps⟩ ⟨10, true, Session.demoAgain.maps⟩ _ rfl hsame
    Session.demo.mapped Session.demoAgain.mapped hin 1 0 [enterZero 1] [enterZero 2] onePacket
    (fun _ _ _ _ _ => hbuffer) hpeer res
  exact ⟨res, Outcome.ret.inj hlist, hres, hiff.mp hres⟩

end Vapp
