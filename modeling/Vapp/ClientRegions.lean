import Vapp.RingLayout
import Vapp.Library.Names

/-! # The shared memory of the clients

`create_shm` opens the object of a fixed name, or makes it; `end_shm` takes the name away.  All
clients on a host use the same names, and each lays out its rings in the objects that it got.
Two clients work on one ring unless some client has ended in between, and the later one then
resets the ring of the earlier.
-/
namespace Vapp

open ArrayChain

/-! ### `shm.c` -/

/-- What the kernel answers to `shm_open`, `ftruncate` and `mmap`; `none` is a failure. -/
structure ShmAnswer where
  fd : Option Int
  truncated : Bool
  addr : Option UInt64

/-- The array `shm_fds` of a process, its open descriptors and its mappings, each with the
object behind it. -/
structure ShmProcess where
  shmFds : Nat → Int
  fds : List (Int × Nat)
  maps : List (UInt64 × Nat)

/-- `map_shm`. -/
def mapShm (addr : Option UInt64) : UInt64 := addr.getD 0

/-- `create_shm`; the size of the object does not matter here.  A failure leaves the name, and
the object if it was made. -/
def createShm (a : ShmAnswer) (names : Names Nat) (p : ShmProcess) (idx : Nat) :
    UInt64 × Names Nat × ShmProcess :=
  match a.fd with
  | none => (0, names, p)
  | some fd =>
      let (o, names) := names.get idx
      let result := if a.truncated then mapShm a.addr else 0
      if result = 0 then
        -- `close(fd)`
        (0, names, p)
      else
        (result, names,
          { shmFds := Function.update p.shmFds idx fd
            fds := (fd, o) :: p.fds
            maps := (result, o) :: p.maps })

/-- `end_shm`, where `munmap` succeeds or not. -/
def endShm (unmapped : Bool) (names : Names Nat) (p : ShmProcess) (ptr : UInt64) (idx : Nat) :
    Int × Names Nat × ShmProcess :=
  let p :=
    if 0 < p.shmFds idx then
      { p with
        shmFds := Function.update p.shmFds idx (-1)
        fds := p.fds.filter fun f => f.1 ≠ p.shmFds idx }
    else
      p
  if unmapped then
    let p := { p with maps := p.maps.filter fun r => r.1 ≠ ptr }
    -- `shm_unlink` fails where another client has taken the name away
    (if names.bound idx = none then -1 else 0, names.unlink idx, p)
  else
    (-1, names, p)

/-! ### The clients on a host -/

/-- Where a client is: in the first or the second loop of `new_vhost_client`, between that and
`end_vhost_client`, in the loop of `end_vhost_client`, or gone. -/
inductive ClientStage where
  | creating (idx : Nat)
  | laying (idx : Nat)
  | running
  | ending (idx : Nat)
  | gone
  deriving DecidableEq, Repr

/-- A client; `regions idx` is `memory.regions[idx].guest_phys_addr`. -/
structure ClientProcess where
  stage : ClientStage
  shm : ShmProcess
  regions : Nat → UInt64

/-- A process of the client that has not done anything. -/
def ClientProcess.new : ClientProcess := ⟨.creating 0, ⟨fun _ => 0, [], []⟩, fun _ => 0⟩

/-- The names of the shared objects, what is in these, and the clients by their number. -/
structure ShmHost where
  names : Names Nat
  mem : Mem
  client : Nat → ClientProcess

/-- No client has started. -/
def ShmHost.init (m : Mem) : ShmHost := ⟨.empty, m, fun _ => .new⟩

def ShmHost.setClient (s : ShmHost) (pid : Nat) (c : ClientProcess) : ShmHost :=
  { s with client := Function.update s.client pid c }

/-- `create pid idx o`: the client `pid` has got the object `o` for its region `idx`. -/
inductive ShmLabel where
  | create (pid idx o : Nat)
  | fail (pid idx : Nat)
  | lay (pid idx : Nat)
  | use (m : Mem)
  | leave (pid : Nat)
  | finish (pid idx : Nat) (unmapped : Bool)
  | die (pid : Nat)

/-- The step of a loop over the regions. -/
def nextRegion (idx : Nat) (more : Nat → ClientStage) (done : ClientStage) : ClientStage :=
  if idx + 1 < vhostClientVringNum then more (idx + 1) else done

/-- One step of a client. -/
inductive ShmStep : ShmHost → ShmLabel → ShmHost → Prop
  /-- a turn of the first loop of `new_vhost_client`; `mmap` returns an address that is free -/
  | create {s : ShmHost} {pid idx : Nat} {a : ShmAnswer} {addr : UInt64} {names : Names Nat}
      {p : ShmProcess} (hstage : (s.client pid).stage = .creating idx)
      (h : createShm a s.names (s.client pid).shm idx = (addr, names, p)) (hne : addr ≠ 0)
      (hfree : ∀ r ∈ (s.client pid).shm.maps, r.1 ≠ addr) :
      ShmStep s (.create pid idx (s.names.get idx).1)
        { s.setClient pid
            { stage := nextRegion idx .creating (.laying 0)
              shm := p
              regions := Function.update (s.client pid).regions idx addr } with names := names }
  /-- `new_vhost_client` returns `NULL`, which `run_vhost_client` does not survive -/
  | fail {s : ShmHost} {pid idx : Nat} {a : ShmAnswer} {names : Names Nat} {p : ShmProcess}
      (hstage : (s.client pid).stage = .creating idx)
      (h : createShm a s.names (s.client pid).shm idx = (0, names, p)) :
      ShmStep s (.fail pid idx)
        { s.setClient pid { s.client pid with stage := .gone, shm := p } with names := names }
  /-- a turn of the second loop: `new_vring` -/
  | lay {s : ShmHost} {pid idx o : Nat} (hstage : (s.client pid).stage = .laying idx)
      (h : (s.client pid).shm.maps.lookup ((s.client pid).regions idx) = some o) :
      ShmStep s (.lay pid idx)
        { s.setClient pid { s.client pid with stage := nextRegion idx .laying .running } with
          mem := newVring ((s.client pid).regions idx) o s.mem }
  /-- the rings are used, by whoever has them mapped -/
  | use {s : ShmHost} (m : Mem) : ShmStep s (.use m) { s with mem := m }
  /-- `end_vhost_client` is entered -/
  | leave {s : ShmHost} {pid : Nat} (hstage : (s.client pid).stage = .running) :
      ShmStep s (.leave pid) (s.setClient pid { s.client pid with stage := .ending 0 })
  /-- a turn of its loop -/
  | finish {s : ShmHost} {pid idx : Nat} {unmapped : Bool} {r : Int} {names : Names Nat}
      {p : ShmProcess} (hstage : (s.client pid).stage = .ending idx)
      (h : endShm unmapped s.names (s.client pid).shm ((s.client pid).regions idx) idx =
        (r, names, p)) :
      ShmStep s (.finish pid idx unmapped)
        { s.setClient pid { s.client pid with stage := nextRegion idx .ending .gone, shm := p } with
          names := names }
  /-- the process ends in another way: `init_vhost_client` fails, or a signal kills it -/
  | die {s : ShmHost} {pid : Nat} :
      ShmStep s (.die pid) (s.setClient pid { ClientProcess.new with stage := .gone })

/-- The state after a turn of the first loop in which `shm_open` returned 3 and `mmap` returned
`addr`. -/
def ShmHost.created (s : ShmHost) (pid idx : Nat) (addr : UInt64) : ShmHost :=
  let o := (s.names.get idx).1
  let c := s.client pid
  { s.setClient pid
      { stage := nextRegion idx .creating (.laying 0)
        shm :=
          { shmFds := Function.update c.shm.shmFds idx 3
            fds := (3, o) :: c.shm.fds
            maps := (addr, o) :: c.shm.maps }
        regions := Function.update c.regions idx addr } with names := (s.names.get idx).2 }

/-- The state after a turn of the second loop. -/
def ShmHost.laid (s : ShmHost) (pid idx o : Nat) : ShmHost :=
  { s.setClient pid { s.client pid with stage := nextRegion idx .laying .running } with
    mem := newVring ((s.client pid).regions idx) o s.mem }

/-- The state after a turn of the loop of `end_vhost_client`. -/
def ShmHost.finished (s : ShmHost) (pid idx : Nat) : ShmHost :=
  let c := s.client pid
  { s.setClient pid
      { c with
        stage := nextRegion idx .ending .gone
        shm := (endShm true s.names c.shm (c.regions idx) idx).2.2 } with
    names := s.names.unlink idx }

theorem ShmStep.created {s : ShmHost} {pid idx : Nat} (addr : UInt64)
    (hstage : (s.client pid).stage = .creating idx)
    (hne : addr ≠ 0) (hfree : ∀ r ∈ (s.client pid).shm.maps, r.1 ≠ addr) :
    ShmStep s (.create pid idx (s.names.get idx).1) (s.created pid idx addr) := by
  refine .create (a := ⟨some 3, true, some addr⟩) hstage ?_ hne hfree
  simp only [createShm, mapShm, if_true, Option.getD_some, if_neg hne]

/-! ### What the calls do to the names -/

section Names
variable {names names' : Names Nat} {p p' : ShmProcess} {idx : Nat}

theorem createShm_cases {a : ShmAnswer} {addr : UInt64}
    (h : createShm a names p idx = (addr, names', p')) :
    (addr ≠ 0 ∧ names' = (names.get idx).2 ∧ p'.maps = (addr, (names.get idx).1) :: p.maps) ∨
    (addr = 0 ∧ p' = p ∧ (names' = names ∨ names' = (names.get idx).2)) := by
  cases hfd : a.fd with
  | none =>
      rw [createShm, hfd] at h
      cases h
      exact .inr ⟨rfl, rfl, .inl rfl⟩
  | some fd =>
      simp only [createShm, hfd] at h
      by_cases hresult : (if a.truncated = true then mapShm a.addr else 0) = 0
      · rw [if_pos hresult] at h
        cases h
        exact .inr ⟨rfl, rfl, .inr rfl⟩
      · rw [if_neg hresult] at h
        cases h
        exact .inl ⟨hresult, rfl, rfl⟩

theorem endShm_names {unmapped : Bool} {ptr : UInt64} {r : Int}
    (h : endShm unmapped names p ptr idx = (r, names', p')) :
    names' = if unmapped = true then names.unlink idx else names := by
  cases unmapped with
  | true =>
      cases h
      rfl
  | false =>
      cases h
      rfl

end Names

section Objects
variable {s t : ShmHost} {l : ShmLabel} {ls : List ShmLabel}

/-- What a step does to the names. -/
theorem ShmStep.names_run (h : ShmStep s l t) :
    ∃ ms, Transition.Run Names.Step s.names ms t.names ∧
      (∀ n, .unlink n ∈ ms ↔ ∃ pid, l = .finish pid n true) ∧
      ∀ pid idx o, l = .create pid idx o → ms = [.get idx o] := by
  cases h with
  | @create pid idx a addr names p hstage hcall hne hfree =>
      rcases createShm_cases hcall with ⟨-, rfl, -⟩ | ⟨hzero, -⟩
      · refine ⟨[.get idx _], .one (.get s.names idx), by simp, ?_⟩
        intro pid' idx' o heq
        cases heq
        rfl
      · exact absurd hzero hne
  | @fail pid idx a names p hstage hcall =>
      obtain ⟨hne, -⟩ | ⟨-, -, rfl | rfl⟩ := createShm_cases hcall
      · exact absurd rfl hne
      · exact ⟨[], .nil, by simp, nofun⟩
      · exact ⟨[.get idx _], .one (.get s.names idx), by simp, nofun⟩
  | @finish pid idx unmapped r names p hstage hcall =>
      rw [endShm_names hcall]
      cases unmapped with
      | true =>
          refine ⟨[.unlink idx], .one (.unlink s.names idx), fun n => ?_, nofun⟩
          simp [eq_comm]
      | false => exact ⟨[], .nil, by simp, nofun⟩
  | lay _ _ | use _ | leave _ | die => exact ⟨[], .nil, by simp, nofun⟩

theorem names_run (h : Transition.Run ShmStep s ls t) :
    ∃ ms, Transition.Run Names.Step s.names ms t.names ∧
      ∀ n, .unlink n ∈ ms ↔ ∃ pid, .finish pid n true ∈ ls := by
  obtain ⟨ms, hrun, hunlink⟩ := Names.run_of_steps ShmHost.names
    (U := fun n l => ∃ pid, l = .finish pid n true) (fun _ _ _ hstep => by
      obtain ⟨ms, hrun, hunlink, -⟩ := hstep.names_run
      exact ⟨ms, hrun, hunlink⟩) h
  refine ⟨ms, hrun, fun n => (hunlink n).trans ⟨?_, ?_⟩⟩
  · rintro ⟨l, hl, pid, rfl⟩
    exact ⟨pid, hl⟩
  · rintro ⟨pid, hl⟩
    exact ⟨_, hl, pid, rfl⟩

theorem same_object_iff {A B i j o o' : Nat} {between : List ShmLabel}
    (h : Transition.Run ShmStep s ([.create A i o] ++ between ++ [.create B j o']) t) :
    o = o' ↔ i = j ∧ ∀ C, .finish C i true ∉ between := by
  obtain ⟨v, hfirst, hlast⟩ := h.split
  obtain ⟨w, hcreate, hmid⟩ := hfirst.split
  obtain ⟨ms, hms, -, hget⟩ := hcreate.of_singleton.names_run
  obtain ⟨ms', hms', hunlink⟩ := names_run hmid
  obtain ⟨ms'', hms'', -, hget'⟩ := hlast.of_singleton.names_run
  rw [hget _ _ _ rfl] at hms
  rw [hget' _ _ _ rfl] at hms''
  have hrun : Transition.Run Names.Step s.names (.get i o :: ms' ++ [.get j o']) t.names :=
    (hms.append hms').append hms''
  rw [Names.object_eq_iff hrun, hunlink, not_exists]

/-- **Two clients get one object** exactly where it is for the same region and no client has
ended this region in between. -/
theorem object_shared_iff {A B i j o o' : Nat} {before between after : List ShmLabel} {m : Mem}
    (h : Transition.Run ShmStep (.init m)
      (before ++ ([.create A i o] ++ between ++ [.create B j o']) ++ after) s) :
    o = o' ↔ i = j ∧ ∀ C, .finish C i true ∉ between := by
  obtain ⟨t, hpre, -⟩ := h.split
  obtain ⟨u, -, hrest⟩ := hpre.split
  exact same_object_iff hrest

/-- A client starts after another one has ended its first region. -/
theorem object_shared_iff_demo : ∃ s between,
    Transition.Run ShmStep (.init Mem.zero) ([] ++ ([.create 0 0 0] ++ between ++
      [.create 1 0 2]) ++ []) s ∧ (0 = 2 ↔ 0 = 0 ∧ ∀ C, .finish C 0 true ∉ between) := by
  let s1 := (ShmHost.init Mem.zero).created 0 0 4096
  let s2 := s1.created 0 1 8192
  let s4 := (s2.laid 0 0 0).laid 0 1 1
  have h1 : ShmStep (.init Mem.zero) (.create 0 0 0) s1 := .created 4096 rfl (by decide) nofun
  have h2 : ShmStep s1 (.create 0 1 1) s2 := .created 8192 rfl (by decide) (by decide)
  have h3 : ShmStep s2 (.lay 0 0) (s2.laid 0 0 0) := .lay rfl rfl
  have h4 : ShmStep (s2.laid 0 0 0) (.lay 0 1) s4 := .lay rfl rfl
  let s5 := s4.setClient 0 { s4.client 0 with stage := .ending 0 }
  let s6 := s5.finished 0 0
  have h5 : ShmStep s4 (.leave 0) s5 := .leave rfl
  have h6 : ShmStep s5 (.finish 0 0 true) s6 := .finish rfl rfl
  have h7 : ShmStep s6 (.create 1 0 2) (s6.created 1 0 4096) :=
    .created 4096 rfl (by decide) (by decide)
  have hrun : Transition.Run ShmStep (.init Mem.zero) ([] ++ ([.create 0 0 0] ++
      [.create 0 1 1, .lay 0 0, .lay 0 1, .leave 0, .finish 0 0 true] ++ [.create 1 0 2]) ++ [])
      (s6.created 1 0 4096) :=
    ((((((Transition.Run.one h1).snoc h2).snoc h3).snoc h4).snoc h5).snoc h6).snoc h7
  exact ⟨_, _, hrun, object_shared_iff hrun⟩

end Objects

/-! ### The rings in the objects -/

/-- The client has created region `i`. -/
def ClientStage.Past (i : Nat) : ClientStage → Prop
  | creating k => i < k
  | laying _ | running | ending _ | gone => True

/-- It has not started to give its regions back. -/
def ClientStage.Holding : ClientStage → Prop
  | creating _ | laying _ | running => True
  | ending _ | gone => False

/-- The client has created region `i`, and as long as it holds its regions, this one is the
object `o`. -/
structure HasRegion (s : ShmHost) (pid i o : Nat) : Prop where
  past : (s.client pid).stage.Past i
  maps : (s.client pid).stage.Holding →
    (s.client pid).shm.maps.lookup ((s.client pid).regions i) = some o

section Rings
variable {s t : ShmHost} {l : ShmLabel} {ls : List ShmLabel} {pid i o : Nat}

theorem setClient_self (s : ShmHost) (pid : Nat) (c : ClientProcess) :
    (s.setClient pid c).client pid = c := Function.update_self ..

theorem setClient_of_ne (s : ShmHost) {pid pid' : Nat} (c : ClientProcess) (h : pid ≠ pid') :
    (s.setClient pid' c).client pid = s.client pid := Function.update_of_ne h _ _

/-- Only the client itself matters. -/
theorem HasRegion.congr (h : HasRegion s pid i o) (hc : t.client pid = s.client pid) :
    HasRegion t pid i o := by
  obtain ⟨hpast, hmaps⟩ := h
  exact ⟨by rwa [hc], by rwa [hc]⟩

theorem HasRegion.of_client {c : ClientProcess} (hc : t.client pid = c) (hpast : c.stage.Past i)
    (hmaps : c.stage.Holding → c.shm.maps.lookup (c.regions i) = some o) :
    HasRegion t pid i o := by
  subst hc
  exact ⟨hpast, hmaps⟩

/-- What holds of both ends of a turn. -/
theorem nextRegion_of {P : ClientStage → Prop} {idx : Nat} {more : Nat → ClientStage}
    {done : ClientStage} (hmore : P (more (idx + 1))) (hdone : P done) :
    P (nextRegion idx more done) := by
  rw [nextRegion]
  split
  · exact hmore
  · exact hdone

theorem hasRegion_create (h : ShmStep s (.create pid i o) t) : HasRegion t pid i o := by
  cases h with
  | @create pid idx a addr names p hstage hcall hne hfree =>
      refine .of_client (setClient_self s pid _) ?_ fun _ => ?_
      · exact nextRegion_of (P := ClientStage.Past i) (Nat.lt_succ_self i) trivial
      · rcases createShm_cases hcall with ⟨-, -, hmaps⟩ | ⟨hzero, -⟩
        · show p.maps.lookup (Function.update (s.client pid).regions i addr i) = _
          rw [hmaps, Function.update_self, List.lookup_cons_self]
        · exact absurd hzero hne

/-- A further region of the client is mapped elsewhere. -/
theorem HasRegion.create (h : HasRegion s pid i o) {idx : Nat} {a : ShmAnswer} {addr : UInt64}
    {names : Names Nat} {p : ShmProcess} (hstage : (s.client pid).stage = .creating idx)
    (hcall : createShm a s.names (s.client pid).shm idx = (addr, names, p)) (hne : addr ≠ 0)
    (hfree : ∀ r ∈ (s.client pid).shm.maps, r.1 ≠ addr) :
    i < idx ∧ p.maps.lookup (Function.update (s.client pid).regions idx addr i) = some o := by
  obtain ⟨hpast, hmaps⟩ := h
  rw [hstage] at hpast hmaps
  have hidx : i ≠ idx := Nat.ne_of_lt hpast
  have hlookup := hmaps trivial
  obtain ⟨as, bs, heq, -⟩ := List.lookup_eq_some_iff.mp hlookup
  have hother : (s.client pid).regions i ≠ addr := by
    refine hfree (_, o) ?_
    rw [heq]
    simp
  rcases createShm_cases hcall with ⟨-, -, hnew⟩ | ⟨hzero, -⟩
  · rw [Function.update_of_ne hidx, hnew, List.lookup_cons, beq_false_of_ne hother]
    exact ⟨hpast, hlookup⟩
  · exact absurd hzero hne

theorem hasRegion_step (h : HasRegion s pid i o) (hs : ShmStep s l t) : HasRegion t pid i o := by
  cases hs with
  | @create pid' idx a addr names p hstage hcall hne hfree =>
      by_cases hp : pid = pid'
      · subst hp
        obtain ⟨hidx, hmaps⟩ := h.create hstage hcall hne hfree
        refine .of_client (setClient_self s pid _) ?_ fun _ => hmaps
        exact nextRegion_of (P := ClientStage.Past i) (Nat.lt_succ_of_lt hidx) trivial
      · exact h.congr (setClient_of_ne s _ hp)
  | @lay pid' idx o' hstage hlookup =>
      by_cases hp : pid = pid'
      · subst hp
        have hmaps := h.maps
        rw [hstage] at hmaps
        refine .of_client (setClient_self s pid _) ?_ fun _ => hmaps trivial
        exact nextRegion_of (P := ClientStage.Past i) trivial trivial
      · exact h.congr (setClient_of_ne s _ hp)
  | use m => exact h.congr rfl
  | @finish pid' idx unmapped r names p hstage hcall =>
      by_cases hp : pid = pid'
      · subst hp
        refine .of_client (setClient_self s pid _) ?_ fun hholding => absurd hholding ?_
        · exact nextRegion_of (P := ClientStage.Past i) trivial trivial
        · exact nextRegion_of (P := fun c => ¬ c.Holding) not_false not_false
      · exact h.congr (setClient_of_ne s _ hp)
  | @fail pid' idx a names p hstage hcall =>
      by_cases hp : pid = pid'
      · subst hp
        exact .of_client (setClient_self s pid _) trivial False.elim
      · exact h.congr (setClient_of_ne s _ hp)
  | @leave pid' hstage =>
      by_cases hp : pid = pid'
      · subst hp
        exact .of_client (setClient_self s pid _) trivial False.elim
      · exact h.congr (setClient_of_ne s _ hp)
  | @die pid' =>
      by_cases hp : pid = pid'
      · subst hp
        exact .of_client (setClient_self s pid _) trivial False.elim
      · exact h.congr (setClient_of_ne s _ hp)

theorem hasRegion_run (h : HasRegion s pid i o) (hrun : Transition.Run ShmStep s ls t) :
    HasRegion t pid i o :=
  Transition.Run.preserves (I := fun s => HasRegion s pid i o)
    (fun _ _ _ hs hstep => hasRegion_step hs hstep) h hrun

/-- Two memories agree on a shared object. -/
structure SameObject (o : Nat) (m m' : Mem) : Prop where
  desc : ∀ l : Loc, l.shm = o → m'.desc l = m.desc l
  avail : ∀ l : Loc, l.shm = o → m'.avail l = m.avail l
  used : ∀ l : Loc, l.shm = o → m'.used l = m.used l
  byte : ∀ l : Loc, l.shm = o → m'.byte l = m.byte l

/-- The ring at the beginning of an object has no entries, and all its descriptors are free. -/
structure RingReset (o : Nat) (m : Mem) : Prop where
  chain : Chain (m.next ⟨o, offsetofDesc⟩) vringIdxNone 0 allDescs
  availIdx : (m.avail ⟨o, offsetofAvail⟩).idx = 0
  usedIdx : (m.used ⟨o, offsetofUsed⟩).idx = 0

theorem newVring_same (base : UInt64) {o o' : Nat} (m : Mem) (hne : o ≠ o') :
    SameObject o m (newVring base o' m) := by
  have hloc : ∀ {l : Loc} (off : Nat), l.shm = o → l ≠ ⟨o', off⟩ := fun off hl heq =>
    hne (hl.symm.trans (congrArg Loc.shm heq))
  refine ⟨fun l hl => ?_, fun l hl => ?_, fun l hl => ?_, fun _ _ => rfl⟩
  · exact Function.update_of_ne (hloc _ hl) _ _
  · exact Function.update_of_ne (hloc _ hl) _ _
  · exact Function.update_of_ne (hloc _ hl) _ _

theorem newVring_reset (base : UInt64) (o : Nat) (m : Mem) : RingReset o (newVring base o m) :=
  ⟨newVring_chain base o m, by simp [newVring], by simp [newVring]⟩

/-- **A client that starts later resets the ring of an earlier one**, unless some client has
ended the region in between: then it leaves all of it alone. -/
theorem later_client_resets {A B i o o' : Nat} {before between after : List ShmLabel} {m : Mem}
    (h : Transition.Run ShmStep (.init m)
      (before ++ ([.create A i o] ++ between ++ [.create B i o']) ++ after) s)
    (hlay : ShmStep s (.lay B i) t) :
    ((∀ C, .finish C i true ∉ between) → RingReset o t.mem) ∧
    ((∃ C, .finish C i true ∈ between) → SameObject o s.mem t.mem) := by
  obtain ⟨u, hpre, hafter⟩ := h.split
  obtain ⟨v, -, hrest⟩ := hpre.split
  have hshared := same_object_iff hrest
  obtain ⟨w, -, hlast⟩ := hrest.split
  have hregion := hasRegion_run (hasRegion_create hlast.of_singleton) hafter
  have hmaps := hregion.maps
  cases hlay with
  | @lay pid idx o'' hstage hlookup =>
      rw [hstage, hlookup] at hmaps
      cases hmaps trivial
      refine ⟨fun hnone => ?_, fun ⟨C, hC⟩ => ?_⟩
      · rw [hshared.mpr ⟨rfl, hnone⟩]
        exact newVring_reset _ _ _
      · exact newVring_same _ _ fun heq => (hshared.mp heq).2 C hC

/-- Two clients start one after the other. -/
theorem later_client_resets_demo : ∃ s t,
    Transition.Run ShmStep (.init Mem.zero) ([] ++ ([.create 0 0 0] ++
      [.create 0 1 1, .lay 0 0, .lay 0 1] ++ [.create 1 0 0]) ++ [.create 1 1 1]) s ∧
    ShmStep s (.lay 1 0) t ∧ RingReset 0 t.mem := by
  let s1 := (ShmHost.init Mem.zero).created 0 0 4096
  let s2 := s1.created 0 1 8192
  let s3 := s2.laid 0 0 0
  let s4 := s3.laid 0 1 1
  let s5 := s4.created 1 0 4096
  let s6 := s5.created 1 1 8192
  have h1 : ShmStep (.init Mem.zero) (.create 0 0 0) s1 := .created 4096 rfl (by decide) nofun
  have h2 : ShmStep s1 (.create 0 1 1) s2 := .created 8192 rfl (by decide) (by decide)
  have h3 : ShmStep s2 (.lay 0 0) s3 := .lay rfl rfl
  have h4 : ShmStep s3 (.lay 0 1) s4 := .lay rfl rfl
  have h5 : ShmStep s4 (.create 1 0 0) s5 := .created 4096 rfl (by decide) (by decide)
  have h6 : ShmStep s5 (.create 1 1 1) s6 := .created 8192 rfl (by decide) (by decide)
  have h7 : ShmStep s6 (.lay 1 0) (s6.laid 1 0 0) := .lay rfl rfl
  have hrun : Transition.Run ShmStep (.init Mem.zero) ([] ++ ([.create 0 0 0] ++
      [.create 0 1 1, .lay 0 0, .lay 0 1] ++ [.create 1 0 0]) ++ [.create 1 1 1]) s6 :=
    (((((Transition.Run.one h1).snoc h2).snoc h3).snoc h4).snoc h5).snoc h6
  exact ⟨s6, _, hrun, h7, (later_client_resets hrun h7).1 (by simp)⟩

end Rings

end Vapp
