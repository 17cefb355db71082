import Vapp.Library.Names

/-! # Servers on one socket path

`init_unsock` takes the path of a listening server away, whoever has it, and binds it anew;
`close_unsock` takes it away again.  The servers on a host do not know of each other, and their
system calls come in any order.
-/
namespace Vapp

/-- `VHOST_SOCK_NAME`. -/
def vhostSockName : String := "vhost.sock"

/-- `new_unsock`: the path of the socket. -/
def newUnsock (path : Option String) : String := path.getD vhostSockName

/-- Where a listening server is in `init_unsock`, and what becomes of it.  `is_connected` is set
in `listening` alone. -/
inductive SockStage where
  | created
  /-- behind `unlink` -/
  | unlinked
  /-- behind `bind`, which made the socket `o` -/
  | bound (o : Nat)
  | listening (o : Nat)
  /-- `init_unsock` returned `-1`, which `new_vhost_server` does not look at -/
  | failed
  | closed
  deriving DecidableEq, Repr

structure SockServer where
  path : String
  stage : SockStage

/-- The sockets that paths are bound to, and the servers by their number. -/
structure SockHost where
  names : Names String
  server : Nat → SockServer

/-- Every server has called `new_unsock`. -/
def SockHost.init (path : Nat → Option String) : SockHost :=
  ⟨.empty, fun pid => ⟨newUnsock (path pid), .created⟩⟩

def SockHost.setStage (s : SockHost) (pid : Nat) (stage : SockStage) : SockHost :=
  { s with server := Function.update s.server pid { s.server pid with stage := stage } }

inductive SockLabel where
  | unlink (pid : Nat) (path : String)
  | bind (pid : Nat) (path : String) (o : Nat)
  | fail (pid : Nat)
  | listen (pid : Nat)
  | close (pid : Nat) (path : String)
  | die (pid : Nat)

/-- The path is taken away by `init_unsock` or by `close_unsock`. -/
def SockLabel.Unlinks (path : String) (l : SockLabel) : Prop :=
  ∃ pid, l = .unlink pid path ∨ l = .close pid path

/-- One system call of a server. -/
inductive SockStep : SockHost → SockLabel → SockHost → Prop
  | unlink {s : SockHost} {pid : Nat} (h : (s.server pid).stage = .created) :
      SockStep s (.unlink pid (s.server pid).path)
        { s.setStage pid .unlinked with names := s.names.unlink (s.server pid).path }
  /-- `bind` makes the path, which must not be there -/
  | bind {s : SockHost} {pid : Nat} (h : (s.server pid).stage = .unlinked)
      (hfree : s.names.bound (s.server pid).path = none) :
      SockStep s (.bind pid (s.server pid).path (s.names.get (s.server pid).path).1)
        { s.setStage pid (.bound (s.names.get (s.server pid).path).1) with
          names := (s.names.get (s.server pid).path).2 }
  /-- `bind` or `listen` fails -/
  | fail {s : SockHost} {pid : Nat}
      (h : (s.server pid).stage = .unlinked ∨ ∃ o, (s.server pid).stage = .bound o) :
      SockStep s (.fail pid) (s.setStage pid .failed)
  | listen {s : SockHost} {pid o : Nat} (h : (s.server pid).stage = .bound o) :
      SockStep s (.listen pid) (s.setStage pid (.listening o))
  /-- `close_unsock` of a server that listens -/
  | close {s : SockHost} {pid o : Nat} (h : (s.server pid).stage = .listening o) :
      SockStep s (.close pid (s.server pid).path)
        { s.setStage pid .closed with names := s.names.unlink (s.server pid).path }
  /-- the process ends without it -/
  | die {s : SockHost} {pid : Nat} : SockStep s (.die pid) (s.setStage pid .closed)

/-- `connect` to the path reaches the server. -/
def SockHost.Reaches (s : SockHost) (path : String) (pid : Nat) : Prop :=
  ∃ o, s.names.bound path = some o ∧ (s.server pid).stage = .listening o

/-- The socket that a server has bound. -/
def SockStage.socket? : SockStage → Option Nat
  | bound o | listening o => some o
  | created | unlinked | failed | closed => none

section Paths
variable {s t : SockHost} {l : SockLabel} {ls : List SockLabel}

theorem setStage_self (s : SockHost) (pid : Nat) (stage : SockStage) :
    (s.setStage pid stage).server pid = { s.server pid with stage := stage } :=
  Function.update_self ..

theorem setStage_of_ne (s : SockHost) {pid pid' : Nat} (stage : SockStage) (h : pid ≠ pid') :
    (s.setStage pid' stage).server pid = s.server pid := Function.update_of_ne h _ _

/-- What a step does to the names. -/
theorem SockStep.names_run (h : SockStep s l t) :
    ∃ ms, Transition.Run Names.Step s.names ms t.names ∧
      (∀ path, .unlink path ∈ ms ↔ l.Unlinks path) ∧
      ∀ pid path o, l = .bind pid path o → ms = [.get path o] := by
  cases h with
  | @unlink pid _ =>
      exact ⟨[.unlink _], .one (.unlink _ _), fun path => by simp [SockLabel.Unlinks, eq_comm],
        nofun⟩
  | @bind pid _ _ =>
      refine ⟨[.get _ _], .one (.get s.names (s.server pid).path), fun path => ?_, ?_⟩
      · simp [SockLabel.Unlinks]
      · intro pid' path o heq
        cases heq
        rfl
  | @close pid o _ =>
      exact ⟨[.unlink _], .one (.unlink _ _), fun path => by simp [SockLabel.Unlinks, eq_comm],
        nofun⟩
  | fail _ | listen _ | die =>
      exact ⟨[], .nil, fun path => by simp [SockLabel.Unlinks], nofun⟩

theorem sockNames_run (h : Transition.Run SockStep s ls t) :
    ∃ ms, Transition.Run Names.Step s.names ms t.names ∧
      ∀ path, .unlink path ∈ ms ↔ ∃ l ∈ ls, l.Unlinks path :=
  Names.run_of_steps SockHost.names (U := fun path l => l.Unlinks path) (fun _ _ _ hstep => by
    obtain ⟨ms, hrun, hunlink, -⟩ := hstep.names_run
    exact ⟨ms, hrun, hunlink⟩) h

/-- No two servers have bound one socket. -/
structure Owned (s : SockHost) : Prop where
  lt : ∀ {pid o}, (s.server pid).stage.socket? = some o → o < s.names.next
  unique : ∀ {pid pid' o}, (s.server pid).stage.socket? = some o →
    (s.server pid').stage.socket? = some o → pid = pid'

/-- `bind` makes a new socket. -/
theorem SockStep.bind_new {pid o : Nat} {path : String} (h : SockStep s (.bind pid path o) t) :
    o = s.names.next ∧ t.names.bound path = some o ∧ (t.server pid).stage = .bound o := by
  cases h with
  | bind _ hfree =>
      refine ⟨?_, s.names.get_bound _, ?_⟩
      · rw [Names.get, hfree]
      · exact congrArg SockServer.stage (setStage_self s pid _)

/-- The socket of a server is the one it had, or a new one. -/
theorem SockStep.socket (h : SockStep s l t) (pid : Nat) {o : Nat}
    (ho : (t.server pid).stage.socket? = some o) :
    (s.server pid).stage.socket? = some o ∨ ∃ path, l = .bind pid path o := by
  -- only the server that makes the call changes its stage
  have hother {pid' : Nat} {stage : SockStage} (hp : pid ≠ pid')
      (ho : ((s.setStage pid' stage).server pid).stage.socket? = some o) :
      (s.server pid).stage.socket? = some o := by
    rwa [setStage_of_ne s stage hp] at ho
  have hself {stage : SockStage} (ho : ((s.setStage pid stage).server pid).stage.socket? = some o) :
      stage.socket? = some o := by
    rwa [setStage_self] at ho
  cases h with
  | @unlink pid' _ | @fail pid' _ | @close pid' _ _ | @die pid' =>
      by_cases hp : pid = pid'
      · subst hp
        cases hself ho
      · exact .inl (hother hp ho)
  | @bind pid' _ _ =>
      by_cases hp : pid = pid'
      · subst hp
        cases hself ho
        exact .inr ⟨_, rfl⟩
      · exact .inl (hother hp ho)
  | @listen pid' o' hstage =>
      by_cases hp : pid = pid'
      · subst hp
        rw [hstage, ← hself ho]
        exact .inl rfl
      · exact .inl (hother hp ho)

theorem owned_step (h : Owned s) (hs : SockStep s l t) : Owned t := by
  obtain ⟨ms, hnames, -⟩ := hs.names_run
  have hle := Names.next_le_of_run hnames
  have hnew {pid o : Nat} {path : String} (hl : l = .bind pid path o) :
      o = s.names.next ∧ o < t.names.next := by
    subst hl
    obtain ⟨heq, hbound, -⟩ := hs.bind_new
    exact ⟨heq, t.names.fresh hbound⟩
  refine ⟨fun {pid o} ho => ?_, fun {pid pid' o} ho ho' => ?_⟩
  · rcases hs.socket pid ho with hold | ⟨path, hl⟩
    · exact Nat.lt_of_lt_of_le (h.lt hold) hle
    · exact (hnew hl).2
  · rcases hs.socket pid ho with hold | ⟨path, hl⟩
    · rcases hs.socket pid' ho' with hold' | ⟨path', hl'⟩
      · exact h.unique hold hold'
      · have hlt := h.lt hold
        rw [(hnew hl').1] at hlt
        exact absurd hlt (Nat.lt_irrefl _)
    · rcases hs.socket pid' ho' with hold' | ⟨path', hl'⟩
      · have hlt := h.lt hold'
        rw [(hnew hl).1] at hlt
        exact absurd hlt (Nat.lt_irrefl _)
      · cases hl.symm.trans hl'
        rfl

theorem owned_init (path : Nat → Option String) : Owned (.init path) := by
  refine ⟨fun {pid o} ho => ?_, fun {pid pid' o} ho _ => ?_⟩
  · cases ho
  · cases ho

theorem owned_run {path : Nat → Option String} (h : Transition.Run SockStep (.init path) ls s) :
    Owned s :=
  Transition.Run.preserves (fun _ _ _ hs hstep => owned_step hs hstep) (owned_init path) h

/-- The server has bound the socket `o`, and binds no other. -/
structure SockServer.Bound (v : SockServer) (path : String) (o : Nat) : Prop where
  path : v.path = path
  stage : v.stage = .bound o ∨ v.stage = .listening o ∨ v.stage = .failed ∨ v.stage = .closed

variable {pid o : Nat} {path : String}

theorem bound_of_bind (h : SockStep s (.bind pid path o) t) : (t.server pid).Bound path o := by
  have hstage := h.bind_new.2.2
  cases h with
  | bind _ _ =>
      refine ⟨?_, .inl hstage⟩
      show ((s.setStage pid _).server pid).path = _
      rw [setStage_self]

theorem bound_step (h : (s.server pid).Bound path o) (hs : SockStep s l t) :
    (t.server pid).Bound path o := by
  obtain ⟨hpath, hstage⟩ := h
  have hother {pid' : Nat} {stage : SockStage} (hp : pid ≠ pid') :
      ((s.setStage pid' stage).server pid).Bound path o := by
    rw [setStage_of_ne s stage hp]
    exact ⟨hpath, hstage⟩
  have hself {stage : SockStage} (h : stage = .bound o ∨ stage = .listening o ∨
      stage = .failed ∨ stage = .closed) : ((s.setStage pid stage).server pid).Bound path o := by
    rw [setStage_self]
    exact ⟨hpath, h⟩
  cases hs with
  | @unlink pid' hnew | @bind pid' hnew _ =>
      by_cases hp : pid = pid'
      · subst hp
        simp [hnew] at hstage
      · exact hother hp
  | @listen pid' o' hbound =>
      by_cases hp : pid = pid'
      · subst hp
        simp only [hbound, SockStage.bound.injEq, reduceCtorEq, or_false] at hstage
        subst hstage
        exact hself (.inr (.inl rfl))
      · exact hother hp
  | @fail pid' _ =>
      by_cases hp : pid = pid'
      · subst hp
        exact hself (.inr (.inr (.inl rfl)))
      · exact hother hp
  | @close pid' _ _ | @die pid' =>
      by_cases hp : pid = pid'
      · subst hp
        exact hself (.inr (.inr (.inr rfl)))
      · exact hother hp

/-- **Who a `connect` reaches.**  A server that has bound the path is reached as long as it
listens and no server has entered `init_unsock` or `close_unsock` for the path since; and where
it is reached, no other is. -/
theorem reaches_iff {paths : Nat → Option String} {before after : List SockLabel}
    (h : Transition.Run SockStep (.init paths) (before ++ [.bind pid path o] ++ after) s) :
    (s.Reaches path pid ↔
      (s.server pid).stage = .listening o ∧ ∀ l ∈ after, ¬ l.Unlinks path) ∧
    ∀ other, s.Reaches path pid → s.Reaches path other → other = pid := by
  have howned := owned_run h
  obtain ⟨t, hpre, hafter⟩ := h.split
  obtain ⟨u, -, hbind⟩ := hpre.split
  have hbind := hbind.of_singleton
  have hserver := hafter.preserves (I := fun s => (s.server pid).Bound path o)
    (fun _ _ _ hs hstep => bound_step hs hstep) (bound_of_bind hbind)
  obtain ⟨ms, hnames, hunlink⟩ := sockNames_run hafter
  have hbound := Names.bound_iff_of_run hnames hbind.bind_new.2.1
  rw [hunlink] at hbound
  simp only [not_exists, not_and] at hbound
  refine ⟨⟨?_, ?_⟩, ?_⟩
  · rintro ⟨o', hname, hstage⟩
    have hsame : o' = o := by
      rcases hserver.stage with h | h | h | h
      · cases h.symm.trans hstage
      · cases h.symm.trans hstage
        rfl
      · cases h.symm.trans hstage
      · cases h.symm.trans hstage
    subst hsame
    exact ⟨hstage, hbound.mp hname⟩
  · rintro ⟨hstage, hnone⟩
    exact ⟨o, hbound.mpr hnone, hstage⟩
  · rintro other ⟨o', hname, hstage⟩ ⟨o'', hname', hstage'⟩
    cases hname.symm.trans hname'
    refine howned.unique (o := o') ?_ ?_
    · rw [hstage']
      rfl
    · rw [hstage]
      rfl

end Paths

/-- The state after a server has bound its path. -/
def SockHost.bindOf (s : SockHost) (pid : Nat) : SockHost :=
  { s.setStage pid (.bound (s.names.get (s.server pid).path).1) with
    names := (s.names.get (s.server pid).path).2 }

/-- The state after a server has taken the path away. -/
def SockHost.unlinkOf (s : SockHost) (pid : Nat) (stage : SockStage) : SockHost :=
  { s.setStage pid stage with names := s.names.unlink (s.server pid).path }

/-- The server that ends takes away the path of the one that has followed it. -/
theorem reaches_iff_takeover : ∃ s, Transition.Run SockStep (.init fun _ => none)
    ([.unlink 0 vhostSockName, .bind 0 vhostSockName 0, .listen 0, .unlink 1 vhostSockName] ++
      [.bind 1 vhostSockName 1] ++ [.listen 1, .close 0 vhostSockName]) s ∧
    (s.server 1).stage = .listening 1 ∧ ¬ s.Reaches vhostSockName 1 := by
  let s1 := (SockHost.init fun _ => none).unlinkOf 0 .unlinked
  let s2 := s1.bindOf 0
  let s3 := s2.setStage 0 (.listening 0)
  let s4 := s3.unlinkOf 1 .unlinked
  let s5 := s4.bindOf 1
  let s6 := s5.setStage 1 (.listening 1)
  have h1 : SockStep (.init fun _ => none) (.unlink 0 vhostSockName) s1 := .unlink rfl
  have h2 : SockStep s1 (.bind 0 vhostSockName 0) s2 := .bind rfl rfl
  have h3 : SockStep s2 (.listen 0) s3 := .listen rfl
  have h4 : SockStep s3 (.unlink 1 vhostSockName) s4 := .unlink rfl
  have h5 : SockStep s4 (.bind 1 vhostSockName 1) s5 := .bind rfl rfl
  have h6 : SockStep s5 (.listen 1) s6 := .listen rfl
  have h7 : SockStep s6 (.close 0 vhostSockName) (s6.unlinkOf 0 .closed) := .close (o := 0) rfl
  have hrun : Transition.Run SockStep (.init fun _ => none)
      ([.unlink 0 vhostSockName, .bind 0 vhostSockName 0, .listen 0, .unlink 1 vhostSockName] ++
        [.bind 1 vhostSockName 1] ++ [.listen 1, .close 0 vhostSockName]) (s6.unlinkOf 0 .closed) :=
    ((((((Transition.Run.one h1).snoc h2).snoc h3).snoc h4).snoc h5).snoc h6).snoc h7
  refine ⟨_, hrun, rfl, fun hreach => ?_⟩
  exact ((reaches_iff hrun).1.mp hreach).2 _ (by simp) ⟨0, .inr rfl⟩

end Vapp
