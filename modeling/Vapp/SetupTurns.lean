import Vapp.ServerPackets
import Vapp.KickLimit

/-! # Messages in the loop of the server

`loop_server` calls `poll_server` after the functions that `traverse_fd_list` has called, so
between two messages of a client the server polls its rings at least once.  As long as it
finds nothing to do there, the messages have the effect that they have one right after the
other.
-/
namespace Vapp

/-- The events of a server that handles `msgs` from the connection `g`: it polls after each
message, and may poll at any other time. -/
inductive Turns (g : Int) (maps : Nat → Option MapResult) : List Event → List ServerMsg → Prop
  | done : Turns g maps [] []
  | handle {es : List Event} {msgs : List ServerMsg} (msg : ServerMsg)
      (h : Turns g maps es msgs) : Turns g maps (.message g msg maps :: .poll :: es) (msg :: msgs)
  | idle {es : List Event} {msgs : List ServerMsg} (h : Turns g maps es msgs) :
      Turns g maps (.poll :: es) msgs

section Turns
variable {g : Int} {maps : Nat → Option MapResult} {es : List Event} {msgs : List ServerMsg}

/-- One poll after each message. -/
theorem turns_each (g : Int) (maps : Nat → Option MapResult) (msgs : List ServerMsg) :
    Turns g maps (msgs.flatMap fun msg => [.message g msg maps, .poll]) msgs := by
  induction msgs with
  | nil => exact .done
  | cons msg msgs ih => exact .handle msg ih

theorem Turns.split {as bs : List ServerMsg} (h : Turns g maps es (as ++ bs)) :
    ∃ es1 es2, es = es1 ++ es2 ∧ Turns g maps es1 as ∧ Turns g maps es2 bs := by
  generalize hall : as ++ bs = msgs at h
  induction h generalizing as with
  | done =>
      obtain ⟨rfl, rfl⟩ := List.append_eq_nil_iff.mp hall
      exact ⟨[], [], rfl, .done, .done⟩
  | @handle es msgs msg h ih =>
      cases as with
      | nil =>
          rw [List.nil_append] at hall
          exact ⟨[], _, rfl, .done, hall ▸ .handle msg h⟩
      | cons a as =>
          obtain ⟨rfl, hrest⟩ := List.cons.inj hall
          obtain ⟨es1, es2, rfl, h1, h2⟩ := ih hrest
          exact ⟨_, es2, rfl, .handle a h1, h2⟩
  | idle h ih =>
      obtain ⟨es1, es2, rfl, h1, h2⟩ := ih hall
      exact ⟨_, es2, rfl, .idle h1, h2⟩

/-- The first message, and the polls before it. -/
theorem Turns.first {msg : ServerMsg} (h : Turns g maps es (msg :: msgs)) :
    ∃ polls rest, es = polls ++ .message g msg maps :: .poll :: rest ∧ Turns g maps polls [] ∧
      Turns g maps rest msgs := by
  generalize hall : msg :: msgs = all at h
  induction h with
  | done => cases hall
  | @handle es msgs msg h ih =>
      obtain ⟨rfl, rfl⟩ := List.cons.inj hall
      exact ⟨[], es, rfl, .done, h⟩
  | idle h ih =>
      obtain ⟨polls, rest, rfl, hpolls, hrest⟩ := ih hall
      exact ⟨_, rest, rfl, .idle hpolls, hrest⟩

end Turns

/-! ### Messages between polls that find nothing -/

theorem serveMsgs_split {maps : Nat → Option MapResult} {w w' : World} {as bs : List ServerMsg}
    (h : (serveMsgs maps w (as ++ bs)).out = .ret w') :
    ∃ w1, (serveMsgs maps w as).out = .ret w1 ∧ (serveMsgs maps w1 bs).out = .ret w' := by
  induction as generalizing w with
  | nil => exact ⟨w, rfl, h⟩
  | cons a as ih =>
      obtain ⟨⟨r, msg', w1⟩, h1, hrest⟩ := Traced.bind_out_eq_ret.mp h
      obtain ⟨w2, h2, h3⟩ := ih hrest
      exact ⟨w2, Traced.bind_out_eq_ret.mpr ⟨_, h1, h2⟩, h3⟩

section Messages
variable {fuel : Nat} {g : Int} {maps : Nat → Option MapResult} {w w' : World}
  {msg msg' : ServerMsg} {r : Int}

theorem exec_message_ret (hconn : w.server.fdList.Registered g .receiveSockServer)
    (h : (inMsgServer maps w msg).out = .ret (r, msg', w')) :
    (exec fuel w (.message g msg maps)).out = .ret w' := by
  rw [exec, if_pos hconn]
  exact Traced.bind_out_eq_ret.mpr ⟨_, h, rfl⟩

/-- **Polls that find nothing to do** do not come between the messages. -/
theorem execAll_turns (fuel : Nat) {I : World → Prop}
    (hpoll : ∀ w, I w → (pollServer fuel w).out = .ret w)
    {es : List Event} {msgs : List ServerMsg} (hturns : Turns g maps es msgs) :
    ∀ {w w' : World}, I w → 0 ≤ g → w.server.fdList.Registered g .receiveSockServer →
    (∀ msg ∈ msgs, ∀ w r msg' w', I w → (inMsgServer maps w msg).out = .ret (r, msg', w') → I w') →
    (serveMsgs maps w msgs).out = .ret w' →
    (execAll fuel w es).out = .ret w' ∧ I w' ∧
      w'.server.fdList.Registered g .receiveSockServer := by
  induction hturns with
  | done =>
      intro w w' hI _ hconn _ hserve
      cases hserve
      exact ⟨rfl, hI, hconn⟩
  | @handle es msgs msg h ih =>
      intro w w' hI hg hconn hkeep hserve
      obtain ⟨⟨r, msg', w1⟩, h1, hrest⟩ := Traced.bind_out_eq_ret.mp hserve
      have hI1 := hkeep msg List.mem_cons_self w r msg' w1 hI h1
      have hconn1 := inMsgServer_registered (by omega) h1 hconn
      obtain ⟨hrun, hlast⟩ := ih hI1 hg hconn1
        (fun msg hmsg => hkeep msg (List.mem_cons_of_mem _ hmsg)) hrest
      refine ⟨?_, hlast⟩
      refine Traced.bind_out_eq_ret.mpr ⟨w1, exec_message_ret hconn h1, ?_⟩
      exact Traced.bind_out_eq_ret.mpr ⟨w1, hpoll w1 hI1, hrun⟩
  | idle h ih =>
      intro w w' hI hg hconn hkeep hserve
      obtain ⟨hrun, hlast⟩ := ih hI hg hconn hkeep hserve
      exact ⟨Traced.bind_out_eq_ret.mpr ⟨w, hpoll w hI, hrun⟩, hlast⟩

end Messages

/-! ### When a poll finds nothing -/

/-- The private buffer is empty and the server waits for kicks. -/
structure World.AtEase (w : World) : Prop where
  size : w.context.bufferSize = 0
  mode : w.server.isPolling = false

/-- No client has set up an RX ring. -/
def World.NoRx (w : World) : Prop := (w.vring rxIdx).desc = 0

section Idle
variable {fuel : Nat} {maps : Nat → Option MapResult} {w w' : World} {msg msg' : ServerMsg}
  {r : Int}

theorem World.AtEase.poll (h : w.AtEase) : (pollServer fuel w).out = .ret w := by
  have htx : pollTx fuel w = pure w := by
    rw [pollTx, h.mode]
    rfl
  have hrx : (pollRx w).out = .ret w := by
    rw [pollRx, if_neg (not_not_intro h.size)]
    rfl
  rw [pollServer]
  split
  · rw [htx]
    exact hrx
  · rfl

theorem World.AtEase.inMsgServer (h : w.AtEase) {g : Int}
    (hmode : ¬ (Event.message g msg maps).AsksPolling)
    (hout : (inMsgServer maps w msg).out = .ret (r, msg', w')) : w'.AtEase :=
  ⟨(congrArg Prod.snd (inMsgServer_packet hout).2).trans h.size,
    inMsgServer_isPolling hmode (.inr h.mode) hout⟩

theorem World.NoRx.poll (h : w.NoRx) : (pollServer fuel w).out = .ret w := by
  have hdesc : (w.vring rxIdx).desc = 0 := h
  rw [pollServer, if_neg (not_not_intro hdesc)]
  rfl

/-- Only `VHOST_USER_SET_VRING_ADDR` sets up a ring. -/
theorem World.NoRx.inMsgServer (h : w.NoRx)
    (hreq : VhostUserRequest.ofWord msg.msg.request ≠ some .setVringAddr)
    (hout : (inMsgServer maps w msg).out = .ret (r, msg', w')) : w'.NoRx := by
  obtain ⟨req, -, hreq', hout⟩ := inMsgServer_cases hout
  have hsame : ∀ (i : RingIdx) (v : Vring), v.desc = (w.vring i).desc →
      (w.setVring i v).NoRx := by
    intro i v hv
    rw [NoRx]
    by_cases hi : rxIdx = i
    · subst hi
      rw [World.setVring_vring_self, hv]
      exact h
    · rw [World.setVring_vring_of_ne w v hi]
      exact h
  cases msgHandler_cases hout with
  | table hloop =>
      obtain ⟨_, _, rfl⟩ := setMemTableLoop_frame _ hloop
      exact h
  | num _ | base _ => exact hsame _ _ rfl
  | addr _ _ => exact absurd hreq' hreq
  | @kick i validfd _ _ =>
      rw [NoRx, World.vring, setKick_table]
      cases validfd with
      | false => exact h
      | true => exact hsame i _ rfl
  | @call i validfd _ _ =>
      cases validfd with
      | false => exact h
      | true => exact hsame i _ rfl
  | answered _ | ignored _ => exact h

end Idle

end Vapp
