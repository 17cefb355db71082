import Vapp.Library.Transition

/-! # A service that answers some requests

A client sends requests to a server over one first-in first-out channel and gets replies
over another.  It goes on at once after a request that is not answered, and waits after one
that is.  Whatever the interleaving, the requests are handled in the order of the calls and
every reply reaches the call that asked for it: the client cannot tell such a run from one
in which each request is handled while it is being made.
-/

/-- What handling a request may do, which requests are answered, and what else may happen to
the state of the server between two requests. -/
structure Service (σ ρ α : Type) where
  asks : ρ → Bool
  handle : σ → ρ → Option α → σ → Prop
  drift : σ → σ → Prop
  answered : ∀ {s r o t}, handle s r o t → o.isSome = asks r

namespace Service

variable {σ ρ α : Type}

/-- The state of the server, what is on the way in both directions, the request whose reply
the client waits for, and what has been called and stored so far. -/
structure State (σ ρ α : Type) where
  server : σ
  requests : List ρ
  replies : List α
  waiting : Option ρ
  called : List ρ
  stored : List (ρ × α)

/-- Nothing has been called yet. -/
def State.init (s : σ) : State σ ρ α := ⟨s, [], [], none, [], []⟩

variable (V : Service σ ρ α)

/-- One step of the client, of the server, or of what surrounds the server. -/
inductive Step : State σ ρ α → Unit → State σ ρ α → Prop
  | call {s : State σ ρ α} (r : ρ) (h : s.waiting = none) :
      Step s ()
        { s with
          requests := s.requests ++ [r]
          waiting := if V.asks r then some r else none
          called := s.called ++ [r] }
  | handle {s : State σ ρ α} {r : ρ} {rest : List ρ} {o : Option α} {t : σ}
      (h : s.requests = r :: rest) (hr : V.handle s.server r o t) :
      Step s () { s with server := t, requests := rest, replies := s.replies ++ o.toList }
  | store {s : State σ ρ α} {r : ρ} {a : α} {rest : List α} (hw : s.waiting = some r)
      (h : s.replies = a :: rest) :
      Step s () { s with replies := rest, waiting := none, stored := s.stored ++ [(r, a)] }
  | drift {s : State σ ρ α} {t : σ} (h : V.drift s.server t) : Step s () { s with server := t }

/-- The requests `rs`, handled one after the other, were given the answers `as`. -/
inductive Served (s : σ) : List ρ → List (ρ × α) → σ → Prop
  | nil : Served s [] [] s
  | handle {rs : List ρ} {as : List (ρ × α)} {t u : σ} {r : ρ} {o : Option α}
      (h : Served s rs as t) (hr : V.handle t r o u) :
      Served s (rs ++ [r]) (as ++ o.toList.map (r, ·)) u
  | drift {rs : List ρ} {as : List (ρ × α)} {t u : σ} (h : Served s rs as t)
      (hu : V.drift t u) : Served s rs as u

variable {V}

/-- Every answer is one that the server has computed for its request. -/
theorem Served.answer {s t : σ} {rs : List ρ} {as : List (ρ × α)} (h : V.Served s rs as t) :
    ∀ p ∈ as, ∃ t u, V.handle t p.1 (some p.2) u := by
  induction h with
  | nil => exact nofun
  | @handle rs as t u r o _ hr ih =>
      intro p hp
      rcases List.mem_append.mp hp with hp | hp
      · exact ih p hp
      · obtain ⟨a, ha, rfl⟩ := List.mem_map.mp hp
        rw [Option.mem_toList.mp ha] at hr
        exact ⟨t, u, hr⟩
  | drift _ _ ih => exact ih

/-- What a run keeps. -/
inductive Underway (V : Service σ ρ α) (s : State σ ρ α) (answers : List (ρ × α)) : Prop
  /-- no call waits -/
  | idle (waiting : s.waiting = none) (replies : s.replies = [])
      (requests : ∀ r ∈ s.requests, V.asks r = false) (answers : answers = s.stored)
  /-- the request is on its way, behind others that are not answered -/
  | asked {r : ρ} {before : List ρ} (waiting : s.waiting = some r) (replies : s.replies = [])
      (asks : V.asks r = true) (requests : s.requests = before ++ [r])
      (before : ∀ q ∈ before, V.asks q = false) (answers : answers = s.stored)
  /-- the reply is on its way, and nothing else is -/
  | replied {r : ρ} {a : α} (waiting : s.waiting = some r) (replies : s.replies = [a])
      (requests : s.requests = []) (answers : answers = s.stored ++ [(r, a)])

/-- The requests that were handled are the first ones called. -/
structure InOrder (V : Service σ ρ α) (s0 : σ) (s : State σ ρ α) (served : List ρ)
    (answers : List (ρ × α)) : Prop where
  handled : V.Served s0 served answers s.server
  called : s.called = served ++ s.requests
  underway : Underway V s answers

section Keep
variable {s0 : σ} {s t : State σ ρ α} {served : List ρ} {answers : List (ρ × α)}

theorem InOrder.init (V : Service σ ρ α) (s0 : σ) : InOrder V s0 (.init s0) [] [] :=
  ⟨.nil, rfl, .idle rfl rfl nofun rfl⟩

/-- A request that is called goes behind those on the way. -/
theorem Underway.call (h : Underway V s answers) (r : ρ) (hw : s.waiting = none) :
    Underway V
      { s with
        requests := s.requests ++ [r]
        waiting := if V.asks r then some r else none
        called := s.called ++ [r] } answers := by
  cases h with
  | idle _ hreplies hrequests hanswers =>
      by_cases hask : V.asks r = true
      · exact .asked (if_pos hask) hreplies hask rfl hrequests hanswers
      · refine .idle (if_neg hask) hreplies (fun q hq => ?_) hanswers
        rcases List.mem_append.mp hq with hq | hq
        · exact hrequests q hq
        · rw [List.mem_singleton.mp hq]
          exact Bool.eq_false_iff.mpr hask
  | asked hwaiting _ _ _ _ _ => exact nomatch hw.symm.trans hwaiting
  | replied hwaiting _ _ _ => exact nomatch hw.symm.trans hwaiting

/-- The request at the front is handled, and answered if it is the one that is waited for. -/
theorem Underway.handle (h : Underway V s answers) {r : ρ} {rest : List ρ} {o : Option α} {t : σ}
    (hq : s.requests = r :: rest) (ho : o.isSome = V.asks r) :
    Underway V { s with server := t, requests := rest, replies := s.replies ++ o.toList }
      (answers ++ o.toList.map (r, ·)) := by
  have hnone : V.asks r = false → o = none := by
    intro hask
    rw [hask] at ho
    exact Option.not_isSome_iff_eq_none.mp (Bool.eq_false_iff.mp ho)
  cases h with
  | idle hwaiting hreplies hrequests hanswers =>
      rw [hq] at hrequests
      obtain rfl := hnone (hrequests r (List.mem_cons_self ..))
      refine .idle hwaiting ((List.append_nil _).trans hreplies)
        (fun q hq => hrequests q (List.mem_cons_of_mem _ hq)) ?_
      exact (List.append_nil _).trans hanswers
  | @asked r' before hwaiting hreplies hask hrequests hbefore hanswers =>
      rw [hq] at hrequests
      cases before with
      | nil =>
          cases hrequests
          obtain ⟨a, rfl⟩ := Option.isSome_iff_exists.mp (ho.trans hask)
          refine .replied (a := a) hwaiting ?_ rfl ?_
          · show s.replies ++ [a] = [a]
            rw [hreplies, List.nil_append]
          · rw [hanswers]
            rfl
      | cons q before =>
          obtain ⟨rfl, rfl⟩ := List.cons.inj hrequests
          obtain rfl := hnone (hbefore _ (List.mem_cons_self ..))
          exact .asked hwaiting ((List.append_nil _).trans hreplies) hask rfl
            (fun q hq => hbefore q (List.mem_cons_of_mem _ hq)) ((List.append_nil _).trans hanswers)
  | replied _ _ hrequests _ => exact nomatch hq.symm.trans hrequests

/-- The reply ends the call that asked for it. -/
theorem Underway.store (h : Underway V s answers) {r : ρ} {a : α} {rest : List α}
    (hw : s.waiting = some r) (hreplies : s.replies = a :: rest) :
    Underway V { s with replies := rest, waiting := none, stored := s.stored ++ [(r, a)] }
      answers := by
  cases h with
  | idle hwaiting _ _ _ => exact nomatch hw.symm.trans hwaiting
  | asked _ hnil _ _ _ _ => exact nomatch hreplies.symm.trans hnil
  | replied hwaiting hone hrequests hanswers =>
      cases hw.symm.trans hwaiting
      cases hreplies.symm.trans hone
      exact .idle rfl rfl (fun q hq => by rw [hrequests] at hq; cases hq) hanswers

/-- **Every step keeps the order.** -/
theorem inOrder_step (h : InOrder V s0 s served answers) (hs : V.Step s () t) :
    ∃ served answers, InOrder V s0 t served answers := by
  cases hs with
  | call r hw =>
      refine ⟨served, answers, h.handled, ?_, h.underway.call r hw⟩
      show s.called ++ [r] = served ++ (s.requests ++ [r])
      rw [h.called, List.append_assoc]
  | @handle r rest o t hq hr =>
      refine ⟨served ++ [r], _, h.handled.handle hr, ?_, h.underway.handle hq (V.answered hr)⟩
      show s.called = served ++ [r] ++ rest
      rw [h.called, hq, List.append_assoc]
      rfl
  | store hw hreplies => exact ⟨served, answers, h.handled, h.called, h.underway.store hw hreplies⟩
  | drift hd =>
      refine ⟨served, answers, h.handled.drift hd, h.called, ?_⟩
      cases h.underway with
      | idle h1 h2 h3 h4 => exact .idle h1 h2 h3 h4
      | asked h1 h2 h3 h4 h5 h6 => exact .asked h1 h2 h3 h4 h5 h6
      | replied h1 h2 h3 h4 => exact .replied h1 h2 h3 h4

/-- The answers are those stored, and at most one that is on its way. -/
theorem Underway.stored (h : Underway V s answers) :
    s.stored <+: answers ∧ (s.waiting = none → answers = s.stored) := by
  cases h with
  | idle _ _ _ hanswers => exact ⟨hanswers ▸ List.prefix_refl _, fun _ => hanswers⟩
  | asked hwaiting _ _ _ _ hanswers => exact ⟨hanswers ▸ List.prefix_refl _, fun _ => hanswers⟩
  | replied hwaiting _ _ hanswers =>
      exact ⟨hanswers ▸ List.prefix_append _ _, fun hw => nomatch hw.symm.trans hwaiting⟩

/-- A reply on the way is the answer to the request that is waited for. -/
theorem InOrder.reply (h : InOrder V s0 s served answers) {a : α} (ha : a ∈ s.replies) :
    s.replies = [a] ∧ s.requests = [] ∧
      ∃ r, s.waiting = some r ∧ ∃ t u, V.handle t r (some a) u := by
  cases h.underway with
  | idle _ hnil _ _ =>
      rw [hnil] at ha
      cases ha
  | asked _ hnil _ _ _ _ =>
      rw [hnil] at ha
      cases ha
  | @replied r b hwaiting hreplies hrequests hanswers =>
      rw [hreplies] at ha
      obtain rfl := List.mem_singleton.mp ha
      refine ⟨hreplies, hrequests, r, hwaiting, h.handled.answer (r, a) ?_⟩
      rw [hanswers]
      exact List.mem_append_right _ (List.mem_singleton.mpr rfl)

/-- **Nobody waits for nothing**: while a call waits, its request or its reply is on the
way. -/
theorem Underway.progress (h : Underway V s answers) {r : ρ} (hw : s.waiting = some r) :
    r ∈ s.requests ∨ ∃ a, s.replies = [a] := by
  cases h with
  | idle hwaiting _ _ _ => exact nomatch hw.symm.trans hwaiting
  | asked hwaiting _ _ hrequests _ _ =>
      cases hw.symm.trans hwaiting
      exact .inl (hrequests ▸ List.mem_append_right _ (List.mem_singleton.mpr rfl))
  | replied _ hreplies _ _ => exact .inr ⟨_, hreplies⟩

end Keep

end Service
