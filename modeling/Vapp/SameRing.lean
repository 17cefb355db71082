import Vapp.ServerSteps
import Vapp.Library.Simulation

/-! # One ring, seen by two processes

Two processes may consume the same ring, one after the other, through mappings at different
addresses.  As long as their pointers and their translations lead to the same bytes and
their counters agree, `process_avail_vring` does the same in both.
-/
namespace Vapp

open Outcome

variable {κ : Type} {sp sp' : AddrSpace} {i : RingIdx} {t t' : VringTable κ} {m : Mem} {fuel : Nat}

/-- The `n` bytes of a packet at `a` are the same ones for both processes. -/
def SameBytes (sp sp' : AddrSpace) (t t' : VringTable κ) (a : UInt64) (n : Nat) : Prop :=
  ∀ k, k < n → sp'.resolve (t'.translate a + .ofNat k) = sp.resolve (t.translate a + .ofNat k)

/-- Both processes have the same ring `i`: its three parts at the same place, the same size
and counters, and the same function for its packets. -/
structure SameRing (sp sp' : AddrSpace) (i : RingIdx) (t t' : VringTable κ) : Prop where
  desc : sp'.resolve (t'.vring i).desc = sp.resolve (t.vring i).desc
  avail : sp'.resolve (t'.vring i).avail = sp.resolve (t.vring i).avail
  used : sp'.resolve (t'.vring i).used = sp.resolve (t.vring i).used
  num : (t'.vring i).num = (t.vring i).num
  lastAvailIdx : (t'.vring i).lastAvailIdx = (t.vring i).lastAvailIdx
  lastUsedIdx : (t'.vring i).lastUsedIdx = (t.vring i).lastUsedIdx
  handlers : t'.handlers = t.handlers

/-- Both see the same packets through the descriptors of the ring. -/
def SamePackets (sp sp' : AddrSpace) (i : RingIdx) (t t' : VringTable κ) (m : Mem) : Prop :=
  ∀ D, sp.resolve (t.vring i).desc = some D → ∀ k, k < vhostVringSize →
    SameBytes sp sp' t t' (m.desc D k).addr (m.desc D k).len.toNat

theorem SameRing.symm (h : SameRing sp sp' i t t') : SameRing sp' sp i t' t :=
  ⟨h.desc.symm, h.avail.symm, h.used.symm, h.num.symm, h.lastAvailIdx.symm, h.lastUsedIdx.symm,
    h.handlers.symm⟩

theorem SamePackets.symm (hring : SameRing sp sp' i t t') (h : SamePackets sp sp' i t t' m) :
    SamePackets sp' sp i t' t m := by
  intro D hD k hk j hj
  rw [hring.desc] at hD
  exact (h D hD k hk j hj).symm

/-! ### Accesses through pointers to the same place -/

section Access
variable {p p' : UInt64}

theorem deref_simulates (h : sp'.resolve p' = sp.resolve p) :
    Simulates Eq (deref sp p) (deref sp' p') :=
  .of_imp fun _ hl => deref_eq_ret.mpr (h.trans (deref_eq_ret.mp hl))

theorem loadDesc_simulates (h : sp'.resolve p' = sp.resolve p) (k : Nat) :
    Simulates Eq (loadDesc sp m p k) (loadDesc sp' m p' k) :=
  (deref_simulates h).bind fun _ _ _ _ hl => hl ▸ .refl (fun _ => rfl) _

theorem loadAvailIdx_simulates (h : sp'.resolve p' = sp.resolve p) :
    Simulates Eq (loadAvailIdx sp m p) (loadAvailIdx sp' m p') :=
  (deref_simulates h).bind fun _ _ _ _ hl => hl ▸ .refl (fun _ => rfl) _

theorem loadAvailRing_simulates (h : sp'.resolve p' = sp.resolve p) (k : Nat) :
    Simulates Eq (loadAvailRing sp m p k) (loadAvailRing sp' m p' k) :=
  (deref_simulates h).bind fun _ _ _ _ hl => hl ▸ .refl (fun _ => rfl) _

theorem storeUsedElem_simulates (h : sp'.resolve p' = sp.resolve p) (k : Nat) (e : VringUsedElem) :
    Simulates Eq (storeUsedElem sp m p k e) (storeUsedElem sp' m p' k e) :=
  (deref_simulates h).bind fun _ _ _ _ hl => hl ▸ .refl (fun _ => rfl) _

theorem storeUsedIdx_simulates (h : sp'.resolve p' = sp.resolve p) (idx : UInt16) :
    Simulates Eq (storeUsedIdx sp m p idx) (storeUsedIdx sp' m p' idx) :=
  (deref_simulates h).bind fun _ _ _ _ hl => hl ▸ .refl (fun _ => rfl) _

theorem readBytes_simulates (n : Nat) : ∀ {p p' : UInt64},
    (∀ k, k < n → sp'.resolve (p' + .ofNat k) = sp.resolve (p + .ofNat k)) →
      Simulates Eq (readBytes sp m p n) (readBytes sp' m p' n) := by
  induction n with
  | zero => exact fun _ => .refl (fun _ => rfl) _
  | succ n ih =>
      intro p p' h
      have hshift : ∀ (q : UInt64) k, q + 1 + .ofNat k = q + .ofNat (k + 1) := by
        intro q k
        rw [UInt64.ofNat_add, UInt64.add_assoc, UInt64.add_comm 1]
        rfl
      have hhead : sp'.resolve p' = sp.resolve p := by simpa using h 0 (Nat.succ_pos n)
      refine (deref_simulates hhead).bind fun l l' _ _ hl => ?_
      subst hl
      refine (ih fun k hk => ?_).bind fun bs bs' _ _ hbs => hbs ▸ .refl (fun _ => rfl) _
      rw [hshift, hshift]
      exact h (k + 1) (by omega)

end Access

/-! ### The calls -/

theorem copyTurn_simulates (hring : SameRing sp sp' i t t') (hsame : SamePackets sp sp' i t t' m)
    (s : CopyLoop) :
    Simulates Eq (copyTurn sp t (t.vring i).desc m s) (copyTurn sp' t' (t'.vring i).desc m s) := by
  refine (loadDesc_simulates hring.desc s.i).bind fun d d' hd _ heq => ?_
  subst heq
  obtain ⟨D, hD, hk, rfl⟩ := loadDesc_ret hd
  split
  · refine (Simulates.refl (fun _ => rfl) _).bind fun _ _ _ _ _ => ?_
    refine (readBytes_simulates _ (hsame D hD s.i hk)).bind fun bs bs' _ _ hbs => ?_
    subst hbs
    exact .refl (fun _ => rfl) _
  · exact .refl (fun _ => rfl) _

/-- What two calls of `_process_desc` have in common. -/
def SameDesc (r r' : DescResult κ) : Prop :=
  r'.ret = r.ret ∧ r'.mem = r.mem ∧ r'.call = r.call

theorem consumePacket_simulates (hring : SameRing sp sp' i t t') (c : CopyLoop) :
    Simulates SameDesc (consumePacket t m c) (consumePacket t' m c) := by
  rw [consumePacket, consumePacket, hring.handlers]
  split
  · exact .ret ⟨rfl, rfl, rfl⟩
  · exact (Simulates.refl (fun _ => rfl) _).bind fun _ _ _ _ _ => .ret ⟨rfl, rfl, rfl⟩

/-- `_process_desc` returns the same, writes the same used entry and hands on the same
packet. -/
theorem processDesc_simulates (hring : SameRing sp sp' i t t')
    (hsame : SamePackets sp sp' i t t' m) (a : UInt16) :
    Simulates SameDesc (processDesc sp fuel t i a m) (processDesc sp' fuel t' i a m) := by
  rw [processDesc, processDesc]
  dsimp only
  rw [hring.num, hring.lastUsedIdx]
  refine (Simulates.refl (fun _ => rfl) _).bind fun _ _ _ _ _ => ?_
  refine (loadAvailRing_simulates hring.avail _).bind fun d d' _ _ hd => ?_
  subst hd
  have hloop : Simulates Eq (Outcome.loop (copyTurn sp t (t.vring i).desc m) fuel ⟨d.toNat, 0, []⟩)
      (Outcome.loop (copyTurn sp' t' (t'.vring i).desc m) fuel ⟨d.toNat, 0, []⟩) := by
    refine Simulates.loop (I := Eq) (fun s s' hs => ?_) fuel rfl
    subst hs
    refine (copyTurn_simulates hring hsame s).mono fun x y _ _ hxy => ?_
    subst hxy
    cases x with
    | inl s => exact .inl rfl
    | inr c => exact .inr rfl
  refine hloop.bind fun c c' _ _ hc => ?_
  subst hc
  split
  · exact .ret ⟨rfl, rfl, rfl⟩
  · refine (storeUsedElem_simulates hring.used _ _).bind fun m1 m2 _ _ hm => ?_
    subst hm
    exact consumePacket_simulates hring c

/-- Both processes see the ring and its packets alike. -/
structure Together (sp sp' : AddrSpace) (i : RingIdx) (t t' : VringTable κ) (m m' : Mem) :
    Prop where
  ring : SameRing sp sp' i t t'
  packets : SamePackets sp sp' i t t' m
  mem : m' = m

/-- Serving the ring keeps what the packets are translated to. -/
theorem SamePackets.keep {t1 t1' : VringTable κ} {m1 : Mem} (h : SamePackets sp sp' i t t' m)
    (hdesc : (t1.vring i).desc = (t.vring i).desc) (hmem : m1.desc = m.desc)
    (htr : ∀ a, t1.translate a = t.translate a) (htr' : ∀ a, t1'.translate a = t'.translate a) :
    SamePackets sp sp' i t1 t1' m1 := by
  intro D hD k hk j hj
  rw [hdesc] at hD
  rw [hmem] at hj ⊢
  rw [htr, htr']
  exact h D hD k hk j hj

/-- What two turns of `process_avail_vring` have in common. -/
def SameTurn (sp sp' : AddrSpace) (i : RingIdx) (r r' : AvailTurn κ) : Prop :=
  Together sp sp' i r.table r'.table r.mem r'.mem ∧ r'.aIdx = r.aIdx ∧ r'.call = r.call

theorem availTurn_simulates (fuel : Nat) (h : Together sp sp' i t t' m m) (a : UInt16) :
    Simulates (Option.Rel (SameTurn sp sp' i)) (availTurn sp fuel t i a m)
      (availTurn sp' fuel t' i a m) := by
  rw [availTurn, availTurn]
  dsimp only
  rw [h.ring.num, h.ring.lastAvailIdx]
  refine (loadAvailIdx_simulates h.ring.avail).bind fun idx idx' _ _ hidx => ?_
  subst hidx
  split
  · exact .ret .none
  · refine (processDesc_simulates h.ring h.packets a).bind fun r r' hr hr' hrr => ?_
    obtain ⟨-, hmem, hcall⟩ := hrr
    have hf := processDesc_frame hr
    have hf' := processDesc_frame hr'
    refine .ret (.some ⟨⟨?_, ?_, hmem⟩, rfl, hcall⟩)
    · simp only [hf.vring, hf'.vring]
      refine ⟨?_, ?_, ?_, ?_, ?_, ?_, (hf'.handlers.trans h.ring.handlers).trans hf.handlers.symm⟩
      all_goals rw [VringTable.setVring_self, VringTable.setVring_self]
      · exact h.ring.desc
      · exact h.ring.avail
      · exact h.ring.used
      · exact h.ring.num
      · exact congrArg (· + 1) h.ring.lastAvailIdx
      · exact congrArg (· + 1) h.ring.lastUsedIdx
    · refine h.packets.keep ?_ hf.desc hf.translate hf'.translate
      rw [VringTable.setVring_self, hf.vring]

/-- What two calls of `process_avail_vring` have in common. -/
def SameLoop (sp sp' : AddrSpace) (i : RingIdx) (s s' : AvailLoop κ) : Prop :=
  Together sp sp' i s.table s'.table s.mem s'.mem ∧ s'.aIdx = s.aIdx ∧ s'.calls = s.calls

/-- **`process_avail_vring` does the same in both processes.** -/
theorem processAvailVring_simulates (h : Together sp sp' i t t' m m) :
    Simulates (SameLoop sp sp' i) (processAvailVring sp fuel t i m)
      (processAvailVring sp' fuel t' i m) := by
  rw [processAvailVring, processAvailVring]
  have henter : Simulates Eq (availEnter t i) (availEnter t' i) := by
    rw [availEnter, availEnter, h.ring.num, h.ring.lastAvailIdx]
    exact .refl (fun _ => rfl) _
  refine henter.bind fun a a' _ _ ha => ?_
  subst ha
  have hloop : Simulates (SameLoop sp sp' i)
      (Outcome.loop (availBody sp fuel i) availTurns ⟨t, m, a, 0, [], []⟩)
      (Outcome.loop (availBody sp' fuel i) availTurns ⟨t', m, a, 0, [], []⟩) := by
    refine Simulates.loop (I := SameLoop sp sp' i) (fun s s' hs => ?_) availTurns ⟨h, rfl, rfl⟩
    obtain ⟨htog, haIdx, hcalls⟩ := hs
    have hturn := availTurn_simulates fuel ⟨htog.ring, htog.packets, rfl⟩ s.aIdx
    rw [availBody, availBody, haIdx, htog.mem]
    refine hturn.bind fun o o' _ _ ho => ?_
    cases ho with
    | none => exact .ret (.inr ⟨htog, haIdx, hcalls⟩)
    | some hrr =>
        obtain ⟨hnext, hidx, hcall⟩ := hrr
        refine .ret (.inl ⟨hnext, hidx, ?_⟩)
        show s'.calls ++ _ = s.calls ++ _
        rw [hcalls, hcall]
  refine hloop.bind fun s s' _ _ hs => ?_
  obtain ⟨htog, haIdx, hcalls⟩ := hs
  rw [availLeave, availLeave, htog.ring.lastUsedIdx, htog.mem]
  refine (storeUsedIdx_simulates htog.ring.used _).bind fun m1 m2 hm1 _ hm => ?_
  subst hm
  obtain ⟨_, _, hm1⟩ := Outcome.bind_eq_ret.mp hm1
  cases hm1
  exact .ret ⟨⟨htog.ring, htog.packets, rfl⟩, haIdx, hcalls⟩

end Vapp
