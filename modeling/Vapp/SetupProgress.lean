import Vapp.FdSystem

/-! # How far the set-up has come

The server handles the messages of `init_vhost_client` one at a time, and between two of
them the client may write to the shared memory.  `Progress` says what the first messages
have left behind, whatever else has happened.
-/
namespace Vapp

/-- The `k`th message of `init_vhost_client`. -/
inductive SetupMsg (S : Session) : Nat → ServerMsg → Prop
  | owner : SetupMsg S 0 (vhostIoctl .setOwner 0 zeroPayload [])
  | features : SetupMsg S 1 (vhostIoctl .getFeatures 0 zeroPayload [])
  | memTable : SetupMsg S 2 S.memTable
  | num (i : RingIdx) :
      SetupMsg S (3 + 5 * i) (stateMsg .setVringNum ⟨.ofNat i, .ofNat vhostVringSize⟩)
  | base (i : RingIdx) : SetupMsg S (4 + 5 * i) (stateMsg .setVringBase ⟨.ofNat i, 0⟩)
  | kick (i : RingIdx) : SetupMsg S (5 + 5 * i) (fileMsg .setVringKick (.ofNat i) (S.kickfd i))
  | call (i : RingIdx) : SetupMsg S (6 + 5 * i) (fileMsg .setVringCall (.ofNat i) (S.callfd i))
  | addr (i : RingIdx) : SetupMsg S (7 + 5 * i) (addrMsg (vringAddr (.ofNat i) (S.clientBase i)))

/-- The number of messages. -/
def setupCount : Nat := 13

theorem Session.length_setupMsgs (S : Session) : S.setupMsgs.length = setupCount := rfl

/-- The messages in their order. -/
theorem Session.setupMsg_of_drop {S : Session} {k : Nat} {msg : ServerMsg} {rest : List ServerMsg}
    (h : msg :: rest = S.setupMsgs.drop k) :
    SetupMsg S k msg ∧ rest = S.setupMsgs.drop (k + 1) := by
  have hk : k < setupCount := by
    have hlen := congrArg List.length h
    rw [List.length_cons, List.length_drop, S.length_setupMsgs] at hlen
    omega
  rw [List.drop_eq_getElem_cons (by rwa [S.length_setupMsgs])] at h
  obtain ⟨rfl, rfl⟩ := List.cons.inj h
  refine ⟨?_, rfl⟩
  rw [setupCount] at hk
  match k, hk with
  | 0, _ => exact .owner
  | 1, _ => exact .features
  | 2, _ => exact .memTable
  | 3, _ => exact .num rxIdx
  | 4, _ => exact .base rxIdx
  | 5, _ => exact .kick rxIdx
  | 6, _ => exact .call rxIdx
  | 7, _ => exact .addr rxIdx
  | 8, _ => exact .num txIdx
  | 9, _ => exact .base txIdx
  | 10, _ => exact .kick txIdx
  | 11, _ => exact .call txIdx
  | 12, _ => exact .addr txIdx

/-- The server has handled the first `k` messages. -/
structure Progress (S : Session) (k : Nat) (w : World) : Prop where
  fresh : k < 3 → w.space = [] ∧ w.context.memory = noRegions
  space : 3 ≤ k → w.space = regionSpace S.serverBase
  memory : 3 ≤ k → k < setupCount → w.context.memory = S.memory
  unset : ∀ i : RingIdx, k < 8 + 5 * i.val →
    (w.vring i).desc = 0 ∧ (w.vring i).lastAvailIdx = 0
  set : ∀ i : RingIdx, 8 + 5 * i.val ≤ k →
    (w.vring i).avail = S.serverBase i + .ofNat offsetofAvail

theorem Progress.start (S : Session) (sock : Int) (m : Mem) :
    Progress S 0 (Session.serverWorld sock m) where
  fresh _ := ⟨rfl, rfl⟩
  space h := absurd h (by decide)
  memory h := absurd h (by decide)
  unset _ _ := ⟨rfl, rfl⟩
  set i h := absurd h (by omega)

/-- What the messages leave alone. -/
structure SetupFrame (w w' : World) : Prop where
  mem : w'.mem = w.mem
  bufferSize : w'.context.bufferSize = w.context.bufferSize
  lastAvail : ∀ i, (w'.vring i).lastAvailIdx = (w.vring i).lastAvailIdx

section Handle
variable {S : Session} {k : Nat} {w w' : World} {msg : ServerMsg}

section Sets
variable {i : RingIdx} {f : Vring → Vring} (h : SetsRing S.maps w msg i f w')
include h

theorem SetsRing.vring_self : w'.vring i = f (w.vring i) := by
  rw [World.vring, h.table, VringTable.setVring_self]
  rfl

theorem SetsRing.vring_of_ne {j : RingIdx} (hj : j ≠ i) : w'.vring j = w.vring j := by
  rw [World.vring, h.table, VringTable.setVring_of_ne _ _ hj]
  rfl

theorem SetsRing.context_eq : w'.context = w.context := by
  rw [World.context, h.table]
  rfl

theorem SetsRing.frame (hlast : (f (w.vring i)).lastAvailIdx = (w.vring i).lastAvailIdx) :
    SetupFrame w w' := by
  refine ⟨h.mem, congrArg ServerContext.bufferSize h.context_eq, fun j => ?_⟩
  by_cases hji : j = i
  · rw [hji, h.vring_self, hlast]
  · rw [h.vring_of_ne hji]

end Sets

/-- A message that sets up a ring, but not its addresses. -/
theorem Progress.ringMsg (h : Progress S k w) {i : RingIdx} {f : Vring → Vring}
    (hlow : 3 + 5 * i.val ≤ k) (hhigh : k < 7 + 5 * i.val) (hset : SetsRing S.maps w msg i f w')
    (hdesc : ∀ v, (f v).desc = v.desc)
    (hlast : ∀ v, v.lastAvailIdx = 0 → (f v).lastAvailIdx = 0) : Progress S (k + 1) w' := by
  have hi : i.val < 2 := i.isLt
  refine ⟨fun hk => by omega, fun _ => hset.space.trans (h.space (by omega)), fun _ hk => ?_,
    fun j hj => ?_, fun j hj => ?_⟩
  · rw [hset.context_eq]
    exact h.memory (by omega) (by omega)
  · have hold := h.unset j (by omega)
    by_cases hji : j = i
    · subst hji
      rw [hset.vring_self, hdesc]
      exact ⟨hold.1, hlast _ hold.2⟩
    · rw [hset.vring_of_ne hji]
      exact hold
  · have hji : j ≠ i := by
      rintro rfl
      omega
    rw [hset.vring_of_ne hji]
    exact h.set j (by omega)

/-- The message with the addresses of a ring. -/
theorem Progress.addrMsg (h : Progress S k w) {i : RingIdx} {f : Vring → Vring}
    (hk : k = 7 + 5 * i.val) (hset : SetsRing S.maps w msg i f w')
    (havail : ∀ v, (f v).avail = S.serverBase i + .ofNat offsetofAvail) :
    Progress S (k + 1) w' := by
  refine ⟨fun hk => by omega, fun _ => hset.space.trans (h.space (by omega)), fun _ hk' => ?_,
    fun j hj => ?_, fun j hj => ?_⟩
  · rw [hset.context_eq]
    exact h.memory (by omega) (by omega)
  · have hji : j ≠ i := by
      rintro rfl
      omega
    rw [hset.vring_of_ne hji]
    exact h.unset j (by omega)
  · by_cases hji : j = i
    · subst hji
      rw [hset.vring_self]
      exact havail _
    · have hne : j.val ≠ i.val := fun heq => hji (Fin.ext heq)
      rw [hset.vring_of_ne hji]
      exact h.set j (by omega)

/-- **Every message of the set-up is handled**, and does its part. -/
theorem Progress.handle (h : Progress S k w) (hmsg : SetupMsg S k msg) :
    ∃ r msg' w', (inMsgServer S.maps w msg).out = .ret (r, msg', w') ∧ Progress S (k + 1) w' ∧
      SetupFrame w w' ∧ (k = 1 → r = 1) := by
  have hring : ∀ {i : RingIdx} {f : Vring → Vring} {msg : ServerMsg},
      (∃ w', SetsRing S.maps w msg i f w') → 3 + 5 * i.val ≤ k → k < 7 + 5 * i.val →
      (∀ v, (f v).desc = v.desc) → (∀ v, v.lastAvailIdx = 0 → (f v).lastAvailIdx = 0) →
      ∃ r msg' w', (inMsgServer S.maps w msg).out = .ret (r, msg', w') ∧
        Progress S (k + 1) w' ∧ SetupFrame w w' ∧ (k = 1 → r = 1) := by
    rintro i f msg ⟨w', hset⟩ hlow hhigh hdesc hlast
    obtain ⟨msg', hout⟩ := hset.out
    have hzero := (h.unset i (by omega)).2
    exact ⟨0, msg', w', hout, h.ringMsg hlow hhigh hset hdesc hlast,
      hset.frame ((hlast _ hzero).trans hzero.symm), fun hk => by omega⟩
  cases hmsg with
  | owner =>
      exact ⟨0, _, w, rfl, ⟨fun _ => h.fresh (by decide), fun hk => absurd hk (by decide),
        fun hk => absurd hk (by decide), fun i _ => h.unset i (by omega),
        fun i hk => absurd hk (by omega)⟩, ⟨rfl, rfl, fun _ => rfl⟩,
        fun hk => absurd hk (by decide)⟩
  | features =>
      exact ⟨1, _, w, rfl, ⟨fun _ => h.fresh (by decide), fun hk => absurd hk (by decide),
        fun hk => absurd hk (by decide), fun i _ => h.unset i (by omega),
        fun i hk => absurd hk (by omega)⟩, ⟨rfl, rfl, fun _ => rfl⟩, fun _ => rfl⟩
  | memTable =>
      obtain ⟨hspace, hmemory⟩ := h.fresh (by decide)
      obtain ⟨w', msg', hout, hspace', hmem, htable⟩ :=
        S.inMsgServer_memTable_of_fresh hspace hmemory
      have hvring : ∀ i, w'.vring i = w.vring i := fun i => by
        rw [World.vring, htable]
        rfl
      refine ⟨0, msg', w', hout, ⟨fun hk => absurd hk (by decide), fun _ => hspace',
        fun _ _ => ?_, fun i _ => ?_, fun i hk => absurd hk (by omega)⟩,
        ⟨hmem, ?_, fun i => by rw [hvring]⟩,
        fun hk => absurd hk (by decide)⟩
      · rw [World.context, htable]
      · rw [hvring]
        exact h.unset i (by omega)
      · rw [World.context, htable]
        rfl
  | num i =>
      exact hring (setsRing_num S.maps w i _) (by omega) (by omega) (fun _ => rfl) fun _ hv => hv
  | base i =>
      exact hring (setsRing_base S.maps w i 0) (by omega) (by omega) (fun _ => rfl)
        fun _ _ => rfl
  | kick i =>
      exact hring (setsRing_kick S.maps w i (S.kickfd_pos i)) (by omega) (by omega)
        (fun _ => rfl) fun _ hv => hv
  | call i =>
      exact hring (setsRing_call S.maps w i (S.callfd_pos i)) (by omega) (by omega)
        (fun _ => rfl) fun _ hv => hv
  | addr i =>
      have hi : i.val < 2 := i.isLt
      have hmemory := h.memory (by omega) (by rw [setupCount]; omega)
      have hmap : ∀ off, off < vhostClientPageSize.toNat →
          mapUserAddr w.context.memory (S.clientBase i + .ofNat off) =
            S.serverBase i + .ofNat off :=
        fun off hoff => by rw [hmemory, S.mapUserAddr_eq i hoff]
      have hU : w.space.resolve (mapUserAddr w.context.memory
          (vringAddr (.ofNat i) (S.clientBase i)).usedUserAddr) = some ⟨i, offsetofUsed⟩ := by
        rw [vringAddr, hmap offsetofUsed (by decide), h.space (by omega)]
        exact S.server.resolve i (by decide)
      obtain ⟨w', hset⟩ := setsRing_addr S.maps w i (a := vringAddr (.ofNat i) (S.clientBase i))
        rfl hU
      obtain ⟨msg', hout⟩ := hset.out
      exact ⟨0, msg', w', hout, h.addrMsg rfl hset fun _ => hmap _ (by decide), hset.frame rfl,
        fun hk => by omega⟩

/-- The same of a call that is known to have returned. -/
theorem Progress.handled (h : Progress S k w) (hmsg : SetupMsg S k msg) {r : Int}
    {msg' : ServerMsg} (hout : (inMsgServer S.maps w msg).out = .ret (r, msg', w')) :
    Progress S (k + 1) w' ∧ SetupFrame w w' ∧ (k = 1 → r = 1) := by
  obtain ⟨r1, msg1, w1, hout1, hnext, hframe, hreply⟩ := h.handle hmsg
  rw [hout1] at hout
  cases hout
  exact ⟨hnext, hframe, hreply⟩

end Handle

end Vapp
