import Vapp.KickFiles
import Vapp.FdSlots

/-! # How the TX ring is served

`VHOST_USER_SET_VRING_KICK` asks for a ring to be polled or to be served on kicks.  The
server keeps one flag for both rings and never takes a kick descriptor out of its list, so
the TX ring is served as asked only while the messages keep to one mode.
-/
namespace Vapp

/-- A `VHOST_USER_SET_VRING_KICK` that passes the assertions of its handler, with the ring
it names and the descriptor it carries, if any. -/
structure KickMsg where
  msg : ServerMsg
  index : RingIdx
  fd : Option Int
  request : msg.msg.request = VhostUserRequest.setVringKick.word
  payload : kickIndex msg.msg.payload.u64 = .ret (index, fd.isSome)
  single : fd.isSome = true → msg.fdNum = 1
  first : ∀ d ∈ fd, msg.fds 0 = d ∧ 0 ≤ d

/-- The state after some of these messages. -/
def afterKicks (w : World) (ks : List KickMsg) : World :=
  ks.foldl (fun w k => w.setKick k.index k.fd) w

/-- The descriptors that the messages for the TX ring carry. -/
def txFds (ks : List KickMsg) : List Int :=
  (ks.filter fun k => k.index = txIdx).filterMap (·.fd)

/-- What the last message for the TX ring carries. -/
def lastTx (ks : List KickMsg) : Option (Option Int) :=
  ((ks.filter fun k => k.index = txIdx).getLast?).map (·.fd)

/-- The last message, for either ring, asks for polling. -/
def asksPolling (ks : List KickMsg) : Bool :=
  (ks.getLast?.map fun k => k.fd.isNone).getD false

/-! ### One message -/

section One
variable (w : World) (k : KickMsg)

theorem inMsgServer_kick (maps : Nat → Option MapResult) :
    (inMsgServer maps w k.msg).out = .ret (0, k.msg, w.setKick k.index k.fd) := by
  have hcall : inMsgServer maps w k.msg = setVringKick w k.msg := by
    rw [inMsgServer, k.request, VhostUserRequest.ofWord_word]
    rfl
  have hfd : (if k.fd.isSome = true then some (k.msg.fds 0) else none) = k.fd := by
    cases hk : k.fd with
    | none => rfl
    | some d => exact congrArg some (k.first d hk).1
  rw [hcall, setVringKick_out k.payload k.single, hfd]

theorem setKick_isPolling (i : RingIdx) (fd : Option Int) :
    (w.setKick i fd).server.isPolling = fd.isNone := by
  cases fd with
  | none => rfl
  | some d => rfl

/-- Only a descriptor for the TX ring is added to the list. -/
theorem setKick_fdList (i : RingIdx) (fd : Option Int) :
    (w.setKick i fd).server.fdList = w.server.fdList ∨
    ∃ d, i = txIdx ∧ fd = some d ∧
      (w.setKick i fd).server.fdList = (w.server.fdList.addFdList d .kickServer).2 := by
  cases fd with
  | none => exact .inl rfl
  | some d =>
      rw [setKick_some]
      by_cases hi : i = txIdx
      · exact .inr ⟨d, hi, rfl, if_pos hi⟩
      · exact .inl (if_neg hi)

theorem setKick_fdList_tx (d : Int) :
    (w.setKick txIdx (some d)).server.fdList = (w.server.fdList.addFdList d .kickServer).2 := rfl

theorem setKick_fdList_rx (fd : Option Int) :
    (w.setKick rxIdx fd).server.fdList = w.server.fdList := by
  cases fd with
  | none => rfl
  | some d => rfl

end One

/-! ### Sequences of messages -/

section Sequences
variable (w : World) (ks : List KickMsg) (k : KickMsg)

theorem afterKicks_append :
    afterKicks w (ks ++ [k]) = (afterKicks w ks).setKick k.index k.fd :=
  List.foldl_append

theorem asksPolling_append : asksPolling (ks ++ [k]) = k.fd.isNone := by
  rw [asksPolling, List.getLast?_concat]
  rfl

theorem txFds_append_rx (h : k.index = rxIdx) : txFds (ks ++ [k]) = txFds ks := by
  have hk : ¬ k.index = txIdx := by
    rw [h]
    decide
  rw [txFds, List.filter_append, List.filter_cons_of_neg (by simpa using hk), List.filter_nil,
    List.append_nil, txFds]

theorem txFds_append_tx (h : k.index = txIdx) : txFds (ks ++ [k]) = txFds ks ++ k.fd.toList := by
  rw [txFds, List.filter_append, List.filter_cons_of_pos (by simpa using h), List.filter_nil,
    List.filterMap_append, txFds]
  cases hk : k.fd <;> simp [hk]

theorem lastTx_append_rx (h : k.index = rxIdx) : lastTx (ks ++ [k]) = lastTx ks := by
  have hk : ¬ k.index = txIdx := by
    rw [h]
    decide
  rw [lastTx, List.filter_append, List.filter_cons_of_neg (by simpa using hk), List.filter_nil,
    List.append_nil, lastTx]

theorem lastTx_append_tx (h : k.index = txIdx) : lastTx (ks ++ [k]) = some k.fd := by
  rw [lastTx, List.filter_append, List.filter_cons_of_pos (by simpa using h), List.filter_nil,
    List.getLast?_concat]
  rfl

theorem txFds_nonneg {ks : List KickMsg} {fd : Int} (h : fd ∈ txFds ks) : 0 ≤ fd := by
  obtain ⟨k, _, hk⟩ := List.mem_filterMap.mp h
  exact (k.first fd hk).2

/-- The server handles the messages one after the other. -/
theorem serveMsgs_kicks (maps : Nat → Option MapResult) : ∀ w : World,
    (serveMsgs maps w (ks.map (·.msg))).out = .ret (afterKicks w ks) := by
  induction ks with
  | nil => exact fun _ => rfl
  | cons k ks ih =>
      intro w
      rw [List.map_cons, serveMsgs_cons maps _ (inMsgServer_kick w k maps), ih]
      rfl

variable {w ks}

/-- The flag is what the last message asked for, whatever its ring. -/
theorem isPolling_afterKicks (ks : List KickMsg) (hw : w.server.isPolling = false) :
    (afterKicks w ks).server.isPolling = asksPolling ks := by
  rcases List.eq_nil_or_concat ks with rfl | ⟨ks, k, rfl⟩
  · exact hw
  · rw [List.concat_eq_append, afterKicks_append, setKick_isPolling, asksPolling_append]

/-- Every kick descriptor of the list came with a message for the TX ring. -/
theorem mem_of_registered (hw : ∀ fd, ¬ w.server.fdList.Registered fd .kickServer) {fd : Int}
    (h : (afterKicks w ks).server.fdList.Registered fd .kickServer) : fd ∈ txFds ks := by
  induction ks using List.reverseRecOn with
  | nil => exact absurd h (hw fd)
  | append_singleton ks k ih =>
      rw [afterKicks_append] at h
      rcases ringIdx_cases k.index with hk | hk
      · rw [hk, setKick_fdList_rx] at h
        rw [txFds_append_rx ks k hk]
        exact ih h
      · rw [txFds_append_tx ks k hk]
        rcases setKick_fdList (afterKicks w ks) k.index k.fd with heq | ⟨d, -, hd, heq⟩
        · rw [heq] at h
          exact List.mem_append_left _ (ih h)
        · rw [heq, FdList.addFdList_snd] at h
          rcases SlotTable.holds_before h with hnew | hold
          · cases hnew
            rw [hd]
            exact List.mem_append_right _ (List.mem_singleton.mpr rfl)
          · exact List.mem_append_left _ (ih hold)

/-- Every descriptor for the TX ring takes a slot and keeps it. -/
theorem registered_of_mem (hslots : (txFds ks).length ≤ w.server.fdList.freeSlots) :
    (afterKicks w ks).server.fdList.freeSlots + (txFds ks).length =
      w.server.fdList.freeSlots ∧
    ∀ fd ∈ txFds ks, (afterKicks w ks).server.fdList.Registered fd .kickServer := by
  induction ks using List.reverseRecOn with
  | nil => exact ⟨rfl, nofun⟩
  | append_singleton ks k ih =>
      rw [afterKicks_append]
      rcases ringIdx_cases k.index with hk | hk
      · rw [txFds_append_rx ks k hk] at hslots ⊢
        rw [hk, setKick_fdList_rx]
        exact ih hslots
      · rw [txFds_append_tx ks k hk] at hslots ⊢
        rw [List.length_append] at hslots
        obtain ⟨hcount, hreg⟩ := ih (by omega)
        cases hfd : k.fd with
        | none =>
            rw [Option.toList_none, List.append_nil]
            exact ⟨hcount, hreg⟩
        | some d =>
            rw [hfd, Option.toList_some, List.length_singleton] at hslots
            have hd : d ≠ -1 := by
              have := (k.first d hfd).2
              omega
            have hfree : 0 < (afterKicks w ks).server.fdList.freeSlots := by omega
            rw [hk, setKick_fdList_tx, Option.toList_some, List.length_append,
              List.length_singleton]
            refine ⟨?_, fun fd hmem => ?_⟩
            · have := FdList.freeSlots_addFdList (h := .kickServer) hfree hd
              omega
            · rcases List.mem_append.mp hmem with hold | hnew
              · have hfd0 : fd ≠ -1 := by
                  have := txFds_nonneg hold
                  omega
                exact (FdList.registered_addFdList hfree hfd0).mpr (.inr (hreg fd hold))
              · obtain rfl := List.mem_singleton.mp hnew
                exact (FdList.registered_addFdList hfree hd).mpr (.inl ⟨rfl, rfl⟩)

end Sequences

/-! ### What the master asks for -/

/-- The TX ring is served as the last message for it asks, and no message for the RX ring
changes how it is served. -/
structure ServedAsAsked (maps : Nat → Option MapResult) (w : World) (ks : List KickMsg) :
    Prop where
  tx : ∃ w', (serveMsgs maps w (ks.map (·.msg))).out = .ret w' ∧
    (lastTx ks = some none → w'.server.isPolling = true ∧
      ∀ fd, ¬ w'.server.fdList.Registered fd .kickServer) ∧
    ∀ d, lastTx ks = some (some d) → w'.server.fdList.Registered d .kickServer ∧
      ∀ fd ∈ txFds ks, fd ≠ d → ¬ w'.server.fdList.Registered fd .kickServer
  rx : ∀ pre k post, ks = pre ++ k :: post → k.index = rxIdx → ∀ w1 w2,
    (serveMsgs maps w (pre.map (·.msg))).out = .ret w1 →
    (serveMsgs maps w ((pre ++ [k]).map (·.msg))).out = .ret w2 →
    w2.server.isPolling = w1.server.isPolling ∧
      ∀ fd, w2.server.fdList.Registered fd .kickServer ↔ w1.server.fdList.Registered fd .kickServer

/-- The messages keep to one mode: those for the RX ring ask for what the message before
asked for, polling or not, and those for the TX ring never take back a descriptor. -/
structure OneMode (ks : List KickMsg) : Prop where
  tx : ∀ o, lastTx ks = some o → ∀ fd ∈ txFds ks, o = some fd
  rx : ∀ pre k post, ks = pre ++ k :: post → k.index = rxIdx → k.fd.isNone = asksPolling pre

/-- The descriptor of the last message for the TX ring is one of those it was sent. -/
theorem mem_txFds_of_lastTx {ks : List KickMsg} {d : Int} (h : lastTx ks = some (some d)) :
    d ∈ txFds ks := by
  obtain ⟨k, hk, hd⟩ := Option.map_eq_some_iff.mp h
  exact List.mem_filterMap.mpr ⟨k, List.mem_of_getLast? hk, hd⟩

/-- In one mode, the last message asks for what the last one for the TX ring asked for. -/
theorem asksPolling_of_lastTx {ks : List KickMsg} {o : Option Int}
    (hrx : ∀ pre k post, ks = pre ++ k :: post → k.index = rxIdx → k.fd.isNone = asksPolling pre)
    (hlast : lastTx ks = some o) : asksPolling ks = o.isNone := by
  induction ks using List.reverseRecOn with
  | nil => cases hlast
  | append_singleton ks k ih =>
      rw [asksPolling_append]
      rcases ringIdx_cases k.index with hk | hk
      · rw [lastTx_append_rx ks k hk] at hlast
        rw [hrx ks k [] rfl hk]
        refine ih (fun pre k' post heq hk' => hrx pre k' (post ++ [k]) ?_ hk') hlast
        rw [heq, List.append_assoc, List.cons_append]
      · rw [lastTx_append_tx ks k hk] at hlast
        cases hlast
        rfl

/-- A message for the RX ring leaves the TX ring alone exactly if it asks for the mode in
force. -/
theorem rx_unchanged_iff (maps : Nat → Option MapResult) {w : World}
    (hpoll : w.server.isPolling = false) {pre : List KickMsg} {k : KickMsg}
    (hk : k.index = rxIdx) :
    (∀ w1 w2, (serveMsgs maps w (pre.map (·.msg))).out = .ret w1 →
      (serveMsgs maps w ((pre ++ [k]).map (·.msg))).out = .ret w2 →
      w2.server.isPolling = w1.server.isPolling ∧
        ∀ fd, w2.server.fdList.Registered fd .kickServer ↔
          w1.server.fdList.Registered fd .kickServer) ↔
      k.fd.isNone = asksPolling pre := by
  have hpre := serveMsgs_kicks pre maps w
  have hall := serveMsgs_kicks (pre ++ [k]) maps w
  rw [afterKicks_append] at hall
  rw [hpre, hall, ← isPolling_afterKicks pre hpoll]
  constructor
  · intro h
    have := (h _ _ rfl rfl).1
    rwa [setKick_isPolling] at this
  · rintro h w1 w2 h1 h2
    cases h1
    cases h2
    rw [setKick_isPolling, hk, setKick_fdList_rx]
    exact ⟨h, fun fd => Iff.rfl⟩

/-- **The TX ring is served as the master asks exactly while the messages keep to one
mode.** -/
theorem served_as_asked_iff (maps : Nat → Option MapResult) (w : World) (ks : List KickMsg)
    (hpoll : w.server.isPolling = false)
    (hnone : ∀ fd, ¬ w.server.fdList.Registered fd .kickServer)
    (hslots : (txFds ks).length ≤ w.server.fdList.freeSlots) :
    ServedAsAsked maps w ks ↔ OneMode ks := by
  have hrun := serveMsgs_kicks ks maps w
  have hreg := (registered_of_mem hslots).2
  constructor
  · intro h
    have hrx : ∀ pre k post, ks = pre ++ k :: post → k.index = rxIdx →
        k.fd.isNone = asksPolling pre :=
      fun pre k post heq hk => (rx_unchanged_iff maps hpoll hk).mp (h.rx pre k post heq hk)
    refine ⟨fun o hlast fd hfd => ?_, hrx⟩
    obtain ⟨w', hw', hnofd, hwith⟩ := h.tx
    rw [hrun] at hw'
    cases hw'
    cases o with
    | none => exact absurd (hreg fd hfd) ((hnofd hlast).2 fd)
    | some d =>
        by_cases heq : fd = d
        · rw [heq]
        · exact absurd (hreg fd hfd) ((hwith d hlast).2 fd hfd heq)
  · intro h
    refine ⟨⟨_, hrun, fun hlast => ⟨?_, fun fd hfd => ?_⟩, fun d hlast => ⟨?_, ?_⟩⟩,
      fun pre k post heq hk => (rx_unchanged_iff maps hpoll hk).mpr (h.rx pre k post heq hk)⟩
    · rw [isPolling_afterKicks _ hpoll, asksPolling_of_lastTx h.rx hlast]
      rfl
    · exact absurd (h.tx none hlast fd (mem_of_registered hnone hfd)) nofun
    · exact hreg d (mem_txFds_of_lastTx hlast)
    · intro fd hfd hne
      exact absurd (Option.some.inj (h.tx _ hlast fd hfd)).symm hne

/-- A server that has just been started. -/
def freshWorld (sock : Int) (isListen : Bool) : World :=
  ⟨newVhostServer sock isListen, [], Mem.zero⟩

theorem freshWorld_registered {sock fd : Int} {k : FdHandler}
    (h : (freshWorld sock true).server.fdList.Registered fd k) :
    fd = sock ∧ k = .acceptSockServer := by
  have h : (initFdList.addFdList sock .acceptSockServer).2.Registered fd k := h
  rw [FdList.Registered, FdList.addFdList_snd] at h
  rcases SlotTable.holds_before h with hnew | ⟨i, hi⟩
  · cases hnew
    exact ⟨rfl, rfl⟩
  · cases hi

/-- The TX ring is to be served on kicks of the descriptor `fd`. -/
def txKick (fd : Nat) : KickMsg where
  msg := fileMsg .setVringKick 1 (fd + 1)
  index := txIdx
  fd := some (fd + 1)
  request := rfl
  payload := by
    rw [u64_fileMsg]
    exact kickIndex_ofNat txIdx
  single _ := (fds_fileMsg .setVringKick 1 (by omega)).1
  first d hd := by
    cases hd
    exact ⟨(fds_fileMsg .setVringKick 1 (by omega)).2, by omega⟩

/-- The RX ring is to be served on kicks of the descriptor `fd`. -/
def rxKick (fd : Nat) : KickMsg where
  msg := fileMsg .setVringKick 0 (fd + 1)
  index := rxIdx
  fd := some (fd + 1)
  request := rfl
  payload := by
    rw [u64_fileMsg]
    exact kickIndex_ofNat rxIdx
  single _ := (fds_fileMsg .setVringKick 0 (by omega)).1
  first d hd := by
    cases hd
    exact ⟨(fds_fileMsg .setVringKick 0 (by omega)).2, by omega⟩

/-- The TX ring is to be polled. -/
def txPoll : KickMsg where
  msg := vhostIoctl .setVringKick 8 (zeroPayload.setU64 0 0x101) []
  index := txIdx
  fd := none
  request := rfl
  payload := (congrArg kickIndex (Payload.u64At_setU64 0 0x101)).trans (by decide)
  single := nofun
  first := nofun

theorem served_as_asked_demo :
    ServedAsAsked (fun _ => none) (freshWorld 3 true) [rxKick 4, txKick 6] ↔
      OneMode [rxKick 4, txKick 6] :=
  served_as_asked_iff _ _ _ rfl (fun _ h => nomatch (freshWorld_registered h).2)
    (by decide : 1 ≤ (freshWorld 3 true).server.fdList.freeSlots)

/-- The TX ring is to be polled and then the RX ring to be served on kicks: after that the
TX ring is neither polled nor served on any kick. -/
theorem tx_neither_polled_nor_kicked :
    ¬ ServedAsAsked (fun _ => none) (freshWorld 3 true) [txPoll, rxKick 4] ∧
    ∃ w', (serveMsgs (fun _ => none) (freshWorld 3 true) [txPoll.msg, (rxKick 4).msg]).out =
        .ret w' ∧
      w'.server.isPolling = false ∧ ∀ fd, ¬ w'.server.fdList.Registered fd .kickServer := by
  have hrun := serveMsgs_kicks [txPoll, rxKick 4] (fun _ => none) (freshWorld 3 true)
  have hpoll : (afterKicks (freshWorld 3 true) [txPoll, rxKick 4]).server.isPolling = false := rfl
  refine ⟨fun h => ?_, _, hrun, hpoll, fun fd hfd => ?_⟩
  · obtain ⟨w', hw', hnofd, -⟩ := h.tx
    rw [hrun] at hw'
    cases hw'
    rw [(hnofd rfl).1] at hpoll
    cases hpoll
  · exact absurd (mem_of_registered (fun _ h => nomatch (freshWorld_registered h).2) hfd) nofun

end Vapp
