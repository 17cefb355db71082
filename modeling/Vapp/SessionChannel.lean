import Vapp.RingChannel

/-! # The channel of a session

The TX ring of a client and a server that have been set up with each other carries the
packets of the client to the `avail_handler` of the server.
-/
namespace Vapp

namespace Session

/-- **The TX ring is FIFO and lossless**: in every state that a run reaches, the packets
handed to the server are the first ones put, each whole and once, and the avail slots the
server has not consumed hold the others. -/
theorem tx_fifo_lossless {S : Session} {sock : Int} {m : Mem} {w : World}
    (hopen : S.Opened sock m w) {ls : List RingLabel} {s : RingState Unit ServerContext}
    (hrun : Transition.Run (RingStep S.txEnv) (S.txState w) ls s)
    (hfit : ∀ buf, RingLabel.put buf ∈ ls → Fits buf) :
    s.delivered.map HandlerCall.buf <+: ls.filterMap RingLabel.packet? ∧
    s.delivered =
      ((ls.filterMap RingLabel.packet?).take s.outcomes.length).map callOf ∧
    s.held S.txEnv = ((ls.filterMap RingLabel.packet?).drop s.outcomes.length).map .ret := by
  obtain ⟨hsent, hlossless, hheld⟩ := ring_lossless (S.tx_start hopen) hrun hfit
  have hsplit : s.sent.map callOf =
      s.delivered ++ (s.sent.drop s.outcomes.length).map callOf := hlossless
  have htake : s.delivered = (s.sent.take s.outcomes.length).map callOf := by
    have hall : s.delivered ++ (s.sent.drop s.outcomes.length).map callOf =
        (s.sent.take s.outcomes.length).map callOf ++
          (s.sent.drop s.outcomes.length).map callOf := by
      rw [← hsplit, ← List.map_append, List.take_append_drop]
    exact List.append_cancel_right hall
  have hbufs : s.delivered.map HandlerCall.buf = s.sent.take s.outcomes.length := by
    rw [htake, List.map_map]
    exact List.map_id _
  rw [← hsent]
  refine ⟨?_, htake, hheld⟩
  rw [hbufs]
  exact List.take_prefix _ _

/-- A run of a session that puts two packets, of which the server has consumed one. -/
theorem tx_fifo_lossless_demo : ∃ w s, demo.Opened 4 Mem.zero w ∧
    Transition.Run (RingStep demo.txEnv) (demo.txState w)
      [.put [1, 2, 3], .put [4], .enter, .serve] s ∧
    s.delivered.map HandlerCall.buf <+: [[1, 2, 3], [4]] ∧
    s.delivered = [callOf [1, 2, 3]] ∧ s.held demo.txEnv = [.ret [4]] := by
  obtain ⟨w, hopen⟩ := demo.opened_exists 4 Mem.zero
  have h0 := (tx_start hopen).tracked
  have hfit : ∀ buf ∈ [[1, 2, 3], [4]], Fits buf := by decide
  obtain ⟨p, m, hputs⟩ := h0.can_puts [[1, 2, 3], [4]] nofun hfit (by
    show 2 ≤ vhostVringSize
    decide)
  have h1 := tracked_run h0 hputs
  obtain ⟨a, henter⟩ := h1.wired.can_enter rfl
  obtain ⟨c, m', b, os, hos, hserve⟩ := Tracked.can_serves 1 (tracked_step h1 henter) hfit rfl
    (Nat.le_succ 1)
  obtain ⟨o, rfl⟩ := List.length_eq_one_iff.mp hos
  have hrun := (hputs.snoc henter).append hserve
  exact ⟨w, _, hopen, hrun,
    tx_fifo_lossless hopen hrun fun buf hbuf => hfit buf (by simpa using hbuf)⟩

end Session

end Vapp
