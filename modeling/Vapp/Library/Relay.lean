import Mathlib.Data.List.Perm.Basic
import Vapp.Library.Transition

/-! # A relay with a buffer of one place

Items are sent over one channel, taken off it into a buffer that holds one of them, put from
there on a second channel and delivered.  An item that is taken while there is one in the
buffer takes its place, and the older one is lost: nothing else is, and what comes through
comes through once and in its order.
-/

/-- What is in the two channels and in the buffer, and the history: the items sent, those
delivered and those lost. -/
structure Relay (α : Type) where
  sent : List α
  up : List α
  slot : Option α
  down : List α
  delivered : List α
  lost : List α

namespace Relay

variable {α : Type}

/-- Nothing has happened yet. -/
def empty : Relay α := ⟨[], [], none, [], [], []⟩

inductive Step : Relay α → Unit → Relay α → Prop
  | send (r : Relay α) (x : α) : Step r () { r with sent := r.sent ++ [x], up := r.up ++ [x] }
  | take (r : Relay α) (x : α) (rest : List α) (h : r.up = x :: rest) :
      Step r () { r with up := rest, slot := some x, lost := r.lost ++ r.slot.toList }
  | forward (r : Relay α) (x : α) (h : r.slot = some x) :
      Step r () { r with slot := none, down := r.down ++ [x] }
  | deliver (r : Relay α) (x : α) (rest : List α) (h : r.down = x :: rest) :
      Step r () { r with down := rest, delivered := r.delivered ++ [x] }

/-- What was delivered and what still can be, the oldest item in front. -/
def kept (r : Relay α) : List α := r.delivered ++ (r.down ++ (r.slot.toList ++ r.up))

/-- Nothing is repeated or reordered, and what is missing was lost in the buffer. -/
structure Accounted (r : Relay α) : Prop where
  ordered : r.kept.Sublist r.sent
  counted : (r.kept ++ r.lost).Perm r.sent

variable {r r' : Relay α}

theorem kept_send (x : α) :
    kept { r with sent := r.sent ++ [x], up := r.up ++ [x] } = r.kept ++ [x] := by
  simp only [kept, List.append_assoc]

theorem kept_forward {x : α} (hslot : r.slot = some x) :
    kept { r with slot := none, down := r.down ++ [x] } = r.kept := by
  rw [kept, kept, hslot]
  simp only [List.append_assoc, Option.toList_none, Option.toList_some, List.nil_append]

theorem kept_deliver {x : α} {rest : List α} (hdown : r.down = x :: rest) :
    kept { r with down := rest, delivered := r.delivered ++ [x] } = r.kept := by
  rw [kept, kept, hdown]
  simp only [List.append_assoc, List.nil_append, List.cons_append]

theorem accounted_step (h : r.Accounted) {l : Unit} (hs : Step r l r') : r'.Accounted := by
  cases hs with
  | send x =>
      refine ⟨?_, ?_⟩
      · rw [kept_send]
        exact h.ordered.append_right [x]
      · rw [kept_send, List.append_assoc]
        refine (List.perm_append_comm.append_left r.kept).trans ?_
        rw [← List.append_assoc]
        exact h.counted.append_right [x]
  | take x rest hup =>
      -- the item that leaves the buffer goes from the kept ones to the lost ones
      have hkept : r.kept = r.delivered ++ (r.down ++ (r.slot.toList ++ x :: rest)) := by
        rw [kept, hup]
      refine ⟨List.Sublist.trans ?_ h.ordered, List.Perm.trans ?_ h.counted⟩
      · rw [hkept]
        exact ((List.sublist_append_right _ _).append_left _).append_left _
      · rw [hkept]
        simp only [kept, List.append_assoc]
        refine (List.Perm.append_left _ ?_).append_left _
        show (x :: rest ++ (r.lost ++ r.slot.toList)).Perm (r.slot.toList ++ (x :: rest ++ r.lost))
        rw [← List.append_assoc]
        exact List.perm_append_comm
  | forward x hslot => exact ⟨kept_forward hslot ▸ h.ordered, kept_forward hslot ▸ h.counted⟩
  | deliver x rest hdown => exact ⟨kept_deliver hdown ▸ h.ordered, kept_deliver hdown ▸ h.counted⟩

/-- **Every run of a relay can account for what was sent.** -/
theorem accounted_of_run {ls : List Unit} (h : Transition.Run Step empty ls r) : r.Accounted :=
  Transition.Run.preserves (fun _ _ _ hr hs => accounted_step hr hs)
    ⟨List.Sublist.refl _, List.Perm.refl _⟩ h

/-- The item that was sent last has not been lost. -/
def KeepsNewest (r : Relay α) : Prop := r.kept.getLast? = r.sent.getLast?

theorem keepsNewest_step (h : r.KeepsNewest) {l : Unit} (hs : Step r l r') :
    r'.KeepsNewest := by
  cases hs with
  | send x =>
      show (kept _).getLast? = _
      rw [kept_send, List.getLast?_concat, List.getLast?_concat]
  | take x rest hup =>
      -- what leaves the buffer is older than `x`
      have hlast : ∀ front : List α, (front ++ x :: rest).getLast? = (x :: rest).getLast? :=
        fun front => List.getLast?_append_of_ne_nil front (List.cons_ne_nil x rest)
      have hnew : r.kept.getLast? = (x :: rest).getLast? := by
        rw [kept, hup, ← List.append_assoc, ← List.append_assoc, hlast]
      refine Eq.trans ?_ (hnew.symm.trans h)
      show (r.delivered ++ (r.down ++ x :: rest)).getLast? = _
      rw [← List.append_assoc, hlast]
  | forward x hslot => exact (congrArg List.getLast? (kept_forward hslot)).trans h
  | deliver x rest hdown => exact (congrArg List.getLast? (kept_deliver hdown)).trans h

/-- **An item is lost only to a newer one**: the newest is delivered or still on its way. -/
theorem keepsNewest_of_run {ls : List Unit} (h : Transition.Run Step empty ls r) :
    r.KeepsNewest :=
  Transition.Run.preserves (fun _ _ _ hr hs => keepsNewest_step hr hs)
    (show (empty : Relay α).KeepsNewest from rfl) h

end Relay
