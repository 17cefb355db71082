import Vapp.Library.Transition

/-! # A lossless first-in first-out channel

What a packet ring between two parties is for: items are sent at one end and delivered
at the other, each once, in the order they were sent.  The channel keeps the whole
history next to what is under way, so that the property is an equation between lists.
-/

/-- Everything sent, everything delivered, and what is still under way. -/
structure FifoChannel (α : Type) where
  sent : List α
  delivered : List α
  waiting : List α

namespace FifoChannel

variable {α : Type}

/-- Nothing has happened yet. -/
def empty : FifoChannel α := ⟨[], [], []⟩

/-- A step either sends one item or delivers the oldest one under way. -/
inductive Step : FifoChannel α → Unit → FifoChannel α → Prop
  | send (c : FifoChannel α) (x : α) :
      Step c () { c with sent := c.sent ++ [x], waiting := c.waiting ++ [x] }
  | deliver (c : FifoChannel α) (x : α) (rest : List α) (h : c.waiting = x :: rest) :
      Step c () { c with delivered := c.delivered ++ [x], waiting := rest }

/-- Nothing is lost, repeated or reordered. -/
def Lossless (c : FifoChannel α) : Prop := c.sent = c.delivered ++ c.waiting

theorem lossless_step {c d : FifoChannel α} {l : Unit} (hc : c.Lossless) (hs : Step c l d) :
    d.Lossless := by
  cases hs with
  | send x =>
      show c.sent ++ [x] = c.delivered ++ (c.waiting ++ [x])
      rw [hc, List.append_assoc]
  | deliver x rest h =>
      show c.sent = c.delivered ++ [x] ++ rest
      rw [hc, h, List.append_assoc, List.singleton_append]

/-- **Every run of the channel from the empty one is lossless.** -/
theorem lossless_of_run {c : FifoChannel α} {ls : List Unit}
    (h : Transition.Run Step empty ls c) : c.Lossless := by
  refine Transition.Run.invariant (I := Lossless) (fun _ _ _ hc _ hs => lossless_step hc hs)
    ?_ h (A := fun _ => True) fun _ _ => trivial
  rfl

end FifoChannel
