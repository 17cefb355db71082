import Vapp.ServerSteps
import Vapp.Session

/-! # Rings that are completely set up

The size of a ring and its three addresses come in two messages, and an address that no
region covers is translated to null.  The server looks only at the descriptor table before
it uses a ring: a missing size, an avail ring outside the regions and, for `_set_vring_addr`
itself, a used ring outside the regions get past it.
-/
namespace Vapp

section Step
variable {fuel : Nat} {before : List Act} {g : RingIdx → RingHistory} {w w' : World} {e : Event}

/-- The guard in front of a ring. -/
theorem Event.Uses.desc {i : RingIdx} (h : e.Uses fuel w i) : (w.setup i).desc ≠ 0 := by
  cases e with
  | kick fd r =>
      obtain ⟨rfl, _, _, hdesc⟩ := h
      exact hdesc
  | poll =>
      rcases h with ⟨hdesc, ⟨rfl, _, htx⟩ | ⟨rfl, _⟩⟩
      · exact htx
      · exact hdesc
  | _ => exact absurd h id

end Step

end Vapp
