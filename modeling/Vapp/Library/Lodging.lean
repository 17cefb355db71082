import Mathlib.Data.Multiset.Basic
import Mathlib.Data.Multiset.AddSub
import Mathlib.Data.List.TakeDrop

/-! # Guests and lodgers

A house has a number of rooms.  A guest takes a room and gives it back when it leaves.  While
it is there it may bring lodgers, who take a room each and stay, even when the guest leaves.
Who finds no room is turned away.  Lodgers never fill the house, since a guest has to be
there to bring one.
-/
namespace Lodging

variable {ι κ : Type}

/-- Who is in the house, the lodgers in the order in which they came. -/
structure State (ι κ : Type) where
  guests : Multiset ι
  lodgers : List κ

/-- Nobody. -/
def empty : State ι κ := ⟨0, []⟩

/-- What happens at the door. -/
inductive Label (ι κ : Type) where
  | arrive (g : ι)
  | bring (g : ι) (d : κ)
  | leave (g : ι)
  | evict (d : κ)

/-- The number of rooms that are taken. -/
def State.taken (s : State ι κ) : Nat := s.guests.card + s.lodgers.length

/-- No more than fit, and one room that lodgers do not get. -/
structure State.Within (rooms : Nat) (s : State ι κ) : Prop where
  taken : s.taken ≤ rooms
  lodgers : s.lodgers.length ≤ rooms - 1

theorem within_empty (rooms : Nat) : (empty : State ι κ).Within rooms :=
  ⟨Nat.zero_le _, Nat.zero_le _⟩

/-- **Once all guests have left there is room for another one.** -/
theorem State.Within.room {rooms : Nat} {s : State ι κ} (h : s.Within rooms) (hrooms : 0 < rooms)
    (hgone : s.guests = 0) : s.taken < rooms := by
  have hlodgers := h.lodgers
  rw [State.taken, hgone, Multiset.card_zero]
  omega

/-- The first `k` entries of a list that grows. -/
theorem take_append_singleton (k : Nat) (ds : List κ) (d : κ) :
    (ds ++ [d]).take k = if ds.length < k then ds.take k ++ [d] else ds.take k := by
  split
  · rename_i h
    rw [List.take_of_length_le (Nat.le_of_lt h), List.take_of_length_le]
    rw [List.length_append]
    exact h
  · rename_i h
    exact List.take_append_of_le_length (Nat.le_of_not_lt h)

section Door
variable [DecidableEq ι] [DecidableEq κ]

/-- Who is in a house with `rooms` rooms afterwards. -/
def State.after (rooms : Nat) (s : State ι κ) : Label ι κ → State ι κ
  | .arrive g => if s.taken < rooms then ⟨g ::ₘ s.guests, s.lodgers⟩ else s
  | .bring g d =>
      if g ∈ s.guests ∧ s.taken < rooms then ⟨s.guests, s.lodgers ++ [d]⟩ else s
  | .leave g => ⟨s.guests.erase g, s.lodgers⟩
  | .evict d => ⟨s.guests, s.lodgers.erase d⟩

/-- After all of these. -/
def State.afterAll (rooms : Nat) (s : State ι κ) (ls : List (Label ι κ)) : State ι κ :=
  ls.foldl (State.after rooms) s

/-! ### Room for a guest -/

section Within
variable {rooms : Nat} {s : State ι κ}

theorem State.Within.after (h : s.Within rooms) (l : Label ι κ) :
    (s.after rooms l).Within rooms := by
  obtain ⟨htaken, hlodgers⟩ := h
  have htaken : s.guests.card + s.lodgers.length ≤ rooms := htaken
  cases l with
  | arrive g =>
      rw [State.after]
      split
      · rename_i hroom
        have hroom : s.guests.card + s.lodgers.length < rooms := hroom
        refine ⟨?_, hlodgers⟩
        show (g ::ₘ s.guests).card + s.lodgers.length ≤ rooms
        rw [Multiset.card_cons]
        omega
      · exact ⟨htaken, hlodgers⟩
  | bring g d =>
      rw [State.after]
      split
      · rename_i hroom
        have hguest : 0 < s.guests.card := Multiset.card_pos_iff_exists_mem.mpr ⟨g, hroom.1⟩
        have hroom : s.guests.card + s.lodgers.length < rooms := hroom.2
        have hlen : (s.lodgers ++ [d]).length = s.lodgers.length + 1 := List.length_append
        refine ⟨?_, ?_⟩
        · show s.guests.card + (s.lodgers ++ [d]).length ≤ rooms
          omega
        · show (s.lodgers ++ [d]).length ≤ rooms - 1
          omega
      · exact ⟨htaken, hlodgers⟩
  | leave g =>
      have hle := Multiset.card_le_card (Multiset.erase_le g s.guests)
      refine ⟨?_, hlodgers⟩
      show (s.guests.erase g).card + s.lodgers.length ≤ rooms
      omega
  | evict d =>
      have hle := List.length_erase_le (a := d) (l := s.lodgers)
      refine ⟨?_, Nat.le_trans hle hlodgers⟩
      show s.guests.card + (s.lodgers.erase d).length ≤ rooms
      omega

theorem State.Within.afterAll (h : s.Within rooms) (ls : List (Label ι κ)) :
    (s.afterAll rooms ls).Within rooms := by
  induction ls generalizing s with
  | nil => exact h
  | cons l ls ih => exact ih (h.after l)

end Within

end Door

/-! ### One guest at a time -/

/-- What happens while `g` is the only guest. -/
def Label.Staying (g : ι) : Label ι κ → Prop
  | .bring g' _ => g' = g
  | .evict _ => True
  | .arrive _ | .leave _ => False

/-- The lodger that is brought. -/
def Label.brought : Label ι κ → Option κ
  | .bring _ d => some d
  | .arrive _ | .leave _ | .evict _ => none

/-- The stay of a guest, with what happens meanwhile. -/
def visit (v : ι × List (Label ι κ)) : List (Label ι κ) := .arrive v.1 :: (v.2 ++ [.leave v.1])

section Lodgers
variable [DecidableEq κ] {room : Nat} {ks : List κ} {ls : List (Label ι κ)}

/-- The lodgers afterwards, in a house that has `room` rooms for them. -/
def Label.lodgersAfter (room : Nat) (ks : List κ) : Label ι κ → List κ
  | .bring _ d => if ks.length < room then ks ++ [d] else ks
  | .evict d => ks.erase d
  | .arrive _ | .leave _ => ks

/-- After all of these. -/
def lodgersAll (room : Nat) (ks : List κ) (ls : List (Label ι κ)) : List κ :=
  ls.foldl (Label.lodgersAfter room) ks

theorem length_lodgersAfter (h : ks.length ≤ room) (l : Label ι κ) :
    (l.lodgersAfter room ks).length ≤ room := by
  cases l with
  | bring g d =>
      rw [Label.lodgersAfter]
      split
      · rename_i hroom
        rw [List.length_append]
        exact hroom
      · exact h
  | evict d => exact Nat.le_trans List.length_erase_le h
  | arrive _ | leave _ => exact h

theorem length_lodgersAll (h : ks.length ≤ room) (ls : List (Label ι κ)) :
    (lodgersAll room ks ls).length ≤ room := by
  induction ls generalizing ks with
  | nil => exact h
  | cons l ls ih => exact ih (length_lodgersAfter h l)

/-- Where nobody is evicted the lodgers that came first stay. -/
theorem lodgersAll_take (hls : ∀ l ∈ ls, ∀ d, l ≠ .evict d) (ks : List κ) :
    lodgersAll room (ks.take room) ls = (ks ++ ls.filterMap Label.brought).take room := by
  induction ls generalizing ks with
  | nil =>
      rw [List.filterMap_nil, List.append_nil]
      rfl
  | cons l ls ih =>
      have hrest := ih fun l hl => hls l (List.mem_cons_of_mem _ hl)
      rw [lodgersAll, List.foldl_cons]
      cases l with
      | bring g d =>
          have hstep : (Label.bring g d).lodgersAfter room (ks.take room) =
              (ks ++ [d]).take room := by
            have hiff : (ks.take room).length < room ↔ ks.length < room := by
              rw [List.length_take]
              omega
            rw [Label.lodgersAfter, take_append_singleton]
            simp only [hiff]
          rw [hstep, List.filterMap_cons]
          refine (hrest (ks ++ [d])).trans ?_
          rw [List.append_assoc]
          rfl
      | evict d => exact absurd rfl (hls _ List.mem_cons_self d)
      | arrive _ | leave _ => exact hrest ks

end Lodgers

section Visits
variable [DecidableEq ι] [DecidableEq κ] {room : Nat} {g : ι} {ks : List κ} {l : Label ι κ}
  {ls : List (Label ι κ)}

/-- The only guest has a room, the others are for lodgers. -/
theorem after_staying (h : ks.length ≤ room) (hl : l.Staying g) :
    State.after (room + 1) ⟨{g}, ks⟩ l = ⟨{g}, l.lodgersAfter room ks⟩ := by
  cases l with
  | bring g' d =>
      obtain rfl : g' = g := hl
      have hiff : (g' ∈ ({g'} : Multiset ι) ∧
          (State.mk ({g'} : Multiset ι) ks).taken < room + 1) ↔ ks.length < room := by
        rw [State.taken, Multiset.card_singleton]
        simp only [Multiset.mem_singleton, true_and]
        omega
      rw [State.after, Label.lodgersAfter]
      by_cases hroom : ks.length < room
      · rw [if_pos (hiff.mpr hroom), if_pos hroom]
      · rw [if_neg fun h => hroom (hiff.mp h), if_neg hroom]
  | evict d => rfl
  | arrive _ | leave _ => exact hl.elim

theorem afterAll_staying (h : ks.length ≤ room) (hls : ∀ l ∈ ls, l.Staying g) :
    State.afterAll (room + 1) ⟨{g}, ks⟩ ls = ⟨{g}, lodgersAll room ks ls⟩ := by
  induction ls generalizing ks with
  | nil => rfl
  | cons l ls ih =>
      rw [State.afterAll, List.foldl_cons, after_staying h (hls l List.mem_cons_self)]
      exact ih (length_lodgersAfter h l) fun l hl => hls l (List.mem_cons_of_mem _ hl)

/-- A guest that comes when no other is there. -/
theorem afterAll_stay (h : ks.length ≤ room) (hls : ∀ l ∈ ls, l.Staying g) :
    State.afterAll (room + 1) ⟨0, ks⟩ (.arrive g :: ls) = ⟨{g}, lodgersAll room ks ls⟩ := by
  have hroom : (State.mk (0 : Multiset ι) ks).taken < room + 1 := by
    rw [State.taken, Multiset.card_zero, Nat.zero_add]
    exact Nat.lt_succ_of_le h
  have hstep : State.after (room + 1) ⟨0, ks⟩ (.arrive g) = ⟨{g}, ks⟩ := if_pos hroom
  rw [State.afterAll, List.foldl_cons, hstep]
  exact afterAll_staying h hls

/-- **Guests who come one after the other** leave behind the lodgers that are left of all that
were brought. -/
theorem afterAll_visits (vs : List (ι × List (Label ι κ))) (h : ks.length ≤ room)
    (hvs : ∀ v ∈ vs, ∀ l ∈ v.2, l.Staying v.1) :
    State.afterAll (room + 1) ⟨0, ks⟩ (vs.flatMap visit) =
      ⟨0, lodgersAll room ks (vs.flatMap Prod.snd)⟩ := by
  induction vs generalizing ks with
  | nil => rfl
  | cons v vs ih =>
      have hstay := afterAll_stay h (hvs v List.mem_cons_self)
      have hvisit : State.afterAll (room + 1) ⟨0, ks⟩ (visit v) =
          ⟨0, lodgersAll room ks v.2⟩ := by
        rw [visit, ← List.cons_append, State.afterAll, List.foldl_append]
        rw [State.afterAll] at hstay
        rw [hstay, List.foldl_cons, List.foldl_nil, State.after, Multiset.erase_singleton]
      have hrest := ih (length_lodgersAll h v.2) fun v hv => hvs v (List.mem_cons_of_mem _ hv)
      rw [State.afterAll] at hvisit hrest ⊢
      rw [List.flatMap_cons, List.foldl_append, hvisit, hrest, List.flatMap_cons]
      exact congrArg (State.mk 0) List.foldl_append.symm

end Visits

end Lodging
