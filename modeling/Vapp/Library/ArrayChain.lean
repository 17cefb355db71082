import Mathlib.Logic.Function.Basic
import Mathlib.Data.List.Nodup

/-! # Linked lists threaded through an array

`Chain next stop a l`: following `next` from `a` visits exactly the nodes `l` and then
reaches `stop`.  The three operations of a free list are covered: `pop` (drop the head),
`push` (link a node in front) and changes to nodes outside the chain (`congr`).
-/
namespace ArrayChain

variable {ι : Type} {next : ι → ι} {stop : ι}

/-- The nodes met from a start node until `stop`. -/
inductive Chain (next : ι → ι) (stop : ι) : ι → List ι → Prop
  | nil : Chain next stop stop []
  | cons {a : ι} {l : List ι} (hne : a ≠ stop) (h : Chain next stop (next a) l) :
      Chain next stop a (a :: l)

theorem Chain.eq_nil_iff {a : ι} {l : List ι} (h : Chain next stop a l) : l = [] ↔ a = stop := by
  cases h with
  | nil => exact ⟨fun _ => rfl, fun _ => rfl⟩
  | cons hne _ => exact ⟨fun h => (List.cons_ne_nil _ _ h).elim, fun h => (hne h).elim⟩

/-- The chain from a node that is not the end starts with that node. -/
theorem Chain.pop {a : ι} {l : List ι} (h : Chain next stop a l) (hne : a ≠ stop) :
    ∃ l', l = a :: l' ∧ Chain next stop (next a) l' := by
  cases h with
  | nil => exact (hne rfl).elim
  | cons _ h => exact ⟨_, rfl, h⟩

theorem Chain.unique {a : ι} {l l' : List ι} (h : Chain next stop a l)
    (h' : Chain next stop a l') : l = l' := by
  induction h generalizing l' with
  | nil => exact ((h'.eq_nil_iff).mpr rfl).symm
  | cons hne _ ih =>
      obtain ⟨m, rfl, hm⟩ := h'.pop hne
      rw [ih hm]

/-- A chain only depends on the links of its own nodes. -/
theorem Chain.congr {next' : ι → ι} {a : ι} {l : List ι} (h : Chain next stop a l)
    (heq : ∀ b ∈ l, next' b = next b) : Chain next' stop a l := by
  induction h with
  | nil => exact .nil
  | @cons a l hne _ ih =>
      refine .cons hne ?_
      rw [heq a (List.mem_cons_self ..)]
      exact ih fun b hb => heq b (List.mem_cons_of_mem _ hb)

/-- Numbered nodes, each linked to the one with the following number and the last one to
the end, form the chain of all of them from any one on. -/
theorem chain_range {f : Nat → ι} {n : Nat} (hne : ∀ i, i < n → f i ≠ stop)
    (hlink : ∀ i, i + 1 < n → next (f i) = f (i + 1)) (hlast : next (f (n - 1)) = stop)
    (d : Nat) : ∀ k, k + d + 1 = n → Chain next stop (f k) ((List.range' k (d + 1)).map f) := by
  induction d with
  | zero =>
      intro k hk
      refine .cons (hne k (by omega)) ?_
      rw [show k = n - 1 from by omega, hlast]
      exact .nil
  | succ d ih =>
      intro k hk
      rw [List.range'_succ]
      refine .cons (hne k (by omega)) ?_
      rw [hlink k (by omega)]
      exact ih (k + 1) (by omega)

variable [DecidableEq ι]

theorem Chain.update_of_notMem {a b c : ι} {l : List ι} (h : Chain next stop a l) (hb : b ∉ l) :
    Chain (Function.update next b c) stop a l :=
  h.congr fun _ hd => Function.update_of_ne (ne_of_mem_of_not_mem hd hb) c next

/-- Linking a node outside the chain in front of its head. -/
theorem Chain.push {a b : ι} {l : List ι} (h : Chain next stop a l) (hb : b ∉ l)
    (hne : b ≠ stop) : Chain (Function.update next b a) stop b (b :: l) := by
  refine .cons hne ?_
  rw [Function.update_self]
  exact h.update_of_notMem hb

end ArrayChain
