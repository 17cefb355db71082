import Mathlib.Algebra.Ring.Nat
import Mathlib.Logic.Function.Basic

/-! # Fixed-width numbers in a byte array

Little-endian fields of a block of bytes: `read` and `write` of `n` bytes at an offset.
What was written is read back, and a field that does not overlap is not affected.  `store`
copies a list of bytes into the block, as a read from a stream does.
-/
namespace LittleEndian

/-- The `n` bytes from `off` on, the lowest first. -/
def read (f : Nat → UInt8) : (off n : Nat) → Nat
  | _, 0 => 0
  | off, n + 1 => (f off).toNat + 256 * read f (off + 1) n

/-- Store the low `n` bytes of `v` from `off` on. -/
def write (f : Nat → UInt8) : (off n v : Nat) → Nat → UInt8
  | _, 0, _ => f
  | off, n + 1, v => Function.update (write f (off + 1) n (v / 256)) off (.ofNat (v % 256))

/-- Bytes outside the field keep their value. -/
theorem write_apply (f : Nat → UInt8) (n : Nat) : ∀ {off v i : Nat}, i < off ∨ off + n ≤ i →
    write f off n v i = f i := by
  induction n with
  | zero => exact fun _ => rfl
  | succ n ih =>
      intro off v i h
      rw [write, Function.update_of_ne (by omega)]
      exact ih (by omega)

/-- A field only depends on its bytes. -/
theorem read_congr {f g : Nat → UInt8} (n : Nat) : ∀ {off : Nat},
    (∀ i, off ≤ i → i < off + n → f i = g i) → read f off n = read g off n := by
  induction n with
  | zero => exact fun _ => rfl
  | succ n ih =>
      intro off h
      rw [read, read, h off (Nat.le_refl off) (by omega),
        ih fun i hi hi' => h i (by omega) (by omega)]

/-- **What was written is read back.** -/
theorem read_write (f : Nat → UInt8) (n : Nat) : ∀ {off v : Nat}, v < 256 ^ n →
    read (write f off n v) off n = v := by
  induction n with
  | zero =>
      intro off v hv
      rw [Nat.pow_zero] at hv
      rw [read]
      omega
  | succ n ih =>
      intro off v hv
      rw [Nat.pow_succ] at hv
      have hrest : read (write f off (n + 1) v) (off + 1) n =
          read (write f (off + 1) n (v / 256)) (off + 1) n :=
        read_congr n fun i hi _ => by rw [write, Function.update_of_ne (by omega)]
      rw [read, hrest, ih (by omega), write, Function.update_self,
        UInt8.toNat_ofNat_of_lt' (Nat.mod_lt v (by decide))]
      exact Nat.mod_add_div v 256

/-- **Another field is not affected.** -/
theorem read_write_of_disjoint (f : Nat → UInt8) {off n v off' n' : Nat}
    (h : off' + n' ≤ off ∨ off + n ≤ off') :
    read (write f off n v) off' n' = read f off' n' :=
  read_congr n' fun _ hi hi' => write_apply f n (by omega)

/-- Storing zero in a cleared block. -/
theorem write_zero {f : Nat → UInt8} (hf : ∀ i, f i = 0) (n : Nat) : ∀ off i,
    write f off n 0 i = 0 := by
  induction n with
  | zero => exact fun _ i => hf i
  | succ n ih =>
      intro off i
      by_cases h : i = off
      · rw [write, h, Function.update_self]
        rfl
      · rw [write, Function.update_of_ne h]
        exact ih (off + 1) i

/-- Clearing bytes only lowers the value of a field. -/
theorem read_le_of_or_zero {f g : Nat → UInt8} (n : Nat) : ∀ {off : Nat},
    (∀ i, off ≤ i → i < off + n → f i = g i ∨ f i = 0) → read f off n ≤ read g off n := by
  induction n with
  | zero => exact fun _ => Nat.le_refl 0
  | succ n ih =>
      intro off h
      have hrest : read f (off + 1) n ≤ read g (off + 1) n :=
        ih fun i hi hi' => h i (by omega) (by omega)
      have hbyte : (f off).toNat ≤ (g off).toNat := by
        rcases h off (Nat.le_refl off) (by omega) with heq | heq
        · rw [heq]
        · rw [heq]
          exact Nat.zero_le _
      rw [read, read]
      omega

/-- Copy the bytes `bs` to offset `off`. -/
def store (f : Nat → UInt8) (off : Nat) (bs : List UInt8) : Nat → UInt8 := fun i =>
  if off ≤ i then (bs[i - off]?).getD (f i) else f i

section Store
variable {f : Nat → UInt8} {off : Nat} {bs : List UInt8}

/-- A byte that was copied. -/
theorem store_of_getElem? {i : Nat} {b : UInt8} (h : bs[i]? = some b) :
    store f off bs (off + i) = b := by
  rw [store, if_pos (Nat.le_add_right off i), Nat.add_sub_cancel_left, h]
  rfl

/-- A byte in front of the copied ones. -/
theorem store_of_lt {i : Nat} (h : i < off) : store f off bs i = f i :=
  if_neg (Nat.not_le.mpr h)

/-- A byte behind the copied ones. -/
theorem store_of_ge {i : Nat} (h : off + bs.length ≤ i) : store f off bs i = f i := by
  rw [store, if_pos (by omega), List.getElem?_eq_none (by omega)]
  rfl

end Store

end LittleEndian
