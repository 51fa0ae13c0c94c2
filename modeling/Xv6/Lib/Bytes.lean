import Mathlib.Algebra.GroupWithZero.Nat

/-!
# Byte strings and the numbers in them

A string of `n` bytes is a function on `Fin n`. `write` copies bytes over a range, `field` is
the little-endian number in a range and `setField` stores one, so that a C record in a byte
string is a list of offsets and widths. A range that leaves the string reads as zeros there.

Every law of `field` comes from two facts: it depends on the bytes of its range alone
(`field_congr`), and a range that holds the digits of a number is that number (`field_digits`).
-/

namespace Xv6.Lib

/-- A string of `n` bytes. -/
abbrev Bytes (n : Nat) := Fin n → BitVec 8

namespace Bytes

variable {n : Nat}

def zero : Bytes n := fun _ => 0#8

/-- Byte `k`, and zero behind the end. -/
def byte (b : Bytes n) (k : Nat) : BitVec 8 := if h : k < n then b ⟨k, h⟩ else 0#8

/-- The `len` bytes from `off` on are those of `f`. -/
def write (b : Bytes n) (off len : Nat) (f : Nat → BitVec 8) : Bytes n := fun k =>
  if off ≤ k.val ∧ k.val < off + len then f (k.val - off) else b k

/-- The little-endian number in the `w` bytes from `off` on. -/
def field (b : Bytes n) (off : Nat) : Nat → Nat
  | 0 => 0
  | w + 1 => (b.byte off).toNat + 256 * field b (off + 1) w

/-- Stores `v` in the `w` bytes from `off` on. -/
def setField (b : Bytes n) (off w v : Nat) : Bytes n :=
  b.write off w fun j => BitVec.ofNat 8 (v / 256 ^ j)

@[simp] theorem byte_zero (k : Nat) : byte (zero : Bytes n) k = 0#8 := by
  unfold byte zero
  split <;> rfl

theorem byte_val (b : Bytes n) (k : Fin n) : b.byte k.val = b k := by
  unfold byte
  rw [dif_pos k.isLt]

/-- Strings with the same bytes are equal. -/
theorem ext_byte {a b : Bytes n} (h : ∀ k, k < n → a.byte k = b.byte k) : a = b := by
  funext k
  rw [← byte_val a, ← byte_val b]
  exact h k.val k.isLt

theorem byte_write (b : Bytes n) (off len k : Nat) (f : Nat → BitVec 8) :
    (b.write off len f).byte k =
      if off ≤ k ∧ k < off + len ∧ k < n then f (k - off) else b.byte k := by
  unfold byte write
  by_cases hk : k < n
  · by_cases hin : off ≤ k ∧ k < off + len
    · simp only [dif_pos hk, if_pos hin, if_pos (⟨hin.1, hin.2, hk⟩ : _ ∧ _ ∧ _)]
    · have hout : ¬ (off ≤ k ∧ k < off + len ∧ k < n) := fun h => hin ⟨h.1, h.2.1⟩
      simp only [dif_pos hk, if_neg hin, if_neg hout]
  · have hout : ¬ (off ≤ k ∧ k < off + len ∧ k < n) := fun h => hk h.2.2
    simp only [dif_neg hk, if_neg hout]

/-! ## Numbers -/

theorem field_congr {a b : Bytes n} {w : Nat} : ∀ {off : Nat},
    (∀ j, j < w → a.byte (off + j) = b.byte (off + j)) → a.field off w = b.field off w := by
  induction w with
  | zero =>
    intro off _
    rfl
  | succ w ih =>
    intro off h
    have hrest : a.field (off + 1) w = b.field (off + 1) w := by
      apply ih
      intro j hj
      have := h (j + 1) (by omega)
      rwa [show off + (j + 1) = off + 1 + j by omega] at this
    have hfirst : a.byte off = b.byte off := h 0 (by omega)
    show (a.byte off).toNat + 256 * a.field (off + 1) w = _
    rw [hfirst, hrest]
    rfl

theorem field_digits {b : Bytes n} {w : Nat} : ∀ {off v : Nat},
    (∀ j, j < w → b.byte (off + j) = BitVec.ofNat 8 (v / 256 ^ j)) →
    b.field off w = v % 256 ^ w := by
  induction w with
  | zero =>
    intro off v _
    exact (Nat.mod_one v).symm
  | succ w ih =>
    intro off v h
    have hrest : b.field (off + 1) w = v / 256 % 256 ^ w := by
      apply ih
      intro j hj
      have := h (j + 1) (by omega)
      rw [show off + (j + 1) = off + 1 + j by omega, pow_succ', ← Nat.div_div_eq_div_mul] at this
      exact this
    have hfirst : (b.byte off).toNat = v % 256 := by
      have := h 0 (by omega)
      rw [Nat.add_zero, pow_zero, Nat.div_one] at this
      rw [this, BitVec.toNat_ofNat]
    show (b.byte off).toNat + 256 * b.field (off + 1) w = _
    rw [hfirst, hrest, pow_succ', Nat.mod_mul]

@[simp] theorem field_zero (w : Nat) : ∀ off, field (zero : Bytes n) off w = 0 := by
  induction w with
  | zero =>
    intro off
    rfl
  | succ w ih =>
    intro off
    show (byte (zero : Bytes n) off).toNat + 256 * field (zero : Bytes n) (off + 1) w = 0
    rw [ih, byte_zero]
    rfl

/-- What is stored is read back. -/
theorem field_setField {b : Bytes n} {off w v : Nat} (hfit : off + w ≤ n) (hv : v < 256 ^ w) :
    (b.setField off w v).field off w = v := by
  rw [field_digits (v := v), Nat.mod_eq_of_lt hv]
  intro j hj
  unfold setField
  rw [byte_write, if_pos (by omega), Nat.add_sub_cancel_left]

/-- A number outside the range is not touched. -/
theorem field_write_ne {b : Bytes n} {off len off' w : Nat} {f : Nat → BitVec 8}
    (h : off' + w ≤ off ∨ off + len ≤ off') : (b.write off len f).field off' w = b.field off' w := by
  apply field_congr
  intro j hj
  rw [byte_write, if_neg (by omega)]

theorem field_setField_ne {b : Bytes n} {off w v off' w' : Nat}
    (h : off' + w' ≤ off ∨ off + w ≤ off') :
    (b.setField off w v).field off' w' = b.field off' w' :=
  field_write_ne h

end Bytes

end Xv6.Lib
