import Mathlib.Data.BitVec

/-!
# Addresses that do not wrap

Pointer arithmetic on machine words is arithmetic on numbers as long as nothing wraps.
-/

namespace Xv6.Lib

variable {w : Nat} {a b : BitVec w}

/-- `a + d`, counted in bytes. -/
theorem toNat_add_ofNat {d : Nat} (h : a.toNat + d < 2 ^ w) : (a + .ofNat w d).toNat = a.toNat + d := by
  rw [BitVec.toNat_add, BitVec.toNat_ofNat, Nat.add_mod_mod, Nat.mod_eq_of_lt h]

theorem toNat_add_of_lt (h : a.toNat + b.toNat < 2 ^ w) : (a + b).toNat = a.toNat + b.toNat := by
  rw [BitVec.toNat_add, Nat.mod_eq_of_lt h]

/-- A word that is not negative as an `int` is the same number without a sign. -/
theorem toInt_of_nonneg (h : 0 ≤ a.toInt) : a.toInt = a.toNat ∧ 2 * a.toNat < 2 ^ w := by
  have := a.isLt
  rw [BitVec.toInt_eq_toNat_cond] at h ⊢
  split at h
  · rename_i hlt
    rw [if_pos hlt]
    exact ⟨rfl, hlt⟩
  · omega

/-- A sum that is not less than its first part has not wrapped. -/
theorem toNat_add_of_le (h : a ≤ a + b) : (a + b).toNat = a.toNat + b.toNat := by
  rw [BitVec.le_def, BitVec.toNat_add] at h
  rw [BitVec.toNat_add]
  have ha := a.isLt
  have hb := b.isLt
  apply Nat.mod_eq_of_lt
  by_contra hge
  rw [Nat.mod_eq_sub_mod (by omega), Nat.mod_eq_of_lt (by omega)] at h
  omega

end Xv6.Lib
