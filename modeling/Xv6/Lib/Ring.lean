import Mathlib.Data.BitVec

/-!
# Rings with free-running counters

A queue in an array of `n` cells. Its two counters are words that only ever grow and wrap around;
a cell is found by the remainder of a counter. This works because `n` divides the number of words,
and a full ring differs from an empty one because it is smaller.

`Ring` says which queue the cells between the counters hold; `Ring.push` and `Ring.pop` are the two
moves, and the tests that the code makes on the counters are `Ring.empty_iff` and `Ring.full_iff`.
-/

namespace Xv6.Lib

variable {β : Type} {n w : Nat} {data : Fin n → β} {head tail : BitVec w} {q : List β} {b : β}

/-- The cells from `head` up to `tail` hold the queue `q`. -/
structure Ring (data : Fin n → β) (head tail : BitVec w) (q : List β) : Prop where
  len : (tail - head).toNat = q.length
  le : q.length ≤ n
  cell : ∀ (k : Fin n) (j : Nat) (hj : j < q.length), (head.toNat + j) % n = k.val → data k = q[j]

theorem Ring.nil (data : Fin n → β) (head : BitVec w) : Ring data head head [] where
  len := by simp
  le := Nat.zero_le n
  cell _ _ hj := by cases hj

/-- The counter `tail` counts on from `head`. -/
theorem Ring.tail_eq (h : Ring data head tail q) : tail = head + .ofNat w q.length := by
  rw [← h.len, BitVec.ofNat_toNat, BitVec.setWidth_eq, BitVec.add_comm, BitVec.sub_add_cancel]

theorem Ring.empty_iff (h : Ring data head tail q) : head = tail ↔ q = [] := by
  constructor
  · rintro rfl
    rw [← List.length_eq_zero_iff, ← h.len, BitVec.sub_self]
    rfl
  · rintro rfl
    rw [h.tail_eq, List.length_nil]
    exact (BitVec.add_zero head).symm

theorem Ring.full_iff (h : Ring data head tail q) (hn : n < 2 ^ w) :
    tail = head + .ofNat w n ↔ q.length = n := by
  constructor
  · intro h0
    have hsub : tail - head = .ofNat w n := by
      rw [h0, BitVec.add_comm, BitVec.add_sub_cancel]
    rw [← h.len, hsub, BitVec.toNat_ofNat, Nat.mod_eq_of_lt hn]
  · intro h0
    rw [← h0]
    exact h.tail_eq

theorem Ring.tail_mod (h : Ring data head tail q) (hd : n ∣ 2 ^ w) :
    tail.toNat % n = (head.toNat + q.length) % n := by
  rw [h.tail_eq, BitVec.toNat_add, BitVec.toNat_ofNat, Nat.add_mod_mod, Nat.mod_mod_of_dvd _ hd]

/-- One more at the end. -/
theorem Ring.push (h : Ring data head tail q) (hd : n ∣ 2 ^ w) (hn : n < 2 ^ w)
    (hroom : q.length < n) :
    Ring (fun k => if k.val = tail.toNat % n then b else data k) head (tail + 1) (q ++ [b]) where
  len := by
    rw [add_sub_right_comm, BitVec.toNat_add, h.len, List.length_append, List.length_singleton]
    have : (1 : BitVec w).toNat = 1 % 2 ^ w := BitVec.toNat_ofNat 1 w
    rw [this, Nat.add_mod_mod, Nat.mod_eq_of_lt (by omega)]
  le := by
    rw [List.length_append, List.length_singleton]
    exact hroom
  cell k j hj hk := by
    rw [List.length_append, List.length_singleton] at hj
    rw [h.tail_mod hd, ← hk]
    by_cases hlast : j = q.length
    · subst hlast
      rw [if_pos rfl, List.getElem_concat_length rfl]
    · have hj' : j < q.length := by omega
      -- two different positions of a ring that is not full are different cells
      have hne : (head.toNat + j) % n ≠ (head.toNat + q.length) % n := by
        intro h0
        have hdvd : n ∣ (head.toNat + q.length) - (head.toNat + j) :=
          Nat.dvd_of_mod_eq_zero (Nat.sub_mod_eq_zero_of_mod_eq h0.symm)
        have := Nat.eq_zero_of_dvd_of_lt hdvd (by omega)
        omega
      rw [if_neg hne, List.getElem_append_left hj']
      exact h.cell k j hj' hk

/-- The first one leaves; its cell held it. -/
theorem Ring.pop (h : Ring data head tail (b :: q)) (hd : n ∣ 2 ^ w) (hn : n < 2 ^ w) :
    Ring data (head + 1) tail q ∧ ∀ k : Fin n, k.val = head.toNat % n → data k = b := by
  have hle : q.length + 1 ≤ n := h.le
  have hone : (1 : BitVec w).toNat = 1 := by
    have : (1 : BitVec w).toNat = 1 % 2 ^ w := BitVec.toNat_ofNat 1 w
    rw [this, Nat.mod_eq_of_lt (by omega)]
  refine ⟨⟨?_, by omega, fun k j hj hk => ?_⟩, fun k hk => ?_⟩
  · have hlen : (tail - head).toNat = q.length + 1 := h.len
    rw [sub_add_eq_sub_sub, BitVec.toNat_sub_of_le, hlen, hone, Nat.add_sub_cancel]
    rw [BitVec.le_def, hone, hlen]
    omega
  · have hj' : j + 1 < (b :: q).length := Nat.succ_lt_succ hj
    refine h.cell k (j + 1) hj' ?_
    rw [← hk, BitVec.toNat_add, hone, Nat.add_mod _ j, Nat.mod_mod_of_dvd _ hd, ← Nat.add_mod,
      Nat.add_right_comm, Nat.add_assoc]
  · exact h.cell k 0 (Nat.zero_lt_succ _) (by rw [Nat.add_zero]; exact hk.symm)

theorem Ring.tail_iff (h : Ring data head tail q) (hn : n < 2 ^ w) {k : Nat} (hk : k ≤ n) :
    tail = head + .ofNat w k ↔ q.length = k := by
  constructor
  · intro h0
    have hsub : tail - head = .ofNat w k := by
      rw [h0, BitVec.add_comm, BitVec.add_sub_cancel]
    rw [← h.len, hsub, BitVec.toNat_ofNat, Nat.mod_eq_of_lt (by omega)]
  · rintro rfl
    exact h.tail_eq

/-- The last one is taken back; its cell held it. -/
theorem Ring.unpush (h : Ring data head tail (q ++ [b])) (hd : n ∣ 2 ^ w) (hn : n < 2 ^ w) :
    Ring data head (tail - 1) q ∧ ∀ k : Fin n, k.val = (tail - 1).toNat % n → data k = b := by
  have hlen : (q ++ [b]).length = q.length + 1 := List.length_append
  have hle := h.le
  have htail : tail - 1 = head + .ofNat w q.length := by
    rw [h.tail_eq, hlen, BitVec.ofNat_add, ← BitVec.add_assoc]
    exact BitVec.add_sub_cancel _ _
  have hring : Ring data head (tail - 1) q := by
    refine ⟨?_, by omega, fun k j hj hk => ?_⟩
    · rw [htail, BitVec.add_comm, BitVec.add_sub_cancel, BitVec.toNat_ofNat,
        Nat.mod_eq_of_lt (by omega)]
    · rw [h.cell k j (by omega) hk, List.getElem_append_left hj]
  refine ⟨hring, fun k hk => ?_⟩
  rw [hring.tail_mod hd] at hk
  rw [h.cell k q.length (by omega) hk.symm, List.getElem_concat_length rfl]

end Xv6.Lib
