import Mathlib.Logic.Function.Basic

/-!
# Maps kept in slots

A finite map is kept in the first `size` of a row of slots, each of which is free or has a key and a
value. A search takes the first slot with its key, a new key goes into the first free slot or behind
the last one, and a key is removed by clearing its slot. When no key is in two slots the search,
the insertion and the removal are those of a map: `Distinct.insert` and `Distinct.remove`.
-/

namespace Xv6.Lib

/-- Only the slots below `size` count. -/
structure Slots (κ β : Type*) where
  size : Nat
  slot : Nat → Option (κ × β)

namespace Slots

variable {κ β : Type*} {t : Slots κ β} {k k' : κ} {v : β} {j : Nat}

/-- Slot `j` is written. -/
def set (t : Slots κ β) (j : Nat) (x : Option (κ × β)) : Slots κ β where
  size := max t.size (j + 1)
  slot := Function.update t.slot j x

/-- No key is in two slots. -/
def Distinct (t : Slots κ β) : Prop :=
  ∀ a b, a < t.size → b < t.size → ∀ k v w, t.slot a = some (k, v) → t.slot b = some (k, w) → a = b

theorem slot_set_self {x : Option (κ × β)} : (t.set j x).slot j = x :=
  Function.update_self ..

theorem slot_set_ne {x : Option (κ × β)} {a : Nat} (ha : a ≠ j) :
    (t.set j x).slot a = t.slot a :=
  Function.update_of_ne ha ..

/-- What a slot in use had before the slot `j` was written. -/
theorem slot_of_set {x : Option (κ × β)} {a : Nat} {y : κ × β} (hj : j ≤ t.size)
    (ha : a < (t.set j x).size) (hs : (t.set j x).slot a = some y) :
    a = j ∧ x = some y ∨ a ≠ j ∧ a < t.size ∧ t.slot a = some y := by
  have ha : a < max t.size (j + 1) := ha
  by_cases haj : a = j
  · subst haj
    rw [slot_set_self] at hs
    exact .inl ⟨rfl, hs⟩
  · rw [slot_set_ne haj] at hs
    exact .inr ⟨haj, by omega, hs⟩

variable [DecidableEq κ]

/-- The first slot with key `k`, and its value. -/
def find (t : Slots κ β) (k : κ) : Option (Nat × β) :=
  (List.range t.size).findSome? fun j =>
    (t.slot j).bind fun x => if x.1 = k then some (j, x.2) else none

theorem find_eq_none : t.find k = none ↔ ∀ j < t.size, ∀ v, t.slot j ≠ some (k, v) := by
  unfold find
  rw [List.findSome?_eq_none_iff]
  constructor
  · intro h j hj v hv
    have hnone := h j (List.mem_range.mpr hj)
    rw [hv] at hnone
    simp at hnone
  · intro h j hj
    cases hs : t.slot j with
    | none => rfl
    | some x =>
      obtain ⟨k', v⟩ := x
      have hne : k' ≠ k := by
        rintro rfl
        exact h j (List.mem_range.mp hj) v hs
      simp [hne]

/-- The slot that is found has the key. -/
theorem slot_of_find (h : t.find k = some (j, v)) : j < t.size ∧ t.slot j = some (k, v) := by
  unfold find at h
  obtain ⟨a, ha, hsome⟩ := List.exists_of_findSome?_eq_some h
  obtain ⟨⟨k', w⟩, hs, hif⟩ := Option.bind_eq_some_iff.mp hsome
  split at hif
  · rename_i hk
    cases hif
    cases hk
    exact ⟨List.mem_range.mp ha, hs⟩
  · cases hif

theorem Distinct.find_eq_some (h : t.Distinct) :
    t.find k = some (j, v) ↔ j < t.size ∧ t.slot j = some (k, v) := by
  constructor
  · exact slot_of_find
  · rintro ⟨hj, hs⟩
    cases hf : t.find k with
    | none => exact absurd hs (find_eq_none.mp hf j hj v)
    | some x =>
      obtain ⟨a, w⟩ := x
      obtain ⟨ha, hsa⟩ := slot_of_find hf
      obtain rfl : a = j := h a j ha hj k w v hsa hs
      rw [hs] at hsa
      cases hsa
      rfl

/-- Two maps that agree on the slots of a key agree on the key. -/
theorem Distinct.find_congr {t' : Slots κ β} (h : t.Distinct) (h' : t'.Distinct)
    (heq : ∀ a v, a < t'.size ∧ t'.slot a = some (k, v) ↔ a < t.size ∧ t.slot a = some (k, v)) :
    t'.find k = t.find k := by
  apply Option.ext
  rintro ⟨a, v⟩
  rw [h.find_eq_some, h'.find_eq_some]
  exact heq a v

/-- Slot `j` is written, and had a key that is `k` if any. -/
theorem Distinct.find_set_ne {x : Option (κ × β)} (h : t.Distinct) (h' : (t.set j x).Distinct)
    (hj : j ≤ t.size) (hx : ∀ w, x ≠ some (k', w))
    (hold : ∀ w, j < t.size → t.slot j ≠ some (k', w)) : (t.set j x).find k' = t.find k' := by
  refine h.find_congr h' fun a w => ⟨?_, ?_⟩
  · rintro ⟨ha, hs⟩
    rcases slot_of_set hj ha hs with ⟨-, heq⟩ | ⟨-, hlt, hs⟩
    · exact absurd heq (hx w)
    · exact ⟨hlt, hs⟩
  · rintro ⟨ha, hs⟩
    have hne : a ≠ j := by
      rintro rfl
      exact hold w ha hs
    exact ⟨Nat.lt_of_lt_of_le ha (Nat.le_max_left ..), (slot_set_ne hne).trans hs⟩

/-- A new key goes into a free slot, or behind the last one. -/
theorem Distinct.insert (h : t.Distinct) (hnew : t.find k = none) (hj : j ≤ t.size)
    (hfree : j < t.size → t.slot j = none) :
    (t.set j (some (k, v))).Distinct ∧ (t.set j (some (k, v))).find k = some (j, v) ∧
      ∀ k', k' ≠ k → (t.set j (some (k, v))).find k' = t.find k' := by
  have hnone := find_eq_none.mp hnew
  have hdist : (t.set j (some (k, v))).Distinct := by
    intro a b ha hb k₁ v₁ v₂ hsa hsb
    rcases slot_of_set hj ha hsa with ⟨rfl, heq⟩ | ⟨-, hlt, hsa⟩
    · cases heq
      rcases slot_of_set hj hb hsb with ⟨rfl, -⟩ | ⟨-, hlt, hsb⟩
      · rfl
      · exact absurd hsb (hnone b hlt v₂)
    · rcases slot_of_set hj hb hsb with ⟨-, heq⟩ | ⟨-, hlt', hsb⟩
      · cases heq
        exact absurd hsa (hnone a hlt v₁)
      · exact h a b hlt hlt' k₁ v₁ v₂ hsa hsb
  refine ⟨hdist, ?_, ?_⟩
  · rw [hdist.find_eq_some]
    exact ⟨Nat.le_max_right .., slot_set_self⟩
  · intro k' hk
    refine h.find_set_ne hdist hj ?_ ?_
    · intro w heq
      cases heq
      exact hk rfl
    · intro w hlt
      rw [hfree hlt]
      nofun

/-- The key of a slot goes when the slot is cleared, and no other key does. -/
theorem Distinct.remove (h : t.Distinct) (hfind : t.find k = some (j, v)) :
    (t.set j none).Distinct ∧ (t.set j none).find k = none ∧
      ∀ k', k' ≠ k → (t.set j none).find k' = t.find k' := by
  obtain ⟨hlt, hs⟩ := slot_of_find hfind
  have hdist : (t.set j none).Distinct := by
    intro a b ha hb k₁ v₁ v₂ hsa hsb
    rcases slot_of_set (Nat.le_of_lt hlt) ha hsa with ⟨-, heq⟩ | ⟨-, hlt₁, hsa⟩
    · cases heq
    · rcases slot_of_set (Nat.le_of_lt hlt) hb hsb with ⟨-, heq⟩ | ⟨-, hlt₂, hsb⟩
      · cases heq
      · exact h a b hlt₁ hlt₂ k₁ v₁ v₂ hsa hsb
  refine ⟨hdist, ?_, ?_⟩
  · rw [find_eq_none]
    intro a ha w hw
    rcases slot_of_set (Nat.le_of_lt hlt) ha hw with ⟨-, heq⟩ | ⟨hne, hlt₁, hw⟩
    · cases heq
    · exact hne (h a j hlt₁ hlt k w v hw hs)
  · intro k' hk
    refine h.find_set_ne hdist (Nat.le_of_lt hlt) nofun ?_
    intro w _ heq
    rw [hs] at heq
    cases heq
    exact hk rfl

end Slots

end Xv6.Lib
