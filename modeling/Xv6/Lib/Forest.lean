import Mathlib.Data.List.Induction
import Mathlib.Data.List.Nodup
import Mathlib.Logic.Function.Basic

/-!
# Forests of pointers

Trees that lie in numbered blocks. Each root holds a pointer, and `ptr a j` is the `j`-th pointer in
block `a`; a tree has pointers down to the depth of its root, and what lies in the blocks below that
is none of the forest's business. The pointer 0 is null.

A place is a root and a path of indices. `Forest` says that the pointers at different places are
different, so that a pointer lies in one block only and is changed by changing that block alone.
`Grown` is the one way in which a forest grows: a place that was null gets a new block, and every
other place keeps its pointer.
-/

namespace Xv6.Lib

variable {ρ : Type} {depth : ρ → Nat} {root root' : ρ → Nat} {ptr ptr' : Nat → Nat → Nat}
  {r : ρ} {p q : List Nat} {a b j : Nat}

/-- The pointer at the end of a path from the pointer `a`. -/
def follow (ptr : Nat → Nat → Nat) : Nat → List Nat → Nat
  | a, [] => a
  | a, j :: p => if a = 0 then 0 else follow ptr (ptr a j) p

@[simp] theorem follow_zero : follow ptr 0 p = 0 := by
  cases p <;> rfl

theorem follow_snoc (a : Nat) (p : List Nat) (j : Nat) :
    follow ptr a (p ++ [j]) = if follow ptr a p = 0 then 0 else ptr (follow ptr a p) j := by
  induction p generalizing a with
  | nil => rfl
  | cons i p ih =>
    by_cases ha : a = 0
    · simp [follow, ha]
    · simp only [List.cons_append, follow, ha, if_false]
      exact ih (ptr a i)

/-- Nothing lies behind a null pointer. -/
theorem follow_ne_zero_of_append {a : Nat} {p q : List Nat} (h : follow ptr a (p ++ q) ≠ 0) :
    follow ptr a p ≠ 0 := by
  induction q using List.reverseRecOn with
  | nil => simpa using h
  | append_singleton q j ih =>
    rw [← List.append_assoc, follow_snoc] at h
    exact ih fun h0 => h (by rw [if_pos h0])

/-- Different places hold different pointers. -/
structure Forest (depth : ρ → Nat) (root : ρ → Nat) (ptr : Nat → Nat → Nat) : Prop where
  inj : ∀ r r' p p', p.length ≤ depth r → p'.length ≤ depth r' → follow ptr (root r) p ≠ 0 →
    follow ptr (root r) p = follow ptr (root r') p' → r = r' ∧ p = p'

/-- Block `b` is at some place. -/
def Occurs (depth : ρ → Nat) (root : ρ → Nat) (ptr : Nat → Nat → Nat) (b : Nat) : Prop :=
  ∃ r p, p.length ≤ depth r ∧ follow ptr (root r) p = b

/-- The place at `p` under `r` holds `b` now, and all others hold what they held. -/
def Grown (depth : ρ → Nat) (root : ρ → Nat) (ptr : Nat → Nat → Nat) (root' : ρ → Nat)
    (ptr' : Nat → Nat → Nat) (r : ρ) (p : List Nat) (b : Nat) : Prop :=
  ∀ r' p', p'.length ≤ depth r' →
    ((r' = r ∧ p' = p) ∧ follow ptr' (root' r') p' = b) ∨
    (¬ (r' = r ∧ p' = p) ∧ follow ptr' (root' r') p' = follow ptr (root r') p')

/-- A forest stays one when a block that does not occur in it is added. -/
theorem Forest.grown (h : Forest depth root ptr) (hg : Grown depth root ptr root' ptr' r p b)
    (hfresh : ¬ Occurs depth root ptr b) : Forest depth root' ptr' where
  inj r₁ r₂ p₁ p₂ h₁ h₂ hne heq := by
    rcases hg r₁ p₁ h₁ with ⟨⟨rfl, rfl⟩, e₁⟩ | ⟨-, e₁⟩
    · rcases hg r₂ p₂ h₂ with ⟨⟨rfl, rfl⟩, -⟩ | ⟨-, e₂⟩
      · exact ⟨rfl, rfl⟩
      · exact absurd ⟨r₂, p₂, h₂, by rw [← e₂, ← heq, e₁]⟩ hfresh
    · rcases hg r₂ p₂ h₂ with ⟨⟨rfl, rfl⟩, e₂⟩ | ⟨-, e₂⟩
      · exact absurd ⟨r₁, p₁, h₁, by rw [← e₁, heq, e₂]⟩ hfresh
      · rw [e₁] at hne
        exact h.inj r₁ r₂ p₁ p₂ h₁ h₂ hne (by rw [← e₁, heq, e₂])

/-- What occurs in the grown forest: what occurred, and the new block. -/
theorem Grown.occurs (hg : Grown depth root ptr root' ptr' r p b) (hp : p.length ≤ depth r)
    (hnull : follow ptr (root r) p = 0) {c : Nat} (hc : c ≠ 0) :
    Occurs depth root' ptr' c ↔ Occurs depth root ptr c ∨ c = b := by
  constructor
  · rintro ⟨r', p', hp', rfl⟩
    rcases hg r' p' hp' with ⟨-, e⟩ | ⟨-, e⟩
    · exact .inr e
    · exact .inl ⟨r', p', hp', e.symm⟩
  · rintro (⟨r', p', hp', rfl⟩ | rfl)
    · rcases hg r' p' hp' with ⟨⟨rfl, rfl⟩, -⟩ | ⟨-, e⟩
      · exact absurd hnull hc
      · exact ⟨r', p', hp', e⟩
    · rcases hg r p hp with ⟨-, e⟩ | ⟨hne, -⟩
      · exact ⟨r, p, hp, e⟩
      · exact absurd ⟨rfl, rfl⟩ hne

/-- A null pointer in block `a` is set to a new block. -/
theorem Forest.grow (h : Forest depth root ptr) (hlen : (q ++ [j]).length ≤ depth r)
    (ha : follow ptr (root r) q = a) (ha0 : a ≠ 0) (hnull : ptr a j = 0)
    (hfresh : ¬ Occurs depth root ptr b) (hset : ptr' a j = b) (hnew : ∀ i, ptr' b i = 0)
    (hkeep : ∀ c i, c ≠ b → (c ≠ a ∨ i ≠ j) → ptr' c i = ptr c i) :
    Grown depth root ptr root ptr' r (q ++ [j]) b := by
  intro r' p'
  -- from the root down: the block of a place is found by what the place above it holds
  induction p' using List.reverseRecOn with
  | nil =>
    intro _
    exact .inr ⟨by simp, rfl⟩
  | append_singleton q' j' ih =>
    intro hlen'
    have hq' : q'.length ≤ depth r' := by simp only [List.length_append, List.length_singleton] at hlen'; omega
    have hfr : ∀ v, follow ptr (root r') q' = v → v ≠ b := by
      rintro v hv rfl
      exact hfresh ⟨r', q', hq', hv⟩
    rw [follow_snoc, follow_snoc]
    rcases ih hq' with ⟨⟨rfl, rfl⟩, e⟩ | ⟨-, e⟩
    · -- below the new block: null before, since the place was, and null now
      refine .inr ⟨fun h => by have := congrArg List.length h.2; simp at this, ?_⟩
      have hz : follow ptr (root r') (q ++ [j]) = 0 := by
        rw [follow_snoc, ha, if_neg ha0, hnull]
      rw [e, hz, hnew]
      simp
    · rw [e]
      by_cases hv0 : follow ptr (root r') q' = 0
      · refine .inr ⟨?_, by rw [if_pos hv0, if_pos hv0]⟩
        rintro ⟨rfl, heq⟩
        obtain ⟨rfl, -⟩ := List.append_inj' heq rfl
        exact ha0 (ha.symm.trans hv0)
      · rw [if_neg hv0, if_neg hv0]
        by_cases hva : follow ptr (root r') q' = a
        · obtain ⟨rfl, rfl⟩ := h.inj r' r q' q hq' (by simp at hlen; omega) hv0 (hva.trans ha.symm)
          rw [hva]
          by_cases hj : j' = j
          · subst hj
            exact .inl ⟨⟨rfl, rfl⟩, hset⟩
          · refine .inr ⟨fun h => hj (by simpa using h.2), hkeep a j' (hfr a hva) (.inr hj)⟩
        · refine .inr ⟨?_, hkeep _ j' (hfr _ rfl) (.inl hva)⟩
          rintro ⟨rfl, heq⟩
          obtain ⟨rfl, -⟩ := List.append_inj' heq rfl
          exact hva ha

/-- A null root is set to a new block. -/
theorem Forest.growRoot (hnull : root r = 0) (hfresh : ¬ Occurs depth root ptr b)
    (hset : root' r = b) (hroot : ∀ r', r' ≠ r → root' r' = root r') (hnew : ∀ i, ptr' b i = 0)
    (hkeep : ∀ c i, c ≠ b → ptr' c i = ptr c i) : Grown depth root ptr root' ptr' r [] b := by
  intro r' p'
  induction p' using List.reverseRecOn with
  | nil =>
    intro _
    by_cases hr : r' = r
    · subst hr
      exact .inl ⟨⟨rfl, rfl⟩, hset⟩
    · exact .inr ⟨fun h => hr h.1, hroot r' hr⟩
  | append_singleton q' j' ih =>
    intro hlen'
    have hq' : q'.length ≤ depth r' := by simp only [List.length_append, List.length_singleton] at hlen'; omega
    refine .inr ⟨by simp, ?_⟩
    rw [follow_snoc, follow_snoc]
    rcases ih hq' with ⟨⟨rfl, rfl⟩, e⟩ | ⟨-, e⟩
    · rw [e, hnew]
      simp [hnull]
    · rw [e]
      by_cases hv0 : follow ptr (root r') q' = 0
      · rw [if_pos hv0, if_pos hv0]
      · rw [if_neg hv0, if_neg hv0]
        exact hkeep _ j' fun h => hfresh ⟨r', q', hq', h⟩

/-- Blocks at the full depth of their root hold no pointers: writing one moves no place. -/
theorem Forest.leaf (h : Forest depth root ptr) (hp : p.length = depth r)
    (ha : follow ptr (root r) p = a) (hkeep : ∀ c i, c ≠ a → ptr' c i = ptr c i) :
    ∀ r' p', p'.length ≤ depth r' → follow ptr' (root r') p' = follow ptr (root r') p' := by
  intro r' p'
  induction p' using List.reverseRecOn with
  | nil => intro _; rfl
  | append_singleton q' j' ih =>
    intro hlen'
    have hq' : q'.length < depth r' := by simp only [List.length_append, List.length_singleton] at hlen'; omega
    rw [follow_snoc, follow_snoc, ih (Nat.le_of_lt hq')]
    by_cases hv0 : follow ptr (root r') q' = 0
    · rw [if_pos hv0, if_pos hv0]
    · rw [if_neg hv0, if_neg hv0]
      refine hkeep _ j' fun hva => ?_
      obtain ⟨rfl, rfl⟩ := h.inj r' r q' p (Nat.le_of_lt hq') (Nat.le_of_eq hp) hv0 (hva.trans ha.symm)
      omega

/-! ## The blocks of a tree -/

/-- The blocks of the tree at `a`, with `d` levels of index blocks of `n` entries each: those of the
subtrees, and then `a`. -/
def below (ptr : Nat → Nat → Nat) (n : Nat) : Nat → Nat → List Nat
  | 0, a => [a]
  | d + 1, a =>
    ((List.range n).flatMap fun j => if ptr a j = 0 then [] else below ptr n d (ptr a j)) ++ [a]

variable {n d : Nat}

theorem exists_path_of_mem_below : ∀ {d a : Nat}, a ≠ 0 → b ∈ below ptr n d a →
    b ≠ 0 ∧ ∃ p, p.length ≤ d ∧ follow ptr a p = b := by
  intro d
  induction d with
  | zero =>
    intro a ha hb
    obtain rfl : b = a := List.mem_singleton.1 hb
    exact ⟨ha, [], Nat.le_refl 0, rfl⟩
  | succ d ih =>
    intro a ha hb
    rcases List.mem_append.1 hb with hb | hb
    · obtain ⟨j, -, hb⟩ := List.mem_flatMap.1 hb
      split at hb
      next => exact absurd hb List.not_mem_nil
      next h0 =>
        obtain ⟨hb0, p, hp, he⟩ := ih h0 hb
        refine ⟨hb0, j :: p, Nat.succ_le_succ hp, ?_⟩
        simp only [follow, if_neg ha]
        exact he
    · obtain rfl : b = a := List.mem_singleton.1 hb
      exact ⟨ha, [], Nat.zero_le _, rfl⟩

theorem mem_below_of_path (hn : ∀ a j, n ≤ j → ptr a j = 0) : ∀ {d a : Nat} {p : List Nat},
    p.length ≤ d → follow ptr a p = b → b ≠ 0 → b ∈ below ptr n d a := by
  intro d
  induction d with
  | zero =>
    intro a p hp he _
    obtain rfl : p = [] := List.eq_nil_of_length_eq_zero (Nat.le_zero.1 hp)
    exact List.mem_singleton.2 he.symm
  | succ d ih =>
    intro a p hp he hb
    cases p with
    | nil => exact List.mem_append_right _ (List.mem_singleton.2 he.symm)
    | cons j p =>
      have ha : a ≠ 0 := by
        rintro rfl
        exact hb (he.symm.trans (follow_zero))
      simp only [follow, if_neg ha] at he
      have h0 : ptr a j ≠ 0 := by
        intro h0
        rw [h0, follow_zero] at he
        exact hb he.symm
      have hj : j < n := by
        by_contra hj
        exact h0 (hn a j (Nat.le_of_not_lt hj))
      refine List.mem_append_left _ (List.mem_flatMap.2 ⟨j, List.mem_range.2 hj, ?_⟩)
      rw [if_neg h0]
      exact ih (Nat.le_of_succ_le_succ hp) he hb

/-- A tree whose places hold different blocks lists each of them once. -/
theorem nodup_below : ∀ {d a : Nat}, a ≠ 0 →
    (∀ p p', p.length ≤ d → p'.length ≤ d → follow ptr a p ≠ 0 →
      follow ptr a p = follow ptr a p' → p = p') → (below ptr n d a).Nodup := by
  intro d
  induction d with
  | zero =>
    intro a _ _
    exact List.nodup_singleton a
  | succ d ih =>
    intro a ha hinj
    have hcons : ∀ j p, follow ptr a (j :: p) = follow ptr (ptr a j) p := fun j p => by
      simp only [follow, if_neg ha]
    refine List.nodup_append.2 ⟨List.nodup_flatMap.2 ⟨?_, ?_⟩, List.nodup_singleton a, ?_⟩
    · intro j _
      split
      next => exact List.nodup_nil
      next h0 =>
        refine ih h0 fun p p' hp hp' hne he => ?_
        have := hinj (j :: p) (j :: p') (Nat.succ_le_succ hp) (Nat.succ_le_succ hp')
          (by rw [hcons]; exact hne) (by rw [hcons, hcons]; exact he)
        exact (List.cons.inj this).2
    · -- what lies below two entries is at places that differ in the first index
      refine List.nodup_range.imp ?_
      intro j j' hjj' b hb hb'
      simp only at hb hb'
      split at hb
      next => exact List.not_mem_nil hb
      next h0 =>
        split at hb'
        next => exact List.not_mem_nil hb'
        next h0' =>
          obtain ⟨hb0, p, hp, he⟩ := exists_path_of_mem_below h0 hb
          obtain ⟨-, p', hp', he'⟩ := exists_path_of_mem_below h0' hb'
          have := hinj (j :: p) (j' :: p') (Nat.succ_le_succ hp) (Nat.succ_le_succ hp')
            (by rw [hcons, he]; exact hb0) (by rw [hcons, hcons, he, he'])
          exact hjj' (List.cons.inj this).1
    · intro b hb c hc
      obtain rfl : c = a := List.mem_singleton.1 hc
      rintro rfl
      obtain ⟨j, -, hb⟩ := List.mem_flatMap.1 hb
      split at hb
      next => exact List.not_mem_nil hb
      next h0 =>
        obtain ⟨hb0, p, hp, he⟩ := exists_path_of_mem_below h0 hb
        have := hinj (j :: p) [] (Nat.succ_le_succ hp) (Nat.zero_le _)
          (by rw [hcons, he]; exact hb0) (by rw [hcons, he]; rfl)
        exact List.cons_ne_nil _ _ this

end Xv6.Lib
