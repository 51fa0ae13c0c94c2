import Mathlib.Data.Finset.Card
import Mathlib.Data.List.Nodup
import Mathlib.Logic.Function.Basic

/-!
# Pages and their owners

An allocator hands out numbered pages; each page it has handed out is named by at most one key,
and a page on the free list by none. `Pages.map` and `Pages.unmap` are the two moves between
them, so that a loop that maps or unmaps pages keeps `Pages` by induction alone. `taken` are
pages that are in use without a key. `Covers` says of a pool of pages that none of them is lost.
-/

namespace Xv6.Lib

open Function

variable {κ ι : Type} {own own' : κ → Option Nat} {free taken : List Nat} {valid : Nat → Prop}
  {j k : κ} {f : Nat}

/-- No page is in two places. -/
structure Pages (valid : Nat → Prop) (own : κ → Option Nat) (free taken : List Nat) : Prop where
  inj : ∀ j k f, own j = some f → own k = some f → j = k
  apart : ∀ k f, own k = some f → f ∉ free ∧ f ∉ taken
  nodup : (free ++ taken).Nodup
  valid_own : ∀ k f, own k = some f → valid f
  valid_rest : ∀ f ∈ free ++ taken, valid f

/-- The first free page goes to a key that has none. -/
theorem Pages.map [DecidableEq κ] (h : Pages valid own (f :: free) taken) (hk : own k = none) :
    Pages valid (update own k (some f)) free taken := by
  have hf : ∀ j, own j ≠ some f := fun j hj => (h.apart j f hj).1 List.mem_cons_self
  have hnd := List.nodup_cons.mp (by simpa using h.nodup : (f :: (free ++ taken)).Nodup)
  have hcases : ∀ {j g}, update own k (some f) j = some g → j = k ∧ g = f ∨ own j = some g := by
    intro j g hj
    by_cases hjk : j = k
    · subst hjk
      rw [update_self] at hj
      exact .inl ⟨rfl, (Option.some.inj hj).symm⟩
    · rw [update_of_ne hjk] at hj
      exact .inr hj
  refine ⟨fun i j g hi hj => ?_, fun j g hj => ?_, hnd.2, fun j g hj => ?_, fun g hg => ?_⟩
  · rcases hcases hi with ⟨hik, hgi⟩ | hi'
    · rcases hcases hj with ⟨hjk, -⟩ | hj'
      · rw [hik, hjk]
      · rw [hgi] at hj'
        exact absurd hj' (hf j)
    · rcases hcases hj with ⟨-, hgj⟩ | hj'
      · rw [hgj] at hi'
        exact absurd hi' (hf i)
      · exact h.inj i j g hi' hj'
  · rcases hcases hj with ⟨-, rfl⟩ | hj
    · exact ⟨fun h0 => hnd.1 (List.mem_append_left _ h0), fun h0 => hnd.1 (List.mem_append_right _ h0)⟩
    · exact ⟨fun h0 => (h.apart j g hj).1 (List.mem_cons_of_mem _ h0), (h.apart j g hj).2⟩
  · rcases hcases hj with ⟨-, rfl⟩ | hj
    · exact h.valid_rest g List.mem_cons_self
    · exact h.valid_own j g hj
  · exact h.valid_rest g (List.mem_cons_of_mem _ hg)

/-- A key gives its page back. -/
theorem Pages.unmap [DecidableEq κ] (h : Pages valid own free taken) (hk : own k = some f) :
    Pages valid (update own k none) (f :: free) taken := by
  have hcases : ∀ {j g}, update own k none j = some g → j ≠ k ∧ own j = some g := by
    intro j g hj
    by_cases hjk : j = k
    · subst hjk
      rw [update_self] at hj
      cases hj
    · rw [update_of_ne hjk] at hj
      exact ⟨hjk, hj⟩
  have hne : ∀ {j g}, j ≠ k → own j = some g → g ≠ f := by
    rintro j g hjk hj rfl
    exact hjk (h.inj j k g hj hk)
  refine ⟨fun i j g hi hj => h.inj i j g (hcases hi).2 (hcases hj).2, fun j g hj => ?_, ?_,
    fun j g hj => h.valid_own j g (hcases hj).2, fun g hg => ?_⟩
  · obtain ⟨hjk, hj⟩ := hcases hj
    refine ⟨fun h0 => ?_, (h.apart j g hj).2⟩
    rcases List.mem_cons.mp h0 with h0 | h0
    · exact hne hjk hj h0
    · exact (h.apart j g hj).1 h0
  · rw [List.cons_append, List.nodup_cons]
    refine ⟨fun h0 => ?_, h.nodup⟩
    rcases List.mem_append.mp h0 with h0 | h0
    · exact (h.apart k f hk).1 h0
    · exact (h.apart k f hk).2 h0
  · rcases List.mem_cons.mp hg with rfl | hg
    · exact h.valid_own k g hk
    · exact h.valid_rest g hg

/-- The first free page is taken without a key. -/
theorem Pages.take (h : Pages valid own (f :: free) taken) : Pages valid own free (f :: taken) := by
  have hperm : (free ++ f :: taken).Perm (f :: free ++ taken) := List.perm_middle
  refine ⟨h.inj, fun k g hk => ?_, hperm.nodup_iff.mpr h.nodup, h.valid_own,
    fun g hg => h.valid_rest g (hperm.mem_iff.mp hg)⟩
  obtain ⟨h1, h2⟩ := h.apart k g hk
  refine ⟨fun h0 => h1 (List.mem_cons_of_mem _ h0), fun h0 => ?_⟩
  rcases List.mem_cons.mp h0 with rfl | h0
  · exact h1 List.mem_cons_self
  · exact h2 h0

/-- A page that was taken is given back. -/
theorem Pages.give (h : Pages valid own free taken) (hf : f ∈ taken) :
    Pages valid own (f :: free) (taken.erase f) := by
  have hperm : (f :: free ++ taken.erase f).Perm (free ++ taken) :=
    (List.perm_middle (a := f)).symm.trans ((List.perm_cons_erase hf).symm.append_left free)
  refine ⟨h.inj, fun k g hk => ?_, hperm.nodup_iff.mpr h.nodup, h.valid_own,
    fun g hg => h.valid_rest g (hperm.mem_iff.mp hg)⟩
  obtain ⟨h1, h2⟩ := h.apart k g hk
  refine ⟨fun h0 => ?_, fun h0 => h2 (List.mem_of_mem_erase h0)⟩
  rcases List.mem_cons.mp h0 with rfl | h0
  · exact h2 hf
  · exact h1 h0

/-- A page that was taken gets a key. -/
theorem Pages.assign [DecidableEq κ] (h : Pages valid own free (f :: taken)) (hk : own k = none) :
    Pages valid (update own k (some f)) free taken := by
  have hback : Pages valid own (f :: free) taken := by
    refine ⟨h.inj, fun j g hj => ?_, List.perm_middle.nodup_iff.mp h.nodup, h.valid_own,
      fun g hg => h.valid_rest g (List.perm_middle.mem_iff.mpr hg)⟩
    obtain ⟨h1, h2⟩ := h.apart j g hj
    refine ⟨fun h0 => ?_, fun h0 => h2 (List.mem_cons_of_mem _ h0)⟩
    rcases List.mem_cons.mp h0 with rfl | h0
    · exact h2 List.mem_cons_self
    · exact h1 h0
  exact hback.map hk

/-! ## A pool of pages -/

/-- Moreover no page of the pool is lost: each is free, taken, or named by a key. -/
structure Covers (pool : Nat → Prop) (own : κ → Option Nat) (free taken : List Nat) : Prop where
  pages : Pages pool own free taken
  full : ∀ f, pool f → f ∈ free ∨ f ∈ taken ∨ ∃ k, own k = some f

namespace Covers

variable {pool : Nat → Prop}

theorem map [DecidableEq κ] (h : Covers pool own (f :: free) taken) (hk : own k = none) :
    Covers pool (update own k (some f)) free taken := by
  refine ⟨h.pages.map hk, fun g hg => ?_⟩
  rcases h.full g hg with h0 | h0 | ⟨j, hj⟩
  · rcases List.mem_cons.mp h0 with rfl | h0
    · exact .inr (.inr ⟨k, update_self ..⟩)
    · exact .inl h0
  · exact .inr (.inl h0)
  · have hjk : j ≠ k := by
      rintro rfl
      rw [hk] at hj
      cases hj
    exact .inr (.inr ⟨j, (update_of_ne hjk ..).trans hj⟩)

theorem unmap [DecidableEq κ] (h : Covers pool own free taken) (hk : own k = some f) :
    Covers pool (update own k none) (f :: free) taken := by
  refine ⟨h.pages.unmap hk, fun g hg => ?_⟩
  rcases h.full g hg with h0 | h0 | ⟨j, hj⟩
  · exact .inl (List.mem_cons_of_mem _ h0)
  · exact .inr (.inl h0)
  · by_cases hjk : j = k
    · subst hjk
      rw [hk] at hj
      cases hj
      exact .inl List.mem_cons_self
    · exact .inr (.inr ⟨j, (update_of_ne hjk ..).trans hj⟩)

theorem take (h : Covers pool own (f :: free) taken) : Covers pool own free (f :: taken) := by
  refine ⟨h.pages.take, fun g hg => ?_⟩
  rcases h.full g hg with h0 | h0 | h0
  · rcases List.mem_cons.mp h0 with rfl | h0
    · exact .inr (.inl List.mem_cons_self)
    · exact .inl h0
  · exact .inr (.inl (List.mem_cons_of_mem _ h0))
  · exact .inr (.inr h0)

theorem assign [DecidableEq κ] (h : Covers pool own free (f :: taken)) (hk : own k = none) :
    Covers pool (update own k (some f)) free taken := by
  refine ⟨h.pages.assign hk, fun g hg => ?_⟩
  rcases h.full g hg with h0 | h0 | ⟨j, hj⟩
  · exact .inl h0
  · rcases List.mem_cons.mp h0 with rfl | h0
    · exact .inr (.inr ⟨k, update_self ..⟩)
    · exact .inr (.inl h0)
  · have hjk : j ≠ k := by
      rintro rfl
      rw [hk] at hj
      cases hj
    exact .inr (.inr ⟨j, (update_of_ne hjk ..).trans hj⟩)

/-- The page taken last is given back. -/
theorem give (h : Covers pool own free (f :: taken)) : Covers pool own (f :: free) taken := by
  have hgive := h.pages.give (f := f) List.mem_cons_self
  rw [List.erase_cons_head] at hgive
  refine ⟨hgive, fun g hg => ?_⟩
  rcases h.full g hg with h0 | h0 | h0
  · exact .inl (List.mem_cons_of_mem _ h0)
  · rcases List.mem_cons.mp h0 with rfl | h0
    · exact .inl List.mem_cons_self
    · exact .inr (.inl h0)
  · exact .inr (.inr h0)

/-- The other pages of a finite pool count as taken. -/
theorem exists_taken (h : Pages pool own free []) {n : Nat} (hpool : ∀ f, pool f → f < n) :
    ∃ taken, Covers pool own free taken := by
  classical
  refine ⟨(List.range n).filter fun f => pool f ∧ f ∉ free ∧ ∀ k, own k ≠ some f,
    ⟨h.inj, fun k f hk => ⟨(h.apart k f hk).1, fun h0 => ?_⟩, ?_, h.valid_own, fun f hf => ?_⟩, fun f hf => ?_⟩
  · simp only [List.mem_filter, decide_eq_true_eq] at h0
    exact h0.2.2.2 k hk
  · have hfree : free.Nodup := by simpa using h.nodup
    refine List.nodup_append'.mpr ⟨hfree, List.nodup_range.filter _, fun f h1 h2 => ?_⟩
    simp only [List.mem_filter, decide_eq_true_eq] at h2
    exact h2.2.2.1 h1
  · rcases List.mem_append.mp hf with h0 | h0
    · exact h.valid_rest f (List.mem_append_left _ h0)
    · simp only [List.mem_filter, decide_eq_true_eq] at h0
      exact h0.2.1
  · by_cases h1 : f ∈ free
    · exact .inl h1
    · by_cases h2 : ∃ k, own k = some f
      · exact .inr (.inr h2)
      · refine .inr (.inl ?_)
        simp only [List.mem_filter, List.mem_range, decide_eq_true_eq]
        exact ⟨hpool f hf, hf, h1, fun k hk => h2 ⟨k, hk⟩⟩

/-- At first all pages are free. -/
theorem start {l : List Nat} (hl : l.Nodup) : Covers (· ∈ l) (fun _ : κ => none) l [] := by
  refine ⟨⟨fun _ _ _ h => ?_, fun _ _ h => ?_, ?_, fun _ _ h => ?_, fun g hg => ?_⟩, fun g hg => .inl hg⟩
  · cases h
  · cases h
  · rw [List.append_nil]
    exact hl
  · cases h
  · rw [List.append_nil] at hg
    exact hg

/-- When nothing is in use any more, the free pages are the pool. -/
theorem perm {l : List Nat} (h : Covers (· ∈ l) own free []) (hown : ∀ k, own k = none)
    (hl : l.Nodup) : free.Perm l := by
  have hnd : free.Nodup := by simpa using h.pages.nodup
  rw [List.perm_ext_iff_of_nodup hnd hl]
  intro f
  refine ⟨fun hf => h.pages.valid_rest f (by simpa using hf), fun hf => ?_⟩
  rcases h.full f hf with h0 | h0 | ⟨k, hk⟩
  · exact h0
  · cases h0
  · rw [hown k] at hk
    cases hk

/-- The number of keys that have a page. -/
theorem length {l : List Nat} (h : Covers (· ∈ l) own free taken) (hl : l.Nodup) (S : Finset κ)
    (hS : ∀ k, own k ≠ none ↔ k ∈ S) : l.length = free.length + taken.length + S.card := by
  classical
  have hsome : ∀ k ∈ S, own k = some ((own k).getD 0) := by
    intro k hk
    obtain ⟨f, hf⟩ := Option.ne_none_iff_exists'.mp ((hS k).mpr hk)
    rw [hf]
    rfl
  have hinj : Set.InjOn (fun k => (own k).getD 0) S := by
    intro j hj k hk heq
    refine h.pages.inj j k _ (hsome j hj) ?_
    rw [show (own j).getD 0 = (own k).getD 0 from heq]
    exact hsome k hk
  have hdisj : Disjoint (free ++ taken).toFinset (S.image fun k => (own k).getD 0) := by
    rw [Finset.disjoint_left]
    intro f hf hS'
    obtain ⟨k, hk, rfl⟩ := Finset.mem_image.mp hS'
    obtain ⟨h1, h2⟩ := h.pages.apart k _ (hsome k hk)
    rw [List.mem_toFinset, List.mem_append] at hf
    exact hf.elim h1 h2
  have hset : l.toFinset = (free ++ taken).toFinset ∪ S.image fun k => (own k).getD 0 := by
    ext f
    rw [Finset.mem_union, List.mem_toFinset, List.mem_toFinset, List.mem_append, Finset.mem_image]
    constructor
    · intro hf
      rcases h.full f hf with h0 | h0 | ⟨k, hk⟩
      · exact .inl (.inl h0)
      · exact .inl (.inr h0)
      · refine .inr ⟨k, (hS k).mp (by rw [hk]; simp), ?_⟩
        rw [hk]
        rfl
    · rintro (h0 | ⟨k, hk, rfl⟩)
      · exact h.pages.valid_rest f (List.mem_append.mpr h0)
      · exact h.pages.valid_own k _ (hsome k hk)
  rw [← List.toFinset_card_of_nodup hl, hset, Finset.card_union_of_disjoint hdisj,
    List.toFinset_card_of_nodup h.pages.nodup, Finset.card_image_of_injOn hinj, List.length_append]

/-- A key of `S` has no page, and no other key has one. -/
theorem length_lt [DecidableEq κ] {l : List Nat} {S : Finset κ} (h : Covers (· ∈ l) own free taken)
    (hl : l.Nodup) (hS : ∀ k, own k ≠ none → k ∈ S) (hk : k ∈ S) (hnone : own k = none) :
    l.length < free.length + taken.length + S.card := by
  have hlen := h.length hl (S.filter fun k => own k ≠ none) fun j => by
    rw [Finset.mem_filter]
    exact ⟨fun h0 => ⟨hS j h0, h0⟩, fun h0 => h0.2⟩
  have hlt : (S.filter fun k => own k ≠ none).card < S.card :=
    Finset.card_lt_card (Finset.filter_ssubset.mpr ⟨k, hk, fun h0 => h0 hnone⟩)
  omega

end Covers

end Xv6.Lib
