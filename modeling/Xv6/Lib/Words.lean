import Mathlib.Data.List.Basic

/-!
# Words

The words of a list are its maximal runs, other than empty ones, of elements that are no separators.
A scanner that skips separators, takes a run and skips separators again meets them one by one
(`words_dropWhile`, `words_run`).
-/

namespace Xv6.Lib

variable {α : Type*} {sep : α → Bool} {x : α} {l c r : List α}

def words (sep : α → Bool) (l : List α) : List (List α) := (l.splitOnP sep).filter (! ·.isEmpty)

theorem words_cons_sep (hx : sep x = true) : words sep (x :: l) = words sep l := by
  unfold words
  rw [List.splitOnP_cons_eq_if_modifyHead, if_pos hx]
  rfl

/-- Separators at the front do not matter. -/
theorem words_dropWhile : words sep (l.dropWhile sep) = words sep l := by
  induction l with
  | nil => rfl
  | cons x l ih =>
    cases hx : sep x with
    | true => rw [List.dropWhile_cons_of_pos hx, ih, words_cons_sep hx]
    | false => rw [List.dropWhile_cons_of_neg (by rw [hx]; nofun)]

/-- A run that the end or a separator follows is the first word. -/
theorem words_run (hc : ∀ x ∈ c, sep x = false) (hne : c ≠ []) (hr : ∀ x ∈ r.head?, sep x = true) :
    words sep (c ++ r) = c :: words sep r := by
  have hkeep : (!c.isEmpty) = true := by
    rw [List.isEmpty_eq_false_iff.mpr hne]
    rfl
  cases r with
  | nil =>
    unfold words
    rw [List.append_nil, List.splitOnP_eq_singleton hc, List.filter_cons, if_pos hkeep]
    rfl
  | cons x r =>
    have hx : sep x = true := hr x rfl
    rw [words_cons_sep hx]
    unfold words
    rw [List.splitOnP_append_cons_of_forall_mem hc x hx, List.filter_cons, if_pos hkeep]

/-- A list that does not begin with a separator has a word. -/
theorem words_ne_nil (hx : sep x = false) : words sep (x :: l) ≠ [] := by
  unfold words
  rw [List.splitOnP_cons_eq_if_modifyHead, if_neg (by rw [hx]; nofun)]
  cases h : l.splitOnP sep with
  | nil => exact absurd h (List.splitOnP_ne_nil sep l)
  | cons w ws => nofun

end Xv6.Lib
