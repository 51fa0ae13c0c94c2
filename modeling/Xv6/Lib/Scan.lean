import Mathlib.Data.List.FinRange

/-!
# Loops over a table

A table of `n` slots is a function on `Fin n`, and the loops of the kernel visit its slots in
order. `scanFrom pin` is the order of a loop that starts behind a cursor and wraps around, and
`turn pin i` the number of slots it meets before `i`. A cursor that moves to each slot that is
picked gives every slot its turn (`round_robin`).
-/

namespace Xv6.Lib

variable {n : Nat}

/-- The slots after `pin`, then those up to and including it. -/
def scanFrom (pin : Fin n) : List (Fin n) :=
  (List.finRange n).drop (pin + 1) ++ (List.finRange n).take (pin + 1)

/-- The loop meets every slot. -/
theorem mem_scanFrom (pin i : Fin n) : i ∈ scanFrom pin := by
  have h : i ∈ (List.finRange n).take (pin + 1) ++ (List.finRange n).drop (pin + 1) := by
    rw [List.take_append_drop]
    exact List.mem_finRange i
  rcases List.mem_append.mp h with h | h
  · exact List.mem_append_right _ h
  · exact List.mem_append_left _ h

/-- The wrapped search finds a slot exactly when the table has one. -/
theorem find?_scanFrom_isSome (pin : Fin n) (f : Fin n → Bool) :
    ((scanFrom pin).find? f).isSome ↔ ∃ i, f i := by
  rw [List.find?_isSome]
  constructor
  · rintro ⟨i, _, hi⟩
    exact ⟨i, hi⟩
  · rintro ⟨i, hi⟩
    exact ⟨i, mem_scanFrom pin i, hi⟩

/-- How many slots the loop meets before slot `i`. -/
def turn (pin i : Fin n) : Nat := if pin < i then i - pin - 1 else i + n - pin - 1

theorem turn_inj {pin i j : Fin n} (h : turn pin i = turn pin j) : i = j := by
  unfold turn at h
  apply Fin.ext
  split at h
  · split at h
    · omega
    · omega
  · split at h
    · omega
    · omega

/-- The loop meets the slots in the order of their turns. -/
theorem scanFrom_pairwise (pin : Fin n) :
    (scanFrom pin).Pairwise fun i j => turn pin i < turn pin j := by
  have hsorted : (List.finRange n).Pairwise (· < ·) := List.pairwise_lt_finRange n
  have hlate : ∀ i ∈ (List.finRange n).drop (pin + 1), pin < i := by
    intro i hi
    obtain ⟨k, hk, rfl⟩ := List.mem_drop_iff_getElem.mp hi
    rw [List.getElem_finRange, Fin.lt_def]
    simp
    omega
  have hearly : ∀ i ∈ (List.finRange n).take (pin + 1), ¬ pin < i := by
    intro i hi
    obtain ⟨k, hk, rfl⟩ := List.mem_take_iff_getElem.mp hi
    rw [List.getElem_finRange, Fin.lt_def]
    simp
    omega
  unfold scanFrom
  rw [List.pairwise_append]
  refine ⟨?_, ?_, fun i hi j hj => ?_⟩
  · refine (hsorted.sublist (List.drop_sublist _ _)).imp_of_mem fun {i j} hi hj hij => ?_
    unfold turn
    rw [if_pos (hlate i hi), if_pos (hlate j hj)]
    have := hlate i hi
    omega
  · refine (hsorted.sublist (List.take_sublist _ _)).imp_of_mem fun {i j} hi hj hij => ?_
    unfold turn
    rw [if_neg (hearly i hi), if_neg (hearly j hj)]
    have := hearly i hi
    omega
  · unfold turn
    rw [if_pos (hlate i hi), if_neg (hearly j hj)]
    have := hlate i hi
    omega

/-- The wrapped search finds the slot whose turn comes first. -/
theorem find?_scanFrom_eq_some {pin i : Fin n} {f : Fin n → Bool} :
    (scanFrom pin).find? f = some i ↔ f i ∧ ∀ j, f j → turn pin i ≤ turn pin j := by
  constructor
  · intro h
    obtain ⟨hi, before, after, hl, hbefore⟩ := List.find?_eq_some_iff_append.mp h
    refine ⟨hi, fun j hj => ?_⟩
    have hmem := mem_scanFrom pin j
    have hpair := scanFrom_pairwise pin
    rw [hl] at hmem hpair
    rcases List.mem_append.mp hmem with hmem | hmem
    · have hno := hbefore j hmem
      rw [hj] at hno
      cases hno
    · rcases List.mem_cons.mp hmem with rfl | hmem
      · exact le_rfl
      · have hrest := (List.pairwise_append.mp hpair).2.1
        exact Nat.le_of_lt ((List.pairwise_cons.mp hrest).1 j hmem)
  · rintro ⟨hi, hmin⟩
    have hsome := (find?_scanFrom_isSome pin f).mpr ⟨i, hi⟩
    obtain ⟨j, hj⟩ := Option.isSome_iff_exists.mp hsome
    obtain ⟨hfj, before, after, hl, hbefore⟩ := List.find?_eq_some_iff_append.mp hj
    rw [hj]
    congr 1
    -- a slot that comes before the one found is not ready
    have hmem := mem_scanFrom pin i
    have hpair := scanFrom_pairwise pin
    rw [hl] at hmem hpair
    rcases List.mem_append.mp hmem with hmem | hmem
    · have hno := hbefore i hmem
      rw [hi] at hno
      cases hno
    · rcases List.mem_cons.mp hmem with h | hmem
      · exact h.symm
      · have hrest := (List.pairwise_append.mp hpair).2.1
        have hlt := (List.pairwise_cons.mp hrest).1 i hmem
        have hle := hmin j hfj
        omega

/-! ## Round robin -/

/-- Slot `j` comes before slot `i`, and the loop stops before it: then it still does. -/
theorem turn_lt_of_pick {pin x i j : Fin n} (hji : turn pin j < turn pin i)
    (hx : turn pin x < turn pin j) : turn x j < turn x i := by
  have := x.isLt
  unfold turn at *
  split_ifs at * <;> omega

/-- The cursor's own slot comes last. -/
theorem turn_lt_self {i j : Fin n} (h : j ≠ i) : turn i j < turn i i := by
  have hne : j.val ≠ i.val := fun h0 => h (Fin.ext h0)
  have := i.isLt
  have := j.isLt
  unfold turn
  rw [if_neg (lt_irrefl i)]
  split
  · omega
  · omega

/-- A cursor moves to the slot that is picked and stays otherwise. Between two picks of slot `i`
every other slot that was ready at each pick has had its turn. -/
theorem round_robin (pin : Nat → Fin n) (ready : Nat → Fin n → Bool) {pick : Nat → Option (Fin n)}
    {a b : Nat} {i j : Fin n} (hab : a < b)
    (hmove : ∀ k, a ≤ k → k < b → pin (k + 1) = (pick k).getD (pin k))
    (hfirst : ∀ k x, a ≤ k → k ≤ b → pick k = some x → (scanFrom (pin k)).find? (ready k) = some x)
    (ha : pick a = some i) (hb : pick b = some i) (hj : j ≠ i)
    (hready : ∀ k x, a ≤ k → k ≤ b → pick k = some x → ready k j) :
    ∃ k, a < k ∧ k < b ∧ pick k = some j := by
  by_contra hnone
  -- as long as `j` is not picked, its turn comes before that of `i`
  have hbefore : ∀ k, a < k → k ≤ b → turn (pin k) j < turn (pin k) i := by
    intro k hk
    induction k, hk using Nat.le_induction with
    | base =>
      intro _
      rw [hmove a le_rfl hab, ha]
      exact turn_lt_self hj
    | succ k hk ih =>
      intro hkb
      have hk' : a < k := hk
      have hlt := ih (by omega)
      rw [hmove k (by omega) (by omega)]
      cases hp : pick k with
      | none => exact hlt
      | some x =>
        have hx := (find?_scanFrom_eq_some.mp (hfirst k x (by omega) (by omega) hp)).2 j
          (hready k x (by omega) (by omega) hp)
        have hne : turn (pin k) x ≠ turn (pin k) j := by
          intro h0
          have hxj := turn_inj h0
          exact hnone ⟨k, hk', by omega, by rw [hp, hxj]⟩
        have hlt' : turn (pin k) x < turn (pin k) j := by omega
        exact turn_lt_of_pick hlt hlt'
  have hlast := (find?_scanFrom_eq_some.mp (hfirst b i (by omega) le_rfl hb)).2 j
    (hready b i (by omega) le_rfl hb)
  have := hbefore b hab le_rfl
  omega

/-- The slot after `i`, if there is one. -/
def nextSlot (i : Fin n) : Option (Fin n) :=
  if h : i.val + 1 < n then some ⟨i.val + 1, h⟩ else none

/-! ## A loop over the whole table -/

variable {σ β : Type} {f : σ → Fin n → σ}

/-- A loop keeps what each round keeps of the slots it has seen. -/
theorem foldl_seen {α β : Type} {motive : List α → β → Prop} {f : β → α → β}
    (hstep : ∀ seen r a, motive seen r → motive (seen ++ [a]) (f r a)) (l : List α) :
    ∀ seen r, motive seen r → motive (seen ++ l) (l.foldl f r) := by
  induction l with
  | nil =>
    intro seen r h
    rw [List.append_nil]
    exact h
  | cons a l ih =>
    intro seen r h
    rw [List.foldl_cons, List.append_cons]
    exact ih _ _ (hstep seen r a h)

/-- A loop whose round for slot `i` changes slot `i` alone computes slot by slot. -/
theorem foldl_slotwise (get : σ → Fin n → β) (g : Fin n → β → β)
    (hself : ∀ s i, get (f s i) i = g i (get s i))
    (hother : ∀ s i j, j ≠ i → get (f s i) j = get s j) (s : σ) (j : Fin n) :
    get ((List.finRange n).foldl f s) j = g j (get s j) := by
  have key : ∀ (l : List (Fin n)) (s : σ), l.Nodup →
      get (l.foldl f s) j = if j ∈ l then g j (get s j) else get s j := by
    intro l
    induction l with
    | nil => intro s _; simp
    | cons i l ih =>
      intro s hnd
      obtain ⟨hi, hl⟩ := List.nodup_cons.mp hnd
      rw [List.foldl_cons, ih (f s i) hl]
      by_cases hj : j = i
      · subst hj
        simp [hi, hself]
      · simp [hj, hother s i j hj]
  rw [key _ s (List.nodup_finRange n), if_pos (List.mem_finRange j)]

end Xv6.Lib
