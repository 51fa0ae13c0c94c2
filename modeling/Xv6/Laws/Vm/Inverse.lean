import Xv6.Laws.Vm.Grow

/-!
# allocuvm and deallocuvm undo each other

The loop of `deallocuvm` jumps over page tables that are missing. It computes what a loop over
every single page computes (`unmap_eq_each`), and that loop frees the pages of the range that are
present, each once and in order (`unmapEach_exact`). `allocuvm` is `allocuvm_spec`; what is added
here is where the pages are that it took before it gave up (`Restored.returned`).

A page directory and its tables are values of their own, apart from the pages that `kfree` fills.
-/

namespace Xv6

open Xv6.Lib

namespace PageDir

variable {d d' d₀ : PageDir} {r r' r₀ : Ram} {e : PageEntry} {i j k n m f lo last : Nat}
  {pool : Nat → Prop} {taken : List Nat} {K : Symbols} {oldsz newsz : Word}

/-! ## Page by page -/

/-- `deallocuvm` without the jump: `n` pages from page `i` on, one by one. -/
def unmapEach (K : Symbols) : Nat → Nat → Ram → PageDir → Option (Ram × PageDir)
  | 0, _, r, d => some (r, d)
  | n + 1, i, r, d =>
    match d.maps i with
    | some e =>
      (if e.frame = 0 then none else r.kfreePage K e.frame).bind fun r =>
        unmapEach K n (i + 1) r (d.setPte i {})
    | none => unmapEach K n (i + 1) r d

/-- Pages that are not mapped make no difference. -/
theorem unmapEach_skip : ∀ (k i : Nat), (∀ j, i ≤ j → j < i + k → d.maps j = none) →
    unmapEach K (k + m) i r d = unmapEach K m (i + k) r d := by
  intro k
  induction k with
  | zero =>
    intro i _
    rw [Nat.zero_add, Nat.add_zero]
  | succ k ih =>
    intro i hnone
    have hk : k + 1 + m = (k + m) + 1 := by omega
    rw [hk, unmapEach, hnone i le_rfl (by omega)]
    dsimp only
    rw [ih (i + 1) fun j h1 h2 => hnone j (by omega) (by omega)]
    congr 1
    omega

/-- The jump is one of the pages that are not mapped. -/
theorem unmap_eq_each : ∀ (n i : Nat) (r : Ram) (d : PageDir), last ≤ i + n →
    unmap K last n i r d = unmapEach K (last - i) i r d := by
  intro n
  induction n with
  | zero =>
    intro i r d hn
    have hzero : last - i = 0 := by omega
    rw [hzero]
    rfl
  | succ n ih =>
    intro i r d hn
    unfold unmap
    by_cases hi : i < last
    · rw [if_pos hi]
      have hsucc : last - i = (last - (i + 1)) + 1 := by omega
      cases hwalk : d.walk i with
      | none =>
        have htab : d.tab (pdx i) = none := by simpa [walk] using hwalk
        have hup : i + 1 ≤ (pdx i + 1) * NPTENTRIES := by
          unfold pdx NPTENTRIES
          omega
        have hnone : ∀ j, i ≤ j → j < (pdx i + 1) * NPTENTRIES → d.maps j = none := by
          intro j h1 h2
          have hj : pdx j = pdx i := by
            unfold pdx NPTENTRIES at *
            omega
          rw [maps_eq, hj, htab, if_neg fun h0 => h0.1 rfl]
        dsimp only
        rw [ih _ r d (by omega)]
        -- up to the next table, or to the end of the range
        have hsplit : last - i = (min ((pdx i + 1) * NPTENTRIES) last - i) +
            (last - (pdx i + 1) * NPTENTRIES) := by omega
        rw [hsplit, unmapEach_skip _ i fun j h1 h2 => hnone j h1 (by omega)]
        by_cases hle : (pdx i + 1) * NPTENTRIES ≤ last
        · congr 1
          omega
        · have hzero : last - (pdx i + 1) * NPTENTRIES = 0 := by omega
          rw [hzero]
          rfl
      | some e =>
        have htab : d.tab (pdx i) ≠ none := by
          intro h0
          rw [walk, h0] at hwalk
          cases hwalk
        have hpte : d.pte i = e := by
          obtain ⟨g, hg⟩ := Option.ne_none_iff_exists'.mp htab
          rw [walk, hg] at hwalk
          exact Option.some.inj hwalk
        dsimp only
        rw [hsucc, unmapEach]
        by_cases hp : e.present
        · have hmaps : d.maps i = some e := by
            rw [maps_eq, hpte, if_pos ⟨htab, hp⟩]
          rw [if_pos hp, hmaps]
          dsimp only
          congr 1
          funext r
          exact ih (i + 1) r _ (by omega)
        · have hmaps : d.maps i = none := by
            rw [maps_eq, hpte, if_neg fun h0 => hp h0.2]
          rw [if_neg hp, hmaps]
          exact ih (i + 1) r d (by omega)
    · rw [if_neg hi]
      have hzero : last - i = 0 := by omega
      rw [hzero]
      rfl

/-- The pages that a range of a directory maps, in order. -/
def frames (d : PageDir) (i n : Nat) : List Nat :=
  (List.range' i n).filterMap fun j => (d.maps j).map PageEntry.frame

/-- The pages of a range are given back. -/
structure Freed (i n : Nat) (r : Ram) (d : PageDir) (r' : Ram) (d' : PageDir) : Prop where
  frame : d'.frame = d.frame
  tab : d'.tab = d.tab
  pte : ∀ j, d'.pte j = if (i ≤ j ∧ j < i + n) ∧ (d.maps j).isSome then {} else d.pte j
  freelist : r'.freelist = (d.frames i n).reverse ++ r.freelist
  page : ∀ f ∉ d.frames i n, r'.page f = r.page f

theorem frames_succ : d.frames i (n + 1) =
    ((d.maps i).map PageEntry.frame).toList ++ d.frames (i + 1) n := by
  unfold frames
  rw [List.range'_succ, List.filterMap_cons]
  cases d.maps i <;> rfl

theorem frames_setPte (e : PageEntry) (h : j < i) : (d.setPte j e).frames i n = d.frames i n := by
  unfold frames
  refine List.filterMap_congr fun k hk => ?_
  have := (List.mem_range'_1.mp hk).1
  rw [maps_setPte_ne e (by omega : k ≠ j)]

/-- The loop over single pages frees what is present; a page that `kfree` does not take is a
panic. -/
theorem unmapEach_exact : ∀ (n i : Nat) (r : Ram) (d : PageDir),
    ((∀ f ∈ d.frames i n, K.page f) →
      ∃ r' d', unmapEach K n i r d = some (r', d') ∧ Freed i n r d r' d') ∧
    ((∃ f ∈ d.frames i n, ¬ K.page f) → unmapEach K n i r d = none) := by
  intro n
  induction n with
  | zero =>
    intro i r d
    refine ⟨fun _ => ⟨r, d, rfl, rfl, rfl, fun j => (if_neg ?_).symm, rfl, fun _ _ => rfl⟩, ?_⟩
    · rintro ⟨h, -⟩
      omega
    · rintro ⟨f, hf, -⟩
      cases hf
  | succ n ih =>
    intro i r d
    rw [frames_succ, unmapEach]
    cases hmaps : d.maps i with
    | none =>
      obtain ⟨hgood, hbad⟩ := ih (i + 1) r d
      refine ⟨fun h => ?_, hbad⟩
      obtain ⟨r', d', hrun, hf⟩ := hgood h
      refine ⟨r', d', hrun, hf.frame, hf.tab, fun j => ?_, ?_, fun f hf' => ?_⟩
      · rw [hf.pte j]
        by_cases hj : j = i
        · subst hj
          rw [hmaps]
          simp
        · have hiff : (i + 1 ≤ j ∧ j < i + 1 + n) ↔ (i ≤ j ∧ j < i + (n + 1)) := by omega
          simp only [hiff]
      · rw [hf.freelist, frames_succ, hmaps]
        rfl
      · rw [frames_succ, hmaps] at hf'
        exact hf.page f hf'
    | some e =>
      have hrest : (d.setPte i {}).frames (i + 1) n = d.frames (i + 1) n :=
        frames_setPte {} (Nat.lt_succ_self i)
      dsimp only
      constructor
      · intro h
        have he : K.page e.frame := h e.frame (by simp)
        have hpos : e.frame ≠ 0 := by
          have := he.1
          have := K.order
          have := K.text
          omega
        have hfree : r.kfreePage K e.frame = some (r.kfree e.frame) := if_pos he
        rw [if_neg hpos, hfree, Option.bind_some]
        obtain ⟨r', d', hrun, hf⟩ := (ih (i + 1) (r.kfree e.frame) (d.setPte i {})).1 (by
          rw [hrest]
          exact fun f hf => h f (List.mem_append_right _ hf))
        refine ⟨r', d', hrun, hf.frame, hf.tab, fun j => ?_, ?_, fun f hf' => ?_⟩
        · rw [hf.pte j]
          by_cases hj : j = i
          · subst hj
            rw [if_neg (by omega), hmaps]
            simp [setPte]
          · rw [maps_setPte_ne _ hj]
            have hiff : (i + 1 ≤ j ∧ j < i + 1 + n) ↔ (i ≤ j ∧ j < i + (n + 1)) := by omega
            have hpte : (d.setPte i {}).pte j = d.pte j := Function.update_of_ne hj ..
            simp only [hiff, hpte]
        · rw [hf.freelist, hrest, frames_succ, hmaps]
          simp [Ram.kfree]
        · rw [frames_succ, hmaps] at hf'
          have hne : f ≠ e.frame := fun h0 => hf' (by simp [h0])
          rw [hf.page f (by rw [hrest]; exact fun h0 => hf' (List.mem_append_right _ h0))]
          exact kfree_page hne
      · rintro ⟨f, hf, hnot⟩
        rcases List.mem_append.mp hf with hf | hf
        · have hfe : f = e.frame := by simpa using hf
          subst hfe
          have hnone : r.kfreePage K e.frame = none := if_neg hnot
          rw [hnone]
          split <;> rfl
        · by_cases hpos : e.frame = 0
          · rw [if_pos hpos]
            rfl
          · rw [if_neg hpos]
            by_cases he : K.page e.frame
            · have hfree : r.kfreePage K e.frame = some (r.kfree e.frame) := if_pos he
              rw [hfree, Option.bind_some]
              exact (ih (i + 1) _ _).2 ⟨f, by rw [hrest]; exact hf, hnot⟩
            · have hnone : r.kfreePage K e.frame = none := if_neg he
              rw [hnone]
              rfl

/-- `deallocuvm` computes what the loop over single pages computes. -/
theorem deallocuvm_eq_each (hle : newsz ≤ oldsz) :
    deallocuvm K r d oldsz newsz = (unmapEach K (pageUp oldsz.toNat - pageUp newsz.toNat)
      (pageUp newsz.toNat) r d).map fun x => (newsz, x) := by
  have hpages : pageUp newsz.toNat ≤ pageUp oldsz.toNat := pageUp_le hle
  unfold deallocuvm
  split
  · rename_i hge
    obtain rfl : oldsz = newsz := BitVec.le_antisymm hge hle
    rw [Nat.sub_self]
    rfl
  · rw [unmap_eq_each _ _ r d (by omega)]

/-! ## What stays of a directory -/

/-- The directory stays in its page, and the tables stay in theirs. -/
structure Keeps (d d' : PageDir) : Prop where
  frame : d'.frame = d.frame
  tab : ∀ k f, d.tab k = some f → d'.tab k = some f

theorem Keeps.refl (d : PageDir) : Keeps d d := ⟨rfl, fun _ _ h => h⟩

theorem Keeps.trans {d₁ : PageDir} (h : Keeps d d₁) (h' : Keeps d₁ d') : Keeps d d' :=
  ⟨h'.frame.trans h.frame, fun k f hf => h'.tab k f (h.tab k f hf)⟩

theorem Keeps.setPte (d : PageDir) (i : Nat) (e : PageEntry) : Keeps d (d.setPte i e) :=
  ⟨rfl, fun _ _ h => h⟩

theorem walkpgdir_keeps (h : walkpgdir r d i = some (r', d')) : Keeps d d' := by
  unfold walkpgdir at h
  split at h
  · cases h
    exact .refl d
  · rename_i htab
    obtain ⟨x, -, heq⟩ := Option.map_eq_some_iff.mp h
    cases heq
    refine ⟨rfl, fun k f hf => ?_⟩
    have hk : k ≠ pdx i := by
      rintro rfl
      rw [htab] at hf
      cases hf
    rw [tab_addTable_ne hk]
    exact hf

theorem mappages_keeps (perm : BitVec 12) : ∀ (n i pa : Nat) (r : Ram) (d : PageDir) {ok : Bool}
    {r' : Ram} {d' : PageDir}, mappages perm n i pa r d = some (ok, r', d') → Keeps d d' := by
  intro n
  induction n with
  | zero =>
    intro i pa r d ok r' d' h
    cases h
    exact .refl d
  | succ n ih =>
    intro i pa r d ok r' d' h
    unfold mappages at h
    split at h
    · cases h
      exact .refl d
    · rename_i r₁ d₁ hwalk
      split at h
      · cases h
      · exact (walkpgdir_keeps hwalk).trans ((Keeps.setPte ..).trans (ih _ _ _ _ h))

/-- The directory behind the outcome of `mapFresh`. -/
theorem mapFresh_keeps {perm : BitVec 12} {b : Bytes PGSIZE} {x : Fresh}
    (h : mapFresh perm b r d i = some x) : match x with
      | .mapped _ d' | .noTable _ _ d' => Keeps d d'
      | .noPage => True := by
  unfold mapFresh at h
  split at h
  · cases h
    trivial
  · split at h
    · cases h
    · rename_i hmap
      cases h
      exact mappages_keeps perm _ _ _ _ _ hmap
    · rename_i hmap
      cases h
      exact mappages_keeps perm _ _ _ _ _ hmap

theorem deallocuvm_keeps {sz : Word} (h : deallocuvm K r d oldsz newsz = some (sz, r', d')) :
    Keeps d d' := by
  have hunmap : ∀ (last n i : Nat) (r : Ram) (d : PageDir), unmap K last n i r d = some (r', d') →
      Keeps d d' := by
    intro last n
    induction n with
    | zero =>
      intro i r d h
      cases h
      exact .refl _
    | succ n ih =>
      intro i r d h
      unfold unmap at h
      split at h
      · split at h
        · exact ih _ _ _ h
        · split at h
          · obtain ⟨r₁, -, hrest⟩ := Option.bind_eq_some_iff.mp h
            exact (Keeps.setPte ..).trans (ih _ _ _ hrest)
          · exact ih _ _ _ h
      · cases h
        exact .refl _
  unfold deallocuvm at h
  split at h
  · cases h
    exact .refl _
  · obtain ⟨x, hx, heq⟩ := Option.map_eq_some_iff.mp h
    cases heq
    exact hunmap _ _ _ _ _ hx

theorem allocLoop_keeps : ∀ (n i : Nat) (r : Ram) (d : PageDir) {sz : Word},
    allocLoop K oldsz newsz n i r d = some (sz, r', d') → Keeps d d' := by
  intro n
  induction n with
  | zero =>
    intro i r d sz h
    cases h
    exact .refl _
  | succ n ih =>
    intro i r d sz h
    unfold allocLoop at h
    split at h
    · cases h
    · rename_i hmap
      exact (mapFresh_keeps hmap).trans (ih _ _ _ h)
    · obtain ⟨⟨sz', r₁, d₁⟩, hrun, heq⟩ := Option.map_eq_some_iff.mp h
      cases heq
      exact deallocuvm_keeps hrun
    · rename_i hmap
      obtain ⟨⟨sz', r₁, d₁⟩, hrun, hrest⟩ := Option.bind_eq_some_iff.mp h
      obtain ⟨r₂, -, heq⟩ := Option.map_eq_some_iff.mp hrest
      cases heq
      exact (mapFresh_keeps hmap).trans (deallocuvm_keeps hrun)

theorem allocuvm_keeps {sz : Word} (h : allocuvm K r d oldsz newsz = some (sz, r', d')) :
    Keeps d d' := by
  unfold allocuvm at h
  split at h
  · cases h
    exact .refl _
  · split at h
    · cases h
      exact .refl _
    · exact allocLoop_keeps _ _ _ _ h

/-- Where memory is restored, each page that was free is free again or has become a page table. -/
theorem Restored.returned (hres : Restored pool taken r d r' d') (h : Holds pool r d taken)
    (hkeep : Keeps d d') : ∀ f ∈ r.freelist,
      f ∈ r'.freelist ∨ ∃ k, d.tab k = none ∧ d'.tab k = some f := by
  intro f hf
  have hpool : pool f := h.covers.pages.valid_rest f (List.mem_append_left _ hf)
  rcases hres.holds.covers.full f hpool with hfree | htaken | ⟨x, hx⟩
  · exact .inl hfree
  · exact absurd htaken fun h0 => (List.disjoint_of_nodup_append h.covers.pages.nodup) hf h0
  · -- it was not in use before
    have hbefore : d.own x ≠ some f := fun h0 => h.not_free h0 hf
    cases x with
    | dir =>
      refine absurd ?_ hbefore
      show some d.frame = some f
      rw [← hkeep.frame]
      exact hx
    | tab k =>
      right
      refine ⟨k, ?_, hx⟩
      cases htab : d.tab k with
      | none => rfl
      | some g =>
        have hg : d'.tab k = some g := hkeep.tab k g htab
        have hx' : d'.tab k = some f := hx
        rw [hg] at hx'
        exact absurd (htab.trans hx') hbefore
    | page j =>
      refine absurd ?_ hbefore
      have hown : d.own (.page j) = d'.own (.page j) := by
        show (if _ then Option.map _ (d.maps j) else _) = if _ then Option.map _ (d'.maps j) else _
        rw [hres.maps j]
      exact hown.trans hx

/-! ## When allocuvm succeeds -/

/-- What `n` pages from page `i` on take: a page for each, and one for each table that is missing. -/
def takes (d : PageDir) (i n : Nat) : Nat :=
  n + (((Finset.Ico i (i + n)).image pdx).filter fun k => d.tab k = none).card

theorem takes_one : d.takes i 1 = 1 + if d.tab (pdx i) = none then 1 else 0 := by
  have hrange : Finset.Ico i (i + 1) = {i} := by simp
  unfold takes
  rw [hrange, Finset.image_singleton, Finset.filter_singleton]
  split <;> rfl

theorem takes_le (d : PageDir) (i n : Nat) : d.takes i n ≤ 2 * n := by
  have h1 := Finset.card_filter_le ((Finset.Ico i (i + n)).image pdx) fun k => d.tab k = none
  have h2 : ((Finset.Ico i (i + n)).image pdx).card ≤ (Finset.Ico i (i + n)).card :=
    Finset.card_image_le
  rw [Nat.card_Ico] at h2
  unfold takes
  omega

/-- The table of the first page is there once the page is mapped. -/
theorem takes_succ (htab : ∀ k, d'.tab k ≠ none ↔ d.tab k ≠ none ∨ pdx i = k) :
    d.takes i (n + 1) = d.takes i 1 + d'.takes (i + 1) n := by
  have hrange : Finset.Ico i (i + (n + 1)) = insert i (Finset.Ico (i + 1) (i + 1 + n)) := by
    ext j
    simp only [Finset.mem_Ico, Finset.mem_insert]
    omega
  have hrest : (((Finset.Ico (i + 1) (i + 1 + n)).image pdx).filter fun k => d'.tab k = none) =
      (((Finset.Ico (i + 1) (i + 1 + n)).image pdx).filter fun k => d.tab k = none).erase (pdx i) := by
    ext k
    have hk : d'.tab k = none ↔ d.tab k = none ∧ pdx i ≠ k := by
      rw [← not_iff_not, ← ne_eq, htab k]
      tauto
    simp only [Finset.mem_filter, Finset.mem_erase, hk, ne_comm (a := k)]
    tauto
  rw [takes_one]
  unfold takes
  rw [hrest, hrange, Finset.image_insert, Finset.filter_insert]
  split
  · rw [← Finset.card_erase_add_one (Finset.mem_insert_self _ _), Finset.erase_insert_eq_erase]
    omega
  · rename_i ht
    rw [Finset.erase_eq_of_notMem (a := pdx i) fun h0 => ht (Finset.mem_filter.mp h0).2]
    omega

/-- A fresh page is mapped when there are pages for it and for its table. -/
theorem mapFresh_takes (perm : BitVec 12) (b : Bytes PGSIZE) (hnone : d.maps i = none) :
    (d.takes i 1 ≤ r.freelist.length → ∃ r' d', mapFresh perm b r d i = some (.mapped r' d') ∧
      r.freelist.length = d.takes i 1 + r'.freelist.length ∧
      (∀ k, d'.tab k ≠ none ↔ d.tab k ≠ none ∨ pdx i = k) ∧
      d'.maps i ≠ none ∧ ∀ j, j ≠ i → d'.maps j = d.maps j) ∧
    (r.freelist.length < d.takes i 1 → mapFresh perm b r d i = some .noPage ∨
      ∃ f r', mapFresh perm b r d i = some (.noTable f r' d)) := by
  rw [takes_one]
  rcases mapFresh_cases b hnone with
    ⟨hr, heq⟩ | ⟨f, rest, hr, ⟨rfl, ht, heq⟩ | ⟨r₂, d₂, hw, heq⟩⟩
  · rw [hr]
    exact ⟨fun h => absurd h (by simp), fun _ => .inl heq⟩
  · rw [hr, if_pos ht]
    exact ⟨fun h => absurd h (by simp), fun _ => .inr ⟨f, _, heq⟩⟩
  · have hlen : rest.length = r₂.freelist.length + if d.tab (pdx i) = none then 1 else 0 := hw.length
    rw [hr, List.length_cons]
    refine ⟨fun _ => ⟨r₂, _, heq, by omega, hw.tab, ?_, fun j hj => ?_⟩, fun h => by omega⟩
    · rw [maps_setPte_self hw.found (PageEntry.present_or f perm)]
      exact nofun
    · rw [maps_setPte_ne _ hj, hw.maps]

/-- The loop of `allocuvm` comes to its end when there are enough pages, and returns 0 otherwise. -/
theorem allocLoop_returns : ∀ (n i : Nat) (r : Ram) (d : PageDir),
    (∀ j, i ≤ j → j < i + n → d.maps j = none) →
    (d.takes i n ≤ r.freelist.length → ∃ r' d', allocLoop K oldsz newsz n i r d = some (newsz, r', d') ∧
      r.freelist.length = d.takes i n + r'.freelist.length) ∧
    (r.freelist.length < d.takes i n →
      ∀ x, allocLoop K oldsz newsz n i r d = some x → x.1 = 0) := by
  intro n
  induction n with
  | zero =>
    intro i r d _
    have hzero : d.takes i 0 = 0 := by simp [takes]
    rw [hzero]
    exact ⟨fun _ => ⟨r, d, rfl, (Nat.zero_add _).symm⟩, fun h => absurd h (Nat.not_lt_zero _)⟩
  | succ n ih =>
    intro i r d hnone
    obtain ⟨hin, hout⟩ := mapFresh_takes (PTE_W ||| PTE_U) Bytes.zero (hnone i le_rfl (by omega))
    unfold allocLoop
    by_cases hone : d.takes i 1 ≤ r.freelist.length
    · obtain ⟨r₁, d₁, heq, hlen, htab, -, hmaps⟩ := hin hone
      rw [heq, takes_succ htab]
      obtain ⟨hin, hout⟩ := ih (i + 1) r₁ d₁ fun j h1 h2 => by
        rw [hmaps j (by omega)]
        exact hnone j (by omega) (by omega)
      refine ⟨fun h => ?_, fun h => hout (by omega)⟩
      obtain ⟨r', d', hrun, hl⟩ := hin (by omega)
      exact ⟨r', d', hrun, by omega⟩
    · have hle : d.takes i 1 ≤ d.takes i (n + 1) :=
        Nat.add_le_add (by omega) (Finset.card_le_card (Finset.filter_subset_filter _
          (Finset.image_subset_image (Finset.Ico_subset_Ico_right (by omega)))))
      refine ⟨fun h => absurd (hle.trans h) hone, fun _ x h => ?_⟩
      rcases hout (Nat.lt_of_not_le hone) with heq | ⟨f, r', heq⟩
      · rw [heq] at h
        obtain ⟨y, -, rfl⟩ := Option.map_eq_some_iff.mp h
        rfl
      · rw [heq] at h
        obtain ⟨y, -, h⟩ := Option.bind_eq_some_iff.mp h
        obtain ⟨z, -, rfl⟩ := Option.map_eq_some_iff.mp h
        rfl

section Returns

variable (hle : oldsz ≤ newsz) (hnew : newsz.toNat < KERNBASE)
  (hnone : ∀ j, pageUp oldsz.toNat ≤ j → j < pageUp newsz.toNat → d.maps j = none)
include hle hnew hnone

theorem allocuvm_takes :
    (d.takes (pageUp oldsz.toNat) (pageUp newsz.toNat - pageUp oldsz.toNat) ≤ r.freelist.length →
      ∃ r' d', allocuvm K r d oldsz newsz = some (newsz, r', d') ∧ r.freelist.length =
        d.takes (pageUp oldsz.toNat) (pageUp newsz.toNat - pageUp oldsz.toNat) + r'.freelist.length) ∧
    (r.freelist.length < d.takes (pageUp oldsz.toNat) (pageUp newsz.toNat - pageUp oldsz.toNat) →
      ∀ x, allocuvm K r d oldsz newsz = some x → x.1 = 0) := by
  unfold allocuvm
  rw [if_neg (Nat.not_le.mpr hnew), if_neg (BitVec.not_lt.mpr hle)]
  exact allocLoop_returns _ _ r d fun j h1 h2 => hnone j h1 (by omega)

/-- `allocuvm` succeeds when there are enough pages. -/
theorem allocuvm_returns_iff (hpos : newsz ≠ 0) :
    (∃ r' d', allocuvm K r d oldsz newsz = some (newsz, r', d')) ↔
      d.takes (pageUp oldsz.toNat) (pageUp newsz.toNat - pageUp oldsz.toNat) ≤ r.freelist.length := by
  obtain ⟨hin, hout⟩ := allocuvm_takes (K := K) (r := r) hle hnew hnone
  refine ⟨fun ⟨r', d', hrun⟩ => ?_, fun h => ?_⟩
  · by_contra hlt
    exact hpos (hout (Nat.lt_of_not_le hlt) _ hrun)
  · obtain ⟨r', d', hrun, -⟩ := hin h
    exact ⟨r', d', hrun⟩

end Returns

/-! ## Both directions -/

theorem Restored.refl (h : Holds pool r d taken) : Restored pool taken r d r d :=
  ⟨h, fun _ => rfl, fun _ _ => rfl⟩

section Pool

variable (hpool : ∀ f, pool f → K.page f)

include hpool

/-- What `allocuvm` has added `deallocuvm` takes away. -/
theorem Grown.deallocuvm {fl : Nat → BitVec 12} {bs : Nat → Bytes PGSIZE}
    (hg : Grown pool taken (pageUp oldsz.toNat) fl bs r₀ d₀ (pageUp newsz.toNat) r d)
    (hle : oldsz ≤ newsz) (hnew : newsz.toNat < KERNBASE)
    (hnone : ∀ j, pageUp oldsz.toNat ≤ j → j < pageUp newsz.toNat → d₀.maps j = none) :
    ∃ r' d', PageDir.deallocuvm K r d newsz oldsz = some (oldsz, r', d') ∧
      Restored pool taken r₀ d₀ r' d' := by
  by_cases heq : oldsz = newsz
  · subst heq
    refine ⟨r, d, if_pos (BitVec.le_refl _), hg.holds, fun j => hg.rest j (by omega), hg.page⟩
  · have hlt : oldsz < newsz := by
      rw [BitVec.lt_def]
      have : oldsz.toNat ≤ newsz.toNat := hle
      have hne : oldsz.toNat ≠ newsz.toNat := fun h0 => heq (BitVec.eq_of_toNat_eq h0)
      omega
    obtain ⟨r', d', hrun, hholds, hu⟩ := deallocuvm_spec hpool hg.holds hnew.le hlt
    refine ⟨r', d', hrun, hholds, fun j => ?_, fun f hf => ?_⟩
    · rw [hu.maps j]
      split
      · rename_i hj
        exact (hnone j hj.1 hj.2).symm
      · exact hg.rest j (by omega)
    · rw [hu.page f fun j h1 h2 hown => ?_, hg.page f hf]
      obtain ⟨g, hgf, hmaps, -⟩ := hg.fresh j h1 h2
      have hj : j < NUPAGE := by
        have := pageUp_user hnew.le
        omega
      rw [own_page_of_maps hj hmaps] at hown
      cases hown
      exact hf hgf

end Pool

/-- The pages that were free are free again, but for new page tables. -/
def Returned (r : Ram) (d : PageDir) (r' : Ram) (d' : PageDir) : Prop :=
  ∀ f ∈ r.freelist, f ∈ r'.freelist ∨ ∃ k, d.tab k = none ∧ d'.tab k = some f

/-- `allocuvm(pgdir, oldsz, newsz)` has added the pages of the range, and `deallocuvm` would take
them away again. -/
structure Added (K : Symbols) (taken : List Nat) (oldsz newsz : Word) (r : Ram) (d : PageDir)
    (r' : Ram) (d' : PageDir) : Prop where
  extended : Extended K.page taken (pageUp oldsz.toNat) r d (pageUp newsz.toNat) r' d'
  inverse : ∃ r'' d'', deallocuvm K r' d' newsz oldsz = some (oldsz, r'', d'') ∧
    Restored K.page taken r d r'' d'' ∧ Returned r d r'' d''

/-- `allocuvm` on the memory of a process of size `oldsz`, and `deallocuvm` on any directory whose
pages `kfree` takes; where it does not take one, both loops panic. -/
theorem allocuvm_deallocuvm_exact (K : Symbols) (r : Ram) (d : PageDir) (oldsz newsz : Word) :
    (∀ taken, Holds K.page r d taken →
      (∀ i < NUPAGE, d.maps i ≠ none ↔ i < pageUp oldsz.toNat) →
      ∃ ret r' d', allocuvm K r d oldsz newsz = some (ret, r', d') ∧
        (ret = newsz ∧ Added K taken oldsz newsz r d r' d' ∨
        (ret = 0 ∨ newsz < oldsz ∧ ret = oldsz) ∧ Restored K.page taken r d r' d' ∧
          Returned r d r' d')) ∧
    (newsz ≤ oldsz → oldsz.toNat ≤ KERNBASE →
      deallocuvm K r d oldsz newsz = (unmapEach K (pageUp oldsz.toNat - pageUp newsz.toNat)
        (pageUp newsz.toNat) r d).map (fun x => (newsz, x)) ∧
      ((∀ f ∈ d.frames (pageUp newsz.toNat) (pageUp oldsz.toNat - pageUp newsz.toNat), K.page f) →
        ∃ r' d', deallocuvm K r d oldsz newsz = some (newsz, r', d') ∧
          Freed (pageUp newsz.toNat) (pageUp oldsz.toNat - pageUp newsz.toNat) r d r' d') ∧
      ((∃ f ∈ d.frames (pageUp newsz.toNat) (pageUp oldsz.toNat - pageUp newsz.toNat), ¬ K.page f) →
        deallocuvm K r d oldsz newsz = none)) := by
  refine ⟨fun taken h hpages => ?_, fun hle _ => ⟨deallocuvm_eq_each hle, fun hall => ?_,
    fun hbad => ?_⟩⟩
  · by_cases hbig : KERNBASE ≤ newsz.toNat
    · exact ⟨0, r, d, if_pos hbig, .inr ⟨.inl rfl, .refl h, fun f hf => .inl hf⟩⟩
    · by_cases hlt : newsz < oldsz
      · refine ⟨oldsz, r, d, ?_, .inr ⟨.inr ⟨hlt, rfl⟩, .refl h, fun f hf => .inl hf⟩⟩
        unfold allocuvm
        rw [if_neg hbig, if_pos hlt]
      · have hle : oldsz ≤ newsz := BitVec.not_lt.mp hlt
        have hnew : newsz.toNat < KERNBASE := Nat.lt_of_not_le hbig
        have hnone : ∀ j, pageUp oldsz.toNat ≤ j → j < pageUp newsz.toNat → d.maps j = none := by
          intro j h1 h2
          have hj : j < NUPAGE := lt_of_lt_of_le h2 (pageUp_user hnew.le)
          by_contra hmaps
          exact absurd ((hpages j hj).mp hmaps) (by omega)
        rcases allocuvm_spec (K := K) (fun _ hf => hf) h hnew hle hnone with
          ⟨r', d', hrun, hext⟩ | ⟨r', d', hrun, hres⟩
        · obtain ⟨r'', d'', hback, hres⟩ :=
            hext.deallocuvm (K := K) (fun _ hf => hf) hle hnew hnone
          have hkeep := (allocuvm_keeps hrun).trans (deallocuvm_keeps hback)
          exact ⟨newsz, r', d', hrun, .inl ⟨rfl, hext, r'', d'', hback, hres,
            hres.returned h hkeep⟩⟩
        · exact ⟨0, r', d', hrun, .inr ⟨.inl rfl, hres, hres.returned h (allocuvm_keeps hrun)⟩⟩
  · obtain ⟨r', d', hrun, hfreed⟩ := (unmapEach_exact _ _ r d).1 hall
    refine ⟨r', d', ?_, hfreed⟩
    rw [deallocuvm_eq_each hle, hrun]
    rfl

  · rw [deallocuvm_eq_each hle, (unmapEach_exact _ _ r d).2 hbad]
    rfl

/-- A process of two pages grows by one, and a directory of two pages loses both. -/
theorem allocuvm_deallocuvm_exact_two :
    (∃ taken r' d',
      allocuvm smallKernel UserMem.twoPages.ram twoPages 8192 12288 = some (12288, r', d') ∧
      Added smallKernel taken 8192 12288 UserMem.twoPages.ram twoPages r' d') ∧
    ∃ r' d', deallocuvm smallKernel UserMem.twoPages.ram twoPages 8192 0 = some (0, r', d') ∧
      Freed 0 2 UserMem.twoPages.ram twoPages r' d' := by
  have hnone : ∀ j, pageUp (8192 : Word).toNat ≤ j → j < pageUp (12288 : Word).toNat →
      twoPages.maps j = none := by decide
  obtain ⟨r', d', hgrown⟩ := (allocuvm_returns_iff (K := smallKernel) (r := UserMem.twoPages.ram)
    (by decide) (by decide) hnone (by decide)).mpr (by decide)
  obtain ⟨taken, htaken⟩ := UserMem.twoPages_sound.holds
  obtain ⟨ret, r₁, d₁, hrun, hret⟩ :=
    (allocuvm_deallocuvm_exact smallKernel UserMem.twoPages.ram twoPages 8192 12288).1
      taken htaken UserMem.twoPages_sound.pages
  cases hrun.symm.trans hgrown
  refine ⟨⟨taken, r', d', hgrown, ?_⟩,
    ((allocuvm_deallocuvm_exact smallKernel UserMem.twoPages.ram twoPages 8192 0).2 (by decide)
      (by decide)).2.1 ?_⟩
  · rcases hret with ⟨-, hadded⟩ | ⟨h0 | ⟨h0, -⟩, -⟩
    · exact hadded
    · exact absurd h0 (by decide)
    · exact absurd h0 (by decide)
  · have hframes : twoPages.frames (pageUp (0 : Word).toNat)
        (pageUp (8192 : Word).toNat - pageUp (0 : Word).toNat) = [1002, 1003] := by decide
    rw [hframes]
    intro f hf
    have hK : smallKernel.ends = 300 := rfl
    have hN : NFRAME = 57344 := rfl
    simp only [List.mem_cons, List.not_mem_nil, or_false] at hf
    unfold Symbols.page
    omega

end PageDir

end Xv6
