import Mathlib.Data.Finset.Card
import Xv6.Lib.Pages
import Xv6.Vm.Table

/-!
# What the page tables hold

A directory uses pages of memory for itself, for its tables and for the user pages it maps
(`Part`). `Holds` says that these, the free list and the pages that are in use elsewhere are a
pool from which no page is lost and in which none is used twice; every loop of `vm.c` keeps it.
`Grown` is what a loop has done that maps one fresh page after the other.
-/

namespace Xv6

open Function Xv6.Lib

namespace PageEntry

/-- A flag is a bit of the entry. -/
theorem flag_iff (x : BitVec 12) (k : Nat) (hk : BitVec.twoPow 12 k ≠ 0#12) :
    x &&& BitVec.twoPow 12 k ≠ 0#12 ↔ x.getLsbD k = true := by
  rw [BitVec.and_twoPow]
  cases x.getLsbD k
  · simp
  · simpa using hk

theorem present_eq (e : PageEntry) : e.present = e.flags.getLsbD 0 := by
  rw [Bool.eq_iff_iff, present, decide_eq_true_eq]
  exact flag_iff e.flags 0 (by decide)

theorem user_eq (e : PageEntry) : e.user = e.flags.getLsbD 2 := by
  rw [Bool.eq_iff_iff, user, decide_eq_true_eq]
  exact flag_iff e.flags 2 (by decide)

theorem present_or (f : Nat) (perm : BitVec 12) :
    ({ frame := f, flags := perm ||| PTE_P } : PageEntry).present = true := by
  rw [present_eq, BitVec.getLsbD_or, PTE_P]
  simp

/-- The flags of a present entry stay as they are when `mappages` sets `PTE_P`. -/
theorem or_present {e : PageEntry} (h : e.present) : e.flags ||| PTE_P = e.flags := by
  rw [present_eq] at h
  apply BitVec.eq_of_getLsbD_eq
  intro i hi
  rw [BitVec.getLsbD_or]
  by_cases h0 : i = 0
  · rw [h0, h, Bool.true_or]
  · have hp : PTE_P.getLsbD i = false := by simp [PTE_P, h0]
    rw [hp, Bool.or_false]

theorem present_empty : ({} : PageEntry).present = false := by decide

end PageEntry

/-- What a directory uses a page of memory for. -/
inductive Part where
  | dir
  | tab (k : Nat)
  | page (i : Nat)
  deriving DecidableEq

namespace PageDir

variable {d d' d₀ : PageDir} {r r' r₀ : Ram} {e : PageEntry} {i j k n f pa lo last : Nat}
  {perm : BitVec 12} {pool : Nat → Prop} {taken : List Nat} {K : Symbols}

/-- The page that a part of the directory lies in. -/
def own (d : PageDir) : Part → Option Nat
  | .dir => some d.frame
  | .tab k => d.tab k
  | .page i => if i < NUPAGE then (d.maps i).map PageEntry.frame else none

/-! ## Entries -/

theorem maps_eq :
    d.maps i = if d.tab (pdx i) ≠ none ∧ (d.pte i).present then some (d.pte i) else none := by
  unfold maps walk
  cases d.tab (pdx i) with
  | none => simp
  | some g => simp

theorem tab_of_maps (h : d.maps i = some e) : d.tab (pdx i) ≠ none := by
  rw [maps_eq] at h
  exact (Option.ite_none_right_eq_some.mp h).1.1

theorem present_of_maps (h : d.maps i = some e) : e.present := by
  rw [maps_eq] at h
  obtain ⟨⟨-, hp⟩, he⟩ := Option.ite_none_right_eq_some.mp h
  cases he
  exact hp

theorem walk_of_maps (h : d.maps i = some e) : d.walk i = some e := by
  have ht := tab_of_maps h
  rw [maps_eq] at h
  obtain ⟨-, he⟩ := Option.ite_none_right_eq_some.mp h
  obtain ⟨g, hg⟩ := Option.ne_none_iff_exists'.mp ht
  unfold walk
  rw [hg, ← he]
  rfl

theorem maps_setPte_self (h : d.tab (pdx i) ≠ none) (hp : e.present) :
    (d.setPte i e).maps i = some e := by
  have hpte : (d.setPte i e).pte i = e := update_self ..
  rw [maps_eq, hpte]
  exact if_pos ⟨h, hp⟩

theorem maps_setPte_empty : (d.setPte i {}).maps i = none := by
  have hpte : (d.setPte i {}).pte i = {} := update_self ..
  rw [maps_eq, hpte]
  exact if_neg fun h => by simp [PageEntry.present_empty] at h

theorem maps_setPte_ne (e : PageEntry) (h : j ≠ i) : (d.setPte i e).maps j = d.maps j := by
  have hpte : (d.setPte i e).pte j = d.pte j := update_of_ne h ..
  rw [maps_eq, maps_eq, hpte]
  rfl

/-- A new table maps nothing. -/
theorem maps_addTable (h : d.tab k = none) (j : Nat) : (d.addTable k f).maps j = d.maps j := by
  rw [maps_eq, maps_eq]
  by_cases hj : pdx j = k
  · have hpte : (d.addTable k f).pte j = {} := if_pos hj
    rw [hpte, if_neg fun h0 => by simp [PageEntry.present_empty] at h0, hj, h, if_neg fun h0 => h0.1 rfl]
  · have hpte : (d.addTable k f).pte j = d.pte j := if_neg hj
    have htab : (d.addTable k f).tab (pdx j) = d.tab (pdx j) := update_of_ne hj ..
    rw [hpte, htab]

theorem tab_addTable_self : (d.addTable k f).tab k = some f :=
  update_self ..

theorem tab_addTable_ne (h : j ≠ k) : (d.addTable k f).tab j = d.tab j := update_of_ne h ..

/-! ## Who has which page -/

theorem own_addTable (h : d.tab k = none) :
    (d.addTable k f).own = update d.own (.tab k) (some f) := by
  funext x
  cases x with
  | dir => exact (update_of_ne (by simp) ..).symm
  | tab j =>
    by_cases hj : j = k
    · subst hj
      rw [update_self]
      exact tab_addTable_self
    · rw [update_of_ne (by simpa using hj)]
      exact tab_addTable_ne hj
  | page i =>
    rw [update_of_ne (by simp)]
    unfold own
    dsimp only
    rw [maps_addTable h]

theorem own_setPte (hi : i < NUPAGE) (ht : d.tab (pdx i) ≠ none) (hp : e.present) :
    (d.setPte i e).own = update d.own (.page i) (some e.frame) := by
  funext x
  cases x with
  | dir => exact (update_of_ne (by simp) ..).symm
  | tab j => exact (update_of_ne (by simp) ..).symm
  | page j =>
    by_cases hj : j = i
    · subst hj
      rw [update_self]
      unfold own
      dsimp only
      rw [if_pos hi, maps_setPte_self ht hp]
      rfl
    · rw [update_of_ne (by simpa using hj)]
      unfold own
      dsimp only
      rw [maps_setPte_ne e hj]

theorem own_setPte_empty : (d.setPte i {}).own = update d.own (.page i) none := by
  funext x
  cases x with
  | dir => exact (update_of_ne (by simp) ..).symm
  | tab j => exact (update_of_ne (by simp) ..).symm
  | page j =>
    by_cases hj : j = i
    · subst hj
      rw [update_self]
      unfold own
      dsimp only
      rw [maps_setPte_empty]
      split <;> rfl
    · rw [update_of_ne (by simpa using hj)]
      unfold own
      dsimp only
      rw [maps_setPte_ne {} hj]

/-- The kernel's pages belong to no directory. -/
theorem own_setPte_kernel (hi : NUPAGE ≤ i) : (d.setPte i e).own = d.own := by
  funext x
  cases x with
  | dir => rfl
  | tab j => rfl
  | page j =>
    unfold own
    dsimp only
    split
    · rename_i hj
      rw [maps_setPte_ne e (by omega)]
    · rfl

theorem own_page (hi : i < NUPAGE) : d.own (.page i) = (d.maps i).map PageEntry.frame := if_pos hi

theorem own_page_of_maps (hi : i < NUPAGE) (h : d.maps i = some e) : d.own (.page i) = some e.frame := by
  rw [own_page hi, h]
  rfl

theorem own_page_none (h : d.maps i = none) : d.own (.page i) = none := by
  unfold own
  dsimp only
  rw [h]
  split <;> rfl

/-- The directory, the free list and the pages `taken` for something else make up the pool. -/
structure Holds (pool : Nat → Prop) (r : Ram) (d : PageDir) (taken : List Nat) : Prop where
  covers : Covers pool d.own r.freelist taken
  small : ∀ k, d.tab k ≠ none → k < NPTENTRIES

theorem Holds.addTable (h : Holds pool r d taken) (hk : k < NPTENTRIES) (ht : d.tab k = none)
    (hr : r.freelist = f :: r'.freelist) : Holds pool r' (d.addTable k f) taken := by
  refine ⟨?_, fun j hj => ?_⟩
  · rw [own_addTable ht]
    exact (hr ▸ h.covers).map ht
  · by_cases hjk : j = k
    · rw [hjk]
      exact hk
    · rw [tab_addTable_ne hjk] at hj
      exact h.small j hj

theorem Holds.congr (h : Holds pool r d taken) (hr : r'.freelist = r.freelist)
    (hown : d'.own = d.own) (htab : d'.tab = d.tab) : Holds pool r' d' taken :=
  ⟨by rw [hown, hr]; exact h.covers, fun k hk => h.small k (by rw [← htab]; exact hk)⟩

/-- A page that is in use is not on the free list. -/
theorem Holds.not_free (h : Holds pool r d taken) {x : Part} (hx : d.own x = some f) :
    f ∉ r.freelist := (h.covers.pages.apart x f hx).1

/-! ## walkpgdir and mappages -/

theorem walkpgdir_cases : (d.tab (pdx i) ≠ none ∧ walkpgdir r d i = some (r, d)) ∨
    (d.tab (pdx i) = none ∧ r.freelist = [] ∧ walkpgdir r d i = none) ∨
    (d.tab (pdx i) = none ∧ ∃ f rest, r.freelist = f :: rest ∧
      walkpgdir r d i = some (({ r with freelist := rest } : Ram).setPage f Bytes.zero,
        d.addTable (pdx i) f)) := by
  unfold walkpgdir
  cases ht : d.tab (pdx i) with
  | some g => exact .inl ⟨by simp, rfl⟩
  | none =>
    cases hr : r.freelist with
    | nil =>
      refine .inr (.inl ⟨rfl, rfl, ?_⟩)
      simp [Ram.kalloc, hr]
    | cons f rest =>
      refine .inr (.inr ⟨rfl, f, rest, rfl, ?_⟩)
      simp [Ram.kalloc, hr]

theorem setPage_of_ne (b : Bytes PGSIZE) {g : Nat} (h : g ≠ f) : (r.setPage f b).page g = r.page g :=
  update_of_ne h ..

theorem setPage_self (b : Bytes PGSIZE) : (r.setPage f b).page f = b :=
  update_self ..

theorem pdx_lt (hi : i < 2 ^ 20) : pdx i < NPTENTRIES := by
  unfold pdx NPTENTRIES
  omega

/-- What `walkpgdir(pgdir, va, 1)` leaves as it was. -/
structure Walked (i : Nat) (r : Ram) (d : PageDir) (r' : Ram) (d' : PageDir) : Prop where
  found : d'.tab (pdx i) ≠ none
  maps : ∀ j, d'.maps j = d.maps j
  tab : ∀ k, d'.tab k ≠ none ↔ d.tab k ≠ none ∨ pdx i = k
  page : ∀ f ∉ r.freelist, r'.page f = r.page f
  sub : ∀ f ∈ r'.freelist, f ∈ r.freelist
  length : r.freelist.length = r'.freelist.length + if d.tab (pdx i) = none then 1 else 0
  holds : ∀ {pool taken}, i < 2 ^ 20 → Holds pool r d taken → Holds pool r' d' taken

theorem walkpgdir_spec : (d.tab (pdx i) = none ∧ r.freelist = [] ∧ walkpgdir r d i = none) ∨
    ∃ r' d', walkpgdir r d i = some (r', d') ∧ Walked i r d r' d' := by
  rcases walkpgdir_cases with ⟨ht, heq⟩ | hnone | ⟨ht, f, rest, hr, heq⟩
  · refine .inr ⟨r, d, heq, ht, fun _ => rfl, fun k => ⟨.inl, ?_⟩, fun _ _ => rfl, fun _ h => h,
      by rw [if_neg ht, Nat.add_zero], fun _ h => h⟩
    rintro (h0 | rfl)
    · exact h0
    · exact ht
  · exact .inl hnone
  · refine .inr ⟨_, _, heq, ?_, maps_addTable ht, fun k => ?_, fun g hg => ?_, fun g hg => ?_,
      by rw [hr, if_pos ht]; rfl, fun hi h => h.addTable (pdx_lt hi) ht hr⟩
    · rw [tab_addTable_self]
      simp
    · by_cases hk : k = pdx i
      · subst hk
        rw [tab_addTable_self]
        simp
      · rw [tab_addTable_ne hk]
        exact ⟨.inl, fun h0 => h0.resolve_right fun h1 => hk h1.symm⟩
    · rw [hr] at hg
      exact setPage_of_ne _ (fun h0 => hg (h0 ▸ List.mem_cons_self))
    · rw [hr]
      exact List.mem_cons_of_mem _ hg

/-- A loop of `mappages` over pages of the kernel. -/
structure KernelMapped (perm : BitVec 12) (i n pa : Nat) (r : Ram) (d : PageDir) (ok : Bool) (r' : Ram)
    (d' : PageDir) : Prop where
  rest : ∀ j, j < i ∨ i + n ≤ j → d'.maps j = d.maps j
  tab : ∀ k, d'.tab k ≠ none → d.tab k ≠ none ∨ ∃ j, i ≤ j ∧ j < i + n ∧ pdx j = k
  keep : ∀ k, d.tab k ≠ none → d'.tab k ≠ none
  page : ∀ f ∉ r.freelist, r'.page f = r.page f
  sub : ∀ f ∈ r'.freelist, f ∈ r.freelist
  all : ok = true → ∀ j, i ≤ j → j < i + n →
    d'.maps j = some { frame := pa + (j - i), flags := perm ||| PTE_P }
  out : ok = false → r'.freelist = [] ∧ ∃ j, i ≤ j ∧ j < i + n ∧ d'.tab (pdx j) = none

theorem mappages_kernel (perm : BitVec 12) : ∀ (n i pa : Nat) (r : Ram) (d : PageDir),
    Holds pool r d taken → NUPAGE ≤ i → i + n ≤ 2 ^ 20 →
    (∀ j, i ≤ j → j < i + n → d.maps j = none) →
    ∃ ok r' d', mappages perm n i pa r d = some (ok, r', d') ∧ Holds pool r' d' taken ∧
      KernelMapped perm i n pa r d ok r' d' := by
  intro n
  induction n with
  | zero =>
    intro i pa r d h hi hn hnone
    refine ⟨true, r, d, rfl, h, fun _ _ => rfl, fun k hk => .inl hk, fun k hk => hk, fun _ _ => rfl,
      fun _ h => h, fun _ j h1 h2 => ?_, fun h0 => by cases h0⟩
    omega
  | succ n ih =>
    intro i pa r d h hi hn hnone
    unfold mappages
    rcases walkpgdir_spec with ⟨ht, hr, heq⟩ | ⟨r₁, d₁, heq, hw⟩
    · rw [heq]
      exact ⟨false, r, d, rfl, h, fun _ _ => rfl, fun k hk => .inl hk, fun k hk => hk, fun _ _ => rfl,
        fun _ h => h, fun h0 => (by cases h0), fun _ => ⟨hr, i, le_rfl, by omega, ht⟩⟩
    · rw [heq]
      have habsent : (d₁.pte i).present = false := by
        have h0 := (hw.maps i).trans (hnone i le_rfl (by omega))
        rw [maps_eq] at h0
        rw [← Bool.not_eq_true]
        intro hp
        rw [if_pos ⟨hw.found, hp⟩] at h0
        cases h0
      dsimp only
      rw [if_neg (by rw [habsent]; simp)]
      have hp : ({ frame := pa, flags := perm ||| PTE_P } : PageEntry).present :=
        PageEntry.present_or pa perm
      generalize heqe : ({ frame := pa, flags := perm ||| PTE_P } : PageEntry) = e at hp
      have hset : Holds pool r₁ (d₁.setPte i e) taken :=
        (hw.holds (by omega) h).congr rfl (own_setPte_kernel hi) rfl
      have hmaps : ∀ j, j ≠ i → (d₁.setPte i e).maps j = d.maps j := fun j hj =>
        (maps_setPte_ne e hj).trans (hw.maps j)
      obtain ⟨ok, r', d', hrun, hholds, hk⟩ := ih (i + 1) (pa + 1) r₁ (d₁.setPte i e) hset (by omega)
        (by omega) fun j h1 h2 => (hmaps j (by omega)).trans (hnone j (by omega) (by omega))
      refine ⟨ok, r', d', hrun, hholds, fun j hj => ?_, fun k hk' => ?_, fun k hk' => ?_, fun f hf => ?_,
        fun f hf => hw.sub f (hk.sub f hf), fun hok j h1 h2 => ?_, fun hok => ?_⟩
      · rw [hk.rest j (by omega), hmaps j (by omega)]
      · rcases hk.tab k hk' with h0 | ⟨j, h1, h2, h3⟩
        · rcases (hw.tab k).mp h0 with h0 | rfl
          · exact .inl h0
          · exact .inr ⟨i, le_rfl, by omega, rfl⟩
        · exact .inr ⟨j, by omega, by omega, h3⟩
      · exact hk.keep k ((hw.tab k).mpr (.inl hk'))
      · rw [hk.page f fun h0 => hf (hw.sub f h0), hw.page f hf]
      · by_cases hj : j = i
        · subst hj
          rw [hk.rest j (by omega), maps_setPte_self hw.found hp, ← heqe, Nat.sub_self, Nat.add_zero]
        · rw [hk.all hok j (by omega) (by omega), show pa + 1 + (j - (i + 1)) = pa + (j - i) by omega]
      · obtain ⟨h1, j, h2, h3, h4⟩ := hk.out hok
        exact ⟨h1, j, by omega, by omega, h4⟩

/-! ## One fresh page -/

/-- A loop has mapped the pages from `lo` up to `i`, each with a page of its own that was free: page
`j` has the flags `fl j` and the contents `bs j`. -/
structure Grown (pool : Nat → Prop) (taken : List Nat) (lo : Nat) (fl : Nat → BitVec 12)
    (bs : Nat → Bytes PGSIZE) (r₀ : Ram) (d₀ : PageDir) (i : Nat) (r : Ram) (d : PageDir) : Prop where
  holds : Holds pool r d taken
  rest : ∀ j, j < lo ∨ i ≤ j → d.maps j = d₀.maps j
  fresh : ∀ j, lo ≤ j → j < i → ∃ f ∈ r₀.freelist,
    d.maps j = some { frame := f, flags := fl j } ∧ r.page f = bs j
  tab : ∀ k, d.tab k ≠ none ↔ d₀.tab k ≠ none ∨ ∃ j, lo ≤ j ∧ j < i ∧ pdx j = k
  page : ∀ f ∉ r₀.freelist, r.page f = r₀.page f
  sub : ∀ f ∈ r.freelist, f ∈ r₀.freelist

section Grown

variable {fl : Nat → BitVec 12} {bs : Nat → Bytes PGSIZE}

theorem Grown.start (h : Holds pool r d taken) (lo : Nat) : Grown pool taken lo fl bs r d lo r d where
  holds := h
  rest _ _ := rfl
  fresh j h1 h2 := by omega
  tab k := ⟨.inl, fun h0 => h0.resolve_right fun ⟨j, h1, h2, _⟩ => by omega⟩
  page _ _ := rfl
  sub _ h := h

/-- A page that is not mapped: there is no page for it, or none for its table, or it is mapped. -/
theorem mapFresh_cases (b : Bytes PGSIZE) (hnone : d.maps i = none) :
    (r.freelist = [] ∧ mapFresh perm b r d i = some .noPage) ∨
    ∃ f rest, r.freelist = f :: rest ∧
      ((rest = [] ∧ d.tab (pdx i) = none ∧ mapFresh perm b r d i =
        some (.noTable f (({ r with freelist := rest } : Ram).setPage f b) d)) ∨
      ∃ r₂ d₂, Walked i (({ r with freelist := rest } : Ram).setPage f b) d r₂ d₂ ∧
        mapFresh perm b r d i =
          some (.mapped r₂ (d₂.setPte i { frame := f, flags := perm ||| PTE_P }))) := by
  unfold mapFresh
  cases hr : r.freelist with
  | nil =>
    refine .inl ⟨rfl, ?_⟩
    simp [Ram.kalloc, hr]
  | cons f rest =>
    have hkalloc : r.kalloc = some (f, { r with freelist := rest }) := by simp [Ram.kalloc, hr]
    refine .inr ⟨f, rest, rfl, ?_⟩
    rw [hkalloc]
    dsimp only
    unfold mappages
    rcases walkpgdir_spec with
      ⟨ht, hempty, heq⟩ | ⟨r₂, d₂, heq, hw⟩
    · rw [heq]
      exact .inl ⟨hempty, ht, rfl⟩
    · rw [heq]
      dsimp only
      have hp₂ : (d₂.pte i).present = false := by
        have h0 := (hw.maps i).trans hnone
        rw [maps_eq] at h0
        rw [← Bool.not_eq_true]
        intro hp
        rw [if_pos ⟨hw.found, hp⟩] at h0
        cases h0
      rw [if_neg (by rw [hp₂]; simp)]
      exact .inr ⟨r₂, d₂, hw, rfl⟩

/-- A page that is taken without a key. -/
theorem Holds.take (h : Holds pool r d taken) (hr : r.freelist = f :: r'.freelist) :
    Holds pool r' d (f :: taken) :=
  ⟨(hr ▸ h.covers).take, h.small⟩

/-- One more page. -/
theorem Grown.mapFresh (h : Grown pool taken lo fl bs r₀ d₀ i r d) (hlo : lo ≤ i) (hi : i < NUPAGE)
    (hnone : d₀.maps i = none) (hfl : perm ||| PTE_P = fl i) :
    (∃ r' d', mapFresh perm (bs i) r d i = some (.mapped r' d') ∧
      Grown pool taken lo fl bs r₀ d₀ (i + 1) r' d') ∨
    (r.freelist = [] ∧ PageDir.mapFresh perm (bs i) r d i = some .noPage) ∨
    ∃ f r', r.freelist = [f] ∧ d.tab (pdx i) = none ∧
      PageDir.mapFresh perm (bs i) r d i = some (.noTable f r' d) ∧ r'.freelist = [] ∧
      Holds pool r' d (f :: taken) ∧ ∀ g ∉ r₀.freelist, r'.page g = r₀.page g := by
  have hsmall : i < 2 ^ 20 := by
    have : NUPAGE = 2 ^ 19 := rfl
    omega
  have habsent : d.maps i = none := (h.rest i (.inr le_rfl)).trans hnone
  rcases mapFresh_cases (bs i) habsent with ⟨hr, heq⟩ | ⟨f, rest, hr, hcases⟩
  · exact .inr (.inl ⟨hr, heq⟩)
  · have hf : f ∈ r₀.freelist := h.sub f (by rw [hr]; exact List.mem_cons_self)
    generalize hr₁ : ({ r with freelist := rest } : Ram).setPage f (bs i) = r₁ at hcases
    have hfree₁ : r₁.freelist = rest := by rw [← hr₁]; rfl
    have hpage₁ : r₁.page f = bs i := by rw [← hr₁]; exact setPage_self ..
    have hpage₁' : ∀ g, g ≠ f → r₁.page g = r.page g := by
      intro g hg
      rw [← hr₁]
      exact setPage_of_ne _ hg
    have hold₁ : Holds pool r₁ d (f :: taken) := h.holds.take (by rw [hr, hfree₁])
    have hoff : ∀ g ∉ r₀.freelist, r₁.page g = r₀.page g := fun g hg =>
      (hpage₁' g fun h0 => hg (h0 ▸ hf)).trans (h.page g hg)
    rcases hcases with ⟨rfl, ht, heq⟩ | ⟨r₂, d₂, hw, heq⟩
    · exact .inr (.inr ⟨f, r₁, hr, ht, heq, hfree₁, hold₁, hoff⟩)
    · rw [heq]
      have hp : ({ frame := f, flags := perm ||| PTE_P } : PageEntry).present :=
        PageEntry.present_or f perm
      rw [hfl] at hp ⊢
      have hold₂ := hw.holds hsmall hold₁
      have hown₂ : d₂.own (.page i) = none := own_page_none ((hw.maps i).trans habsent)
      have hcov := hold₂.covers.assign hown₂
      rw [← own_setPte (e := { frame := f, flags := fl i }) hi hw.found hp] at hcov
      -- the new frame is in nobody's use
      have hnot : ∀ j g, d.maps j = some g → j < NUPAGE → g.frame ≠ f := by
        rintro j g hj hjn rfl
        exact (hold₁.covers.pages.apart (.page j) g.frame (own_page_of_maps hjn hj)).2 List.mem_cons_self
      refine .inl ⟨r₂, _, rfl, ⟨hcov, hold₂.small⟩, fun j hj => ?_, fun j h1 h2 => ?_, fun k => ?_,
        fun g hg => ?_, fun g hg => ?_⟩
      · rw [maps_setPte_ne _ (by omega), hw.maps]
        exact h.rest j (by omega)
      · by_cases hj : j = i
        · subst hj
          refine ⟨f, hf, maps_setPte_self hw.found hp, ?_⟩
          rw [hw.page f, hpage₁]
          rw [hfree₁]
          have hnd := h.holds.covers.pages.nodup
          rw [hr, List.cons_append, List.nodup_cons] at hnd
          exact fun h0 => hnd.1 (List.mem_append_left _ h0)
        · obtain ⟨g, hg, hmaps, hpage⟩ := h.fresh j h1 (by omega)
          refine ⟨g, hg, ?_, ?_⟩
          · rw [maps_setPte_ne _ hj, hw.maps]
            exact hmaps
          · have hgf := hnot j _ hmaps (by omega)
            have hfree := h.holds.not_free (own_page_of_maps (by omega) hmaps)
            rw [hw.page g, hpage₁' g hgf]
            · exact hpage
            · rw [hfree₁]
              rw [hr] at hfree
              exact fun h0 => hfree (List.mem_cons_of_mem _ h0)
      · show d₂.tab k ≠ none ↔ _
        rw [hw.tab k, h.tab k]
        constructor
        · rintro ((h0 | ⟨j, h1, h2, h3⟩) | rfl)
          · exact .inl h0
          · exact .inr ⟨j, h1, by omega, h3⟩
          · exact .inr ⟨i, hlo, by omega, rfl⟩
        · rintro (h0 | ⟨j, h1, h2, h3⟩)
          · exact .inl (.inl h0)
          · by_cases hj : j = i
            · subst hj
              exact .inr h3
            · exact .inl (.inr ⟨j, h1, by omega, h3⟩)
      · rw [hw.page g, hoff g hg]
        rw [hfree₁]
        exact fun h0 => hg (h.sub g (by rw [hr]; exact List.mem_cons_of_mem _ h0))
      · refine h.sub g ?_
        rw [hr]
        have := hw.sub g hg
        rw [hfree₁] at this
        exact List.mem_cons_of_mem _ this

end Grown

/-! ## Giving pages back -/

section Free

variable (hpool : ∀ f, pool f → K.ends ≤ f ∧ f < NFRAME)

include hpool

theorem kfreePage_eq (r : Ram) (hf : pool f) : r.kfreePage K f = some (r.kfree f) := if_pos (hpool f hf)

omit hpool in
theorem kfree_page {g : Nat} (h : g ≠ f) : (r.kfree f).page g = r.page g :=
  update_of_ne h ..

omit hpool in
/-- What the loop of `deallocuvm` does to the pages from `i` up to `last`. -/
structure Unmapped (i last : Nat) (r : Ram) (d : PageDir) (r' : Ram) (d' : PageDir) : Prop where
  maps : ∀ j, d'.maps j = if i ≤ j ∧ j < last then none else d.maps j
  tab : d'.tab = d.tab
  frame : d'.frame = d.frame
  page : ∀ f, (∀ j, i ≤ j → j < last → d.own (.page j) ≠ some f) → r'.page f = r.page f

theorem unmap_spec (hlast : last ≤ NUPAGE) : ∀ (n i : Nat) (r : Ram) (d : PageDir),
    Holds pool r d taken → last ≤ i + n →
    ∃ r' d', unmap K last n i r d = some (r', d') ∧ Holds pool r' d' taken ∧
      Unmapped i last r d r' d' := by
  intro n
  induction n with
  | zero =>
    intro i r d h hn
    refine ⟨r, d, rfl, h, fun j => (if_neg ?_).symm, rfl, rfl, fun _ _ => rfl⟩
    omega
  | succ n ih =>
    intro i r d h hn
    unfold unmap
    by_cases hi : i < last
    · rw [if_pos hi]
      cases hwalk : d.walk i with
      | none =>
        -- no page of this table is mapped
        have htab : d.tab (pdx i) = none := by
          simpa [walk] using hwalk
        have hnone : ∀ j, pdx j = pdx i → d.maps j = none := by
          intro j hj
          rw [maps_eq, hj, htab, if_neg fun h0 => h0.1 rfl]
        have hup : i + 1 ≤ (pdx i + 1) * NPTENTRIES := by
          unfold pdx NPTENTRIES
          omega
        obtain ⟨r', d', hrun, hholds, hu⟩ := ih ((pdx i + 1) * NPTENTRIES) r d h (by omega)
        have hjump : ∀ j, i ≤ j → j < (pdx i + 1) * NPTENTRIES → pdx j = pdx i := by
          intro j h1 h2
          unfold pdx NPTENTRIES at *
          omega
        refine ⟨r', d', hrun, hholds, fun j => ?_, hu.tab, hu.frame, fun f hf => ?_⟩
        · rw [hu.maps j]
          by_cases hj : i ≤ j ∧ j < last
          · rw [if_pos hj]
            split
            · rfl
            · exact hnone j (hjump j hj.1 (by omega))
          · rw [if_neg hj, if_neg (by omega)]
        · exact hu.page f fun j h1 h2 => hf j (by omega) h2
      | some e =>
        have htab : d.tab (pdx i) ≠ none := by
          intro h0
          rw [walk, h0] at hwalk
          cases hwalk
        have hpte : d.pte i = e := by
          obtain ⟨g, hg⟩ := Option.ne_none_iff_exists'.mp htab
          rw [walk, hg] at hwalk
          exact Option.some.inj hwalk
        dsimp only
        by_cases hp : e.present
        · rw [if_pos hp]
          have hmaps : d.maps i = some e := by
            rw [maps_eq, hpte, if_pos ⟨htab, hp⟩]
          have hown := own_page_of_maps (by omega : i < NUPAGE) hmaps
          have hin := h.covers.pages.valid_own _ _ hown
          have hpos : e.frame ≠ 0 := by
            have := (hpool _ hin).1
            have := K.order
            have := K.text
            omega
          rw [if_neg hpos, kfreePage_eq hpool r hin]
          have hset : Holds pool (r.kfree e.frame) (d.setPte i {}) taken := by
            refine ⟨?_, h.small⟩
            rw [own_setPte_empty]
            exact h.covers.unmap hown
          obtain ⟨r', d', hrun, hholds, hu⟩ := ih (i + 1) _ _ hset (by omega)
          refine ⟨r', d', hrun, hholds, fun j => ?_, hu.tab, hu.frame, fun f hf => ?_⟩
          · rw [hu.maps j]
            by_cases hj : j = i
            · subst hj
              rw [if_neg (by omega), if_pos ⟨le_rfl, hi⟩, maps_setPte_empty]
            · rw [maps_setPte_ne _ hj]
              by_cases hin' : i ≤ j ∧ j < last
              · rw [if_pos hin', if_pos (by omega)]
              · rw [if_neg hin', if_neg (by omega)]
          · rw [hu.page f fun j h1 h2 => ?_]
            · exact kfree_page fun h0 => hf i le_rfl hi (h0 ▸ hown)
            · rw [own_setPte_empty, update_of_ne (by simp; omega)]
              exact hf j (by omega) h2
        · rw [if_neg hp]
          have hmaps : d.maps i = none := by
            rw [maps_eq, hpte, if_neg fun h0 => hp h0.2]
          obtain ⟨r', d', hrun, hholds, hu⟩ := ih (i + 1) r d h (by omega)
          refine ⟨r', d', hrun, hholds, fun j => ?_, hu.tab, hu.frame, fun f hf => ?_⟩
          · rw [hu.maps j]
            by_cases hj : j = i
            · subst hj
              rw [if_neg (by omega), if_pos ⟨le_rfl, hi⟩, hmaps]
            · by_cases hin' : i ≤ j ∧ j < last
              · rw [if_pos hin', if_pos (by omega)]
              · rw [if_neg hin', if_neg (by omega)]
          · exact hu.page f fun j h1 h2 => hf j (by omega) h2
    · rw [if_neg hi]
      refine ⟨r, d, rfl, h, fun j => (if_neg ?_).symm, rfl, rfl, fun _ _ => rfl⟩
      omega

omit hpool in
/-- The parts of a directory whose user pages and whose first `k` tables have been freed. -/
def ownFrom (d : PageDir) (k : Nat) : Part → Option Nat
  | .dir => some d.frame
  | .tab j => if j < k then none else d.tab j
  | .page _ => none

omit hpool in
theorem ownFrom_succ : d.ownFrom (k + 1) = update (d.ownFrom k) (.tab k) none := by
  funext x
  cases x with
  | dir => exact (update_of_ne (by simp) ..).symm
  | page i => exact (update_of_ne (by simp) ..).symm
  | tab j =>
    by_cases hj : j = k
    · subst hj
      rw [update_self]
      exact if_pos (Nat.lt_succ_self j)
    · rw [update_of_ne (by simpa using hj)]
      unfold ownFrom
      dsimp only
      by_cases h0 : j < k
      · rw [if_pos h0, if_pos (by omega)]
      · rw [if_neg h0, if_neg (by omega)]

theorem freeTables_spec : ∀ (n k : Nat) (r : Ram), Covers pool (d.ownFrom k) r.freelist taken →
    ∃ r', freeTables K d n k r = some r' ∧ Covers pool (d.ownFrom (k + n)) r'.freelist taken ∧
      ∀ f, ¬ pool f → r'.page f = r.page f := by
  intro n
  induction n with
  | zero =>
    intro k r h
    exact ⟨r, rfl, h, fun _ _ => rfl⟩
  | succ n ih =>
    intro k r h
    have hself : d.ownFrom k (.tab k) = d.tab k := if_neg (lt_irrefl k)
    unfold freeTables
    cases ht : d.tab k with
    | none =>
      have hsame : d.ownFrom (k + 1) = d.ownFrom k := by
        rw [ownFrom_succ, update_eq_self_iff, hself, ht]
      obtain ⟨r', hrun, hcov, hpage⟩ := ih (k + 1) r (hsame ▸ h)
      exact ⟨r', hrun, by rw [Nat.add_right_comm] at hcov; exact hcov, hpage⟩
    | some f =>
      rw [ht] at hself
      have hin := h.pages.valid_own _ _ hself
      have hcov := h.unmap hself
      rw [← ownFrom_succ] at hcov
      obtain ⟨r', hrun, hcov', hpage⟩ := ih (k + 1) (r.kfree f) hcov
      refine ⟨r', ?_, by rw [Nat.add_right_comm] at hcov'; exact hcov', fun g hg => ?_⟩
      · dsimp only
        rw [kfreePage_eq hpool r hin]
        exact hrun
      · rw [hpage g hg]
        exact kfree_page fun h0 => hg (h0 ▸ hin)

/-- `freevm` gives back all pages of the directory. -/
theorem freevm_spec (h : Holds pool r d taken) :
    ∃ r', freevm K r d = some r' ∧ Covers pool (fun _ : Part => none) r'.freelist taken ∧
      ∀ f, ¬ pool f → r'.page f = r.page f := by
  obtain ⟨r₁, d₁, hrun₁, h₁, hu⟩ := unmap_spec hpool (le_refl NUPAGE) NUPAGE 0 r d h (by omega)
  have hdealloc : deallocuvm K r d (.ofNat 32 KERNBASE) 0 = some (0, r₁, d₁) := by
    have hup : pageUp (BitVec.ofNat 32 KERNBASE).toNat = NUPAGE := by decide
    have hzero : pageUp (0 : Word).toNat = 0 := by decide
    unfold deallocuvm
    rw [if_neg (by decide), hup, hzero, Nat.sub_zero, hrun₁]
    rfl
  have hown : d₁.own = d₁.ownFrom 0 := by
    funext x
    cases x with
    | dir => rfl
    | tab k =>
      show d₁.tab k = if k < 0 then none else d₁.tab k
      rw [if_neg (Nat.not_lt_zero k)]
    | page i =>
      show d₁.own (.page i) = none
      unfold own
      dsimp only
      split
      · rename_i hi
        rw [hu.maps i, if_pos ⟨Nat.zero_le i, hi⟩]
        rfl
      · rfl
  have hcov₁ := h₁.covers
  rw [hown] at hcov₁
  obtain ⟨r₂, hrun₂, hcov₂, hpage₂⟩ := freeTables_spec hpool NPTENTRIES 0 r₁ hcov₁
  have hdir : d₁.ownFrom (0 + NPTENTRIES) .dir = some d₁.frame := rfl
  have hin := hcov₂.pages.valid_own _ _ hdir
  have hcov₃ := hcov₂.unmap hdir
  have hempty : update (d₁.ownFrom (0 + NPTENTRIES)) .dir none = fun _ : Part => none := by
    funext x
    cases x with
    | dir => exact update_self ..
    | page i => exact update_of_ne (by simp) ..
    | tab k =>
      rw [update_of_ne (by simp)]
      show (if k < 0 + NPTENTRIES then none else d₁.tab k) = none
      split
      · rfl
      · rename_i hk
        by_contra h0
        exact hk (by rw [Nat.zero_add]; exact h₁.small k h0)
  rw [hempty] at hcov₃
  refine ⟨r₂.kfree d₁.frame, ?_, hcov₃, fun f hf => ?_⟩
  · unfold freevm
    rw [hdealloc]
    dsimp only [Option.bind_some]
    rw [hrun₂]
    exact kfreePage_eq hpool r₂ hin
  · have hne : f ≠ d₁.frame := fun h0 => hf (h0 ▸ hin)
    rw [kfree_page hne, hpage₂ f hf]
    refine hu.page f fun j _ _ h0 => hf (h.covers.pages.valid_own _ _ h0)

end Free

end PageDir

end Xv6
