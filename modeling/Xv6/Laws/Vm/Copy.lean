import Mathlib.Order.Interval.Finset.Nat
import Xv6.Laws.Vm.Table

/-!
# setupkvm and copyuvm

`setupkvm` makes a directory with 64 tables for the kernel and no user page, and `copyuvm` gives it
a fresh copy of each user page. Memory can run out at every page and at every table; `freevm` then
gives back what the call has taken. `needs n` is the number of pages that a copy of `n` pages
takes, so a call succeeds when there are that many.
-/

namespace Xv6

open Function Xv6.Lib

namespace PageDir

variable {d d' d₀ src : PageDir} {r r' r₀ : Ram} {e : PageEntry} {i j k n f lo : Nat}
  {perm : BitVec 12} {pool : Nat → Prop} {taken : List Nat} {K : Symbols}

/-! ## The kernel half -/

/-- The ranges of `kmap` follow each other. -/
def Ascending : Nat → List (Nat × Nat × Nat × BitVec 12) → Prop
  | _, [] => True
  | lo, (i, n, _, _) :: ms => lo ≤ i ∧ i + n ≤ 2 ^ 20 ∧ Ascending (i + n) ms

/-- Page `j` is in one of the ranges. -/
def InRange (ms : List (Nat × Nat × Nat × BitVec 12)) (j : Nat) : Prop :=
  ∃ m ∈ ms, m.1 ≤ j ∧ j < m.1 + m.2.1

theorem Ascending.le {ms : List (Nat × Nat × Nat × BitVec 12)} (h : Ascending lo ms)
    (hj : InRange ms j) : lo ≤ j := by
  induction ms generalizing lo with
  | nil =>
    obtain ⟨m, hm, -⟩ := hj
    cases hm
  | cons m ms ih =>
    obtain ⟨h1, -, h2⟩ := h
    obtain ⟨m', hm, hle, hlt⟩ := hj
    rcases List.mem_cons.mp hm with rfl | hm
    · omega
    · have := ih h2 ⟨m', hm, hle, hlt⟩
      omega

/-- What `setupkvm` has done when it stops for want of a page. -/
structure Starved (pool : Nat → Prop) (ms : List (Nat × Nat × Nat × BitVec 12)) (d : PageDir) (r₁ : Ram)
    (d₁ : PageDir) : Prop where
  holds : Holds pool r₁ d₁ []
  empty : r₁.freelist = []
  maps : ∀ j < NUPAGE, d₁.maps j = d.maps j
  tab : ∀ k, d₁.tab k ≠ none → d.tab k ≠ none ∨ ∃ j, InRange ms j ∧ pdx j = k
  lacks : ∃ j, InRange ms j ∧ d₁.tab (pdx j) = none

/-- What `setupkvm` has done when it is through. -/
structure Mapped (pool : Nat → Prop) (ms : List (Nat × Nat × Nat × BitVec 12)) (r : Ram) (d : PageDir)
    (r' : Ram) (d' : PageDir) : Prop where
  holds : Holds pool r' d' []
  sub : ∀ f ∈ r'.freelist, f ∈ r.freelist
  rest : ∀ j, ¬ InRange ms j → d'.maps j = d.maps j
  maps : ∀ j, InRange ms j → d'.maps j ≠ none
  tab : ∀ k, d'.tab k ≠ none ↔ d.tab k ≠ none ∨ ∃ j, InRange ms j ∧ pdx j = k

section Pool

variable (hpool : ∀ f, pool f → K.ends ≤ f ∧ f < NFRAME)

include hpool

theorem mapKernel_spec : ∀ (ms : List (Nat × Nat × Nat × BitVec 12)) (lo : Nat) (r : Ram) (d : PageDir),
    Holds pool r d [] → NUPAGE ≤ lo → Ascending lo ms → (∀ j, lo ≤ j → d.maps j = none) →
    ∃ r' o, mapKernel K ms r d = some (r', o) ∧ (∀ f, ¬ pool f → r'.page f = r.page f) ∧
      (o = none → Covers pool (fun _ : Part => none) r'.freelist [] ∧
        ∃ r₁ d₁, Starved pool ms d r₁ d₁) ∧
      ∀ d', o = some d' → Mapped pool ms r d r' d' := by
  intro ms
  induction ms with
  | nil =>
    intro lo r d h hlo _ hnone
    refine ⟨r, some d, rfl, fun _ _ => rfl, fun h0 => (by cases h0), fun d' hd => ?_⟩
    cases hd
    have hno : ∀ j, ¬ InRange [] j := fun j ⟨m, hm, _⟩ => by cases hm
    exact ⟨h, fun _ h => h, fun _ _ => rfl, fun j hj => absurd hj (hno j),
      fun k => ⟨.inl, fun h0 => h0.resolve_right fun ⟨j, hj, _⟩ => hno j hj⟩⟩
  | cons m ms ih =>
    intro lo r d h hlo hasc hnone
    obtain ⟨i, n, pa, perm⟩ := m
    obtain ⟨hle, hend, hasc'⟩ := hasc
    have hhead : ∀ j, i ≤ j → j < i + n → InRange ((i, n, pa, perm) :: ms) j :=
      fun j h1 h2 => ⟨_, List.mem_cons_self, h1, h2⟩
    have htail : ∀ j, InRange ms j → InRange ((i, n, pa, perm) :: ms) j :=
      fun j ⟨m, hm, hj⟩ => ⟨m, List.mem_cons_of_mem _ hm, hj⟩
    obtain ⟨ok, r₁, d₁, hrun, hold₁, hk⟩ := mappages_kernel perm n i pa r d h (by omega) hend
      fun j h1 _ => hnone j (by omega)
    have hoff : ∀ f, ¬ pool f → r₁.page f = r.page f := fun f hf =>
      hk.page f fun h0 => hf (h.covers.pages.valid_rest f (List.mem_append_left _ h0))
    unfold mapKernel
    rw [hrun]
    cases ok with
    | false =>
      obtain ⟨hempty, j, h1, h2, h3⟩ := hk.out rfl
      obtain ⟨r', hfree, hcov, hpage⟩ := freevm_spec hpool hold₁
      refine ⟨r', none, ?_, fun f hf => (hpage f hf).trans (hoff f hf), fun _ => ⟨hcov, r₁, d₁, hold₁,
        hempty, fun j hj => hk.rest j (by omega), fun k hk' => ?_, j, hhead j h1 h2, h3⟩,
        fun d' hd => by cases hd⟩
      · dsimp only
        rw [hfree]
        rfl
      · rcases hk.tab k hk' with h0 | ⟨j, h1, h2, h3⟩
        · exact .inl h0
        · exact .inr ⟨j, hhead j h1 h2, h3⟩
    | true =>
      dsimp only
      obtain ⟨r', o, hrun', hpage', hnil, hsome⟩ := ih (i + n) r₁ d₁ hold₁ (by omega) hasc'
        fun j hj => (hk.rest j (.inr hj)).trans (hnone j (by omega))
      have htab : ∀ k, (d₁.tab k ≠ none ∨ ∃ j, InRange ms j ∧ pdx j = k) →
          d.tab k ≠ none ∨ ∃ j, InRange ((i, n, pa, perm) :: ms) j ∧ pdx j = k := by
        rintro k (h0 | ⟨j, hj, hjk⟩)
        · rcases hk.tab k h0 with h0 | ⟨j, h1, h2, h3⟩
          · exact .inl h0
          · exact .inr ⟨j, hhead j h1 h2, h3⟩
        · exact .inr ⟨j, htail j hj, hjk⟩
      refine ⟨r', o, hrun', fun f hf => (hpage' f hf).trans (hoff f hf), fun ho => ?_, fun d' hd => ?_⟩
      · obtain ⟨hcov, r₂, d₂, hst⟩ := hnil ho
        refine ⟨hcov, r₂, d₂, hst.holds, hst.empty, fun j hj => ?_, fun k hk' => htab k (hst.tab k hk'), ?_⟩
        · rw [hst.maps j hj, hk.rest j (by omega)]
        · obtain ⟨j, hj, hjk⟩ := hst.lacks
          exact ⟨j, htail j hj, hjk⟩
      · have hm := hsome d' hd
        refine ⟨hm.holds, fun f hf => hk.sub f (hm.sub f hf), fun j hj => ?_, fun j hj => ?_, fun k => ?_⟩
        · rw [hm.rest j fun h0 => hj (htail j h0)]
          refine hk.rest j ?_
          by_contra hcon
          exact hj (hhead j (by omega) (by omega))
        · by_cases hin : InRange ms j
          · exact hm.maps j hin
          · rw [hm.rest j hin]
            obtain ⟨m, hmem, h1, h2⟩ := hj
            rcases List.mem_cons.mp hmem with rfl | hmem
            · rw [hk.all rfl j h1 h2]
              simp
            · exact absurd ⟨m, hmem, h1, h2⟩ hin
        · rw [hm.tab k]
          refine ⟨htab k, ?_⟩
          rintro (h0 | ⟨j, ⟨m, hmem, h1, h2⟩, hjk⟩)
          · exact .inl (hk.keep k h0)
          · rcases List.mem_cons.mp hmem with rfl | hmem
            · have hmaps := hk.all rfl j h1 h2
              exact .inl (hjk ▸ tab_of_maps hmaps)
            · exact .inr ⟨j, ⟨m, hmem, h1, h2⟩, hjk⟩

end Pool

theorem kmap_ascending (K : Symbols) : Ascending NUPAGE (kmap K) := by
  have h1 := K.text
  have h2 := K.order
  have h3 := K.fits
  have hN : NFRAME = 57344 := rfl
  have hU : NUPAGE = 524288 := rfl
  unfold kmap
  simp only [Ascending, and_true]
  omega

/-- The pages that `kmap` names: all of physical memory, and the devices. -/
theorem inRange_kmap :
    InRange (kmap K) j ↔ NUPAGE ≤ j ∧ j < NUPAGE + NFRAME ∨ 0xFE000 ≤ j ∧ j < 2 ^ 20 := by
  have h1 := K.text
  have h2 := K.order
  have h3 := K.fits
  have hN : NFRAME = 57344 := rfl
  have hU : NUPAGE = 524288 := rfl
  unfold InRange kmap
  simp only [List.mem_cons, List.not_mem_nil, or_false, exists_eq_or_imp, exists_eq_left]
  omega

/-! ## How many pages a copy takes -/

/-- The tables of the kernel half. -/
def kernelTabs : Finset Nat := Finset.Ico 512 568 ∪ Finset.Ico 1016 1024

theorem mem_kernelTabs : k ∈ kernelTabs ↔ ∃ j, InRange (kmap K) j ∧ pdx j = k := by
  have hN : NFRAME = 57344 := rfl
  have hU : NUPAGE = 524288 := rfl
  simp only [kernelTabs, Finset.mem_union, Finset.mem_Ico, inRange_kmap, pdx, NPTENTRIES]
  constructor
  · intro h
    exact ⟨k * 1024, by omega, by omega⟩
  · rintro ⟨j, hj, rfl⟩
    omega

/-- The parts of a directory that maps the kernel and the first `n` user pages. -/
def parts (n : Nat) : Finset Part :=
  insert .dir ((kernelTabs ∪ Finset.range ((n + NPTENTRIES - 1) / NPTENTRIES)).image .tab ∪
    (Finset.range n).image .page)

/-- The number of those parts. -/
def needs (n : Nat) : Nat := 65 + (n + NPTENTRIES - 1) / NPTENTRIES + n

theorem mem_parts_tab : .tab k ∈ parts n ↔ k ∈ kernelTabs ∨ ∃ j, j < n ∧ pdx j = k := by
  have hk : k < (n + NPTENTRIES - 1) / NPTENTRIES ↔ ∃ j, j < n ∧ pdx j = k := by
    unfold pdx NPTENTRIES
    constructor
    · intro h
      exact ⟨k * 1024, by omega, by omega⟩
    · rintro ⟨j, hj, rfl⟩
      omega
  simp [parts, hk]

theorem mem_parts_page : .page i ∈ parts n ↔ i < n := by simp [parts]

theorem card_parts (hn : n ≤ NUPAGE) : (parts n).card = needs n := by
  have hU : NUPAGE = 524288 := rfl
  have htabs : Disjoint kernelTabs (Finset.range ((n + NPTENTRIES - 1) / NPTENTRIES)) := by
    rw [Finset.disjoint_left]
    intro k hk h0
    simp only [kernelTabs, Finset.mem_union, Finset.mem_Ico] at hk
    rw [Finset.mem_range] at h0
    unfold NPTENTRIES at h0
    omega
  have hparts : Disjoint ((kernelTabs ∪ Finset.range ((n + NPTENTRIES - 1) / NPTENTRIES)).image Part.tab)
      ((Finset.range n).image Part.page) := by
    rw [Finset.disjoint_left]
    intro x hx h0
    obtain ⟨k, -, rfl⟩ := Finset.mem_image.mp hx
    obtain ⟨i, -, h1⟩ := Finset.mem_image.mp h0
    cases h1
  have hkernel : kernelTabs.card = 64 := by decide +kernel
  rw [parts, Finset.card_insert_of_notMem (by simp), Finset.card_union_of_disjoint hparts,
    Finset.card_image_of_injective _ (fun a b h => by cases h; rfl),
    Finset.card_image_of_injective _ (fun a b h => by cases h; rfl),
    Finset.card_union_of_disjoint htabs, hkernel, Finset.card_range, Finset.card_range, needs]
  omega

/-- A directory with the kernel and the first `i` user pages has these parts. -/
theorem own_ne_none_iff (hi : i ≤ NUPAGE)
    (htab : ∀ k, d.tab k ≠ none ↔ k ∈ kernelTabs ∨ ∃ j, j < i ∧ pdx j = k)
    (hmaps : ∀ j < NUPAGE, d.maps j ≠ none ↔ j < i) (x : Part) : d.own x ≠ none ↔ x ∈ parts i := by
  cases x with
  | dir => simp [own, parts]
  | tab k =>
    rw [mem_parts_tab, ← htab k]
    rfl
  | page j =>
    rw [mem_parts_page]
    unfold own
    dsimp only
    split
    · rename_i hj
      rw [← hmaps j hj, ne_eq, Option.map_eq_none_iff]
    · refine ⟨fun h => absurd rfl h, fun h => ?_⟩
      omega

theorem needs_lt (h : i < n) : needs i < needs n := by
  unfold needs NPTENTRIES
  omega

/-! ## setupkvm -/

section Setup

variable (hnd : r.freelist.Nodup) (hvalid : ∀ f ∈ r.freelist, K.ends ≤ f ∧ f < NFRAME)

include hnd hvalid

/-- A new directory has the kernel's pages and no other. -/
structure SetUp (r r' : Ram) (d : PageDir) : Prop where
  holds : Holds (· ∈ r.freelist) r' d []
  sub : ∀ f ∈ r'.freelist, f ∈ r.freelist
  user : ∀ j < NUPAGE, d.maps j = none
  kernel : d.maps NUPAGE ≠ none
  tab : ∀ k, d.tab k ≠ none ↔ k ∈ kernelTabs

theorem setupkvm_spec : ∃ r' o, setupkvm K r = some (r', o) ∧
    (∀ f ∉ r.freelist, r'.page f = r.page f) ∧
    (o = none → r'.freelist.Perm r.freelist ∧ r.freelist.length < needs 0) ∧
    ∀ d, o = some d → SetUp r r' d := by
  unfold setupkvm
  cases hr : r.freelist with
  | nil =>
    have hkalloc : r.kalloc = none := by simp [Ram.kalloc, hr]
    rw [hkalloc]
    refine ⟨r, none, rfl, fun _ _ => rfl, fun _ => ⟨by rw [hr], ?_⟩, fun d hd => ?_⟩
    · show 0 < needs 0
      decide
    · cases hd
  | cons f rest =>
    have hkalloc : r.kalloc = some (f, { r with freelist := rest }) := by simp [Ram.kalloc, hr]
    rw [hkalloc]
    dsimp only
    have hcov : Covers (· ∈ r.freelist) (fun _ : Part => none) r.freelist [] := .start hnd
    have hown : ({ frame := f } : PageDir).own = update (fun _ => none) .dir (some f) := by
      funext x
      cases x with
      | dir =>
        rw [update_self]
        rfl
      | tab k =>
        rw [update_of_ne (by simp)]
        rfl
      | page i =>
        rw [update_of_ne (by simp)]
        exact own_page_none rfl
    generalize hr₁ : ({ r with freelist := rest } : Ram).setPage f Bytes.zero = r₁
    have hfree₁ : r₁.freelist = rest := by rw [← hr₁]; rfl
    have hoff₁ : ∀ g ∉ r.freelist, r₁.page g = r.page g := by
      intro g hg
      rw [← hr₁]
      exact setPage_of_ne _ fun h0 => hg (by rw [h0, hr]; exact List.mem_cons_self)
    have hold : Holds (· ∈ r.freelist) r₁ { frame := f } [] := by
      refine ⟨?_, fun k hk => absurd rfl hk⟩
      rw [hown, hfree₁]
      rw [hr] at hcov ⊢
      exact hcov.map rfl
    have hnone : ∀ j, ({ frame := f } : PageDir).maps j = none := fun _ => rfl
    obtain ⟨r', o, hrun, hpage, hnil, hsome⟩ := mapKernel_spec hvalid (kmap K) NUPAGE r₁ { frame := f }
      hold le_rfl (kmap_ascending K) fun j _ => hnone j
    refine ⟨r', o, hrun, fun g hg => ?_, fun ho => ?_, fun d hd => ?_⟩
    · rw [← hr] at hg
      rw [hpage g hg, hoff₁ g hg]
    · obtain ⟨hcov', r₂, d₂, hst⟩ := hnil ho
      rw [← hr]
      refine ⟨hcov'.perm (fun _ => rfl) hnd, ?_⟩
      obtain ⟨j, hj, hlack⟩ := hst.lacks
      have hpart : ∀ x, d₂.own x ≠ none → x ∈ parts 0 := by
        intro x hx
        cases x with
        | dir => simp [parts]
        | tab k =>
          rw [mem_parts_tab]
          rcases hst.tab k hx with h0 | h0
          · exact absurd rfl h0
          · exact .inl ((mem_kernelTabs).mpr h0)
        | page i =>
          refine absurd ?_ hx
          unfold own
          dsimp only
          split
          · rename_i hi
            rw [hst.maps i hi, hnone]
            rfl
          · rfl
      have hmiss : d₂.own (.tab (pdx j)) = none := hlack
      have hlt := hst.holds.covers.length_lt hnd hpart
        ((mem_parts_tab).mpr (.inl ((mem_kernelTabs).mpr ⟨j, hj, rfl⟩))) hmiss
      rw [hst.empty, card_parts (Nat.zero_le _)] at hlt
      simpa using hlt
    · have hm := hsome d hd
      have hnot : ∀ j < NUPAGE, ¬ InRange (kmap K) j := by
        intro j hj hin
        have := (kmap_ascending K).le hin
        omega
      refine ⟨hm.holds, fun g hg => ?_, fun j hj => (hm.rest j (hnot j hj)).trans (hnone j), ?_, fun k => ?_⟩
      · have h0 := hm.sub g hg
        rw [hfree₁] at h0
        rw [hr]
        exact List.mem_cons_of_mem _ h0
      · refine hm.maps NUPAGE ((inRange_kmap).mpr (.inl ⟨le_rfl, ?_⟩))
        decide
      · rw [hm.tab k, mem_kernelTabs]
        exact ⟨fun h0 => h0.resolve_left fun h1 => h1 rfl, .inr⟩

end Setup

/-! ## copyuvm -/

section Copy

variable {l : List Nat} {fl : Nat → BitVec 12} {bs : Nat → Bytes PGSIZE}
  (hl : l.Nodup) (hvalid : ∀ f ∈ l, K.ends ≤ f ∧ f < NFRAME)

/-- The copy of the first `i` pages. -/
abbrev Copying (l : List Nat) (fl : Nat → BitVec 12) (bs : Nat → Bytes PGSIZE) (r₀ : Ram) (d₀ : PageDir)
    (i : Nat) (r : Ram) (d : PageDir) : Prop :=
  Grown (· ∈ l) [] 0 fl bs r₀ d₀ i r d

/-- The number of pages that are in use half-way through. -/
theorem Grown.own_ne_none (h : Copying l fl bs r₀ d₀ i r d) (hi : i ≤ NUPAGE)
    (huser : ∀ j < NUPAGE, d₀.maps j = none) (htab : ∀ k, d₀.tab k ≠ none ↔ k ∈ kernelTabs)
    (x : Part) : d.own x ≠ none ↔ x ∈ parts i := by
  refine own_ne_none_iff hi (fun k => ?_) (fun j hj => ?_) x
  · rw [h.tab k, htab k]
    simp
  · by_cases hji : j < i
    · obtain ⟨f, -, hmaps, -⟩ := h.fresh j (Nat.zero_le j) hji
      rw [hmaps]
      simp [hji]
    · rw [h.rest j (.inr (by omega)), huser j hj]
      simp [hji]

include hl hvalid

theorem copyLoop_spec (huser : ∀ j < NUPAGE, d₀.maps j = none) (hkernel : d₀.maps NUPAGE ≠ none)
    (htab : ∀ k, d₀.tab k ≠ none ↔ k ∈ kernelTabs) (hsub : ∀ f ∈ r₀.freelist, f ∈ l)
    (hsrc : ∀ i < n, ∃ e, src.maps i = some e ∧ e.flags = fl i ∧
      (i < NUPAGE → e.frame ∉ l ∧ r₀.page e.frame = bs i)) :
    ∀ (m i : Nat) (r : Ram) (d : PageDir), i + m = n → i ≤ NUPAGE →
      Copying l fl bs r₀ d₀ i r d →
      (copyLoop K src m i r d = none ∧ NUPAGE < n) ∨
      (∃ r', copyLoop K src m i r d = some (r', none) ∧ r'.freelist.Perm l ∧
        (∀ f ∉ l, r'.page f = r₀.page f) ∧ l.length < needs n) ∨
      ∃ r' d', copyLoop K src m i r d = some (r', some d') ∧ n ≤ NUPAGE ∧
        Copying l fl bs r₀ d₀ n r' d' := by
  intro m
  induction m with
  | zero =>
    intro i r d hm hi h
    obtain rfl : i = n := hm
    exact .inr (.inr ⟨r, d, rfl, hi, h⟩)
  | succ m ih =>
    intro i r d hm hi h
    obtain ⟨e, hmaps, hflags, hframe⟩ := hsrc i (by omega)
    have hoff : ∀ f ∉ l, r.page f = r₀.page f := fun f hf => h.page f fun h0 => hf (hsub f h0)
    -- `freevm` after the last page has been taken
    have hout : ∀ (r₁ : Ram), Holds (· ∈ l) r₁ d [] → (∀ f ∉ l, r₁.page f = r₀.page f) →
        l.length < needs n → ∃ r', freevm K r₁ d = some r' ∧ r'.freelist.Perm l ∧
          (∀ f ∉ l, r'.page f = r₀.page f) ∧ l.length < needs n := by
      intro r₁ hold hpage hlen
      obtain ⟨r', hrun, hcov, hpage'⟩ := freevm_spec hvalid hold
      exact ⟨r', hrun, hcov.perm (fun _ => rfl) hl, fun f hf => (hpage' f hf).trans (hpage f hf), hlen⟩
    have hparts := h.own_ne_none hi huser htab
    unfold copyLoop
    rw [hmaps]
    dsimp only
    rcases Nat.lt_or_ge i NUPAGE with hlt | hge
    · obtain ⟨hnot, hbs⟩ := hframe hlt
      have hperm : e.flags ||| PTE_P = fl i := (PageEntry.or_present (present_of_maps hmaps)).trans hflags
      rw [hoff e.frame hnot, hbs]
      rcases h.mapFresh (Nat.zero_le i) hlt (huser i hlt) hperm with
        ⟨r', d', heq, hg⟩ | ⟨hempty, heq⟩ | ⟨f, r', hone, ht, heq, hempty, hold, hpage⟩
      · rw [heq]
        exact ih (i + 1) r' d' (by omega) hlt hg
      · rw [heq]
        have hlen := h.holds.covers.length hl (parts i) hparts
        rw [hempty, card_parts hi] at hlen
        obtain ⟨r', hfree, hrest⟩ := hout r h.holds hoff
          (by have := needs_lt (by omega : i < n); simp at hlen; omega)
        refine .inr (.inl ⟨r', ?_, hrest⟩)
        dsimp only
        rw [hfree]
        rfl
      · rw [heq]
        have hlen := hold.covers.length hl (parts i) hparts
        rw [hempty, card_parts hi] at hlen
        -- page `i` opens a new table
        have hnew : i % NPTENTRIES = 0 := by
          by_contra hne
          unfold NPTENTRIES at hne
          refine absurd ht ((h.tab (pdx i)).mpr (.inr ⟨i - 1, by omega, by omega, ?_⟩))
          unfold pdx NPTENTRIES
          omega
        have hneeds : needs i + 1 < needs n := by
          have : needs i + 2 ≤ needs (i + 1) := by
            unfold needs NPTENTRIES at *
            omega
          rcases Nat.lt_or_ge (i + 1) n with h0 | h0
          · have := needs_lt h0
            omega
          · obtain rfl : i + 1 = n := by omega
            omega
        have hback : Holds (· ∈ l) (r'.kfree f) d [] := ⟨hold.covers.give, hold.small⟩
        have hin : f ∈ l := hold.covers.pages.valid_rest f (by simp)
        have hpage' : ∀ g ∉ l, (r'.kfree f).page g = r₀.page g := by
          intro g hg
          have hne : g ≠ f := fun h0 => hg (h0 ▸ hin)
          rw [kfree_page hne]
          exact hpage g fun h0 => hg (hsub g h0)
        obtain ⟨r'', hfree, hrest⟩ := hout (r'.kfree f) hback hpage' (by simp at hlen; omega)
        refine .inr (.inl ⟨r'', ?_, hrest⟩)
        dsimp only
        rw [kfreePage_eq hvalid r' hin]
        dsimp only [Option.bind_some]
        rw [hfree]
        rfl
    · -- the first page of the kernel
      obtain rfl : i = NUPAGE := by omega
      have hpresent : d.maps NUPAGE ≠ none := by
        rw [h.rest NUPAGE (.inr le_rfl)]
        exact hkernel
      unfold mapFresh
      cases hfree : r.freelist with
      | nil =>
        have hkalloc : r.kalloc = none := by simp [Ram.kalloc, hfree]
        rw [hkalloc]
        have hlen := h.holds.covers.length hl (parts NUPAGE) hparts
        rw [hfree, card_parts le_rfl] at hlen
        obtain ⟨r', hrun, hrest⟩ := hout r h.holds hoff
          (by have := needs_lt (by omega : NUPAGE < n); simp at hlen; omega)
        refine .inr (.inl ⟨r', ?_, hrest⟩)
        dsimp only
        rw [hrun]
        rfl
      | cons f rest =>
        have hkalloc : r.kalloc = some (f, { r with freelist := rest }) := by simp [Ram.kalloc, hfree]
        rw [hkalloc]
        refine .inl ⟨?_, by omega⟩
        dsimp only
        generalize ({ r with freelist := rest } : Ram).setPage f (r.page e.frame) = r₁
        have hpte : d.tab (pdx NUPAGE) ≠ none ∧ (d.pte NUPAGE).present = true := by
          by_contra hcon
          exact hpresent ((maps_eq).trans (if_neg hcon))
        unfold mappages
        rcases walkpgdir_cases with ⟨-, heq⟩ | ⟨h0, -⟩ | ⟨h0, -⟩
        · rw [heq]
          dsimp only
          rw [if_pos hpte.2]
        · exact absurd h0 hpte.1
        · exact absurd h0 hpte.1

end Copy

/-- `d` is a copy of the first `n` pages of `src`, made of pages that were free. -/
structure Copied (src : PageDir) (n : Nat) (r r' : Ram) (d : PageDir) : Prop where
  pages : ∀ i < n, ∃ e, src.maps i = some e ∧ ∃ f ∈ r.freelist,
    d.maps i = some { frame := f, flags := e.flags } ∧ r'.page f = r.page e.frame
  rest : ∀ j, n ≤ j → j < NUPAGE → d.maps j = none
  holds : Holds (· ∈ r.freelist) r' d []
  page : ∀ f ∉ r.freelist, r'.page f = r.page f
  enough : r.freelist.length = r'.freelist.length + needs n

theorem copyuvm_cases {sz : Word} (hnd : r.freelist.Nodup)
    (hvalid : ∀ f ∈ r.freelist, K.ends ≤ f ∧ f < NFRAME)
    (hsrc : ∀ i < pageUp sz.toNat, src.maps i ≠ none)
    (hpriv : ∀ x f, src.own x = some f → f ∉ r.freelist) :
    (copyuvm K r src sz = none ∧ NUPAGE < pageUp sz.toNat) ∨
    (∃ r', copyuvm K r src sz = some (r', none) ∧ r'.freelist.Perm r.freelist ∧
      (∀ f ∉ r.freelist, r'.page f = r.page f) ∧ r.freelist.length < needs (pageUp sz.toNat)) ∨
    ∃ r' d, copyuvm K r src sz = some (r', some d) ∧ pageUp sz.toNat ≤ NUPAGE ∧
      Copied src (pageUp sz.toNat) r r' d := by
  unfold copyuvm
  generalize pageUp sz.toNat = n at hsrc
  obtain ⟨r₀, o, hrun, hoff, hnil, hsome⟩ := setupkvm_spec hnd hvalid
  rw [hrun]
  cases o with
  | none =>
    obtain ⟨hperm, hlen⟩ := hnil rfl
    refine .inr (.inl ⟨r₀, rfl, hperm, hoff, ?_⟩)
    rcases Nat.eq_zero_or_pos n with rfl | hn
    · exact hlen
    · exact hlen.trans (needs_lt hn)
  | some d₀ =>
    dsimp only
    have hset := hsome d₀ rfl
    have hsrc' : ∀ i < n, ∃ e, src.maps i = some e ∧ e.flags = ((src.maps i).getD {}).flags ∧
        (i < NUPAGE → e.frame ∉ r.freelist ∧
          r₀.page e.frame = r.page ((src.maps i).getD {}).frame) := by
      intro i hi
      obtain ⟨e, he⟩ := Option.ne_none_iff_exists'.mp (hsrc i hi)
      refine ⟨e, he, by rw [he]; rfl, fun hlt => ?_⟩
      have hnot := hpriv (.page i) e.frame (own_page_of_maps hlt he)
      refine ⟨hnot, ?_⟩
      rw [hoff e.frame hnot, he]
      rfl
    rcases copyLoop_spec hnd hvalid hset.user hset.kernel hset.tab hset.sub hsrc' n 0 r₀ d₀
      (Nat.zero_add n) (Nat.zero_le _) (.start hset.holds 0) with
      hpanic | ⟨r', heq, hperm, hpage, hlen⟩ | ⟨r', d, heq, hn, hg⟩
    · exact .inl hpanic
    · exact .inr (.inl ⟨r', heq, hperm, fun f hf => (hpage f hf).trans (hoff f hf), hlen⟩)
    · have hlen := hg.holds.covers.length hnd (parts n) (hg.own_ne_none hn hset.user hset.tab)
      rw [card_parts hn] at hlen
      refine .inr (.inr ⟨r', d, heq, hn, fun i hi => ?_, fun j h1 h2 => ?_, hg.holds, fun f hf => ?_,
        hlen⟩)
      · obtain ⟨e, he, -, -⟩ := hsrc' i hi
        obtain ⟨f, hf, hmaps, hpage⟩ := hg.fresh i (Nat.zero_le i) hi
        rw [he] at hmaps hpage
        exact ⟨e, he, f, hset.sub f hf, hmaps, hpage⟩
      · rw [hg.rest j (.inr h1), hset.user j h2]
      · rw [hg.page f fun h0 => hf (hset.sub f h0), hoff f hf]

/-- `copyuvm` succeeds when there are enough pages. -/
theorem copyuvm_returns_iff (sz : Word) (hnd : r.freelist.Nodup)
    (hvalid : ∀ f ∈ r.freelist, K.ends ≤ f ∧ f < NFRAME)
    (hsrc : ∀ i < pageUp sz.toNat, src.maps i ≠ none)
    (hpriv : ∀ x f, src.own x = some f → f ∉ r.freelist) (hsz : pageUp sz.toNat ≤ NUPAGE) :
    (∃ r' d, copyuvm K r src sz = some (r', some d)) ↔ needs (pageUp sz.toNat) ≤ r.freelist.length := by
  rcases copyuvm_cases hnd hvalid hsrc hpriv with ⟨-, h0⟩ | ⟨r', heq, -, -, hlen⟩ | ⟨r', d, heq, -, hc⟩
  · omega
  · rw [heq]
    simp
    omega
  · rw [heq]
    simp
    have := hc.enough
    omega

end PageDir

/-- Physical memory with the page directories in use: a page on the free list is a page of memory
that none of them uses. -/
structure Memory (K : Symbols) where
  ram : Ram
  dirs : List PageDir
  nodup : ram.freelist.Nodup
  valid : ∀ f ∈ ram.freelist, K.ends ≤ f ∧ f < NFRAME
  apart : ∀ d ∈ dirs, ∀ x f, d.own x = some f → f ∉ ram.freelist

namespace PageDir

/-- A directory that `copyuvm` returns has each page of the parent's memory with its flags and
contents, in a page that nobody else uses; what is in use keeps its contents. When `copyuvm` returns
0, the free list has its pages again, each once. It does not panic unless the size goes beyond
`KERNBASE`. -/
theorem copyuvm_private {K : Symbols} (M : Memory K) {src : PageDir} (hmem : src ∈ M.dirs) (sz : Word)
    (hsrc : ∀ i < pageUp sz.toNat, src.maps i ≠ none) :
    (sz.toNat ≤ KERNBASE → copyuvm K M.ram src sz ≠ none) ∧
    (∀ r' d, copyuvm K M.ram src sz = some (r', some d) →
      (∀ i < pageUp sz.toNat, ∃ e f, src.maps i = some e ∧
        d.maps i = some { frame := f, flags := e.flags } ∧ r'.page f = M.ram.page e.frame ∧
        f ∉ r'.freelist ∧ (∀ x, d.own x = some f → x = .page i) ∧
        ∀ d₂ ∈ M.dirs, ∀ x, d₂.own x ≠ some f) ∧
      ∀ d₂ ∈ M.dirs, ∀ x f, d₂.own x = some f → r'.page f = M.ram.page f) ∧
    ∀ r', copyuvm K M.ram src sz = some (r', none) →
      r'.freelist.Perm M.ram.freelist ∧ r'.freelist.Nodup ∧
      ∀ d₂ ∈ M.dirs, ∀ x f, d₂.own x = some f → r'.page f = M.ram.page f := by
  have hpriv := M.apart src hmem
  rcases copyuvm_cases M.nodup M.valid hsrc hpriv with
    ⟨heq, hbig⟩ | ⟨r', heq, hperm, hpage, -⟩ | ⟨r', d, heq, hn, hc⟩
  · rw [heq]
    refine ⟨fun hsz => ?_, fun r' d h0 => ?_, fun r' h0 => ?_⟩
    · unfold pageUp NUPAGE KERNBASE PGSIZE at *
      omega
    · cases h0
    · cases h0
  · rw [heq]
    refine ⟨fun _ h0 => ?_, fun r'' d h0 => ?_, fun r'' h0 => ?_⟩
    · cases h0
    · cases h0
    · cases h0
      exact ⟨hperm, hperm.nodup_iff.mpr M.nodup, fun d₂ hd x f hx => hpage f (M.apart d₂ hd x f hx)⟩
  · rw [heq]
    refine ⟨fun _ h0 => ?_, fun r'' d'' h0 => ?_, fun r'' h0 => ?_⟩
    · cases h0
    · cases h0
      refine ⟨fun i hi => ?_, fun d₂ hd x f hx => hc.page f (M.apart d₂ hd x f hx)⟩
      obtain ⟨e, he, f, hf, hmaps, hcontents⟩ := hc.pages i hi
      have hown := own_page_of_maps (by omega : i < NUPAGE) hmaps
      exact ⟨e, f, he, hmaps, hcontents, hc.holds.not_free hown,
        fun x hx => hc.holds.covers.pages.inj x _ f hx hown,
        fun d₂ hd x hx => M.apart d₂ hd x f hx hf⟩
    · cases h0

/-! ### A process with two pages -/

/-- A kernel that ends at page 300. -/
def smallKernel : Symbols where
  data := 260
  ends := 300
  text := by decide
  order := by decide
  fits := by decide

/-- A directory with one table and two user pages, the second of them a guard page. -/
def twoPages : PageDir where
  frame := 1000
  tab k := if k = 0 then some 1001 else none
  pte i := if i = 0 then { frame := 1002, flags := 7#12 } else
    if i = 1 then { frame := 1003, flags := 3#12 } else {}

theorem twoPages_own (x : Part) (f : Nat) (h : twoPages.own x = some f) : f < 2000 := by
  cases x with
  | dir =>
    cases h
    decide
  | tab k =>
    obtain ⟨-, h0⟩ := Option.ite_none_right_eq_some.mp h
    cases h0
    decide
  | page i =>
    obtain ⟨-, h0⟩ := Option.ite_none_right_eq_some.mp h
    obtain ⟨e, he, rfl⟩ := Option.map_eq_some_iff.mp h0
    rw [maps_eq] at he
    obtain ⟨-, he⟩ := Option.ite_none_right_eq_some.mp he
    have hpte : ∀ j, (twoPages.pte j).frame < 2000 := by
      intro j
      show (if j = 0 then ({ frame := 1002, flags := 7#12 } : PageEntry) else
        if j = 1 then { frame := 1003, flags := 3#12 } else {}).frame < 2000
      split
      · decide
      · split <;> decide
    rw [← Option.some.inj he]
    exact hpte i

/-- Its memory, with a hundred free pages. -/
def twoPagesMemory : Memory smallKernel where
  ram := { page := fun f _ => .ofNat 8 f, freelist := List.range' 2000 100 }
  dirs := [twoPages]
  nodup := List.nodup_range'
  valid f hf := by
    have h0 := List.mem_range'_1.mp hf
    have : NFRAME = 57344 := rfl
    have : smallKernel.ends = 300 := rfl
    omega
  apart d hd x f hx hf := by
    cases List.mem_singleton.mp hd
    have h0 := List.mem_range'_1.mp hf
    have := twoPages_own x f hx
    omega

theorem copyuvm_private_two : ∃ r' d, copyuvm smallKernel twoPagesMemory.ram twoPages 5000 =
    some (r', some d) ∧ ∃ f, d.maps 1 = some { frame := f, flags := 3#12 } ∧
      r'.page f = twoPagesMemory.ram.page 1003 ∧ f ∉ r'.freelist := by
  have hup : pageUp (5000 : Word).toNat = 2 := by decide
  have hmem : twoPages ∈ twoPagesMemory.dirs := List.mem_singleton.mpr rfl
  have hsrc : ∀ i < pageUp (5000 : Word).toNat, twoPages.maps i ≠ none := by
    rw [hup]
    decide
  obtain ⟨r', d, heq⟩ := (copyuvm_returns_iff 5000 twoPagesMemory.nodup twoPagesMemory.valid hsrc
    (twoPagesMemory.apart twoPages hmem) (by rw [hup]; decide)).mpr (by rw [hup]; decide)
  obtain ⟨hpages, -⟩ := (copyuvm_private twoPagesMemory hmem 5000 hsrc).2.1 r' d heq
  obtain ⟨e, f, he, hmaps, hcontents, hfree, -⟩ := hpages 1 (by rw [hup]; decide)
  have hentry : twoPages.maps 1 = some { frame := 1003, flags := 3#12 } := by decide
  rw [hentry] at he
  cases he
  exact ⟨r', d, heq, f, hmaps, hcontents, hfree⟩

end PageDir

end Xv6
