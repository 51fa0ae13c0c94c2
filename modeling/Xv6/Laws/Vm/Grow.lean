import Xv6.Laws.Vm.Copy
import Xv6.Lib.Machine

/-!
# allocuvm, growproc and ualloc

`allocuvm` maps all the pages it is asked for or, with `deallocuvm`, none of them: then the page
tables it has taken stay, and nothing else does (`Restored`). `growproc` takes a result of 0 for a
failure, which is also the size after the last page has gone.

`ualloc` computes the addresses of the guard page and of the stack from a size that need not be a
multiple of the page size, while `allocuvm` starts at the next page.
-/

namespace Xv6

open Xv6.Lib

/-- The pages that `kfree` accepts. -/
def Symbols.page (K : Symbols) (f : Nat) : Prop := K.ends ≤ f ∧ f < NFRAME

theorem pageUp_le {a b : Nat} (h : a ≤ b) : pageUp a ≤ pageUp b := by
  unfold pageUp
  exact Nat.div_le_div_right (by omega)

theorem pageUp_user {a : Nat} (h : a ≤ KERNBASE) : pageUp a ≤ NUPAGE := by
  unfold pageUp NUPAGE KERNBASE PGSIZE at *
  omega

namespace PageDir

variable {d d' d₀ : PageDir} {r r' r₀ : Ram} {e : PageEntry} {i j k n f lo : Nat}
  {pool : Nat → Prop} {taken : List Nat} {K : Symbols} {oldsz newsz : Word}

/-- The memory as it was, but for page tables. -/
structure Restored (pool : Nat → Prop) (taken : List Nat) (r₀ : Ram) (d₀ : PageDir) (r : Ram)
    (d : PageDir) : Prop where
  holds : Holds pool r d taken
  maps : ∀ j, d.maps j = d₀.maps j
  page : ∀ f ∉ r₀.freelist, r.page f = r₀.page f

/-- Memory that `allocuvm` has added to. -/
abbrev Extended (pool : Nat → Prop) (taken : List Nat) (lo : Nat) (r₀ : Ram) (d₀ : PageDir) (i : Nat)
    (r : Ram) (d : PageDir) : Prop :=
  Grown pool taken lo (fun _ => PTE_W ||| PTE_U ||| PTE_P) (fun _ => Bytes.zero) r₀ d₀ i r d

section Pool

variable (hpool : ∀ f, pool f → K.page f)

include hpool

/-- `deallocuvm` of a smaller size. -/
theorem deallocuvm_spec (h : Holds pool r d taken) (hold : oldsz.toNat ≤ KERNBASE)
    (hlt : newsz < oldsz) : ∃ r' d', deallocuvm K r d oldsz newsz = some (newsz, r', d') ∧
      Holds pool r' d' taken ∧ Unmapped (pageUp newsz.toNat) (pageUp oldsz.toNat) r d r' d' := by
  have hle : pageUp newsz.toNat ≤ pageUp oldsz.toNat := pageUp_le (Nat.le_of_lt hlt)
  obtain ⟨r', d', hrun, hholds, hu⟩ := unmap_spec hpool (pageUp_user hold)
    (pageUp oldsz.toNat - pageUp newsz.toNat) (pageUp newsz.toNat) r d h (by omega)
  refine ⟨r', d', ?_, hholds, hu⟩
  unfold deallocuvm
  rw [if_neg (BitVec.not_le.mpr hlt), hrun]
  rfl

/-- `allocuvm` gives up: the pages it has mapped go back. -/
theorem Grown.undo {fl : Nat → BitVec 12} {bs : Nat → Bytes PGSIZE} {lost : List Nat} {r₁ : Ram}
    (h : Grown pool taken (pageUp oldsz.toNat) fl bs r₀ d₀ i r d) (hi : pageUp oldsz.toNat ≤ i)
    (hnew : newsz.toNat < KERNBASE) (hlt : i < pageUp newsz.toNat)
    (hnone : ∀ j, pageUp oldsz.toNat ≤ j → j < pageUp newsz.toNat → d₀.maps j = none)
    (hold : Holds pool r₁ d lost) (hpage : ∀ f ∉ r₀.freelist, r₁.page f = r₀.page f) :
    ∃ r' d', deallocuvm K r₁ d newsz oldsz = some (oldsz, r', d') ∧ Restored pool lost r₀ d₀ r' d' := by
  have hsz : oldsz < newsz := by
    rw [BitVec.lt_def]
    by_contra hcon
    have := pageUp_le (Nat.le_of_not_lt hcon)
    omega
  obtain ⟨r', d', hrun, hholds, hu⟩ := deallocuvm_spec hpool hold hnew.le hsz
  refine ⟨r', d', hrun, hholds, fun j => ?_, fun f hf => ?_⟩
  · rw [hu.maps j]
    split
    · rename_i hj
      exact (hnone j hj.1 hj.2).symm
    · exact h.rest j (by omega)
  · rw [hu.page f fun j h1 h2 hown => ?_, hpage f hf]
    by_cases hj : j < i
    · obtain ⟨g, hg, hmaps, -⟩ := h.fresh j h1 hj
      have hjn : j < NUPAGE := by
        have := pageUp_user hnew.le
        omega
      rw [own_page_of_maps hjn hmaps] at hown
      cases hown
      exact hf hg
    · rw [own_page_none ((h.rest j (.inr (by omega))).trans (hnone j h1 h2))] at hown
      cases hown

theorem allocLoop_spec (hnew : newsz.toNat < KERNBASE)
    (hnone : ∀ j, pageUp oldsz.toNat ≤ j → j < pageUp newsz.toNat → d₀.maps j = none) :
    ∀ (m i : Nat) (r : Ram) (d : PageDir), i + m = pageUp newsz.toNat → pageUp oldsz.toNat ≤ i →
      Extended pool taken (pageUp oldsz.toNat) r₀ d₀ i r d →
      (∃ r' d', allocLoop K oldsz newsz m i r d = some (newsz, r', d') ∧
        Extended pool taken (pageUp oldsz.toNat) r₀ d₀ (pageUp newsz.toNat) r' d') ∨
      ∃ r' d', allocLoop K oldsz newsz m i r d = some (0, r', d') ∧
        Restored pool taken r₀ d₀ r' d' := by
  intro m
  induction m with
  | zero =>
    intro i r d hm hi h
    obtain rfl : i = pageUp newsz.toNat := hm
    exact .inl ⟨r, d, rfl, h⟩
  | succ m ih =>
    intro i r d hm hi h
    have hlast := pageUp_user hnew.le
    unfold allocLoop
    rcases h.mapFresh hi (by omega) (hnone i hi (by omega))
      (show (PTE_W ||| PTE_U) ||| PTE_P = _ from rfl) with
      ⟨r', d', heq, hg⟩ | ⟨-, heq⟩ | ⟨f, r', hone, -, heq, -, hold, hpage⟩
    · rw [heq]
      exact ih (i + 1) r' d' (by omega) (by omega) hg
    · rw [heq]
      obtain ⟨r', d', hrun, hres⟩ := h.undo hpool hi hnew (by omega) hnone h.holds h.page
      refine .inr ⟨r', d', ?_, hres⟩
      dsimp only
      rw [hrun]
      rfl
    · rw [heq]
      obtain ⟨r'', d', hrun, hres⟩ := h.undo hpool hi hnew (by omega) hnone hold hpage
      have hcov := hres.holds.covers
      have hin : pool f := hcov.pages.valid_rest f (by simp)
      have hf : f ∈ r₀.freelist := by
        refine h.sub f ?_
        rw [hone]
        exact List.mem_singleton.mpr rfl
      refine .inr ⟨r''.kfree f, d', ?_, ⟨hcov.give, hres.holds.small⟩, hres.maps, fun g hg => ?_⟩
      · dsimp only
        rw [hrun]
        dsimp only [Option.bind_some]
        rw [kfreePage_eq hpool r'' hin]
        rfl
      · have hne : g ≠ f := fun h0 => hg (h0 ▸ hf)
        rw [kfree_page hne]
        exact hres.page g hg

/-- `allocuvm` of a larger size below `KERNBASE` maps all the new pages, or none. -/
theorem allocuvm_spec (h : Holds pool r d taken) (hnew : newsz.toNat < KERNBASE) (hle : oldsz ≤ newsz)
    (hnone : ∀ j, pageUp oldsz.toNat ≤ j → j < pageUp newsz.toNat → d.maps j = none) :
    (∃ r' d', allocuvm K r d oldsz newsz = some (newsz, r', d') ∧
      Extended pool taken (pageUp oldsz.toNat) r d (pageUp newsz.toNat) r' d') ∨
    ∃ r' d', allocuvm K r d oldsz newsz = some (0, r', d') ∧ Restored pool taken r d r' d' := by
  unfold allocuvm
  rw [if_neg (by omega), if_neg (BitVec.not_lt.mpr hle)]
  refine allocLoop_spec hpool hnew hnone _ _ r d ?_ le_rfl (.start h _)
  have := pageUp_le hle
  omega

end Pool

end PageDir

/-- `copyuvm` of a size whose first page is missing, with memory enough for `setupkvm`. -/
theorem PageDir.copyuvm_panics {K : Symbols} {r : Ram} {src : PageDir} {sz : Word}
    (hnd : r.freelist.Nodup) (hvalid : ∀ f ∈ r.freelist, K.ends ≤ f ∧ f < NFRAME)
    (hlen : needs 0 ≤ r.freelist.length) (hsz : 0 < pageUp sz.toNat) (hnone : src.maps 0 = none) :
    copyuvm K r src sz = none := by
  obtain ⟨r', o, hrun, -, hnil, -⟩ := setupkvm_spec hnd hvalid
  obtain ⟨n, hn⟩ := Nat.exists_eq_succ_of_ne_zero (Nat.ne_of_gt hsz)
  unfold copyuvm
  rw [hrun, hn]
  cases o with
  | none =>
    have := (hnil rfl).2
    omega
  | some d =>
    show copyLoop K src (n + 1) 0 r' d = none
    unfold copyLoop
    rw [hnone]

/-! ## growproc -/

namespace UserMem

variable {m m' : UserMem} {K : Symbols} {n : Word}

/-- The memory of a process: its size is below `KERNBASE`, the user pages that are mapped are those
below the size, and they, the tables and the directory lie in different pages, none of them free. -/
structure Sound (K : Symbols) (m : UserMem) : Prop where
  holds : ∃ taken, PageDir.Holds K.page m.ram m.dir taken
  size : m.sz.toNat < KERNBASE
  pages : ∀ i < NUPAGE, m.dir.maps i ≠ none ↔ i < pageUp m.sz.toNat

/-- The size is the same, and so are the user pages with their permissions and contents. -/
structure Unchanged (m m' : UserMem) : Prop where
  sz : m'.sz = m.sz
  maps : ∀ i < NUPAGE, m'.dir.maps i = m.dir.maps i
  page : ∀ i < NUPAGE, ∀ e, m.dir.maps i = some e → m'.ram.page e.frame = m.ram.page e.frame

/-- Every page below the size is mapped, and no user page at or above it. -/
def Fits (m : UserMem) : Prop :=
  (∀ i, i * PGSIZE < m.sz.toNat → m.dir.maps i ≠ none) ∧
    ∀ i, m.sz.toNat ≤ i * PGSIZE → i < NUPAGE → m.dir.maps i = none

/-- `growproc(n)` returns -1 and has changed nothing, or it returns 0 and the pages fit the size. -/
def AllOrNothing (K : Symbols) (m : UserMem) (n : Word) : Prop :=
  ∃ ret m', m.growproc K n = some (ret, m') ∧ (ret = -1 ∧ Unchanged m m' ∨ ret = 0 ∧ Fits m')

/-- The call gives back all of the memory. -/
def Empties (m : UserMem) (n : Word) : Prop := n.toInt < 0 ∧ m.sz ≠ 0 ∧ m.sz + n = 0

instance (m : UserMem) (n : Word) : Decidable (m.Empties n) :=
  inferInstanceAs (Decidable (_ ∧ _ ∧ _))

theorem lt_pageUp_iff {i b : Nat} : i < pageUp b ↔ i * PGSIZE < b := by
  unfold pageUp PGSIZE
  omega

theorem Sound.fits (h : Sound K m) : m.Fits := by
  have hle := pageUp_user h.size.le
  refine ⟨fun i hi => ?_, fun i hi hn => ?_⟩
  · have hlt := lt_pageUp_iff.mpr hi
    exact (h.pages i (by omega)).mpr hlt
  · by_contra hcon
    have := lt_pageUp_iff.mp ((h.pages i hn).mp hcon)
    omega

theorem Unchanged.refl (m : UserMem) : Unchanged m m := ⟨rfl, fun _ _ => rfl, fun _ _ _ _ => rfl⟩

/-- A page in use is not free. -/
theorem Sound.not_free (h : Sound K m) {i : Nat} {e : PageEntry} (hi : i < NUPAGE)
    (he : m.dir.maps i = some e) : e.frame ∉ m.ram.freelist := by
  obtain ⟨taken, hold⟩ := h.holds
  exact hold.not_free (PageDir.own_page_of_maps hi he)

/-- `allocuvm` has failed. -/
theorem Sound.restored (h : Sound K m) {taken : List Nat} {ram : Ram} {dir : PageDir}
    (hres : PageDir.Restored K.page taken m.ram m.dir ram dir) :
    Unchanged m { m with ram, dir } ∧ Sound K { m with ram, dir } := by
  refine ⟨⟨rfl, fun i _ => hres.maps i, fun i hi e he => hres.page _ (h.not_free hi he)⟩,
    ⟨taken, hres.holds⟩, h.size, fun i hi => ?_⟩
  rw [show ({ m with ram, dir } : UserMem).dir.maps i = m.dir.maps i from hres.maps i]
  exact h.pages i hi

/-- `allocuvm` has succeeded. -/
theorem Sound.extended (h : Sound K m) {taken : List Nat} {ram : Ram} {dir : PageDir} {sz : Word}
    (hsz : sz.toNat < KERNBASE) (hle : m.sz ≤ sz)
    (hext : PageDir.Extended K.page taken (pageUp m.sz.toNat) m.ram m.dir (pageUp sz.toNat) ram dir) :
    Sound K { m with ram, dir, sz } := by
  have hup := pageUp_le hle
  refine ⟨⟨taken, hext.holds⟩, hsz, fun i hi => ?_⟩
  show dir.maps i ≠ none ↔ i < pageUp sz.toNat
  by_cases hin : pageUp m.sz.toNat ≤ i ∧ i < pageUp sz.toNat
  · obtain ⟨f, -, hmaps, -⟩ := hext.fresh i hin.1 hin.2
    rw [hmaps]
    simp [hin.2]
  · rw [hext.rest i (by omega), h.pages i hi]
    omega

/-- `deallocuvm` of a smaller size. -/
theorem Sound.unmapped (h : Sound K m) {taken : List Nat} {ram : Ram} {dir : PageDir} {sz : Word}
    (hlt : sz < m.sz) (hold : PageDir.Holds K.page ram dir taken)
    (hu : PageDir.Unmapped (pageUp sz.toNat) (pageUp m.sz.toNat) m.ram m.dir ram dir) :
    Sound K { m with ram, dir, sz } := by
  have hle := pageUp_le (Nat.le_of_lt hlt)
  refine ⟨⟨taken, hold⟩, lt_trans hlt h.size, fun i hi => ?_⟩
  show dir.maps i ≠ none ↔ i < pageUp sz.toNat
  rw [hu.maps i]
  split
  · simp
    omega
  · rw [h.pages i hi]
    omega

theorem resize_zero (ram : Ram) (dir : PageDir) : m.resize (0, ram, dir) = (-1, { m with ram, dir }) := by
  unfold resize
  exact if_pos rfl

theorem resize_ne {sz : Word} (h : sz ≠ 0) (ram : Ram) (dir : PageDir) :
    m.resize (sz, ram, dir) = (0, { m with ram, dir, sz }) := by
  unfold resize
  exact if_neg h

/-- What `growproc` does to a sound memory. -/
theorem Sound.growproc (h : Sound K m) (n : Word) : ∃ ret m', m.growproc K n = some (ret, m') ∧
    ((ret = -1 ∧ Unchanged m m' ∧ Sound K m' ∨ ret = 0 ∧ Sound K m') ∧ ¬ m.Empties n ∨
      m.Empties n ∧ ret = -1 ∧ m'.sz = m.sz ∧ ∀ i < NUPAGE, m'.dir.maps i = none) := by
  obtain ⟨taken, hold⟩ := h.holds
  have hsize := h.size
  have hK : KERNBASE = 2 ^ 31 := rfl
  have hn := n.isLt
  unfold UserMem.growproc
  have hint : n.toInt = if n.toNat < 2 ^ 31 then (n.toNat : Int) else (n.toNat : Int) - 2 ^ 32 := by
    rw [BitVec.toInt_eq_toNat_cond]
    split <;> split <;> omega
  have hadd : (m.sz + n).toNat = (m.sz.toNat + n.toNat) % 2 ^ 32 := BitVec.toNat_add ..
  by_cases hpos : 0 < n.toInt
  · rw [if_pos hpos]
    have hsmall : n.toNat < 2 ^ 31 := by
      by_contra hcon
      rw [hint, if_neg hcon] at hpos
      omega
    have hnpos : 0 < n.toNat := by
      rw [hint, if_pos hsmall] at hpos
      omega
    rw [Nat.mod_eq_of_lt (by omega)] at hadd
    have hempty : ¬ m.Empties n := fun h0 => by
      have := h0.1
      omega
    by_cases hbig : KERNBASE ≤ (m.sz + n).toNat
    · have heq : PageDir.allocuvm K m.ram m.dir m.sz (m.sz + n) = some (0, m.ram, m.dir) := if_pos hbig
      rw [heq]
      exact ⟨-1, m, by rw [Option.map_some, resize_zero], .inl ⟨.inl ⟨rfl, .refl m, h⟩, hempty⟩⟩
    · have hle : m.sz ≤ m.sz + n := by
        rw [BitVec.le_def]
        omega
      have hne : m.sz + n ≠ 0 := by
        intro h0
        rw [h0] at hadd
        simp at hadd
        omega
      have hnone : ∀ j, pageUp m.sz.toNat ≤ j → j < pageUp (m.sz + n).toNat → m.dir.maps j = none := by
        intro j h1 h2
        have := pageUp_user (a := (m.sz + n).toNat) (by omega)
        by_contra hcon
        have := (h.pages j (by omega)).mp hcon
        omega
      rcases PageDir.allocuvm_spec (fun _ h => h) hold (by omega) hle hnone with
        ⟨ram, dir, heq, hext⟩ | ⟨ram, dir, heq, hres⟩
      · rw [heq, Option.map_some, resize_ne hne]
        exact ⟨0, _, rfl, .inl ⟨.inr ⟨rfl, h.extended (by omega) hle hext⟩, hempty⟩⟩
      · rw [heq, Option.map_some, resize_zero]
        obtain ⟨hun, hsound⟩ := h.restored hres
        exact ⟨-1, _, rfl, .inl ⟨.inl ⟨rfl, hun, hsound⟩, hempty⟩⟩
  · rw [if_neg hpos]
    by_cases hneg : n.toInt < 0
    · rw [if_pos hneg]
      have hlarge : 2 ^ 31 ≤ n.toNat := by
        by_contra hcon
        rw [hint, if_pos (by omega)] at hneg
        omega
      by_cases hwrap : m.sz.toNat + n.toNat < 2 ^ 32
      · -- below zero: `deallocuvm` sees a larger size and does nothing
        rw [Nat.mod_eq_of_lt hwrap] at hadd
        have heq : PageDir.deallocuvm K m.ram m.dir m.sz (m.sz + n) = some (m.sz, m.ram, m.dir) :=
          if_pos (by rw [BitVec.le_def]; omega)
        have hempty : ¬ m.Empties n := by
          rintro ⟨-, -, h0⟩
          rw [h0] at hadd
          simp at hadd
          omega
        rw [heq, Option.map_some]
        by_cases hzero : m.sz = 0
        · rw [hzero, resize_zero]
          exact ⟨-1, m, rfl, .inl ⟨.inl ⟨rfl, .refl m, h⟩, hempty⟩⟩
        · rw [resize_ne hzero]
          exact ⟨0, m, rfl, .inl ⟨.inr ⟨rfl, h⟩, hempty⟩⟩
      · have hadd' : (m.sz + n).toNat = m.sz.toNat + n.toNat - 2 ^ 32 := by omega
        have hlt : m.sz + n < m.sz := by
          rw [BitVec.lt_def]
          omega
        obtain ⟨ram, dir, heq, hold', hu⟩ := PageDir.deallocuvm_spec (fun _ h => h) hold hsize.le hlt
        rw [heq, Option.map_some]
        by_cases hzero : m.sz + n = 0
        · rw [hzero, resize_zero]
          have hne : m.sz ≠ 0 := by
            rintro h0
            rw [h0] at hlt
            exact absurd hlt (by simp)
          refine ⟨-1, _, rfl, .inr ⟨⟨hneg, hne, hzero⟩, rfl, rfl, fun i hi => ?_⟩⟩
          show dir.maps i = none
          rw [hu.maps i, hzero]
          split
          · rfl
          · rename_i hcon
            by_contra h0
            have := (h.pages i hi).mp h0
            have hup : pageUp (0 : Word).toNat = 0 := by decide
            omega
        · rw [resize_ne hzero]
          exact ⟨0, _, rfl, .inl ⟨.inr ⟨rfl, h.unmapped hlt hold' hu⟩, fun h0 => hzero h0.2.2⟩⟩
    · rw [if_neg hneg]
      exact ⟨0, m, rfl, .inl ⟨.inr ⟨rfl, h⟩, fun h0 => hneg h0.1⟩⟩

/-- `copyuvm` of a sound memory gives all pages back or makes a copy. -/
theorem Sound.copyuvm_cases (h : Sound K m) :
    (∃ r', PageDir.copyuvm K m.ram m.dir m.sz = some (r', none) ∧
      r'.freelist.Perm m.ram.freelist ∧ (∀ f ∉ m.ram.freelist, r'.page f = m.ram.page f) ∧
      m.ram.freelist.length < PageDir.needs (pageUp m.sz.toNat)) ∨
    ∃ r' d, PageDir.copyuvm K m.ram m.dir m.sz = some (r', some d) ∧
      PageDir.Copied m.dir (pageUp m.sz.toNat) m.ram r' d := by
  obtain ⟨taken, hold⟩ := h.holds
  have hle := pageUp_user h.size.le
  have hnd := (List.nodup_append.mp hold.covers.pages.nodup).1
  have hvalid : ∀ f ∈ m.ram.freelist, K.ends ≤ f ∧ f < NFRAME := fun f hf =>
    hold.covers.pages.valid_rest f (List.mem_append_left _ hf)
  rcases PageDir.copyuvm_cases hnd hvalid (fun i hi => (h.pages i (by omega)).mpr hi)
    (fun x f hx => hold.not_free hx) with ⟨-, hbig⟩ | hfail | ⟨r', d, heq, -, hcopy⟩
  · omega
  · exact .inl hfail
  · exact .inr ⟨r', d, heq, hcopy⟩

/-- `copyuvm` does not panic on a sound memory. -/
theorem Sound.copyuvm (h : Sound K m) : PageDir.copyuvm K m.ram m.dir m.sz ≠ none := by
  rcases h.copyuvm_cases with ⟨r', heq, -⟩ | ⟨r', d, heq, -⟩
  · rw [heq]
    simp
  · rw [heq]
    simp

/-- `growproc(n)` is all or nothing unless it gives back all of the memory. After any sequence of
calls that do not, `copyuvm` finds all pages. -/
theorem growproc_all_or_nothing (h : Sound K m) :
    (∀ n, m.AllOrNothing K n ↔ ¬ m.Empties n) ∧
    ∀ m', Reaches (fun (m : UserMem) n => (m.growproc K n).map Prod.snd) (fun m n => ¬ m.Empties n) m m' →
      PageDir.copyuvm K m'.ram m'.dir m'.sz ≠ none := by
  refine ⟨fun n => ?_, fun m' hreach => ?_⟩
  · obtain ⟨ret, m', heq, ⟨hgood, hempty⟩ | ⟨hempty, hret, hsz, hgone⟩⟩ := h.growproc n
    · refine ⟨fun _ => hempty, fun _ => ⟨ret, m', heq, ?_⟩⟩
      rcases hgood with ⟨hret, hun, -⟩ | ⟨hret, hsound⟩
      · exact .inl ⟨hret, hun⟩
      · exact .inr ⟨hret, hsound.fits⟩
    · refine ⟨fun hall => ?_, fun h0 => absurd hempty h0⟩
      obtain ⟨ret', m'', heq', hcases⟩ := hall
      rw [heq] at heq'
      cases heq'
      rcases hcases with ⟨-, hun⟩ | ⟨h0, -⟩
      · -- page 0 was mapped
        have hpos : 0 < pageUp m.sz.toNat := by
          rw [lt_pageUp_iff]
          have : m.sz.toNat ≠ 0 := fun h0 => hempty.2.1 (BitVec.eq_of_toNat_eq h0)
          omega
        have hpage := (h.pages 0 (by decide)).mpr hpos
        rw [← hun.maps 0 (by decide)] at hpage
        exact absurd (hgone 0 (by decide)) hpage
      · rw [hret] at h0
        exact absurd h0 (by decide)
  · have hsound : Sound K m' := hreach.invariant h fun s n s' hs hok hstep => by
      obtain ⟨x, hx, rfl⟩ := Option.map_eq_some_iff.mp hstep
      obtain ⟨ret, m'', heq, ⟨hgood, -⟩ | ⟨hempty, -⟩⟩ := hs.growproc n
      · rw [heq] at hx
        cases hx
        rcases hgood with ⟨-, -, h0⟩ | ⟨-, h0⟩
        · exact h0
        · exact h0
      · exact absurd hempty hok
    exact hsound.copyuvm

/-! A process of two pages gives both back. -/

theorem twoPages_cases (x : Part) (f : Nat) (h : PageDir.twoPages.own x = some f) :
    (x, f) ∈ [(.dir, 1000), (.tab 0, 1001), (.page 0, 1002), (.page 1, 1003)] := by
  cases x with
  | dir =>
    cases h
    decide
  | tab k =>
    obtain ⟨rfl, h0⟩ := Option.ite_none_right_eq_some.mp h
    cases h0
    decide
  | page i =>
    obtain ⟨-, h0⟩ := Option.ite_none_right_eq_some.mp h
    obtain ⟨e, he, rfl⟩ := Option.map_eq_some_iff.mp h0
    by_cases h0 : i = 0
    · subst h0
      cases he
      decide
    · by_cases h1 : i = 1
      · subst h1
        cases he
        decide
      · have hnone : PageDir.twoPages.maps i = none := by
          have hpte : PageDir.twoPages.pte i = {} := by
            show (if i = 0 then _ else if i = 1 then _ else _) = _
            rw [if_neg h0, if_neg h1]
          rw [PageDir.maps_eq, hpte]
          exact if_neg (fun h => absurd h.2 (by decide))
        rw [hnone] at he
        cases he

/-- The process, with a hundred free pages. -/
def twoPages : UserMem where
  ram := PageDir.twoPagesMemory.ram
  dir := PageDir.twoPages
  sz := 8192

theorem twoPages_sound : twoPages.Sound PageDir.smallKernel where
  holds := by
    have hpages : Pages PageDir.smallKernel.page PageDir.twoPages.own
        PageDir.twoPagesMemory.ram.freelist [] := by
      refine ⟨fun x y f hx hy => ?_, fun x f hx => ⟨?_, by simp⟩, ?_, fun x f hx => ?_, fun f hf => ?_⟩
      · have h1 := twoPages_cases x f hx
        have h2 := twoPages_cases y f hy
        simp only [List.mem_cons, Prod.mk.injEq, List.not_mem_nil, or_false] at h1 h2
        rcases h1 with ⟨rfl, rfl⟩ | ⟨rfl, rfl⟩ | ⟨rfl, rfl⟩ | ⟨rfl, rfl⟩
        all_goals
          simp only [Nat.reduceEqDiff, and_false, and_true, or_false, false_or] at h2
          exact h2.symm
      · exact PageDir.twoPagesMemory.apart _ (List.mem_singleton.mpr rfl) x f hx
      · rw [List.append_nil]
        exact PageDir.twoPagesMemory.nodup
      · have h1 := twoPages_cases x f hx
        have hK : PageDir.smallKernel.ends = 300 := rfl
        have hN : NFRAME = 57344 := rfl
        simp only [List.mem_cons, Prod.mk.injEq, List.not_mem_nil, or_false] at h1
        unfold Symbols.page
        omega
      · rw [List.append_nil] at hf
        exact PageDir.twoPagesMemory.valid f hf
    obtain ⟨taken, hcov⟩ := Covers.exists_taken hpages fun f hf => hf.2
    refine ⟨taken, hcov, fun k hk => ?_⟩
    obtain ⟨f, hf⟩ := Option.ne_none_iff_exists'.mp hk
    obtain ⟨rfl, -⟩ := Option.ite_none_right_eq_some.mp hf
    decide
  size := by decide
  pages i hi := by
    have hup : pageUp twoPages.sz.toNat = 2 := by decide
    rw [hup]
    refine ⟨fun h => ?_, fun h => ?_⟩
    · obtain ⟨e, he⟩ := Option.ne_none_iff_exists'.mp h
      have h1 := twoPages_cases (.page i) _ (PageDir.own_page_of_maps hi he)
      simp only [List.mem_cons, Prod.mk.injEq, Part.page.injEq, reduceCtorEq, false_and,
        List.not_mem_nil, or_false, false_or] at h1
      omega
    · obtain rfl | rfl : i = 0 ∨ i = 1 := by omega
      · decide
      · decide

theorem growproc_all_or_nothing_two : twoPages.AllOrNothing PageDir.smallKernel (-4096) :=
  ((growproc_all_or_nothing twoPages_sound).1 (-4096)).mpr (by decide)

/-- `sbrk(-sz)` frees every page, returns -1 and keeps the size. The next `fork` panics. -/
theorem growproc_frees_and_fails : twoPages.Sound PageDir.smallKernel ∧
    twoPages.dir.maps 0 ≠ none ∧ ∃ m', twoPages.growproc PageDir.smallKernel (-8192) = some (-1, m') ∧
      m'.sz = 8192 ∧ m'.dir.maps 0 = none ∧
      PageDir.copyuvm PageDir.smallKernel m'.ram m'.dir m'.sz = none := by
  obtain ⟨ret, m', heq, ⟨-, hcon⟩ | ⟨-, rfl, hsz, hgone⟩⟩ := twoPages_sound.growproc (-8192)
  · exact absurd (by decide) hcon
  · have hfree : m'.ram.freelist = 1003 :: 1002 :: List.range' 2000 100 := by
      have h0 : (twoPages.growproc PageDir.smallKernel (-8192)).map (fun x => x.2.ram.freelist) =
          some (1003 :: 1002 :: List.range' 2000 100) := by decide +kernel
      rw [heq] at h0
      exact Option.some.inj h0
    refine ⟨twoPages_sound, by decide, m', heq, hsz, hgone 0 (by decide), ?_⟩
    apply PageDir.copyuvm_panics
    · rw [hfree]
      decide +kernel
    · rw [hfree]
      decide +kernel
    · rw [hfree]
      decide +kernel
    · rw [hsz]
      decide
    · exact hgone 0 (by decide)

end UserMem

end Xv6
