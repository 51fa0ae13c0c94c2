import Xv6.Laws.Vm.Inverse
import Xv6.Laws.Vm.Stack
import Xv6.Vm.Load

/-!
# exec on any file

Whatever the file holds, the loader of `exec` comes to an end without a panic. The pages that are
mapped are those below the size after each segment (`Loading`), since `allocuvm` fills the gaps
between segments and never maps a page twice; `loaduvm` therefore finds every page it asks for. At
the label `bad` all the pages that were taken go back.
-/

namespace Xv6

open Xv6.Lib

namespace PageDir

variable {K : Symbols} {r₀ r r' : Ram} {d d' : PageDir} {f : ProgFile} {addr off sz newsz : Word}

/-- A directory that is being built out of the pages that were free. -/
structure Building (r₀ r : Ram) (d : PageDir) : Prop where
  holds : Holds (· ∈ r₀.freelist) r d []
  page : ∀ f ∉ r₀.freelist, r.page f = r₀.page f

/-- Moreover its user pages are those below the size. -/
structure Loading (r₀ r : Ram) (d : PageDir) (sz : Word) : Prop extends Building r₀ r d where
  size : sz.toNat < KERNBASE
  pages : ∀ i < NUPAGE, d.maps i ≠ none ↔ i < pageUp sz.toNat

/-! ## allocuvm -/

theorem Building.restored (h : Building r₀ r d) (hres : Restored (· ∈ r₀.freelist) [] r d r' d') :
    Building r₀ r' d' := by
  refine ⟨hres.holds, fun f hf => ?_⟩
  have hfree : f ∉ r.freelist := fun h0 =>
    hf (h.holds.covers.pages.valid_rest f (List.mem_append_left _ h0))
  rw [hres.page f hfree, h.page f hf]

theorem Loading.extended (h : Loading r₀ r d sz) (hnew : newsz.toNat < KERNBASE) (hle : sz ≤ newsz)
    (hext : Extended (· ∈ r₀.freelist) [] (pageUp sz.toNat) r d (pageUp newsz.toNat) r' d') :
    Loading r₀ r' d' newsz := by
  refine ⟨⟨hext.holds, fun f hf => ?_⟩, hnew, fun i hi => ?_⟩
  · have hfree : f ∉ r.freelist := fun h0 =>
      hf (h.holds.covers.pages.valid_rest f (List.mem_append_left _ h0))
    rw [hext.page f hfree, h.page f hf]
  · have hup : pageUp sz.toNat ≤ pageUp newsz.toNat := pageUp_le hle
    by_cases hin : pageUp sz.toNat ≤ i ∧ i < pageUp newsz.toNat
    · obtain ⟨g, -, hmaps, -⟩ := hext.fresh i hin.1 hin.2
      rw [hmaps]
      exact ⟨fun _ => hin.2, fun _ => nofun⟩
    · rw [hext.rest i (by omega), h.pages i hi]
      omega

theorem SetUp.loading (h : SetUp r₀ r d) (hpage : ∀ f ∉ r₀.freelist, r.page f = r₀.page f) :
    Loading r₀ r d 0 := by
  refine ⟨⟨h.holds, hpage⟩, by decide, fun i hi => ?_⟩
  rw [h.user i hi]
  have hzero : pageUp (0 : Word).toNat = 0 := by decide
  rw [hzero]
  simp

theorem SetUp.length (h : SetUp r₀ r d) (hnd : r₀.freelist.Nodup) :
    r₀.freelist.length = r.freelist.length + needs 0 := by
  have hlen := h.holds.covers.length hnd (parts 0) (own_ne_none_iff (Nat.zero_le _)
    (fun k => by simp [h.tab k]) fun j hj => by simp [h.user j hj])
  rwa [card_parts (Nat.zero_le _)] at hlen

theorem Loading.vacant (h : Loading r₀ r d sz) (hnew : newsz.toNat < KERNBASE) {j : Nat}
    (h1 : pageUp sz.toNat ≤ j) (h2 : j < pageUp newsz.toNat) : d.maps j = none := by
  have hj : j < NUPAGE := lt_of_lt_of_le h2 (pageUp_user hnew.le)
  by_contra hmaps
  exact absurd ((h.pages j hj).mp hmaps) (by omega)

section Valid

variable (hvalid : ∀ f ∈ r₀.freelist, K.ends ≤ f ∧ f < NFRAME)

include hvalid

/-- One call of `allocuvm`: it fails, or all pages below the new size are mapped. -/
theorem Loading.allocuvm (h : Loading r₀ r d sz) (newsz : Word) :
    ∃ ret r' d', allocuvm K r d sz newsz = some (ret, r', d') ∧
      (ret = 0 ∧ Building r₀ r' d' ∨ ret ≠ 0 ∧ newsz ≤ ret ∧ (sz ≤ newsz → ret = newsz) ∧
        Loading r₀ r' d' ret) := by
  by_cases hbig : KERNBASE ≤ newsz.toNat
  · exact ⟨0, r, d, if_pos hbig, .inl ⟨rfl, h.toBuilding⟩⟩
  · by_cases hlt : newsz < sz
    · refine ⟨sz, r, d, ?_, .inr ⟨?_, BitVec.le_of_lt hlt, fun hle => ?_, h⟩⟩
      · unfold PageDir.allocuvm
        rw [if_neg hbig, if_pos hlt]
      · rintro rfl
        exact absurd hlt (by rw [BitVec.lt_def]; exact Nat.not_lt_zero _)
      · exact absurd hle (BitVec.not_le.mpr hlt)
    · have hle : sz ≤ newsz := BitVec.not_lt.mp hlt
      have hnew : newsz.toNat < KERNBASE := Nat.lt_of_not_le hbig
      rcases allocuvm_spec (K := K) hvalid h.holds hnew hle fun _ => h.vacant hnew with
        ⟨r', d', hrun, hext⟩ | ⟨r', d', hrun, hres⟩
      · refine ⟨newsz, r', d', hrun, ?_⟩
        have hload := h.extended hnew hle hext
        by_cases hzero : newsz = 0
        · exact .inl ⟨hzero, hload.toBuilding⟩
        · exact .inr ⟨hzero, BitVec.le_refl _, fun _ => rfl, hload⟩
      · exact ⟨0, r', d', hrun, .inl ⟨rfl, h.toBuilding.restored hres⟩⟩

/-- With two free pages for each new page, for it and a table, `allocuvm` grows the image. -/
theorem Loading.grow (h : Loading r₀ r d sz) (newsz : Word) (hnew : newsz.toNat < KERNBASE)
    (hle : sz ≤ newsz) (hne : newsz ≠ 0)
    (hlen : 2 * (pageUp newsz.toNat - pageUp sz.toNat) ≤ r.freelist.length) :
    ∃ r' d', PageDir.allocuvm K r d sz newsz = some (newsz, r', d') ∧ Loading r₀ r' d' newsz ∧
      r.freelist.length ≤ r'.freelist.length + 2 * (pageUp newsz.toNat - pageUp sz.toNat) := by
  have htakes := takes_le d (pageUp sz.toNat) (pageUp newsz.toNat - pageUp sz.toNat)
  obtain ⟨r', d', hrun, heq⟩ :=
    (allocuvm_takes (K := K) hle hnew fun _ => h.vacant hnew).1 (htakes.trans hlen)
  obtain ⟨ret, r₁, d₁, hrun₁, ⟨rfl, -⟩ | ⟨-, -, -, hl⟩⟩ := h.allocuvm hvalid newsz
  · cases hrun.symm.trans hrun₁
    exact absurd rfl hne
  · cases hrun.symm.trans hrun₁
    exact ⟨r', d', hrun, hl, by omega⟩

end Valid

/-! ## loaduvm -/

/-- `loaduvm` into pages that are mapped writes to them and to nothing else. -/
theorem loadLoop_spec (h : Loading r₀ r d sz) (offset : Word) {n : Word}
    (hfit : addr.toNat + n.toNat ≤ sz.toNat) : ∀ (k : Nat) (i : Word) (r : Ram), Building r₀ r d →
      ∃ ok r', loadLoop d addr f offset n k i r = some (ok, r') ∧ Building r₀ r' d := by
  intro k
  induction k with
  | zero =>
    intro i r hr
    exact ⟨true, r, rfl, hr⟩
  | succ k ih =>
    intro i r hr
    unfold loadLoop
    by_cases hi : i < n
    · rw [if_pos hi]
      have hsize := h.size
      have hlt : i.toNat < n.toNat := hi
      have haddr : (addr + i).toNat = addr.toNat + i.toNat := by
        rw [BitVec.toNat_add]
        refine Nat.mod_eq_of_lt ?_
        unfold KERNBASE at hsize
        omega
      have hpage : pageOf (addr + i) < pageUp sz.toNat := by
        rw [UserMem.lt_pageUp_iff]
        unfold pageOf
        have := Nat.div_mul_le_self (addr + i).toNat PGSIZE
        omega
      have hup : pageOf (addr + i) < NUPAGE := lt_of_lt_of_le hpage (pageUp_user hsize.le)
      obtain ⟨e, he⟩ := Option.ne_none_iff_exists'.mp ((h.pages _ hup).mpr hpage)
      have hpool : e.frame ∈ r₀.freelist :=
        h.holds.covers.pages.valid_own _ _ (own_page_of_maps hup he)
      -- a page of the new memory gets other contents
      have hwrite : ∀ b, Building r₀ (r.setPage e.frame b) d := by
        intro b
        refine ⟨hr.holds.congr rfl rfl rfl, fun g hg => ?_⟩
        have hne : g ≠ e.frame := fun h0 => hg (h0 ▸ hpool)
        rw [setPage_of_ne b hne, hr.page g hg]
      rw [walk_of_maps he]
      dsimp only
      generalize (if n - i < .ofNat 32 PGSIZE then n - i else .ofNat 32 PGSIZE) = len
      split
      · exact ⟨false, r, rfl, hr⟩
      · split
        · exact ⟨false, _, rfl, hwrite _⟩
        · exact ih _ _ (hwrite _)
    · rw [if_neg hi]
      exact ⟨true, r, rfl, hr⟩

theorem Loading.loaduvm (h : Loading r₀ r d sz) (f : ProgFile) (offset : Word) {n : Word}
    (hfit : addr.toNat + n.toNat ≤ sz.toNat) (halign : addr.toNat % PGSIZE = 0) :
    ∃ ok r', loaduvm d addr f offset n r = some (ok, r') ∧ Loading r₀ r' d sz := by
  obtain ⟨ok, r', hrun, hb⟩ :=
    loadLoop_spec h offset hfit (pageUp n.toNat) 0 r h.toBuilding
  refine ⟨ok, r', ?_, hb, h.size, h.pages⟩
  unfold PageDir.loaduvm
  rw [if_neg (not_not.mpr halign), hrun]

/-! ## The program headers -/

/-- The loop over the program headers comes to its end or to `bad`. -/
theorem loadSegs_spec (hvalid : ∀ f ∈ r₀.freelist, K.ends ≤ f ∧ f < NFRAME) :
    ∀ (n : Nat) (off : Word) (r : Ram) (d : PageDir) (sz : Word), Loading r₀ r d sz →
      ∃ r' d' o, loadSegs K f n off r d sz = some (r', d', o) ∧ Building r₀ r' d' ∧
        ∀ sz', o = some sz' → Loading r₀ r' d' sz' := by
  intro n
  induction n with
  | zero =>
    intro off r d sz h
    refine ⟨r, d, some sz, rfl, h.toBuilding, fun sz' heq => ?_⟩
    cases heq
    exact h
  | succ n ih =>
    intro off r d sz h
    have hbad : ∀ {r : Ram} {d : PageDir}, Building r₀ r d →
        ∃ r' d' o, some (r, d, (none : Option Word)) = some (r', d', o) ∧ Building r₀ r' d' ∧
          ∀ sz', o = some sz' → Loading r₀ r' d' sz' :=
      fun hb => ⟨_, _, none, rfl, hb, nofun⟩
    unfold loadSegs
    dsimp only
    split
    · exact hbad h.toBuilding
    · split
      · exact ih _ r d sz h
      · split
        · exact hbad h.toBuilding
        · rename_i hmem
          split
          · exact hbad h.toBuilding
          · rename_i hwrap
            generalize f.proghdr off = ph at hmem hwrap ⊢
            obtain ⟨ret, r', d', hrun, ⟨rfl, hb⟩ | ⟨hne, hle, -, hl⟩⟩ :=
              h.allocuvm hvalid (ph.vaddr + ph.memsz)
            · rw [hrun]
              dsimp only
              rw [if_pos rfl]
              exact hbad hb
            · rw [hrun]
              dsimp only
              rw [if_neg hne]
              split
              · exact hbad hl.toBuilding
              · rename_i halign
                -- neither sum wraps around
                have hfit : ph.vaddr.toNat + ph.filesz.toNat ≤ ret.toNat := by
                  have h1 : (ph.vaddr + ph.memsz).toNat ≤ ret.toNat := hle
                  have h2 : ph.filesz.toNat ≤ ph.memsz.toNat := BitVec.not_lt.mp hmem
                  have h3 : ph.vaddr.toNat ≤ (ph.vaddr + ph.memsz).toNat := BitVec.not_lt.mp hwrap
                  rw [BitVec.toNat_add] at h1 h3
                  have h4 := ph.vaddr.isLt
                  have h5 := ph.memsz.isLt
                  omega
                obtain ⟨ok, r'', hload, hl'⟩ := hl.loaduvm f ph.off hfit (not_not.mp halign)
                rw [hload]
                cases ok with
                | false => exact hbad hl'.toBuilding
                | true => exact ih _ r'' d' ret hl'

/-! ## The stack -/

theorem toNat_boundary (h : sz.toNat < KERNBASE) :
    (BitVec.ofNat 32 (pageUp sz.toNat * PGSIZE)).toNat = pageUp sz.toNat * PGSIZE := by
  rw [BitVec.toNat_ofNat]
  refine Nat.mod_eq_of_lt ?_
  unfold pageUp KERNBASE PGSIZE at *
  omega

/-- Two more pages at the next page boundary; the lower one is the guard page. -/
theorem Loading.stack (h : Loading r₀ r d sz)
    (hvalid : ∀ f ∈ r₀.freelist, K.ends ≤ f ∧ f < NFRAME) : ∃ ret r' d',
    PageDir.allocuvm K r d (.ofNat 32 (pageUp sz.toNat * PGSIZE))
      (.ofNat 32 (pageUp sz.toNat * PGSIZE) + .ofNat 32 (2 * PGSIZE)) = some (ret, r', d') ∧
    (ret = 0 ∧ Building r₀ r' d' ∨ ret ≠ 0 ∧ ∃ d'',
      d'.clearpteu (ret - .ofNat 32 (2 * PGSIZE)) = some d'' ∧
      (∀ i, i * PGSIZE < ret.toNat → d''.maps i ≠ none) ∧
      Holds (· ∈ r₀.freelist) r' d'' [] ∧ ∀ f ∉ r₀.freelist, r'.page f = r₀.page f) := by
  have hsize := h.size
  have hsz := toNat_boundary hsize
  have hK : KERNBASE = 2 ^ 31 := rfl
  have hP : PGSIZE = 4096 := rfl
  have htwo : (BitVec.ofNat 32 (2 * PGSIZE)).toNat = 8192 := by decide
  have hup : pageUp (pageUp sz.toNat * PGSIZE) = pageUp sz.toNat := by
    unfold pageUp PGSIZE
    omega
  have hle : pageUp sz.toNat * PGSIZE ≤ KERNBASE := by
    unfold pageUp PGSIZE
    omega
  generalize hb : (BitVec.ofNat 32 (pageUp sz.toNat * PGSIZE)) = b at hsz ⊢
  have htop : (b + .ofNat 32 (2 * PGSIZE)).toNat = pageUp sz.toNat * PGSIZE + 8192 := by
    rw [BitVec.toNat_add, hsz, htwo]
    exact Nat.mod_eq_of_lt (by omega)
  by_cases hbig : KERNBASE ≤ (b + .ofNat 32 (2 * PGSIZE)).toNat
  · exact ⟨0, r, d, if_pos hbig, .inl ⟨rfl, h.toBuilding⟩⟩
  · have hbound : Loading r₀ r d b := by
      refine ⟨h.toBuilding, by omega, fun i hi => ?_⟩
      rw [h.pages i hi, hsz, hup]
    obtain ⟨ret, r', d', hrun, ⟨rfl, hfail⟩ | ⟨hne, -, heq, hl⟩⟩ :=
      hbound.allocuvm hvalid (b + .ofNat 32 (2 * PGSIZE))
    · exact ⟨0, r', d', hrun, .inl ⟨rfl, hfail⟩⟩
    · have hret : ret = b + .ofNat 32 (2 * PGSIZE) := heq (by rw [BitVec.le_def]; omega)
      subst hret
      refine ⟨_, r', d', hrun, .inr ⟨hne, ?_⟩⟩
      have hguard : pageOf (b + .ofNat 32 (2 * PGSIZE) - .ofNat 32 (2 * PGSIZE)) = pageUp sz.toNat := by
        rw [BitVec.add_sub_cancel]
        unfold pageOf
        rw [hsz]
        exact Nat.mul_div_cancel _ (by omega)
      have hin : pageUp sz.toNat < NUPAGE := by
        have hN : NUPAGE = 524288 := rfl
        rw [htop, hP] at hbig
        omega
      have hlast : pageUp sz.toNat < pageUp (b + .ofNat 32 (2 * PGSIZE)).toNat := by
        rw [UserMem.lt_pageUp_iff]
        omega
      obtain ⟨e, he⟩ := Option.ne_none_iff_exists'.mp ((hl.pages _ hin).mpr hlast)
      rw [clearpteu_eq (by rw [hguard]; exact he), hguard]
      refine ⟨_, rfl, fun i hi => ?_, hl.holds.clear hin he, hl.page⟩
      have hi' : i < pageUp (b + .ofNat 32 (2 * PGSIZE)).toNat := UserMem.lt_pageUp_iff.mpr hi
      have hiN : i < NUPAGE := lt_of_lt_of_le hi' (pageUp_user hl.size.le)
      by_cases hig : i = pageUp sz.toNat
      · subst hig
        rw [maps_setPte_self (tab_of_maps he) (e.clear_present.trans (present_of_maps he))]
        exact nofun
      · rw [maps_setPte_ne _ hig]
        exact (hl.pages i hiN).mpr hi'

/-! ## Giving up -/

/-- `freevm` of a directory in the making: the free list has its pages again. -/
theorem Building.freevm (h : Building r₀ r d) (hnd : r₀.freelist.Nodup)
    (hvalid : ∀ f ∈ r₀.freelist, K.ends ≤ f ∧ f < NFRAME) :
    ∃ r', freevm K r d = some r' ∧ r'.freelist.Perm r₀.freelist ∧
      ∀ f ∉ r₀.freelist, r'.page f = r₀.page f := by
  obtain ⟨r', hrun, hcov, hpage⟩ := freevm_spec (K := K) hvalid h.holds
  refine ⟨r', hrun, hcov.perm (fun _ => rfl) hnd, fun f hf => ?_⟩
  rw [hpage f hf, h.page f hf]

end PageDir

namespace ExecSys

open PageDir

variable {K : Symbols} {s s₁ : ExecSys} {held : Bool}

/-- What belongs to the caller is the same; the inode is `held`, with a transaction open, or not. -/
structure Holding (s : ExecSys) (held : Bool) (s₁ : ExecSys) : Prop where
  dir : s₁.mem.dir = s.mem.dir
  sz : s₁.mem.sz = s.mem.sz
  fslist : s₁.mem.fslist = s.mem.fslist
  thread : s₁.thread = s.thread
  tf : s₁.tf = s.tf
  ref : s₁.ref = s.ref + held.toNat
  locked : s₁.locked = held
  outstanding : s₁.outstanding = s.outstanding + held.toNat

theorem Holding.setRam (h : Holding s held s₁) (ram : Ram) : Holding s held (s₁.setRam ram) :=
  ⟨h.dir, h.sz, h.fslist, h.thread, h.tf, h.ref, h.locked, h.outstanding⟩

/-- `iunlockput(ip); end_op()`. -/
theorem Holding.drop (h : Holding s true s₁) : Holding s false s₁.iunlockput.endOp := by
  refine ⟨h.dir, h.sz, h.fslist, h.thread, h.tf, ?_, rfl, ?_⟩
  · show s₁.ref - 1 = s.ref + 0
    rw [h.ref]
    rfl
  · show s₁.outstanding - 1 = s.outstanding + 0
    rw [h.outstanding]
    rfl

/-- The loader's answer: -1 with every page free again, or an image without a hole that has all the
pages that were taken. -/
def Answers (s s' : ExecSys) : Option (PageDir × Word) → Prop
  | none => s'.mem.ram.freelist.Perm s.mem.ram.freelist
  | some (d, sz) => (∀ i, i * PGSIZE < sz.toNat → d.maps i ≠ none) ∧
    Holds (· ∈ s.mem.ram.freelist) s'.mem.ram d []

/-- How the loader ends: the caller, the reference and the transaction are as they were, and so are
the pages in use. -/
structure Ends (s s' : ExecSys) (o : Option (PageDir × Word)) : Prop where
  caller : Holding s false s'
  page : ∀ f ∉ s.mem.ram.freelist, s'.mem.ram.page f = s.mem.ram.page f
  answers : Answers s s' o

/-- The label `bad` when all that was taken is in the directory. -/
theorem Holding.bad (h : Holding s held s₁) {pgdir : Option PageDir} {r : Ram}
    (hrun : freePgdir K pgdir s₁.mem.ram = some r)
    (hperm : r.freelist.Perm s.mem.ram.freelist)
    (hpage : ∀ f ∉ s.mem.ram.freelist, r.page f = s.mem.ram.page f) :
    ∃ s' o, s₁.bad K pgdir held = some (s', o) ∧ Ends s s' o := by
  unfold ExecSys.bad
  rw [hrun, Option.map_some]
  cases held with
  | false => exact ⟨_, none, rfl, h.setRam r, hpage, hperm⟩
  | true => exact ⟨_, none, rfl, (h.setRam r).drop, hpage, hperm⟩

/-- Whatever the file holds and wherever memory runs out, the loader comes to an end. -/
theorem load_tolerates (K : Symbols) (ip : Option ProgFile) (s : ExecSys) (hlock : s.locked = false)
    (hnd : s.mem.ram.freelist.Nodup)
    (hvalid : ∀ f ∈ s.mem.ram.freelist, K.ends ≤ f ∧ f < NFRAME) :
    ∃ s' o, s.load K ip = some (s', o) ∧ Ends s s' o := by
  unfold load
  cases ip with
  | none =>
    refine ⟨_, none, rfl, ⟨rfl, rfl, rfl, rfl, rfl, rfl, hlock, ?_⟩, fun _ _ => rfl, .refl _⟩
    exact Nat.add_sub_cancel ..
  | some f =>
    have hopen : Holding s true s.beginOp.namei.ilock := ⟨rfl, rfl, rfl, rfl, rfl, rfl, rfl, rfl⟩
    have hnothing : ∃ s' o, s.beginOp.namei.ilock.bad K none true = some (s', o) ∧ Ends s s' o :=
      hopen.bad rfl (.refl _) fun _ _ => rfl
    dsimp only
    split
    · exact hnothing
    · split
      · exact hnothing
      · obtain ⟨r, o, hrun, hpage, hnone, hsome⟩ := setupkvm_spec (K := K) hnd hvalid
        have hrun' : setupkvm K s.beginOp.namei.ilock.mem.ram = some (r, o) := hrun
        rw [hrun']
        cases o with
        | none => exact (hopen.setRam r).bad rfl (hnone rfl).1 hpage
        | some d =>
          have hstart : Loading s.mem.ram r d 0 := (hsome d rfl).loading hpage
          obtain ⟨r', d', o, hsegs, hbuild, hload⟩ :=
            loadSegs_spec hvalid f.elfhdr.phnum f.elfhdr.phoff r d 0 hstart
          dsimp only
          rw [hsegs]
          cases o with
          | none =>
            obtain ⟨r'', hfree, hperm, hpage'⟩ := hbuild.freevm hnd hvalid
            exact (hopen.setRam r').bad hfree hperm hpage'
          | some sz =>
            have hl := hload sz rfl
            have hclosed : Holding s false ((s.beginOp.namei.ilock.setRam r').iunlockput.endOp) :=
              (hopen.setRam r').drop
            obtain ⟨ret, r'', d'', hrun₂, ⟨rfl, hb⟩ | ⟨hne, d₃, hclear, hmaps, hholds, hpage₃⟩⟩ :=
              hl.stack hvalid
            · obtain ⟨r₃, hfree, hperm, hpage'⟩ := hb.freevm hnd hvalid
              dsimp only
              rw [hrun₂]
              dsimp only
              rw [if_pos rfl]
              exact (hclosed.setRam r'').bad hfree hperm hpage'
            · dsimp only
              rw [hrun₂]
              dsimp only
              rw [if_neg hne, hclear]
              exact ⟨_, _, rfl, hclosed.setRam r'', hpage₃, hmaps, hholds⟩

/-- The loader when nothing is in its way. -/
theorem load_accepts {f : ProgFile} {r r₁ r₂ : Ram} {d d₁ d₂ d₃ : PageDir} {sz ret : Word}
    (hread : f.readi 0 52 = some 52) (hmagic : f.elfhdr.magic = ELF_MAGIC)
    (hset : setupkvm K s.mem.ram = some (r, some d))
    (hsegs : loadSegs K f f.elfhdr.phnum f.elfhdr.phoff r d 0 = some (r₁, d₁, some sz))
    (hstack : allocuvm K r₁ d₁ (.ofNat 32 (pageUp sz.toNat * PGSIZE))
      (.ofNat 32 (pageUp sz.toNat * PGSIZE) + .ofNat 32 (2 * PGSIZE)) = some (ret, r₂, d₂))
    (hne : ret ≠ 0) (hclear : d₂.clearpteu (ret - .ofNat 32 (2 * PGSIZE)) = some d₃) :
    ∃ s', s.load K (some f) = some (s', some (d₃, ret)) := by
  have hset' : setupkvm K s.beginOp.namei.ilock.mem.ram = some (r, some d) := hset
  unfold load
  dsimp only
  rw [if_neg (not_not.mpr hread), if_neg (not_not.mpr hmagic), hset']
  dsimp only
  rw [hsegs]
  dsimp only
  rw [hstack]
  dsimp only
  rw [if_neg hne, hclear]
  exact ⟨_, rfl⟩

/-- An ELF file with one program header: four bytes behind it go to a segment of a hundred. -/
def oneSegment : ProgFile where
  size := 88
  data
    | 0 => 0x7F | 1 => 0x45 | 2 => 0x4C | 3 => 0x46
    | 28 => 52 | 44 => 1
    | 52 => 1 | 56 => 84 | 68 => 4 | 72 => 100
    | 84 => 9 | 87 => 7
    | _ => 0

/-- A caller of two pages, with a hundred free ones. -/
def caller : ExecSys := ⟨UserMem.twoPages, fun _ => {}, fun _ => ⟨0, 0, 0⟩, 1, false, 0⟩

/-- The segment is loaded into a page, and two pages of stack are behind it. -/
theorem load_tolerates_segment : ∃ s' d, caller.load smallKernel (some oneSegment) =
      some (s', some (d, 12288)) ∧ Ends caller s' (some (d, 12288)) := by
  have hvalid := twoPagesMemory.valid
  obtain ⟨s₀, o₀, hrun, hends⟩ := load_tolerates smallKernel (some oneSegment) caller rfl
    twoPagesMemory.nodup hvalid
  obtain ⟨r, o, hset, hpage, hnone, hsome⟩ := setupkvm_spec twoPagesMemory.nodup hvalid
  cases o with
  | none => exact absurd (hnone rfl).2 (by decide)
  | some d =>
    have hstart := (hsome d rfl).loading hpage
    have hfree : 100 = r.freelist.length + 65 := (hsome d rfl).length twoPagesMemory.nodup
    have hup : pageUp (100 : Word).toNat - pageUp (0 : Word).toNat = 1 := by decide
    obtain ⟨r₁, d₁, hseg, hl₁, hfree₁⟩ := hstart.grow hvalid 100 (by decide) (by decide)
      (by decide) (by rw [hup]; omega)
    obtain ⟨e, he⟩ := Option.ne_none_iff_exists'.mp ((hl₁.pages 0 (by decide)).mpr (by decide))
    -- the one turn of `loaduvm`
    have hread : loaduvm d₁ 0 oneSegment 84 4 r₁ = some (true, r₁.setPage e.frame
        ((r₁.page e.frame).write 0 4 fun j => oneSegment.data (84 + j))) := by
      unfold loaduvm
      rw [if_neg (by decide), show pageUp (4 : Word).toNat = 1 from rfl]
      unfold loadLoop
      rw [if_pos (by decide), show pageOf ((0 : Word) + 0) = 0 from rfl, walk_of_maps he]
      rfl
    have hfit : (0 : Word).toNat + (4 : Word).toNat ≤ (100 : Word).toNat := by decide
    obtain ⟨ok, r₂, hload, hl₂⟩ := hl₁.loaduvm oneSegment 84 hfit rfl
    obtain ⟨rfl, hr₂⟩ := Prod.mk.inj (Option.some.inj (hload.symm.trans hread))
    have hsegs : loadSegs smallKernel oneSegment oneSegment.elfhdr.phnum oneSegment.elfhdr.phoff
        r d 0 = some (r₂, d₁, some 100) := by
      have hph : oneSegment.proghdr 52 = ⟨1, 84, 0, 4, 100⟩ := rfl
      show loadSegs smallKernel oneSegment 1 52 r d 0 = _
      unfold loadSegs
      rw [if_neg (by decide), hph]
      dsimp only
      rw [if_neg (by decide), if_neg (by decide), if_neg (by decide)]
      rw [show (0 : Word) + 100 = 100 from rfl, hseg]
      dsimp only
      rw [if_neg (by decide), if_neg (by decide), hload]
      rfl
    have hround : Loading twoPagesMemory.ram r₂ d₁ 4096 := ⟨hl₂.toBuilding, by decide, hl₂.pages⟩
    have hup₂ : pageUp (12288 : Word).toNat - pageUp (4096 : Word).toNat = 2 := by decide
    obtain ⟨r₃, d₃, hstack, -⟩ := hround.grow hvalid 12288 (by decide) (by decide)
      (by decide) (by rw [hup₂, hr₂]; show 4 ≤ r₁.freelist.length; omega)
    obtain ⟨ret, r₄, d₄, hstack₄, ⟨rfl, -⟩ | ⟨-, d₅, hclear, -⟩⟩ := hl₂.stack hvalid
    · cases hstack.symm.trans hstack₄
    · obtain ⟨rfl, -⟩ := Prod.mk.inj (Option.some.inj (hstack.symm.trans hstack₄))
      obtain ⟨s', hdone⟩ := load_accepts (s := caller) (by decide) (by decide) hset hsegs hstack₄
        (by decide) hclear
      obtain ⟨rfl, rfl⟩ := Prod.mk.inj (Option.some.inj (hrun.symm.trans hdone))
      exact ⟨_, d₅, hdone, hends⟩

end ExecSys

end Xv6
