import Xv6.Laws.Vm.Grow

/-!
# User stacks

A fresh stack is two pages above the size: `ualloc` takes the lower one for the guard page and
returns the of the upper one. The guard page is the page of the old size and the stack begins a
page above the old size, while the two pages that `allocuvm` maps begin at the next multiple of the
page size (`NewStack`). The three agree when the size is a multiple of the page size, and then every
later call keeps the stacks of the earlier ones; otherwise the page that loses `PTE_U` is the last
page of the old memory, and the page below the stack is its own first page.
-/

namespace Xv6

open Xv6.Lib

namespace PageEntry

/-- `*pte &= ~PTE_U` leaves the page present, -/
theorem clear_present (e : PageEntry) : ({ e with flags := e.flags &&& ~~~PTE_U } : PageEntry).present =
    e.present := by
  have hbit : (~~~PTE_U).getLsbD 0 = true := by decide
  rw [present_eq, present_eq, BitVec.getLsbD_and, hbit, Bool.and_true]

/-- and takes it from the user. -/
theorem clear_user (e : PageEntry) : ({ e with flags := e.flags &&& ~~~PTE_U } : PageEntry).user =
    false := by
  have hbit : (~~~PTE_U).getLsbD 2 = false := by decide
  rw [user_eq, BitVec.getLsbD_and, hbit, Bool.and_false]

end PageEntry

/-- `memset` of a page through its kernel address. -/
theorem Ram.clearPage_kaddr (r : Ram) (pd : Pgdir) {f : Nat} (hf : f < NFRAME) :
    r.clearPage pd (kaddr f) = some (r.setPage f Bytes.zero) := by
  have hN : NFRAME = 57344 := rfl
  have hU : NUPAGE = 524288 := rfl
  have haddr : (kaddr f).toNat = (524288 + f) * 4096 := by
    unfold kaddr
    rw [BitVec.toNat_ofNat, Nat.mod_eq_of_lt]
    all_goals
      unfold KERNBASE PGSIZE
      omega
  have hoff : (kaddr f).toNat % PGSIZE = 0 := by
    rw [haddr]
    exact Nat.mul_mod_left ..
  have hpage : pageOf (kaddr f) = NUPAGE + f := by
    unfold pageOf PGSIZE
    omega
  have hframe : frameAt pd (NUPAGE + f) = some f := by
    unfold frameAt
    rw [if_neg (by omega), if_pos (by omega), Nat.add_sub_cancel_left]
  have hzero : (r.page f).write 0 PGSIZE (fun _ => 0) = Bytes.zero := by
    refine Bytes.ext_byte fun k hk => ?_
    rw [Bytes.byte_write, if_pos ⟨Nat.zero_le k, by omega, hk⟩, Bytes.byte_zero]
    rfl
  unfold clearPage kwrite
  rw [hoff, if_pos (by omega), hpage, hframe, Option.map_some, hzero]

namespace PageDir

variable {d : PageDir} {r : Ram} {e : PageEntry} {i : Nat} {pool : Nat → Prop} {taken : List Nat}
  {uva : Word}

theorem clearpteu_eq (h : d.maps (pageOf uva) = some e) :
    d.clearpteu uva = some (d.setPte (pageOf uva) { e with flags := e.flags &&& ~~~PTE_U }) := by
  unfold clearpteu
  rw [walk_of_maps h, Option.map_some]

theorem uva2ka_eq (h : d.maps (pageOf uva) = some e) (hu : e.user = true) :
    d.uva2ka uva = some (some e.frame) := by
  unfold uva2ka
  rw [walk_of_maps h, Option.map_some, if_pos ⟨present_of_maps h, hu⟩]

/-- `clearpteu` takes no page and frees none. -/
theorem Holds.clear (hold : Holds pool r d taken) (hi : i < NUPAGE) (h : d.maps i = some e) :
    Holds pool r (d.setPte i { e with flags := e.flags &&& ~~~PTE_U }) taken := by
  have hpresent : ({ e with flags := e.flags &&& ~~~PTE_U } : PageEntry).present :=
    e.clear_present.trans (present_of_maps h)
  refine hold.congr rfl ?_ rfl
  rw [own_setPte hi (tab_of_maps h) hpresent]
  exact Function.update_eq_self_iff.mpr (own_page_of_maps hi h).symm

end PageDir

namespace UserMem

variable {m m' : UserMem} {K : Symbols} {sp : Word}

/-- All bytes of the page below `sp` are the user's, and the byte below them lies in a page that is
mapped and not the user's. -/
structure StackAt (m : UserMem) (sp : Word) : Prop where
  stack : ∀ k < PGSIZE, ∃ e, m.dir.maps (pageOf (sp - .ofNat 32 (k + 1))) = some e ∧ e.user = true
  guard : ∃ e, m.dir.maps (pageOf (sp - .ofNat 32 (PGSIZE + 1))) = some e ∧ e.user = false

/-- The call that returned `sp` has kept every page that overlaps the old memory, with its
permissions and contents, and `sp` is a stack with its guard page. -/
structure Protects (m : UserMem) (sp : Word) (m' : UserMem) : Prop where
  maps : ∀ i, i * PGSIZE < m.sz.toNat → m'.dir.maps i = m.dir.maps i
  page : ∀ i, i * PGSIZE < m.sz.toNat → ∀ e, m.dir.maps i = some e →
    m'.ram.page e.frame = m.ram.page e.frame
  stack : sp ≠ 0 → m'.StackAt sp

/-- What `ualloc` does when it takes a fresh stack. -/
structure NewStack (K : Symbols) (m m' : UserMem) : Prop where
  sound : Sound K m'
  list : m'.fslist = m.fslist
  size : m'.sz.toNat = m.sz.toNat + 2 * PGSIZE
  rest : ∀ i < pageUp m.sz.toNat, i ≠ m.sz.toNat / PGSIZE → m'.dir.maps i = m.dir.maps i
  fresh : ∀ i, pageUp m.sz.toNat ≤ i → i < pageUp m.sz.toNat + 2 →
    ∃ e, m'.dir.maps i = some e ∧ e.user = decide (i ≠ m.sz.toNat / PGSIZE)
  page : ∀ f ∉ m.ram.freelist, m'.ram.page f = m.ram.page f

/-! The size two pages up, and the pages that the addresses of `ualloc` lie in. -/

theorem toNat_two_up {sz : Word} (h : sz.toNat < KERNBASE) :
    (sz + .ofNat 32 (2 * PGSIZE)).toNat = sz.toNat + 2 * PGSIZE := by
  have hK : KERNBASE = 2 ^ 31 := rfl
  have hP : PGSIZE = 4096 := rfl
  rw [BitVec.toNat_add, BitVec.toNat_ofNat]
  omega

theorem pageUp_two_up (a : Nat) : pageUp (a + 2 * PGSIZE) = pageUp a + 2 := by
  unfold pageUp PGSIZE
  omega

theorem pageOf_one_up {sz : Word} (h : sz.toNat < KERNBASE) :
    pageOf (sz + .ofNat 32 (2 * PGSIZE) - .ofNat 32 PGSIZE) = pageOf sz + 1 := by
  have hK : KERNBASE = 2 ^ 31 := rfl
  have htwo : (.ofNat 32 (2 * PGSIZE) : Word) = .ofNat 32 PGSIZE + .ofNat 32 PGSIZE := by decide
  have hone : (.ofNat 32 PGSIZE : Word).toNat = 4096 := by decide
  rw [htwo, ← BitVec.add_assoc, BitVec.add_sub_cancel]
  unfold pageOf
  rw [BitVec.toNat_add, hone]
  unfold PGSIZE
  omega

theorem pageUp_eq_or (sz : Word) : pageUp sz.toNat = pageOf sz ∨ pageUp sz.toNat = pageOf sz + 1 := by
  unfold pageUp pageOf PGSIZE
  omega

/-- `clearpteu` of a page that is mapped. -/
theorem Sound.clear (h : Sound K m) {i : Nat} {g : PageEntry} (hi : i < NUPAGE)
    (hg : m.dir.maps i = some g) :
    Sound K { m with dir := m.dir.setPte i { g with flags := g.flags &&& ~~~PTE_U } } := by
  obtain ⟨taken, hold⟩ := h.holds
  refine ⟨⟨taken, hold.clear hi hg⟩, h.size, fun j hj => ?_⟩
  show (m.dir.setPte i _).maps j ≠ none ↔ _
  rw [← h.pages j hj]
  by_cases hji : j = i
  · rw [hji, hg, PageDir.maps_setPte_self (PageDir.tab_of_maps hg)
      (g.clear_present.trans (PageDir.present_of_maps hg))]
    simp
  · rw [PageDir.maps_setPte_ne _ hji]

/-- Stores keep the memory sound. -/
theorem Sound.store (h : Sound K m) (f : Nat) (b : Bytes PGSIZE) :
    Sound K { m with ram := m.ram.setPage f b } := by
  obtain ⟨taken, hold⟩ := h.holds
  exact ⟨⟨taken, hold.congr rfl rfl rfl⟩, h.size, h.pages⟩

theorem user_fresh (f : Nat) : (⟨f, PTE_W ||| PTE_U ||| PTE_P⟩ : PageEntry).user = true := by
  rw [PageEntry.user_eq]
  show (PTE_W ||| PTE_U ||| PTE_P).getLsbD 2 = true
  decide

/-- `allocuvm` has mapped the two pages: the rest of `ualloc`. -/
theorem Sound.newStack (h : Sound K m) {taken : List Nat} {ram : Ram} {dir : PageDir} {sz : Word}
    (hsz : sz = m.sz + .ofNat 32 (2 * PGSIZE)) (hlt : sz.toNat < KERNBASE)
    (hext : PageDir.Extended K.page taken (pageUp m.sz.toNat) m.ram m.dir (pageUp sz.toNat) ram dir) :
    ∃ dir' f, dir.clearpteu (sz - .ofNat 32 (2 * PGSIZE)) = some dir' ∧
      dir'.uva2ka (sz - .ofNat 32 PGSIZE) = some (some f) ∧ f < NFRAME ∧
      NewStack K m { m with ram := ram.setPage f Bytes.zero, dir := dir', sz } := by
  have hnew : sz.toNat = m.sz.toNat + 2 * PGSIZE := by
    rw [hsz]
    exact toNat_two_up h.size
  have hup : pageUp sz.toNat = pageUp m.sz.toNat + 2 := by
    rw [hnew]
    exact pageUp_two_up _
  have hle : m.sz ≤ sz := by
    rw [BitVec.le_def]
    omega
  have hsound := h.extended hlt hle hext
  have hlast := pageUp_user hlt.le
  have hq := pageUp_eq_or m.sz
  -- the guard page is present, and the page above it is a new one
  obtain ⟨g, hg⟩ := Option.ne_none_iff_exists'.mp
    ((hsound.pages (pageOf m.sz) (by omega)).mpr (show _ < pageUp sz.toNat by omega))
  obtain ⟨f, hf, hmaps, -⟩ := hext.fresh (pageOf m.sz + 1) (by omega) (by omega)
  have hclear := (hsound.clear (by omega) hg).store f Bytes.zero
  have hself := PageDir.maps_setPte_self (PageDir.tab_of_maps hg)
    (g.clear_present.trans (PageDir.present_of_maps hg))
  have hother : ∀ j, j ≠ pageOf m.sz → (dir.setPte (pageOf m.sz)
      { g with flags := g.flags &&& ~~~PTE_U }).maps j = dir.maps j := fun j hj =>
    PageDir.maps_setPte_ne _ hj
  refine ⟨dir.setPte (pageOf m.sz) { g with flags := g.flags &&& ~~~PTE_U }, f, ?_, ?_, ?_, hclear, rfl,
    hnew, fun i hi hne => ?_, fun i h1 h2 => ?_, fun j hj => ?_⟩
  · rw [hsz, BitVec.add_sub_cancel]
    exact PageDir.clearpteu_eq hg
  · have hpage : pageOf (sz - .ofNat 32 PGSIZE) = pageOf m.sz + 1 := by
      rw [hsz]
      exact pageOf_one_up h.size
    exact PageDir.uva2ka_eq (by rw [hpage, hother _ (by omega)]; exact hmaps) (user_fresh f)
  · obtain ⟨taken', hold'⟩ := hsound.holds
    exact (hold'.covers.pages.valid_own (.page (pageOf m.sz + 1)) f
      (PageDir.own_page_of_maps (by omega) hmaps)).2
  · exact (hother i hne).trans (hext.rest i (.inl hi))
  · obtain ⟨f', -, hmaps', -⟩ := hext.fresh i h1 (by omega)
    by_cases hiq : i = pageOf m.sz
    · refine ⟨_, by rw [hiq]; exact hself, ?_⟩
      rw [PageEntry.clear_user, hiq]
      exact (decide_eq_false (fun h0 => h0 rfl)).symm
    · refine ⟨_, (hother i hiq).trans hmaps', ?_⟩
      rw [user_fresh]
      exact (decide_eq_true hiq).symm
  · have hne : j ≠ f := fun h0 => hj (h0 ▸ hf)
    exact (PageDir.setPage_of_ne _ hne).trans (hext.page j hj)

/-- What `ualloc` does to a sound memory whose list of free stacks is empty. -/
theorem Sound.ualloc (h : Sound K m) (hfs : m.fslist = 0) :
    (∃ m', m.ualloc K = some (0, m') ∧ Unchanged m m' ∧ Sound K m' ∧ m'.fslist = m.fslist) ∨
    ∃ m', m.ualloc K = some (m'.sz, m') ∧ NewStack K m m' := by
  obtain ⟨taken, hold⟩ := h.holds
  have hnew := toNat_two_up h.size
  have hup := pageUp_two_up m.sz.toNat
  unfold UserMem.ualloc
  rw [if_pos hfs]
  by_cases hbig : KERNBASE ≤ (m.sz + .ofNat 32 (2 * PGSIZE)).toNat
  · have heq : PageDir.allocuvm K m.ram m.dir m.sz (m.sz + .ofNat 32 (2 * PGSIZE)) =
        some (0, m.ram, m.dir) := if_pos hbig
    rw [heq, Option.bind_some]
    exact .inl ⟨m, if_pos rfl, .refl m, h, rfl⟩
  · generalize hsz : m.sz + .ofNat 32 (2 * PGSIZE) = sz at hnew hbig
    have hlast := pageUp_user (Nat.le_of_not_le hbig)
    rw [hnew, hup] at hlast
    have hle : m.sz ≤ sz := by
      rw [BitVec.le_def]
      omega
    have hnone : ∀ j, pageUp m.sz.toNat ≤ j → j < pageUp sz.toNat → m.dir.maps j = none := by
      intro j h1 h2
      rw [hnew, hup] at h2
      by_contra hcon
      have := (h.pages j (by omega)).mp hcon
      omega
    rcases PageDir.allocuvm_spec (fun _ h => h) hold (Nat.lt_of_not_le hbig) hle hnone with
      ⟨ram, dir, heq, hext⟩ | ⟨ram, dir, heq, hres⟩
    · obtain ⟨dir', f, hclear, hka, hf, hstack⟩ := h.newStack hsz.symm (Nat.lt_of_not_le hbig) hext
      have hne : sz ≠ 0 := by
        rintro rfl
        have hP : PGSIZE = 4096 := rfl
        simp at hnew
        omega
      refine .inr ⟨_, ?_, hstack⟩
      rw [heq, Option.bind_some]
      dsimp only
      rw [if_neg hne, hclear, Option.bind_some, hka, Option.bind_some, Option.elim_some,
        ram.clearPage_kaddr dir'.flat hf, Option.map_some]
    · obtain ⟨hun, hsound⟩ := h.restored hres
      rw [heq, Option.bind_some]
      exact .inl ⟨_, if_pos rfl, hun, hsound, rfl⟩

/-! ## The stack that ualloc returns -/

theorem NewStack.sz_ne_zero (h : NewStack K m m') : m'.sz ≠ 0 := by
  intro h0
  have hsize := h.size
  rw [h0] at hsize
  simp [PGSIZE] at hsize

theorem toNat_below {sp : Word} {k : Nat} (h : k ≤ sp.toNat) : (sp - .ofNat 32 k).toNat = sp.toNat - k := by
  have := sp.isLt
  rw [BitVec.toNat_sub, BitVec.toNat_ofNat]
  omega

/-- The guard page of a new stack is there when the size was a multiple of the page size. -/
theorem NewStack.stackAt_iff (h : NewStack K m m') : m'.StackAt m'.sz ↔ m.sz.toNat % PGSIZE = 0 := by
  have hsize := h.size
  have hP : PGSIZE = 4096 := rfl
  have hpage : ∀ k ≤ PGSIZE, pageOf (m'.sz - .ofNat 32 (k + 1)) =
      (m.sz.toNat + (2 * PGSIZE - (k + 1))) / PGSIZE := by
    intro k hk
    unfold pageOf
    rw [toNat_below (by omega), hsize, Nat.add_sub_assoc (by omega)]
  have hguard : pageOf (m'.sz - .ofNat 32 (PGSIZE + 1)) = pageUp m.sz.toNat := by
    rw [hpage PGSIZE le_rfl]
    rfl
  constructor
  · intro hs
    obtain ⟨e, he, hu⟩ := hs.guard
    obtain ⟨e', he', hu'⟩ := h.fresh _ le_rfl (Nat.lt_add_of_pos_right (by decide))
    rw [hguard, he'] at he
    cases he
    rw [hu] at hu'
    have heq : pageUp m.sz.toNat = m.sz.toNat / PGSIZE := not_not.mp (of_decide_eq_false hu'.symm)
    unfold pageUp PGSIZE at heq
    unfold PGSIZE
    omega
  · intro hal
    have hq : pageUp m.sz.toNat = m.sz.toNat / PGSIZE := by
      unfold PGSIZE at hal
      unfold pageUp PGSIZE
      omega
    refine ⟨fun k hk => ?_, ?_⟩
    · have hk' : pageOf (m'.sz - .ofNat 32 (k + 1)) = m.sz.toNat / PGSIZE + 1 := by
        rw [hpage k hk.le]
        unfold PGSIZE at hk hal ⊢
        omega
      obtain ⟨e, he, hu⟩ := h.fresh (m.sz.toNat / PGSIZE + 1) (by omega) (by omega)
      refine ⟨e, by rw [hk']; exact he, ?_⟩
      rw [hu]
      exact decide_eq_true (by omega)
    · obtain ⟨e, he, hu⟩ := h.fresh (m.sz.toNat / PGSIZE) (by omega) (by omega)
      refine ⟨e, by rw [hguard, hq]; exact he, ?_⟩
      rw [hu]
      exact decide_eq_false (fun h0 => h0 rfl)

theorem NewStack.protects_iff (hm : Sound K m) (h : NewStack K m m') :
    Protects m m'.sz m' ↔ m.sz.toNat % PGSIZE = 0 := by
  constructor
  · intro hp
    exact h.stackAt_iff.mp (hp.stack h.sz_ne_zero)
  · intro hal
    have hlast := pageUp_user hm.size.le
    refine ⟨fun i hi => ?_, fun i hi e he => ?_, fun _ => h.stackAt_iff.mpr hal⟩
    · refine h.rest i (lt_pageUp_iff.mpr hi) ?_
      unfold PGSIZE at hi hal ⊢
      omega
    · have hlt := lt_pageUp_iff.mpr hi
      exact h.page _ (hm.not_free (by omega) he)

theorem Unchanged.protects (hm : Sound K m) (h : Unchanged m m') : Protects m 0 m' := by
  have hlast := pageUp_user hm.size.le
  refine ⟨fun i hi => ?_, fun i hi e he => ?_, fun h0 => absurd rfl h0⟩
  · have hlt := lt_pageUp_iff.mpr hi
    exact h.maps i (by omega)
  · have hlt := lt_pageUp_iff.mpr hi
    exact h.page i (by omega) e he

/-- A stack below the size stays through a call that keeps the pages there. -/
theorem StackAt.kept (h : m.StackAt sp) (hlow : 2 * PGSIZE ≤ sp.toNat) (hle : sp.toNat ≤ m.sz.toNat)
    (hmaps : ∀ i, i * PGSIZE < m.sz.toNat → m'.dir.maps i = m.dir.maps i) : m'.StackAt sp := by
  have hP : PGSIZE = 4096 := rfl
  have hpage : ∀ k ≤ PGSIZE, m'.dir.maps (pageOf (sp - .ofNat 32 (k + 1))) =
      m.dir.maps (pageOf (sp - .ofNat 32 (k + 1))) := by
    intro k hk
    apply hmaps
    unfold pageOf
    rw [toNat_below (by omega)]
    have := Nat.div_mul_le_self (sp.toNat - (k + 1)) PGSIZE
    omega
  refine ⟨fun k hk => ?_, ?_⟩
  · rw [hpage k hk.le]
    exact h.stack k hk
  · rw [hpage PGSIZE le_rfl]
    exact h.guard

/-! ## Sequences of calls -/

/-- A memory with the stacks handed out so far. -/
structure Stacks where
  mem : UserMem
  given : List Word := []

/-- `thread_create` takes a stack; stores of the user and of `copyout` come between. -/
inductive StackAct where
  | ualloc
  | store (f : Nat) (b : Bytes PGSIZE)

def Stacks.step (K : Symbols) (t : Stacks) : StackAct → Option Stacks
  | .ualloc => (t.mem.ualloc K).map fun (sp, mem) =>
      { mem, given := if sp = 0 then t.given else sp :: t.given }
  | .store f b => some { t with mem := { t.mem with ram := t.mem.ram.setPage f b } }

/-- The stacks handed out are in place below a size that is a multiple of the page size. -/
structure Stacks.Sound (K : Symbols) (t : Stacks) : Prop where
  mem : t.mem.Sound K
  list : t.mem.fslist = 0
  aligned : t.mem.sz.toNat % PGSIZE = 0
  given : ∀ sp ∈ t.given, 2 * PGSIZE ≤ sp.toNat ∧ sp.toNat ≤ t.mem.sz.toNat ∧ t.mem.StackAt sp

theorem Stacks.Sound.step {t t' : Stacks} {a : StackAct} (h : t.Sound K) (hs : t.step K a = some t') :
    t'.Sound K := by
  cases a with
  | store f b =>
    cases hs
    refine ⟨h.mem.store f b, h.list, h.aligned, fun sp hsp => ?_⟩
    obtain ⟨h1, h2, h3⟩ := h.given sp hsp
    exact ⟨h1, h2, h3.kept h1 h2 fun _ _ => rfl⟩
  | ualloc =>
    have hlast := pageUp_user h.mem.size.le
    rcases h.mem.ualloc h.list with ⟨m', heq, hun, hsound, hlist⟩ | ⟨m', heq, hnew⟩
    · obtain rfl : t' = { t with mem := m' } := by
        have hcall : t.step K .ualloc = some { t with mem := m' } := by
          unfold Stacks.step
          rw [heq]
          rfl
        exact Option.some.inj (hs.symm.trans hcall)
      refine ⟨hsound, hlist.trans h.list, ?_, fun sp hsp => ?_⟩
      · show m'.sz.toNat % PGSIZE = 0
        rw [hun.sz]
        exact h.aligned
      · obtain ⟨h1, h2, h3⟩ := h.given sp hsp
        refine ⟨h1, hun.sz ▸ h2, h3.kept h1 h2 fun i hi => hun.maps i ?_⟩
        have := lt_pageUp_iff.mpr hi
        omega
    · have hsize := hnew.size
      have hp := (hnew.protects_iff h.mem).mpr h.aligned
      obtain rfl : t' = { mem := m', given := m'.sz :: t.given } := by
        have hcall : t.step K .ualloc = some { mem := m', given := m'.sz :: t.given } := by
          unfold Stacks.step
          rw [heq]
          dsimp only [Option.map_some]
          rw [if_neg hnew.sz_ne_zero]
        exact Option.some.inj (hs.symm.trans hcall)
      refine ⟨hnew.sound, hnew.list.trans h.list, ?_, fun sp hsp => ?_⟩
      · show m'.sz.toNat % PGSIZE = 0
        rw [hsize, Nat.add_mul_mod_self_right]
        exact h.aligned
      · show _ ∧ sp.toNat ≤ m'.sz.toNat ∧ m'.StackAt sp
        rcases List.mem_cons.mp hsp with rfl | hmem
        · exact ⟨by omega, le_rfl, hnew.stackAt_iff.mpr h.aligned⟩
        · obtain ⟨h1, h2, h3⟩ := h.given sp hmem
          exact ⟨h1, by omega, h3.kept h1 h2 hp.maps⟩

/-- A call of `ualloc` that takes a fresh stack protects what is there exactly when the size is a
multiple of the page size, and then so does every later one, with all stacks staying in place. -/
theorem ualloc_protects (h : Sound K m) (hfs : m.fslist = 0) :
    (∃ sp m', m.ualloc K = some (sp, m') ∧ (sp = 0 → Protects m sp m') ∧
      (sp ≠ 0 → (Protects m sp m' ↔ m.sz.toNat % PGSIZE = 0))) ∧
    (m.sz.toNat % PGSIZE = 0 → ∀ t, Reaches (Stacks.step K) (fun _ _ => True) { mem := m } t →
      (∃ sp m', t.mem.ualloc K = some (sp, m') ∧ Protects t.mem sp m') ∧
        ∀ sp ∈ t.given, t.mem.StackAt sp) := by
  refine ⟨?_, fun hal t hreach => ?_⟩
  · rcases h.ualloc hfs with ⟨m', heq, hun, -⟩ | ⟨m', heq, hnew⟩
    · exact ⟨0, m', heq, fun _ => hun.protects h, fun h0 => absurd rfl h0⟩
    · exact ⟨m'.sz, m', heq, fun h0 => absurd h0 hnew.sz_ne_zero, fun _ => hnew.protects_iff h⟩
  · have hinit : Stacks.Sound K { mem := m } := ⟨h, hfs, hal, fun sp hsp => by cases hsp⟩
    have ht : t.Sound K := hreach.invariant hinit fun _ _ _ hs _ hstep => hs.step hstep
    refine ⟨?_, fun sp hsp => (ht.given sp hsp).2.2⟩
    rcases ht.mem.ualloc ht.list with ⟨m', heq, hun, -⟩ | ⟨m', heq, hnew⟩
    · exact ⟨0, m', heq, hun.protects ht.mem⟩
    · exact ⟨m'.sz, m', heq, (hnew.protects_iff ht.mem).mpr ht.aligned⟩

/-- A stack above two pages, and a second one above it. -/
theorem ualloc_protects_two :
    (∃ sp m', twoPages.ualloc PageDir.smallKernel = some (sp, m') ∧ sp ≠ 0 ∧
      Protects twoPages sp m') ∧
    ∃ t, Reaches (Stacks.step PageDir.smallKernel) (fun _ _ => True) { mem := twoPages } t ∧
      t.given.length = 2 ∧ ∀ sp ∈ t.given, t.mem.StackAt sp := by
  obtain ⟨⟨sp, m', heq, -, hprot⟩, hruns⟩ := ualloc_protects twoPages_sound rfl
  have hsp : (twoPages.ualloc PageDir.smallKernel).any fun r => r.1 ≠ 0 := by decide +kernel
  rw [heq] at hsp
  have hsp : sp ≠ 0 := of_decide_eq_true hsp
  have hrun : ∃ t, Reaches (Stacks.step PageDir.smallKernel) (fun _ _ => True) { mem := twoPages } t ∧
      t.given.length = 2 := exists_reaches [.ualloc, .ualloc] _ (by decide +kernel)
  obtain ⟨t, ht, hlen⟩ := hrun
  exact ⟨⟨sp, m', heq, hsp, (hprot hsp).mpr (by decide)⟩, t, ht, hlen, (hruns (by decide) t ht).2⟩

/-- A process of two pages gives back all but 100 bytes, and then takes a stack. The first page of
its memory is no longer the user's, and the byte below the stack is. -/
theorem ualloc_hits_old_page : ∃ m m', twoPages.growproc PageDir.smallKernel (-8092) = some (0, m) ∧
    m.Sound PageDir.smallKernel ∧ m.fslist = 0 ∧ m.ualloc PageDir.smallKernel = some (8292, m') ∧
      (m.dir.maps 0).map PageEntry.user = some true ∧
      (m'.dir.maps 0).map PageEntry.user = some false ∧
      (m'.dir.maps (pageOf (8292 - .ofNat 32 (PGSIZE + 1)))).map PageEntry.user = some true := by
  have hrun : (twoPages.growproc PageDir.smallKernel (-8092)).any (fun (ret, m) => ret = 0 ∧
      m.fslist = 0 ∧ (m.dir.maps 0).map PageEntry.user = some true ∧
      (m.ualloc PageDir.smallKernel).any fun (sp, m') => sp = 8292 ∧
        (m'.dir.maps 0).map PageEntry.user = some false ∧
        (m'.dir.maps (pageOf (8292 - .ofNat 32 (PGSIZE + 1)))).map PageEntry.user = some true) := by
    decide +kernel
  obtain ⟨⟨ret, m⟩, heq, hm⟩ := (Option.any_eq_true _ _).mp hrun
  obtain ⟨rfl, hlist, huser, hcall⟩ := of_decide_eq_true hm
  obtain ⟨⟨sp, m'⟩, heq', hm'⟩ := (Option.any_eq_true _ _).mp hcall
  obtain ⟨rfl, hlost, hbelow⟩ := of_decide_eq_true hm'
  have hsound : m.Sound PageDir.smallKernel := by
    obtain ⟨ret, m₁, heq₁, ⟨⟨h0, -⟩ | ⟨-, h0⟩, -⟩ | ⟨-, h0, -⟩⟩ := twoPages_sound.growproc (-8092)
    all_goals
      rw [heq] at heq₁
      cases heq₁
    · cases h0
    · exact h0
    · cases h0
  exact ⟨m, m', heq, hsound, hlist, heq', huser, hlost, hbelow⟩

end UserMem

end Xv6
