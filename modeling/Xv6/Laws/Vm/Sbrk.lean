import Xv6.Lib.Machine
import Xv6.Lib.Word
import Xv6.Laws.Vm.Inverse
import Xv6.Vm.Sbrk

/-!
# Regions of concurrent `sbrk` calls

`sbrk` hands out disjoint regions as long as the calls of a process do not overlap in time: what
`sys_sbrk` and `growproc` read is then the same, and still the size when it is stored. A second call
in the window reads the size that the first is about to replace. The two get the same region, or
the second maps the pages of the first again.
-/

namespace Xv6

open Function Lib

namespace Brk

variable {K : Symbols} {s s' s₀ : Brk} {t u : ThdPtr} {a : BrkAct} {l : List (Word × Word)} {n : Word}

/-- No allocation of the step fails: the new size stays below the kernel and there is a frame. -/
def Succeeds (s : Brk) : BrkAct → Prop
  | .call _ n => 0 < n.toInt
  | .step t =>
    match s.op t with
    | .grow _ n => (s.sz.toNat + n.toNat) < KERNBASE
    | .map _ _ _ newsz i => i * PGSIZE < newsz.toNat →
      s.dir.takes i 1 ≤ s.ram.freelist.length
    | _ => True

/-- A call starts only while no call of a sibling is in progress. -/
def OneCall (s : Brk) : BrkAct → Prop
  | .call _ _ => ∀ u, s.op u = .idle
  | .step _ => True

instance (s : Brk) (a : BrkAct) : Decidable (s.Succeeds a) := by
  unfold Succeeds
  split
  · infer_instance
  · split <;> infer_instance

instance (s : Brk) (a : BrkAct) : Decidable (s.OneCall a) := by
  unfold OneCall
  split <;> infer_instance

/-- The bytes of a region are those from `addr` up to `addr + n`. -/
def Disjoint (x y : Word × Word) : Prop :=
  x.1.toNat + x.2.toNat ≤ y.1.toNat ∨ y.1.toNat + y.2.toNat ≤ x.1.toNat

/-- The user pages below `b`, and no others, are mapped. -/
def Present (d : PageDir) (b : Nat) : Prop := ∀ i < NUPAGE, d.maps i ≠ none ↔ i < pageUp b

/-- How far a call has come, and what it has done to the page table. -/
def Stands (s : Brk) : SbrkOp → Prop
  | .idle => True
  | .entered n => 0 < n.toInt ∧ Present s.dir s.sz.toNat
  | .grow addr n => 0 < n.toInt ∧ Present s.dir s.sz.toNat ∧ addr = s.sz
  | .map addr n oldsz newsz i => addr = s.sz ∧ oldsz = s.sz ∧ newsz.toNat = s.sz.toNat + n.toNat ∧
    newsz.toNat < KERNBASE ∧ pageUp s.sz.toNat ≤ i ∧ i ≤ pageUp newsz.toNat ∧
    ∀ j < NUPAGE, s.dir.maps j ≠ none ↔ j < i
  | .store addr n sz => addr = s.sz ∧ sz.toNat = s.sz.toNat + n.toNat ∧ sz.toNat < KERNBASE ∧
    Present s.dir sz.toNat
  | .unmap _ _ _ _ => False

structure Grows (s₀ s : Brk) (l : List (Word × Word)) : Prop where
  calm : s.panic = false
  one : ∀ t u, s.op t ≠ .idle → s.op u ≠ .idle → t = u
  stands : ∀ t, Stands s (s.op t)
  rest : (∀ t, s.op t = .idle) → Present s.dir s.sz.toNat
  below : s.sz.toNat < KERNBASE
  sum : s.sz.toNat = s₀.sz.toNat + (l.map fun x => x.2.toNat).sum
  inside : ∀ x ∈ l, x.1.toNat + x.2.toNat ≤ s.sz.toNat
  apart : l.Pairwise Disjoint

theorem setOp_op_self (op : SbrkOp) : (s.setOp t op).op t = op := update_self ..

theorem setOp_op_of_ne (op : SbrkOp) (hu : u ≠ t) : (s.setOp t op).op u = s.op u :=
  update_of_ne hu ..

/-- With one call in progress, what it does next is all there is to look at. -/
theorem Grows.others (hs : Grows s₀ s l) (ht : s.op t ≠ .idle) (hu : u ≠ t) : s.op u = .idle := by
  by_contra h
  exact hu (hs.one u t h ht)

/-- A call goes on: the size and what was returned stay. -/
theorem Grows.goOn (hs : Grows s₀ s l) (ht : ∀ u, u ≠ t → s.op u = .idle) (hsz : s'.sz = s.sz) (op : SbrkOp)
    (hop : op ≠ .idle) (hst : Stands s' op) (hs' : s'.op = update s.op t op)
    (hpanic : s'.panic = false) : Grows s₀ s' l := by
  have hself : s'.op t = op := by rw [hs', update_self]
  have hothers : ∀ u, u ≠ t → s'.op u = .idle := by
    intro u hu
    rw [hs', update_of_ne hu]
    exact ht u hu
  refine ⟨hpanic, fun u w hu hw => ?_, fun u => ?_, fun hall => ?_, hsz ▸ hs.below, hsz ▸ hs.sum,
    hsz ▸ hs.inside, hs.apart⟩
  · have h : ∀ x, s'.op x ≠ .idle → x = t := fun x hx => by_contra fun hne => hx (hothers x hne)
    rw [h u hu, h w hw]
  · by_cases hu : u = t
    · rw [hu, hself]
      exact hst
    · rw [hothers u hu]
      trivial
  · exact absurd (hself.symm.trans (hall t)) hop

/-- `growproc` has read a size to which `n` bytes can be added. -/
theorem grown_eq {sz : Word} (addr : Word) (hn : 0 < n.toInt) (hsz : sz.toNat + n.toNat < KERNBASE) :
    grown sz addr n = .map addr n sz (sz + n) (pageUp sz.toNat) ∧ (sz + n).toNat = sz.toNat + n.toNat := by
  have hadd : (sz + n).toNat = sz.toNat + n.toNat := toNat_add_of_lt (by unfold KERNBASE at hsz; omega)
  have hge : ¬ sz + n < sz := by
    rw [BitVec.lt_def, hadd]
    omega
  unfold grown
  rw [if_pos hn, if_neg (by omega), if_neg hge]
  exact ⟨rfl, hadd⟩

theorem Grows.step (hs : Grows s₀ s l) (hok : s.Succeeds a) (hone : s.OneCall a)
    (hstep : s.step K a = some s') : Grows s₀ s' (logBrk s a s' l) := by
  simp only [Brk.step, hs.calm, Bool.false_eq_true, if_false] at hstep
  cases a with
  | call t n =>
    have hrest := hs.rest hone
    simp only [hone t, if_true, Option.some.injEq] at hstep
    subst hstep
    exact hs.goOn (fun u _ => hone u) rfl (.entered n) SbrkOp.noConfusion ⟨hok, hrest⟩ rfl hs.calm
  | step t =>
    simp only at hstep
    have hst := hs.stands t
    have ht : s.op t ≠ .idle → ∀ u, u ≠ t → s.op u = .idle := fun h u hu => hs.others h hu
    cases hop : s.op t with
    | idle =>
      rw [hop] at hstep
      cases hstep
    | entered n =>
      rw [hop] at hstep hst
      have ht := ht (by rw [hop]; exact SbrkOp.noConfusion)
      cases hstep
      simp only [logBrk, hop]
      exact hs.goOn ht rfl (.grow s.sz n) SbrkOp.noConfusion ⟨hst.1, hst.2, rfl⟩ rfl hs.calm
    | grow addr n =>
      rw [hop] at hstep hst
      have ht := ht (by rw [hop]; exact SbrkOp.noConfusion)
      obtain ⟨hn, hpres, rfl⟩ := hst
      have hsz : s.sz.toNat + n.toNat < KERNBASE := by simpa only [Succeeds, hop] using hok
      obtain ⟨hgrown, hadd⟩ := grown_eq s.sz hn hsz
      cases hstep
      simp only [logBrk, hop]
      refine hs.goOn ht rfl _ ?_ ?_ rfl hs.calm
      · rw [hgrown]
        exact SbrkOp.noConfusion
      · rw [hgrown]
        refine ⟨rfl, rfl, hadd, by omega, Nat.le_refl _, ?_, hpres⟩
        unfold pageUp
        exact Nat.div_le_div_right (by omega)
    | map addr n oldsz newsz i =>
      rw [hop] at hstep hst
      have ht := ht (by rw [hop]; exact SbrkOp.noConfusion)
      obtain ⟨rfl, rfl, hnew, hkern, hlow, hi, hpres⟩ := hst
      simp only [logBrk, hop]
      simp only [next] at hstep
      split at hstep
      next hlt =>
        have hroom : s.dir.takes i 1 ≤ s.ram.freelist.length := by
          have : i * PGSIZE < newsz.toNat → s.dir.takes i 1 ≤ s.ram.freelist.length := by
            simpa only [Succeeds, hop] using hok
          exact this hlt
        have hlt' := UserMem.lt_pageUp_iff.mpr hlt
        have hin : i < NUPAGE := lt_of_lt_of_le hlt' (pageUp_user hkern.le)
        have hnone : s.dir.maps i = none :=
          by_contra fun h => absurd ((hpres i hin).mp h) (Nat.lt_irrefl i)
        obtain ⟨ram, dir, hmap, -, -, hself, hmaps⟩ :=
          (PageDir.mapFresh_takes (PTE_W ||| PTE_U) Bytes.zero hnone).1 hroom
        rw [hmap] at hstep
        cases hstep
        refine hs.goOn ht rfl (.map s.sz n s.sz newsz (i + 1)) SbrkOp.noConfusion ?_ rfl hs.calm
        refine ⟨rfl, rfl, hnew, hkern, Nat.le_succ_of_le hlow, hlt', fun j hj => ?_⟩
        show dir.maps j ≠ none ↔ j < i + 1
        by_cases hji : j = i
        · subst hji
          exact iff_of_true hself (Nat.lt_succ_self j)
        · rw [hmaps j hji, hpres j hj]
          omega
      next hge =>
        cases hstep
        refine hs.goOn ht rfl (.store s.sz n newsz) SbrkOp.noConfusion ?_ rfl hs.calm
        have hdone : i = pageUp newsz.toNat := by
          have := (UserMem.lt_pageUp_iff (i := i) (b := newsz.toNat)).not.mpr hge
          omega
        exact ⟨rfl, hnew, hkern, fun j => hdone ▸ hpres j⟩
    | unmap =>
      rw [hop] at hst
      exact hst.elim
    | store addr n sz =>
      rw [hop] at hstep hst
      have ht := ht (by rw [hop]; exact SbrkOp.noConfusion)
      obtain ⟨rfl, hnew, hkern, hpres⟩ := hst
      cases hstep
      simp only [logBrk, hop]
      have hidle : ∀ u, ({ s with sz := sz }.setOp t .idle : Brk).op u = .idle := by
        intro u
        by_cases hu : u = t
        · rw [hu]
          exact setOp_op_self _
        · exact (setOp_op_of_ne _ hu).trans (ht u hu)
      refine ⟨hs.calm, fun u w hu _ => absurd (hidle u) hu, fun u => ?_, fun _ => hpres, hkern, ?_, ?_, ?_⟩
      · rw [hidle u]
        trivial
      · have := hs.sum
        simp only [setOp, List.map_cons, List.sum_cons]
        omega
      · intro x hx
        rcases List.mem_cons.mp hx with rfl | hx
        · exact hnew.ge
        · have := hs.inside x hx
          simp only [setOp]
          omega
      · refine List.pairwise_cons.mpr ⟨fun x hx => .inr (hs.inside x hx), hs.apart⟩

/-- A process between calls: its pages are those below `sz`. -/
structure Settled (s : Brk) : Prop where
  calm : s.panic = false
  idle : ∀ t, s.op t = .idle
  below : s.sz.toNat < KERNBASE
  present : Present s.dir s.sz.toNat

theorem Settled.grows (h : Settled s₀) : Grows s₀ s₀ [] where
  calm := h.calm
  one t _ ht := absurd (h.idle t) ht
  stands t := by
    rw [h.idle t]
    trivial
  rest _ := h.present
  below := h.below
  sum := rfl
  inside _ hx := by cases hx
  apart := .nil

/-- The pages below `sz` stay present while a call maps more of them. -/
theorem Grows.present (hs : Grows s₀ s l) {i : Nat} (hi : i * PGSIZE < s.sz.toNat) :
    s.dir.maps i ≠ none := by
  have hlt : i < pageUp s.sz.toNat := UserMem.lt_pageUp_iff.mpr hi
  have hin : i < NUPAGE := lt_of_lt_of_le hlt (pageUp_user hs.below.le)
  by_cases hidle : ∀ t, s.op t = .idle
  · exact (hs.rest hidle i hin).mpr hlt
  · obtain ⟨t, ht⟩ := not_forall.mp hidle
    have hst := hs.stands t
    cases hop : s.op t with
    | idle => exact absurd hop ht
    | entered n =>
      rw [hop] at hst
      exact (hst.2 i hin).mpr hlt
    | grow addr n =>
      rw [hop] at hst
      exact (hst.2.1 i hin).mpr hlt
    | map addr n oldsz newsz j =>
      rw [hop] at hst
      obtain ⟨-, -, -, -, hlow, -, hpres⟩ := hst
      exact (hpres i hin).mpr (Nat.lt_of_lt_of_le hlt hlow)
    | unmap =>
      rw [hop] at hst
      exact hst.elim
    | store addr n sz =>
      rw [hop] at hst
      obtain ⟨-, hnew, -, hpres⟩ := hst
      exact (hpres i hin).mpr (UserMem.lt_pageUp_iff.mpr (by omega))

/-- The steps, with what the calls have returned. -/
def logged (K : Symbols) : Brk × List (Word × Word) → BrkAct → Option (Brk × List (Word × Word)) :=
  recorded (step K) logBrk

/-- In every run in which a call of `sbrk` starts only while no other is in progress, and no
allocation fails, the regions returned are disjoint and mapped, the size has grown by their lengths
when no call is in progress, and `mappages` does not panic. -/
theorem sbrk_regions_disjoint {x : Brk × List (Word × Word)} (hs₀ : Settled s₀)
    (h : Reaches (logged K) (fun x a => x.1.Succeeds a ∧ x.1.OneCall a) (s₀, []) x) :
    x.2.Pairwise Disjoint ∧
    (∀ r ∈ x.2, ∀ b, r.1.toNat ≤ b → b < r.1.toNat + r.2.toNat → x.1.dir.maps (b / PGSIZE) ≠ none) ∧
    ((∀ t, x.1.op t = .idle) → x.1.sz.toNat = s₀.sz.toNat + (x.2.map fun r => r.2.toNat).sum) ∧
    x.1.panic = false := by
  have hx : Grows s₀ x.1 x.2 := by
    induction h with
    | refl => exact hs₀.grows
    | tail _ hok hstep ih =>
      obtain ⟨hstep, hlog⟩ := recorded_eq_some.mp hstep
      exact hlog ▸ ih.step hok.1 hok.2 hstep
  refine ⟨hx.apart, fun r hr b _ hb => hx.present ?_, fun _ => hx.sum, hx.calm⟩
  have := hx.inside r hr
  have := Nat.div_mul_le_self b PGSIZE
  omega

/-- A process of one page, with two free frames. -/
def onePage : Brk where
  ram := { page := fun _ => Bytes.zero, freelist := [1000, 1001] }
  dir := { frame := 1002
           tab := fun k => if k = 0 then some 1003 else none
           pte := fun i => if i = 0 then { frame := 1004, flags := 7#12 } else {} }
  sz := .ofNat 32 PGSIZE
  op _ := .idle

theorem onePage_settled : Settled onePage where
  calm := rfl
  idle _ := rfl
  below := by decide
  present i _ := by
    have hup : pageUp onePage.sz.toNat = 1 := by decide
    rw [hup, PageDir.maps_eq]
    by_cases hi : i = 0
    · subst hi
      decide
    · have hpte : onePage.dir.pte i = {} := if_neg hi
      rw [hpte, PageEntry.present_empty]
      simp [hi]

def bsteps (t : ThdPtr) (k : Nat) : List BrkAct := List.replicate k (.step t)

/-- Thread 0 and then its sibling grow the process by a byte and by a page. -/
def twoCallsRun : List BrkAct := .call 0 1 :: bsteps 0 5 ++ .call 1 4096 :: bsteps 1 5

theorem sbrk_regions_disjoint_two :
    ∃ x, Reaches (logged PageDir.smallKernel) (fun x a => x.1.Succeeds a ∧ x.1.OneCall a)
        (onePage, []) x ∧
      x.2 = [(4097, 4096), (4096, 1)] ∧ x.2.Pairwise Disjoint := by
  have hrun : ∃ x, Reaches (logged PageDir.smallKernel) (fun x a => x.1.Succeeds a ∧ x.1.OneCall a)
      (onePage, []) x ∧ x.2 = [(4097, 4096), (4096, 1)] :=
    exists_reaches twoCallsRun (fun x : Brk × List (Word × Word) => x.2 = [(4097, 4096), (4096, 1)])
      (by decide +kernel)
  obtain ⟨x, hreach, hx⟩ := hrun
  exact ⟨x, hreach, hx, (sbrk_regions_disjoint onePage_settled hreach).1⟩

/-- The process has grown by a byte. Both siblings read its size before either stores a new one;
each asks for a byte. -/
def sameRegionRun : List BrkAct :=
  .call 0 1 :: bsteps 0 5 ++ .call 0 1 :: .call 1 1 :: bsteps 0 2 ++ bsteps 1 2 ++ bsteps 0 2 ++ bsteps 1 2

/-- Both siblings ask for a page. -/
def remapRun : List BrkAct :=
  .call 0 4096 :: .call 1 4096 :: bsteps 0 2 ++ bsteps 1 2 ++ bsteps 0 1 ++ bsteps 1 1

/-- Two siblings get the same region and the size grows by one of them only; or the second call maps
the page of the first again and panics. -/
theorem siblings_share_region :
    (∃ x, Reaches (logged PageDir.smallKernel) (fun x a => x.1.Succeeds a) (onePage, []) x ∧
      (∀ t, x.1.op t = .idle) ∧ x.2 = [(4097, 1), (4097, 1), (4096, 1)] ∧ x.1.sz = 4098) ∧
    ∃ x, Reaches (logged PageDir.smallKernel) (fun x a => x.1.Succeeds a) (onePage, []) x ∧
      x.1.panic = true :=
  ⟨exists_reaches sameRegionRun (fun x : Brk × List (Word × Word) => (∀ t, x.1.op t = .idle) ∧
      x.2 = [(4097, 1), (4097, 1), (4096, 1)] ∧ x.1.sz = 4098) (by decide +kernel),
    exists_reaches remapRun (fun x : Brk × List (Word × Word) => x.1.panic = true) (by decide +kernel)⟩

end Brk

end Xv6
