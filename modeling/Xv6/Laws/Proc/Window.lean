import Mathlib.Algebra.BigOperators.Ring.Finset
import Mathlib.Tactic.Ring
import Xv6.Laws.Proc.Stride
import Xv6.Laws.Proc.Wrap

/-!
# The fifth of MLFQ

How much of a window goes to MLFQ. `debt` is what the stride processes can still claim: for each
of them its share times the distance of its pass behind MLFQ. A tick of MLFQ raises the debt by at
most four weights and a tick of a stride process lowers it by one weight, so over a window the
stride ticks are at most four times those of MLFQ, up to the debt at both ends
(`mlfq_keeps_fifth`). The weight is `TICKETS` when no stride fee is rounded, and a little less
when MLFQ has more than its minimum. With rounding and the minimum, MLFQ falls behind without
bound (`rounding_takes_fifth`).

A slice is charged as a whole, to the class its process is in at its end. `unpaid` compares that with
the ticks that MLFQ processes were given one by one.
-/

namespace Xv6

open Xv6.Lib

/-- What a process takes of the hundred. -/
def Proc.portion (q : Proc) : Nat := if q.stype = .stride then q.share.toNat else 0

namespace Kernel

variable {s s' : Kernel} {p : ProcPtr}

/-- MLFQ has its minimum, and the shares sum to a hundred. -/
def Balanced (s : Kernel) : Prop :=
  20 ≤ s.mlfq.share.toNat ∧ s.mlfq.share.toNat + ∑ p, (s.proc p).portion = 100

instance (s : Kernel) : Decidable s.Balanced := inferInstanceAs (Decidable (_ ∧ _))

/-- What stride process `p` can claim before MLFQ runs. -/
def lag (s : Kernel) (p : ProcPtr) : Int :=
  (s.proc p).portion * ((s.mlfq.pass.toNat : Int) - (s.proc p).pass.toNat)

def debt (s : Kernel) : Int := ∑ p, s.lag p

theorem lag_of_not (h : (s.proc p).stype ≠ .stride) : s.lag p = 0 := by
  unfold lag Proc.portion
  rw [if_neg h]
  simp

theorem lag_of_stride (h : (s.proc p).stype = .stride) :
    s.lag p = (s.proc p).share.toNat * ((s.mlfq.pass.toNat : Int) - (s.proc p).pass.toNat) := by
  unfold lag Proc.portion
  rw [if_pos h]

theorem SameClients.lag (h : SameClients s s') (p : ProcPtr) : s'.lag p = s.lag p := by
  have htype : (s'.proc p).stype = .stride ↔ (s.proc p).stype = .stride :=
    h.isClient (c := some p)
  by_cases hp : (s.proc p).stype = .stride
  · have heq : (s'.proc p).share = (s.proc p).share ∧ (s'.proc p).pass = (s.proc p).pass :=
      h.client (c := some p) hp
    rw [lag_of_stride hp, lag_of_stride (htype.mpr hp), h.pass, heq.1, heq.2]
  · rw [lag_of_not hp, lag_of_not fun h' => hp (htype.mp h')]

theorem SameShares.portion (h : SameShares s s') (q : ProcPtr) :
    (s'.proc q).portion = (s.proc q).portion := by
  have htype : (s'.proc q).stype = .stride ↔ (s.proc q).stype = .stride := h.isClient (some q)
  unfold Proc.portion
  by_cases hq : (s.proc q).stype = .stride
  · have heq : (s'.proc q).share = (s.proc q).share := h.share (some q) hq
    rw [if_pos hq, if_pos (htype.mpr hq), heq]
  · rw [if_neg hq, if_neg fun h' => hq (htype.mp h')]

theorem SameClients.debt (h : SameClients s s') : s'.debt = s.debt :=
  Finset.sum_congr rfl fun p _ => h.lag p

theorem reduce_debt : s.reduce.debt = s.debt := by
  refine Finset.sum_congr rfl fun p _ => ?_
  have htype : (s.reduce.proc p).stype = .stride ↔ (s.proc p).stype = .stride :=
    reduce_isClient (c := some p)
  by_cases hp : (s.proc p).stype = .stride
  · have hdiff := reduce_difference (s := s) (c := none) (d := some p) trivial hp
    have hdiff' : (s.reduce.mlfq.pass.toNat : Int) - (s.reduce.proc p).pass.toNat =
      s.mlfq.pass.toNat - (s.proc p).pass.toNat := hdiff
    rw [lag_of_stride hp, lag_of_stride (htype.mpr hp), hdiff', (reduce_keeps).2.2]
  · rw [lag_of_not hp, lag_of_not fun h' => hp (htype.mp h')]

/-- One process changes. -/
theorem debt_other (s s' : Kernel) (p : ProcPtr) (hother : ∀ q, q ≠ p → s'.lag q = s.lag q) :
    s'.debt + s.lag p = s.debt + s'.lag p := by
  have hrest : ∑ q ∈ Finset.univ.erase p, s'.lag q = ∑ q ∈ Finset.univ.erase p, s.lag q :=
    Finset.sum_congr rfl fun q hq => hother q (Finset.ne_of_mem_erase hq)
  have hnew := Finset.sum_erase_add Finset.univ s'.lag (Finset.mem_univ p)
  have hold := Finset.sum_erase_add Finset.univ s.lag (Finset.mem_univ p)
  rw [hrest] at hnew
  unfold debt
  omega

/-- The pass of one stride process moves by `d`. -/
theorem debt_stride {d : Nat} (hp : (s.proc p).stype = .stride)
    (hpass : (s'.proc p).pass.toNat = (s.proc p).pass.toNat + d)
    (hportion : ∀ q, (s'.proc q).portion = (s.proc q).portion)
    (hother : ∀ q, q ≠ p → (s.proc q).stype = .stride → (s'.proc q).pass = (s.proc q).pass)
    (hmlfq : s'.mlfq.pass = s.mlfq.pass) :
    s'.debt = s.debt - ((s.proc p).share.toNat * d : Nat) := by
  have hdebt := debt_other s s' p fun q hq => by
    unfold lag
    rw [hportion, hmlfq]
    by_cases hqs : (s.proc q).stype = .stride
    · rw [hother q hq hqs]
    · unfold Proc.portion
      rw [if_neg hqs]
      simp
  have hport : (s.proc p).portion = (s.proc p).share.toNat := if_pos hp
  have hlag : s'.lag p = s.lag p - ((s.proc p).share.toNat * d : Nat) := by
    unfold lag
    rw [hportion, hport, hmlfq, hpass]
    push_cast
    ring
  omega

/-- The pass of MLFQ moves by `d`. -/
theorem debt_mlfq {d : Nat} (hpass : s'.mlfq.pass.toNat = s.mlfq.pass.toNat + d)
    (hportion : ∀ p, (s'.proc p).portion = (s.proc p).portion)
    (hother : ∀ p, (s.proc p).stype = .stride → (s'.proc p).pass = (s.proc p).pass) :
    s'.debt = s.debt + (∑ p, (s.proc p).portion : Nat) * d := by
  unfold debt
  rw [Nat.cast_sum, Finset.sum_mul, ← Finset.sum_add_distrib]
  refine Finset.sum_congr rfl fun p _ => ?_
  unfold lag
  rw [hportion, hpass]
  by_cases hp : (s.proc p).stype = .stride
  · rw [hother p hp]
    push_cast
    ring
  · unfold Proc.portion
    rw [if_neg hp]
    simp

/-- With balanced shares the debt is bounded by the width of the counters. -/
theorem Balanced.debt_bound (h : s.Balanced) :
    -(80 * 2 ^ 32 : Int) ≤ s.debt ∧ s.debt ≤ 80 * 2 ^ 32 := by
  obtain ⟨hmin, hsum⟩ := h
  have hcast : (∑ p, ((s.proc p).portion : Int)) ≤ 80 := by
    have : ∑ p, (s.proc p).portion ≤ 80 := by omega
    exact_mod_cast this
  have hone : ∀ p, -((s.proc p).portion * 2 ^ 32 : Int) ≤ s.lag p ∧
      s.lag p ≤ (s.proc p).portion * 2 ^ 32 := by
    intro p
    have h1 := s.mlfq.pass.isLt
    have h2 := (s.proc p).pass.isLt
    unfold lag
    rw [← mul_neg]
    constructor
    · exact Int.mul_le_mul_of_nonneg_left (by omega) (Int.natCast_nonneg _)
    · exact Int.mul_le_mul_of_nonneg_left (by omega) (Int.natCast_nonneg _)
  have hlow : ∑ p, -((s.proc p).portion * 2 ^ 32 : Int) ≤ s.debt :=
    Finset.sum_le_sum fun p _ => (hone p).1
  have hhigh : s.debt ≤ ∑ p, ((s.proc p).portion * 2 ^ 32 : Int) :=
    Finset.sum_le_sum fun p _ => (hone p).2
  rw [Finset.sum_neg_distrib, ← Finset.sum_mul] at hlow
  rw [← Finset.sum_mul] at hhigh
  constructor
  · omega
  · omega

end Kernel

namespace Loop

open Kernel

variable {s s' s₀ s₁ : Loop} {a : LoopAct} {p : ProcPtr} {w : Nat}

/-! ## Conditions on a run -/

theorem Tidy.inRange (h : Tidy s) (hb : s.kernel.Balanced) : s.kernel.InRange := by
  have hsum := hb.2
  refine ⟨⟨hb.1, by omega⟩, fun p hp => ?_⟩
  have hport : (s.kernel.proc p).portion = (s.kernel.proc p).share.toNat := if_pos hp
  have hle := Finset.single_le_sum (fun q _ => Nat.zero_le (s.kernel.proc q).portion)
    (Finset.mem_univ p)
  have hmin := hb.1
  have hne : (s.kernel.proc p).share.toNat ≠ 0 := fun h0 => (h p hp).1 (BitVec.eq_of_toNat_eq h0)
  omega

/-- The fee of a stride process is not rounded. -/
def Exact (s : Loop) : LoopAct → Prop
  | .sched st => ∀ p, s.kernel.running = some p → s.Ends p st →
      (s.kernel.proc p).stype = .stride →
      (s.kernel.proc p).share.toNat ∣ TICKETS.toNat * ((s.kernel.proc p).ticks.toNat + 1)
  | _ => True

/-- A slice of `k` ticks moves the debt by at least `w` for a stride tick and at most `4 * w` for a
tick of MLFQ. -/
def Weighs (w : Nat) (s : Loop) (p : ProcPtr) : Prop :=
  ((s.kernel.proc p).stype = .stride →
    w * ((s.kernel.proc p).ticks.toNat + 1) ≤ (s.kernel.proc p).share.toNat *
      (TICKETS.toNat * ((s.kernel.proc p).ticks.toNat + 1) / (s.kernel.proc p).share.toNat)) ∧
  ((s.kernel.proc p).stype ≠ .stride →
    (100 - s.kernel.mlfq.share.toNat) *
      (TICKETS.toNat * ((s.kernel.proc p).ticks.toNat + 1) / s.kernel.mlfq.share.toNat) ≤
      4 * w * ((s.kernel.proc p).ticks.toNat + 1))

theorem weighs_exact (hb : s.kernel.Balanced)
    (hex : (s.kernel.proc p).stype = .stride →
      (s.kernel.proc p).share.toNat ∣ TICKETS.toNat * ((s.kernel.proc p).ticks.toNat + 1)) :
    Weighs 10000 s p := by
  generalize hk : (s.kernel.proc p).ticks.toNat + 1 = k at hex
  unfold Weighs
  rw [hk]
  refine ⟨fun hs => ?_, fun _ => ?_⟩
  · rw [Nat.mul_div_cancel' (hex hs)]
    exact le_rfl
  · generalize hx : TICKETS.toNat * k / s.kernel.mlfq.share.toNat = x
    have hle : s.kernel.mlfq.share.toNat * x ≤ 10000 * k := by
      rw [← hx]
      exact Nat.mul_div_le _ _
    have hmin := hb.1
    calc (100 - s.kernel.mlfq.share.toNat) * x ≤ 4 * s.kernel.mlfq.share.toNat * x :=
          Nat.mul_le_mul_right _ (by omega)
      _ = 4 * (s.kernel.mlfq.share.toNat * x) := by ring
      _ ≤ 4 * (10000 * k) := Nat.mul_le_mul_left _ hle
      _ = 4 * 10000 * k := by ring

/-- With a share of 21 or more left to MLFQ, rounding costs it less than it gains. -/
theorem weighs_spare (hb : s.kernel.Balanced) (hspare : 21 ≤ s.kernel.mlfq.share.toNat)
    (hne : (s.kernel.proc p).stype = .stride → (s.kernel.proc p).share ≠ 0) :
    Weighs 9921 s p := by
  generalize hk : (s.kernel.proc p).ticks.toNat = k
  unfold Weighs
  rw [hk]
  refine ⟨fun hs => ?_, fun _ => ?_⟩
  · have hle : (s.kernel.proc p).portion ≤ ∑ q, (s.kernel.proc q).portion :=
      Finset.single_le_sum (f := fun q => (s.kernel.proc q).portion) (fun _ _ => Nat.zero_le _)
        (Finset.mem_univ p)
    have hport : (s.kernel.proc p).portion = (s.kernel.proc p).share.toNat := if_pos hs
    have hshare : (s.kernel.proc p).share.toNat ≤ 79 := by
      have := hb.2
      omega
    have hpos : 0 < (s.kernel.proc p).share.toNat := by
      rw [Nat.pos_iff_ne_zero]
      exact fun h0 => hne hs (BitVec.eq_of_toNat_eq h0)
    have hdiv := Nat.div_add_mod (TICKETS.toNat * (k + 1)) (s.kernel.proc p).share.toNat
    have hmod := Nat.mod_lt (TICKETS.toNat * (k + 1)) hpos
    have hval : TICKETS.toNat * (k + 1) = 10000 * (k + 1) := rfl
    omega
  · generalize hx : TICKETS.toNat * (k + 1) / s.kernel.mlfq.share.toNat = x
    have hle : s.kernel.mlfq.share.toNat * x ≤ 10000 * (k + 1) := by
      rw [← hx]
      exact Nat.mul_div_le _ _
    have hlow : 21 * x ≤ 10000 * (k + 1) := le_trans (Nat.mul_le_mul_right _ hspare) hle
    have hhigh : (100 - s.kernel.mlfq.share.toNat) * x ≤ 79 * x :=
      Nat.mul_le_mul_right _ (by omega)
    omega

/-! ## The account of a window -/

/-- What does not grow in a window. -/
def account (w : Nat) (s : Loop) : Int :=
  w * ((s.given : Int) - s.mlfqCharged) - 4 * w * s.mlfqCharged + s.kernel.debt

/-- A stride process that runs is not ahead of MLFQ. -/
def Behind (s : Loop) : Prop := ∀ p, s.kernel.running = some p →
  (s.kernel.proc p).stype = .stride → (s.kernel.proc p).pass ≤ s.kernel.mlfq.pass

theorem account_frame (hsame : SameClients s.kernel s'.kernel)
    (hgiven : s'.given = s.given ∧ s'.mlfqCharged = s.mlfqCharged) : account w s' = account w s := by
  unfold account
  rw [hgiven.1, hgiven.2, hsame.debt]

theorem Behind.frame (h : Behind s) (hsame : SameClients s.kernel s'.kernel)
    (hrun : s'.kernel.running = s.kernel.running) : Behind s' := by
  intro p hp hs
  have hs' : (s.kernel.proc p).stype = .stride := (hsame.isClient (c := some p)).mp hs
  have heq : (s'.kernel.proc p).pass = (s.kernel.proc p).pass :=
    (hsame.client (c := some p) hs').2
  rw [heq, hsame.pass]
  exact h p (hrun ▸ hp) hs'

theorem account_left (hb : s.kernel.Balanced) (htidy : Tidy s)
    (hticks : (s.kernel.proc p).ticks.toNat < 20) (hfits : s.sum p < 2 ^ 32)
    (hw : Weighs w s p) {st : ProcState} (hl : Left s s' p st) :
    account w s' ≤ account w s := by
  have hsucc := toNat_succ hticks
  have hfee := toNat_fee hticks (s.kernel.clientShare (s.kernel.clientOf p))
  generalize hk : (s.kernel.proc p).ticks.toNat + 1 = k at *
  have htype : ∀ q, (s'.kernel.proc q).stype = .stride ↔ (s.kernel.proc q).stype = .stride :=
    fun q => hl.isClient (some q)
  have hportion := hl.portion
  by_cases hs : (s.kernel.proc p).stype = .stride
  · -- the debt falls by share times fee
    have hof : s.kernel.clientOf p = some p := if_pos hs
    rw [hof] at hfee
    obtain ⟨-, hpaid⟩ := hl.paid (by rw [hof]; exact (htidy p hs).1)
    rw [hof] at hpaid
    have hpaid' : (s'.kernel.proc p).pass.toNat = (s.kernel.proc p).pass.toNat +
        TICKETS.toNat * k / (s.kernel.proc p).share.toNat := by
      have hpass : (s'.kernel.proc p).pass = (s.kernel.proc p).pass +
        TICKETS * ((s.kernel.proc p).ticks + 1) / (s.kernel.proc p).share := hpaid
      have hfits' : (s.kernel.proc p).pass.toNat +
          TICKETS.toNat * k / (s.kernel.proc p).share.toNat < 2 ^ 32 := by
        unfold sum at hfits
        rw [hof, hk] at hfits
        exact hfits
      have hfee' : (TICKETS * ((s.kernel.proc p).ticks + 1) / (s.kernel.proc p).share).toNat =
        TICKETS.toNat * k / (s.kernel.proc p).share.toNat := hfee
      rw [hpass, BitVec.toNat_add, hfee', Nat.mod_eq_of_lt hfits']
    have hkeep : ∀ c, s.kernel.IsClient c → c ≠ some p →
        s'.kernel.clientPass c = s.kernel.clientPass c := by
      intro c hc hne
      rcases hl.pass c hc with heq | ⟨heq, -⟩
      · exact heq
      · exact absurd (heq.trans hof) hne
    have hmlfq : s'.kernel.mlfq.pass = s.kernel.mlfq.pass := hkeep none trivial (by simp)
    have hdebt := debt_stride hs hpaid' hportion
      (fun q hq hqs => hkeep (some q) hqs (by simpa using hq)) hmlfq
    have hdrop := hw.1 hs
    rw [hk] at hdrop
    have hgiven := hl.given
    have hmgiven := hl.mlfqCharged
    rw [if_pos hs] at hmgiven
    rw [hsucc] at hgiven
    unfold account
    rw [hgiven, hmgiven]
    have hcast : (w * k : Int) ≤ ((s.kernel.proc p).share.toNat *
        (TICKETS.toNat * k / (s.kernel.proc p).share.toNat) : Nat) := by exact_mod_cast hdrop
    have hexpand : (w : Int) * (((s.given + k : Nat) : Int) - s.mlfqCharged) =
        w * ((s.given : Int) - s.mlfqCharged) + w * k := by
      push_cast
      ring
    rw [hexpand]
    omega
  · -- every stride process falls behind by its share times fee
    have hof : s.kernel.clientOf p = none := if_neg hs
    rw [hof] at hfee
    have hmin := hb.1
    obtain ⟨-, hpaid⟩ := hl.paid (by
      rw [hof]
      intro h0
      have h0' : s.kernel.mlfq.share = 0 := h0
      rw [h0'] at hmin
      exact absurd hmin (by decide))
    rw [hof] at hpaid
    have hpaid' : s'.kernel.mlfq.pass.toNat = s.kernel.mlfq.pass.toNat +
        TICKETS.toNat * k / s.kernel.mlfq.share.toNat := by
      have hpass : s'.kernel.mlfq.pass = s.kernel.mlfq.pass +
        TICKETS * ((s.kernel.proc p).ticks + 1) / s.kernel.mlfq.share := hpaid
      have hfits' : s.kernel.mlfq.pass.toNat +
          TICKETS.toNat * k / s.kernel.mlfq.share.toNat < 2 ^ 32 := by
        unfold sum at hfits
        rw [hof, hk] at hfits
        exact hfits
      have hfee' : (TICKETS * ((s.kernel.proc p).ticks + 1) / s.kernel.mlfq.share).toNat =
        TICKETS.toNat * k / s.kernel.mlfq.share.toNat := hfee
      rw [hpass, BitVec.toNat_add, hfee', Nat.mod_eq_of_lt hfits']
    have hdebt := debt_mlfq hpaid' hportion fun q hq => by
      rcases hl.pass (some q) hq with heq | ⟨heq, -⟩
      · exact heq
      · rw [hof] at heq
        cases heq
    have hrise := hw.2 hs
    rw [hk] at hrise
    have hsum : ∑ q, (s.kernel.proc q).portion = 100 - s.kernel.mlfq.share.toNat := by
      have := hb.2
      omega
    rw [hsum] at hdebt
    have hgiven := hl.given
    have hmgiven := hl.mlfqCharged
    rw [if_neg hs, hsucc] at hmgiven
    rw [hsucc] at hgiven
    unfold account
    rw [hgiven, hmgiven, hdebt]
    have hcast : ((100 - s.kernel.mlfq.share.toNat : Nat) : Int) *
        ((TICKETS.toNat * k / s.kernel.mlfq.share.toNat : Nat) : Int) ≤ 4 * w * k := by
      exact_mod_cast hrise
    have hexpand : (w : Int) * (((s.given + k : Nat) : Int) - ((s.mlfqCharged + k : Nat) : Int)) -
        4 * w * ((s.mlfqCharged + k : Nat) : Int) =
        w * ((s.given : Int) - s.mlfqCharged) - 4 * w * s.mlfqCharged - 4 * w * k := by
      push_cast
      ring
    rw [hexpand]
    omega

theorem account_share (h : Behind s) (hrun : s.kernel.running = some p) (share : Word) :
    account w { s with kernel := s.kernel.cpuShare p share } ≤ account w s ∧
      Behind { s with kernel := s.kernel.cpuShare p share } := by
  obtain ⟨hself, hother, hmlfq, -⟩ := cpuShare_spec share
  have hrunning : (s.kernel.cpuShare p share).running = some p := hrun
  generalize s.kernel.cpuShare p share = k at hself hother hmlfq hrunning ⊢
  have hpassm : k.mlfq.pass = s.kernel.mlfq.pass := by
    obtain ⟨_, hm⟩ := setCpuShare_mlfq s.kernel.mlfq (s.kernel.proc p) share
    rw [hmlfq, hm]
  have hdebt := debt_other s.kernel k p fun q hq => by
    unfold lag
    rw [hother q hq, hpassm]
  -- the claim of a process that runs is not negative, and a new one starts at zero
  have hold : 0 ≤ s.kernel.lag p := by
    by_cases hs : (s.kernel.proc p).stype = .stride
    · have hle := BitVec.le_def.mp (h p hrun hs)
      rw [lag_of_stride hs]
      exact Int.mul_nonneg (Int.natCast_nonneg _) (by omega)
    · rw [lag_of_not hs]
  have key : k.lag p ≤ s.kernel.lag p ∧
      ((k.proc p).stype = .stride → (k.proc p).pass ≤ k.mlfq.pass) := by
    rcases setCpuShare_cases s.kernel.mlfq (s.kernel.proc p) share with heq | ⟨-, ht⟩ |
      ⟨ht, hnew, -⟩
    · have hsame : k.proc p = s.kernel.proc p := by rw [hself, heq]
      unfold lag
      rw [hsame, hpassm]
      exact ⟨le_rfl, h p hrun⟩
    · rw [← hself] at ht
      have hne : (k.proc p).stype ≠ .stride := by
        rw [ht]
        decide
      rw [lag_of_not hne]
      exact ⟨hold, fun hs => absurd hs hne⟩
    · rw [← hself] at ht hnew
      rw [lag_of_stride ht, hnew, hpassm, sub_self, mul_zero]
      exact ⟨hold, fun _ => BitVec.le_refl _⟩
  constructor
  · unfold account
    show (w : Int) * ((s.given : Int) - s.mlfqCharged) - 4 * w * s.mlfqCharged + k.debt ≤ _
    have hle := key.1
    omega
  · intro r hr hs
    obtain rfl : p = r := Option.some.inj (hrunning.symm.trans hr)
    exact key.2 hs

/-- One step of a window. The shares are balanced on both sides of it. -/
theorem account_step (h : Behind s) (hslice : InSlice s) (htidy : Tidy s) (hb : s.kernel.Balanced)
    (hb' : s'.kernel.Balanced) (hready : a = .pick → s.kernel.Ready none) (hlow : Low s)
    (hw : ∀ p st, a = .sched st → s.kernel.running = some p → s.Ends p st → Weighs w s p)
    (hs : s.step a = some s') : account w s' ≤ account w s ∧ Behind s' := by
  rcases step_cases hs with ⟨rfl, -, ⟨p, hp⟩ | hi⟩ | ⟨p, st, rfl, hrun, -, ⟨hends, hl⟩ | hran⟩ |
    ⟨p, share, rfl, hrun, rfl⟩ | ⟨p, np, -, hrun, hnp, rfl⟩ | ⟨p, q, -, hrun, hq, -, rfl⟩ |
    ⟨q, -, hst, rfl⟩
  · constructor
    · unfold account
      rw [hp.given.1, hp.given.2, hp.same.debt, reduce_debt]
    · intro r hr hs
      rw [hp.running] at hr
      cases hr
      have hc : s.kernel.reduce.IsClient (some p) := hp.same.isClient.mp hs
      have hs' : (s.kernel.proc p).stype = .stride := reduce_isClient.mp hc
      have hle := hp.least none trivial (hready rfl)
      unfold clientOf at hle
      rw [if_pos hs'] at hle
      have heq : (s'.kernel.proc p).pass = (s.kernel.reduce.proc p).pass := (hp.same.client hc).2
      rw [heq, hp.same.pass]
      exact hle
  · exact absurd (hready rfl) (hi.nobody none trivial)
  · have hfits : s.sum p < 2 ^ 32 :=
      lt_trans (hlow.sum_lt hrun (hslice p hrun).1) (by decide)
    refine ⟨account_left hb htidy (hslice p hrun).1 hfits (hw p st rfl hrun hends) hl,
      fun r hr => ?_⟩
    rw [hl.running] at hr
    cases hr
  · exact ⟨le_of_eq (account_frame hran.same hran.given), h.frame hran.same hran.running⟩
  · exact account_share h hrun share
  · have hsame := same_fork np (htidy.not_stride hnp)
    exact ⟨le_of_eq (account_frame hsame ⟨rfl, rfl⟩), h.frame hsame rfl⟩
  · -- the sum of the shares is the same before and after, so `q` had none
    have hother : ∀ r, r ≠ q → (s.kernel.reap q).proc r = s.kernel.proc r :=
      fun r => (reap_proc s.kernel q r).1
    have hnot : (s.kernel.proc q).stype ≠ .stride := by
      intro hs
      have hold := Finset.sum_erase_add Finset.univ (fun r => (s.kernel.proc r).portion)
        (Finset.mem_univ q)
      have hnew := Finset.sum_erase_add Finset.univ (fun r => ((s.kernel.reap q).proc r).portion)
        (Finset.mem_univ q)
      have hrest : ∑ r ∈ Finset.univ.erase q, ((s.kernel.reap q).proc r).portion =
          ∑ r ∈ Finset.univ.erase q, (s.kernel.proc r).portion :=
        Finset.sum_congr rfl fun r hr => by rw [hother r (Finset.ne_of_mem_erase hr)]
      have hzero : ((s.kernel.reap q).proc q).portion = 0 := by
        unfold Proc.portion
        rw [(reap_proc s.kernel q q).2.1]
        rfl
      have hport : (s.kernel.proc q).portion = (s.kernel.proc q).share.toNat := if_pos hs
      have hsum := hb.2
      have hsum' : (s.kernel.reap q).mlfq.share.toNat +
        ∑ r, ((s.kernel.reap q).proc r).portion = 100 := hb'.2
      rw [reap_mlfq] at hsum'
      have hshare : (s.kernel.proc q).share.toNat = 0 := by omega
      exact (htidy q hs).1 (BitVec.eq_of_toNat_eq hshare)
    have hsame : SameClients s.kernel (s.kernel.reap q) := by
      refine ⟨fun r => ?_, by rw [reap_mlfq], by rw [reap_mlfq]⟩
      by_cases hrq : r = q
      · subst hrq
        rw [Proc.stake_none hnot]
        apply Proc.stake_none
        rw [(reap_proc s.kernel r r).2.1]
        decide
      · rw [hother r hrq]
    exact ⟨le_of_eq (account_frame hsame ⟨rfl, rfl⟩), h.frame hsame (reap_running s.kernel)⟩
  · have hsame := same_wakeup (s := s) (q := q)
    exact ⟨le_of_eq (account_frame hsame ⟨rfl, rfl⟩), h.frame hsame rfl⟩

/-! ## Given and charged -/

/-- The ticks of the slice that is going on, if its end will charge them to MLFQ. -/
def unbilled (s : Loop) : Nat := match s.kernel.running with
  | some p => if (s.kernel.proc p).stype = .stride then 0 else (s.kernel.proc p).ticks.toNat
  | none => 0

/-- What MLFQ processes got and MLFQ was or will not be charged for. -/
def unpaid (s : Loop) : Int := (s.mlfqGiven : Int) - s.mlfqCharged - s.unbilled

/-- A process that has used ticks of its slice as a stride process leaves its class only after the
slice: `set_cpu_share` of 0 or less, which `exit` calls too, comes before its first tick. -/
def StaysStride (s : Loop) : LoopAct → Prop
  | .setCpuShare share => ∀ p, s.kernel.running = some p → (s.kernel.proc p).stype = .stride →
      (s.kernel.proc p).ticks = 0 ∨ 0 < share.toInt
  | _ => True

theorem unbilled_idle (h : s.kernel.running = none) : s.unbilled = 0 := by
  unfold unbilled
  rw [h]

theorem unbilled_run (h : s.kernel.running = some p) : s.unbilled =
    if (s.kernel.proc p).stype = .stride then 0 else (s.kernel.proc p).ticks.toNat := by
  unfold unbilled
  rw [h]

/-- Only `set_cpu_share` moves a tick from one class to the other. -/
theorem unpaid_step (hslice : InSlice s) (hs : s.step a = some s') : s'.unpaid = s.unpaid ∨
    ∃ p share, a = .setCpuShare share ∧ s.kernel.running = some p ∧
      s' = { s with kernel := s.kernel.cpuShare p share } := by
  have htick : ∀ p, s.kernel.running = some p →
      ((s.kernel.proc p).ticks + 1).toNat = (s.kernel.proc p).ticks.toNat + 1 := by
    intro p hp
    have hlt := (hslice p hp).1
    rw [BitVec.toNat_add]
    exact Nat.mod_eq_of_lt (by simp; omega)
  unfold unpaid
  rcases step_cases hs with ⟨-, hrun, ⟨p, hp⟩ | hi⟩ | ⟨p, st, -, hrun, -, ⟨-, hl⟩ | hran⟩ |
    hshare | ⟨p, np, -, hrun, hnp, rfl⟩ | ⟨p, q, -, hrun, hq, -, rfl⟩ | ⟨q, -, -, rfl⟩
  · left
    rw [hp.got, hp.given.2, unbilled_idle hrun, unbilled_run hp.running, hp.ticks]
    simp
  · left
    rw [hi.got, hi.given.2, unbilled_idle hrun, unbilled_idle hi.running]
  · left
    rw [hl.got, hl.mlfqCharged, unbilled_idle hl.running, unbilled_run hrun, htick p hrun]
    split <;> push_cast <;> omega
  · left
    rw [hran.got, hran.given.2, unbilled_run (hran.running.trans hrun), unbilled_run hrun,
      hran.stype, hran.ticks, htick p hrun]
    split <;> push_cast <;> omega
  · exact .inr hshare
  · left
    have hne : p ≠ np := by
      rintro rfl
      exact (hslice p hrun).2 hnp
    have hproc : (s.fork np).kernel.proc p = s.kernel.proc p := if_neg hne
    rw [unbilled_run (s := s.fork np) hrun, hproc, unbilled_run hrun]
    rfl
  · left
    have hrun' : (s.kernel.reap q).running = some p := (reap_running s.kernel).trans hrun
    rw [unbilled_run (s := { s with kernel := s.kernel.reap q }) hrun', unbilled_run hrun,
      (reap_proc s.kernel q p).1 (Ne.symm hq)]
  · left
    have hsame : (s.wakeup q).unbilled = s.unbilled := by
      cases hrun : s.kernel.running with
      | none => rw [unbilled_idle hrun, unbilled_idle (s := s.wakeup q) hrun]
      | some p =>
        have hproc : (s.wakeup q).kernel.proc p = if p = q then
            { s.kernel.proc q with state := .runnable } else s.kernel.proc p := rfl
        rw [unbilled_run hrun, unbilled_run (s := s.wakeup q) hrun, hproc]
        by_cases hpq : p = q
        · subst hpq
          rw [if_pos rfl]
        · rw [if_neg hpq]
    rw [hsame]
    rfl

theorem unpaid_le (hslice : InSlice s) (hstays : StaysStride s a) (hs : s.step a = some s') :
    s.unpaid ≤ s'.unpaid := by
  rcases unpaid_step hslice hs with h | ⟨p, share, rfl, hrun, rfl⟩
  · exact le_of_eq h.symm
  · have hself := (cpuShare_spec (s := s.kernel) (p := p) share).1
    obtain ⟨stype, qlev, share', pass, hfields⟩ :=
      setCpuShare_proc s.kernel.mlfq (s.kernel.proc p) share
    have hle : unbilled { s with kernel := s.kernel.cpuShare p share } ≤ s.unbilled := by
      rw [unbilled_run (s := { s with kernel := s.kernel.cpuShare p share }) hrun, unbilled_run hrun,
        hself]
      rcases setCpuShare_cases s.kernel.mlfq (s.kernel.proc p) share with heq | ⟨hold, hnew⟩ |
        ⟨hnew, -⟩
      · rw [heq]
      · rcases hstays p hrun hold with h0 | hpos
        · rw [hfields, h0]
          split <;> exact Nat.zero_le _
        · -- a positive share keeps a stride process one
          unfold setCpuShare at hnew
          rw [if_neg (not_le.mpr hpos), if_pos hold] at hnew
          dsimp only at hnew
          split at hnew
          · cases hold.symm.trans hnew
          · cases hnew
      · rw [if_pos hnew]
        exact Nat.zero_le _
    unfold unpaid
    show _ ≤ (s.mlfqGiven : Int) - s.mlfqCharged - _
    omega

theorem unpaid_eq (hslice : InSlice s) (hall : AllReady s a) (hs : s.step a = some s') :
    s'.unpaid = s.unpaid := by
  rcases unpaid_step hslice hs with h | ⟨p, share, rfl, hrun, rfl⟩
  · exact h
  · unfold unpaid
    rw [unbilled_run (s := { s with kernel := s.kernel.cpuShare p share }) hrun, unbilled_run hrun,
      (cpuShare_spec share).1, hall p hrun]

/-! ## Every window -/

/-- In every window of a run under `ok` at each decision of which an MLFQ process is RUNNABLE, MLFQ
gets a fifth of the ticks, up to `C` ticks of the window. -/
def KeepsFifth (ok : Loop → LoopAct → Prop) (C : Nat) : Prop :=
  ∀ s₀ s₁, Reaches step ok boot s₀ → s₀.kernel.running = none →
    Reaches step (fun s a => ok s a ∧ (a = .pick → s.kernel.Ready none)) s₀ s₁ →
    s₁.kernel.Balanced →
    (s₁.given : Int) - s₀.given ≤ 5 * ((s₁.mlfqGiven : Int) - s₀.mlfqGiven) + C

/-- What every state has in a run of balanced shares in which the clients catch up. -/
structure Sane (s : Loop) : Prop where
  slice : InSlice s
  tidy : Tidy s
  low : Low s

theorem Sane.step (h : Sane s) (hb : s.kernel.Balanced) (hok : CaughtUp s a)
    (hs : s.step a = some s') : Sane s' :=
  ⟨h.slice.step hs, h.tidy.step h.slice hs, h.low.step h.slice h.tidy (h.tidy.inRange hb) hok hs⟩

/-- Over a window the account does not grow. -/
theorem window_account {ok : Loop → LoopAct → Prop}
    (hok : ∀ s a, ok s a → s.kernel.Balanced ∧ CaughtUp s a ∧ StaysStride s a)
    (hweigh : ∀ s a, ok s a → Tidy s → ∀ p st, a = .sched st → s.kernel.running = some p →
      s.Ends p st → Weighs w s p)
    (hinv : Sane s₀) (hidle : s₀.kernel.running = none)
    (h : Reaches Loop.step (fun s a => ok s a ∧ (a = .pick → s.kernel.Ready none)) s₀ s₁) :
    (Sane s₁ ∧ (s₀ = s₁ ∨ s₀.kernel.Balanced) ∧ s₀.unpaid ≤ s₁.unpaid) ∧
      (s₁.kernel.Balanced → account w s₁ ≤ account w s₀ ∧ Behind s₁) := by
  induction h with
  | refl =>
    refine ⟨⟨hinv, .inl rfl, le_rfl⟩, fun _ => ⟨le_rfl, fun p hp => ?_⟩⟩
    rw [hidle] at hp
    cases hp
  | @tail s s' a _ hstep hs ih =>
    obtain ⟨⟨hsane, hfirst, hunpaid⟩, hacc⟩ := ih
    obtain ⟨hrun, hready⟩ := hstep
    obtain ⟨hb, hcaught, hstays⟩ := hok s a hrun
    have hbal : s₀.kernel.Balanced := by
      rcases hfirst with rfl | h
      · exact hb
      · exact h
    refine ⟨⟨hsane.step hb hcaught hs, .inr hbal,
      hunpaid.trans (unpaid_le hsane.slice hstays hs)⟩, fun hb' => ?_⟩
    obtain ⟨hle, hbehind⟩ := hacc hb
    obtain ⟨hle', hbehind'⟩ := account_step hbehind hsane.slice hsane.tidy hb hb' hready hsane.low
      (hweigh s a hrun hsane.tidy) hs
    exact ⟨hle'.trans hle, hbehind'⟩

/-- The constant for every run: the debts at the two ends of a window. -/
def slack : Nat := 160 * 2 ^ 32

/-- Where a ready client is below `MAXPASS` whenever a client is, no stride process leaves its class
within a slice, and no stride fee is rounded or MLFQ has a share of 21 or more throughout: MLFQ keeps
its fifth in every window. -/
theorem mlfq_keeps_fifth (ok : Loop → LoopAct → Prop)
    (hok : ∀ s a, ok s a → s.kernel.Balanced ∧ CaughtUp s a ∧ StaysStride s a)
    (hround : (∀ s a, ok s a → Exact s a) ∨ ∀ s a, ok s a → 21 ≤ s.kernel.mlfq.share.toNat) :
    KeepsFifth ok slack := by
  intro s₀ s₁ hreach hidle hwindow hb₁
  have hinv : Sane s₀ := by
    refine hreach.invariant ⟨boot_inSlice, boot_tidy, boot_low⟩ ?_
    intro s a s' hsane hrun hs
    exact hsane.step (hok s a hrun).1 (hok s a hrun).2.1 hs
  have hweight : ∃ w : Nat, 0 < w ∧ ∀ s a, ok s a → Tidy s → ∀ p st, a = .sched st →
      s.kernel.running = some p → s.Ends p st → Weighs w s p := by
    rcases hround with hex | hspare
    · refine ⟨10000, by decide, ?_⟩
      rintro s a hrun - p st rfl hp hends
      exact weighs_exact (hok _ _ hrun).1 (hex _ _ hrun p hp hends)
    · refine ⟨9921, by decide, ?_⟩
      rintro s a hrun htidy p st rfl hp -
      exact weighs_spare (hok _ _ hrun).1 (hspare _ _ hrun) fun hs => (htidy p hs).1
  obtain ⟨w, hw, hweigh⟩ := hweight
  obtain ⟨⟨-, hfirst, hunpaid⟩, hacc⟩ := window_account hok hweigh hinv hidle hwindow
  obtain ⟨hle, -⟩ := hacc hb₁
  have hb₀ : s₀.kernel.Balanced := by
    rcases hfirst with rfl | h
    · exact hb₁
    · exact h
  have h0 := hb₀.debt_bound
  have h1 := hb₁.debt_bound
  -- divide the account by the weight
  have hmul : (w : Int) * (((s₁.given : Int) - s₀.given) -
      5 * ((s₁.mlfqCharged : Int) - s₀.mlfqCharged)) ≤ 160 * 2 ^ 32 := by
    have hexpand : (w : Int) * (((s₁.given : Int) - s₀.given) -
        5 * ((s₁.mlfqCharged : Int) - s₀.mlfqCharged)) =
        (w * ((s₁.given : Int) - s₁.mlfqCharged) - 4 * w * s₁.mlfqCharged) -
        (w * ((s₀.given : Int) - s₀.mlfqCharged) - 4 * w * s₀.mlfqCharged) := by ring
    unfold account at hle
    rw [hexpand]
    omega
  by_contra hlt
  rw [not_le, slack] at hlt
  have hone : (1 : Int) ≤ w := by exact_mod_cast hw
  have hpos : 160 * 2 ^ 32 < ((s₁.given : Int) - s₀.given) -
      5 * ((s₁.mlfqCharged : Int) - s₀.mlfqCharged) := by
    unfold unpaid at hunpaid
    rw [unbilled_idle hidle] at hunpaid
    push_cast at hlt
    omega
  have hbig := Int.mul_le_mul_of_nonneg_right hone (le_of_lt (lt_trans (by decide) hpos))
  rw [one_mul] at hbig
  omega

instance (s : Loop) : DecidablePred (Exact s)
  | .sched st => inferInstanceAs (Decidable (∀ p, s.kernel.running = some p → s.Ends p st →
      (s.kernel.proc p).stype = .stride →
      (s.kernel.proc p).share.toNat ∣ TICKETS.toNat * ((s.kernel.proc p).ticks.toNat + 1)))
  | .pick | .setCpuShare _ | .fork _ | .reap _ | .wakeup _ => isTrue trivial

instance (s : Loop) : DecidablePred (StaysStride s)
  | .setCpuShare share => inferInstanceAs (Decidable (∀ p, s.kernel.running = some p →
      (s.kernel.proc p).stype = .stride → (s.kernel.proc p).ticks = 0 ∨ 0 < share.toInt))
  | .pick | .sched _ | .fork _ | .reap _ | .wakeup _ => isTrue trivial

/-- The first process forks, and its child takes a share of 80. -/
def eightyStart : List LoopAct :=
  [.pick, .fork 1] ++ List.replicate 5 (.sched .runnable) ++
    [.pick, .setCpuShare 80#32] ++ List.replicate 5 (.sched .runnable)

/-- One slice of each. -/
def eightyWindow : List LoopAct :=
  .pick :: List.replicate 5 (.sched .runnable) ++ .pick :: List.replicate 5 (.sched .runnable)

theorem mlfq_keeps_fifth_eighty : ∃ s₀ s₁ : Loop, Reaches Loop.step
      (fun s a => s.kernel.Balanced ∧ CaughtUp s a ∧ StaysStride s a ∧ Exact s a) boot s₀ ∧
    s₁.given = s₀.given + 10 ∧ s₁.mlfqGiven = s₀.mlfqGiven + 5 ∧
    (s₁.given : Int) - s₀.given ≤ 5 * ((s₁.mlfqGiven : Int) - s₀.mlfqGiven) + slack := by
  have hkeep := mlfq_keeps_fifth (fun s a => s.kernel.Balanced ∧ CaughtUp s a ∧ StaysStride s a ∧ Exact s a)
    (fun _ _ h => ⟨h.1, h.2.1, h.2.2.1⟩) (.inl fun _ _ h => h.2.2.2)
  obtain ⟨s₀, hreach₀, hidle, hrest⟩ := loop_run boot
    (fun s a => s.kernel.Balanced ∧ CaughtUp s a ∧ StaysStride s a ∧ Exact s a) eightyStart
    (fun s₀ => s₀.kernel.running = none ∧ (runIf step (fun s a =>
        (s.kernel.Balanced ∧ CaughtUp s a ∧ StaysStride s a ∧ Exact s a) ∧ (a = .pick → s.kernel.Ready none))
      s₀ eightyWindow).any fun s₁ => s₁.kernel.Balanced ∧ s₁.given = s₀.given + 10 ∧
        s₁.mlfqGiven = s₀.mlfqGiven + 5) (by decide +kernel)
  obtain ⟨s₁, hwindow, hb, hgiven, hmlfq⟩ := loop_run s₀ _ eightyWindow _ hrest
  exact ⟨s₀, s₁, hreach₀, hgiven, hmlfq, hkeep s₀ s₁ hreach₀ hidle hwindow hb⟩

/-! ## Rounding -/

/-- The first process in MLFQ, and two stride processes with shares of 77 and 3, all of them
RUNNABLE, and pass values that `Close` keeps together. -/
structure Trio (s : Loop) : Prop where
  running : s.kernel.running = none
  panic : s.kernel.panic = none
  balanced : s.kernel.Balanced
  share : s.kernel.mlfq.share = 20#32
  first : (s.kernel.proc 0).stype ≠ .stride
  big : (s.kernel.proc 1).stype = .stride ∧ (s.kernel.proc 1).share = 77#32
  small : (s.kernel.proc 2).stype = .stride ∧ (s.kernel.proc 2).share = 3#32
  ready : (s.kernel.proc 0).stype = .mlfq ∧ ∀ q, q = 0 ∨ (s.kernel.proc q).stype = .stride →
    (s.kernel.proc q).state = .runnable
  others : ∀ q, (s.kernel.proc q).state = .runnable → q = 0 ∨ q = 1 ∨ q = 2
  close : Close 66666 s

theorem Trio.allReady (h : Trio s) (c : Option ProcPtr) (hc : s.kernel.IsClient c) :
    s.kernel.Ready c := by
  cases c with
  | none => exact ⟨0, h.ready.1, h.ready.2 0 (.inl rfl)⟩
  | some q => exact h.ready.2 q (.inr hc)

/-- What a run of the three keeps: shares and readiness. -/
def TrioRun (s : Loop) (a : LoopAct) : Prop := s.kernel.Balanced ∧ AllReady s a

/-- Five ticks of a stride process lower the debt by at most 49998, which is less than five
times `TICKETS`; a tick of MLFQ raises it by four times `TICKETS`. -/
def shortfall (s : Loop) : Int :=
  49998 * ((s.given : Int) - s.mlfqCharged) - 200000 * s.mlfqCharged + 5 * s.kernel.debt

/-- The shares and the pass values after a slice, in unbounded arithmetic. -/
theorem Slice.pays {k : Word} (h : Slice s.kernel.reduce s s' p k) (hclose : Close 66666 s)
    (hidle : s.kernel.running = none) (hk : k.toNat ≤ 20) :
    (s'.kernel.clientPass (s.kernel.clientOf p)).toNat =
      (s.kernel.reduce.clientPass (s.kernel.clientOf p)).toNat +
        TICKETS.toNat * k.toNat / (s.kernel.clientShare (s.kernel.clientOf p)).toNat := by
  have hown := isClient_clientOf s.kernel p
  have hlow : (s.kernel.reduce.clientPass (s.kernel.clientOf p)).toNat < 100066666 := by
    have hbound := hclose.between hidle _ hown
    have hmax : MAXPASS.toNat = 100000000 := rfl
    rcases reduce_cases with ⟨heq, -⟩ | hall
    · rw [heq]
      omega
    · obtain ⟨hle, hval⟩ := hall _ hown
      rw [hval, BitVec.toNat_sub_of_le hle]
      omega
  have hprod : (TICKETS * k).toNat = TICKETS.toNat * k.toNat := by
    rw [BitVec.toNat_mul]
    apply Nat.mod_eq_of_lt
    show 10000 * k.toNat < 2 ^ 32
    omega
  have hfee : TICKETS.toNat * k.toNat / (s.kernel.clientShare (s.kernel.clientOf p)).toNat ≤ 200000 := by
    refine le_trans (Nat.div_le_self _ _) ?_
    show 10000 * k.toNat ≤ 200000
    omega
  rw [h.own, BitVec.toNat_add, BitVec.toNat_udiv, hprod]
  apply Nat.mod_eq_of_lt
  show _ < 2 ^ 32
  omega

/-- A slice does not lower the shortfall. -/
theorem Trio.shortfall_le {k : Word} (h : Trio s) (hs : Slice s.kernel.reduce s s' p k)
    (hk : k.toNat ≤ 20) (hfive : (s.kernel.proc p).stype = .stride → k = 5#32)
    (hp : (s.kernel.proc p).state = .runnable) : shortfall s ≤ shortfall s' := by
  have hpays := hs.pays h.close h.running hk
  have hreduce : ∀ q, (s.kernel.reduce.proc q).portion = (s.kernel.proc q).portion := by
    intro q
    unfold Proc.portion
    rw [(reduce_keeps).2.1, (reduce_keeps).2.2]
  have hportion : ∀ q, (s'.kernel.proc q).portion = (s.kernel.reduce.proc q).portion :=
    fun q => (hs.portion q).trans (hreduce q).symm
  have hgiven := hs.given
  have hmgiven := hs.mlfqCharged
  unfold shortfall
  by_cases hstride : (s.kernel.proc p).stype = .stride
  · obtain rfl := hfive hstride
    have hof : s.kernel.clientOf p = some p := if_pos hstride
    rw [hof] at hpays
    have hpays' : (s'.kernel.proc p).pass.toNat = (s.kernel.reduce.proc p).pass.toNat +
      TICKETS.toNat * 5 / (s.kernel.proc p).share.toNat := hpays
    have hdebt := debt_stride (s := s.kernel.reduce)
      (by rw [(reduce_keeps).2.1]; exact hstride) hpays' hportion
      (fun q hq hqs => by
        rw [(reduce_keeps).2.1] at hqs
        exact hs.others (some q) hqs (by rw [hof]; simpa using hq))
      (hs.others none trivial (by rw [hof]; simp))
    rw [reduce_debt, (reduce_keeps).2.2] at hdebt
    -- 77 * 649 and 3 * 16666
    have hcharge : (s.kernel.proc p).share.toNat *
        (TICKETS.toNat * 5 / (s.kernel.proc p).share.toNat) ≤ 49998 := by
      rcases h.others p hp with rfl | rfl | rfl
      · exact absurd hstride h.first
      · rw [h.big.2]
        decide
      · rw [h.small.2]
        decide
    rw [if_pos hstride] at hmgiven
    have hfive' : (5#32 : Word).toNat = 5 := rfl
    rw [hgiven, hmgiven, hdebt, hfive']
    omega
  · have hof : s.kernel.clientOf p = none := if_neg hstride
    rw [hof] at hpays
    have hshare : (s.kernel.clientShare none).toNat = 20 := by
      show s.kernel.mlfq.share.toNat = 20
      rw [h.share]
      rfl
    rw [hshare] at hpays
    have hpays' : s'.kernel.mlfq.pass.toNat = s.kernel.reduce.mlfq.pass.toNat +
      10000 * k.toNat / 20 := hpays
    have hdebt := debt_mlfq hpays' hportion fun q hq => by
      rw [(reduce_keeps).2.1] at hq
      exact hs.others (some q) hq (by rw [hof]; simp)
    have hsum : ∑ q, (s.kernel.reduce.proc q).portion = 80 := by
      rw [Finset.sum_congr rfl fun q _ => hreduce q]
      have hbal := h.balanced.2
      rw [h.share] at hbal
      have h20 : (20#32 : Word).toNat = 20 := rfl
      omega
    rw [reduce_debt, hsum] at hdebt
    rw [if_neg hstride] at hmgiven
    rw [hgiven, hmgiven, hdebt]
    omega

/-- The three go on for one slice. -/
theorem Trio.slice (h : Trio s) : ∃ s', Reaches Loop.step TrioRun s s' ∧ Trio s' ∧
    s.given + 1 ≤ s'.given ∧ shortfall s ≤ shortfall s' := by
  have hpicked : ∃ p, Picked s s.pick p := by
    rcases pick_cases s h.running with hp | hi
    · exact hp
    · exact absurd (h.allReady none trivial) (hi.nobody none trivial)
  obtain ⟨p, hp⟩ := hpicked
  have hkeeps : ∀ s' : Loop, SameShares s.kernel s'.kernel → s'.kernel.Balanced := by
    intro s' h'
    have hm : s'.kernel.mlfq.share = s.kernel.mlfq.share := h'.share none trivial
    unfold Kernel.Balanced
    rw [hm, Finset.sum_congr rfl fun q _ => h'.portion q]
    exact h.balanced
  have hfee : s.kernel.clientShare (s.kernel.clientOf p) ≠ 0 := by
    unfold clientOf
    split
    · rename_i hs
      show (s.kernel.proc p).share ≠ 0
      rcases h.others p hp.was with rfl | rfl | rfl
      · exact absurd hs h.first
      · rw [h.big.2]
        decide
      · rw [h.small.2]
        decide
    · show s.kernel.mlfq.share ≠ 0
      rw [h.share]
      decide
  obtain ⟨k, s', hreach, hslice, hpos, hk, hfive⟩ := exists_slice TrioRun
    ⟨h.balanced, h.allReady⟩ (fun s' h' => ⟨hkeeps s' h', trivial⟩) h.panic h.running hp hfee
  have hclose : InSlice s' ∧ Close 66666 s' := by
    refine hreach.invariant (motive := fun s => InSlice s ∧ Close 66666 s) ⟨?_, h.close⟩ ?_
    · intro q hq
      rw [h.running] at hq
      cases hq
    · rintro s a s' ⟨hin, hclose⟩ hok hs
      exact ⟨hin.step hs, hclose.step hin hok.2 hs⟩
  have hstate : ∀ q, (s'.kernel.proc q).state = (s.kernel.proc q).state := by
    intro q
    rw [hslice.state]
    split
    · rename_i hq
      rw [hq, hp.was]
    · rfl
  refine ⟨s', hreach, ⟨hslice.running, hslice.panic, hkeeps s' hslice.toSameShares,
    (hslice.share none trivial).trans h.share, ?_, ⟨?_, ?_⟩, ⟨?_, ?_⟩, ⟨?_, fun q hq => ?_⟩,
    fun q hq => ?_, hclose.2⟩, ?_, h.shortfall_le hslice hk hfive hp.was⟩
  · rw [hslice.stype]
    exact h.first
  · rw [hslice.stype]
    exact h.big.1
  · exact (hslice.share (some 1) h.big.1).trans h.big.2
  · rw [hslice.stype]
    exact h.small.1
  · exact (hslice.share (some 2) h.small.1).trans h.small.2
  · rw [hslice.stype]
    exact h.ready.1
  · rw [hslice.stype] at hq
    rw [hstate]
    exact h.ready.2 q hq
  · rw [hstate] at hq
    exact h.others q hq
  · rw [hslice.given]
    omega

theorem Trio.slices (n : Nat) (h : Trio s) : ∃ s', Reaches Loop.step TrioRun s s' ∧ Trio s' ∧
    s.given + n ≤ s'.given ∧ shortfall s ≤ shortfall s' := by
  induction n with
  | zero => exact ⟨s, .refl, h, le_rfl, le_rfl⟩
  | succ n ih =>
    obtain ⟨s₁, hreach, h₁, hgiven, hle⟩ := ih
    obtain ⟨s₂, hreach', h₂, hgiven', hle'⟩ := h₁.slice
    exact ⟨s₂, hreach.trans hreach', h₂, by omega, hle.trans hle'⟩

/-- The first process forks twice, and the children take shares of 77 and 3. -/
def trioStart : List LoopAct :=
  [.pick, .fork 1, .fork 2] ++ List.replicate 5 (.sched .runnable) ++
    [.pick, .setCpuShare 77#32] ++ List.replicate 5 (.sched .runnable) ++
    [.pick, .setCpuShare 3#32] ++ List.replicate 5 (.sched .runnable)

/-- With balanced shares alone, no constant makes up for what rounding takes from MLFQ. -/
theorem rounding_takes_fifth : ¬ ∃ C, KeepsFifth (fun s _ => s.kernel.Balanced) C := by
  rintro ⟨C, hkeep⟩
  obtain ⟨s₀, hreach₀, hfacts⟩ := loop_run boot (fun s _ => s.kernel.Balanced) trioStart
    (fun s => ((s.kernel.running = none ∧ s.kernel.panic = none ∧ s.kernel.Balanced ∧
      s.kernel.mlfq.share = 20#32 ∧ (s.kernel.proc 0).stype = .mlfq) ∧
      ((s.kernel.proc 1).stype = .stride ∧ (s.kernel.proc 1).share = 77#32) ∧
      (s.kernel.proc 2).stype = .stride ∧ (s.kernel.proc 2).share = 3#32) ∧
      ((∀ q, q = 0 ∨ (s.kernel.proc q).stype = .stride → (s.kernel.proc q).state = .runnable) ∧
      (∀ q, (s.kernel.proc q).state = .runnable → q = 0 ∨ q = 1 ∨ q = 2)) ∧
      (∀ c, s.kernel.IsClient c → (s.kernel.clientPass c).toNat ≤ 17166 ∧
        TICKETS.toNat * 20 / (s.kernel.clientShare c).toNat ≤ 66666)) (by decide +kernel)
  obtain ⟨⟨⟨hrun, hpanic, hbal, hshare, hfirst⟩, hbig, hsmall⟩, ⟨hready, hothers⟩, hpass⟩ := hfacts
  have htrio : Trio s₀ := by
    refine ⟨hrun, hpanic, hbal, hshare, by rw [hfirst]; decide, hbig, hsmall, ⟨hfirst, hready⟩,
      hothers, ⟨by decide, fun c d hc _ => ?_, fun c hc => (hpass c hc).2, fun _ c hc => ?_,
      fun p hp => ?_⟩⟩
    · have := (hpass c hc).1
      omega
    · have := (hpass c hc).1
      have hmax : MAXPASS.toNat = 100000000 := rfl
      omega
    · rw [hrun] at hp
      cases hp
  obtain ⟨s₁, hreach, h₁, hgiven, hle⟩ := htrio.slices (C + 5 * (49998 * C + 800 * 2 ^ 32 + 1))
  have hfifth := hkeep s₀ s₁ hreach₀ hrun (hreach.mono fun s a hok => ⟨hok.1, ?_⟩) h₁.balanced
  · have hb₀ := hbal.debt_bound
    have hb₁ := h₁.balanced.debt_bound
    -- nobody changes its class, so what MLFQ was given is what it was charged
    have hunpaid : InSlice s₁ ∧ s₁.unpaid = s₀.unpaid := by
      refine hreach.invariant (motive := fun s => InSlice s ∧ s.unpaid = s₀.unpaid)
        ⟨fun p hp => ?_, rfl⟩ fun s a s' hin hok hs =>
          ⟨hin.1.step hs, (unpaid_eq hin.1 hok.2 hs).trans hin.2⟩
      rw [hrun] at hp
      cases hp
    have heq := hunpaid.2
    unfold unpaid at heq
    rw [unbilled_idle hrun, unbilled_idle h₁.running] at heq
    unfold shortfall at hle
    omega
  · rintro rfl
    exact hok.2 none trivial

end Loop

end Xv6
