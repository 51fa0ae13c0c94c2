import Mathlib.Algebra.Order.BigOperators.Group.Finset
import Mathlib.Data.Fintype.Option
import Xv6.Laws.Proc.Slice

/-!
# Pass counters

`reduce` subtracts only when every client has reached `MAXPASS`, asleep or not. A client that is
below `MAXPASS` and cannot run therefore stops it while the others go on, and their counters wrap
(`alone_wraps`). As long as no decision passes over all the clients below `MAXPASS`, the counters
stay within a million of `MAXPASS` (`pass_never_wraps`).
-/

namespace Xv6

open Xv6.Lib

/-- One for a stride process below `MAXPASS`. -/
def Proc.behind (q : Proc) : Nat := if q.stype = .stride ∧ q.pass < MAXPASS then 1 else 0

theorem Proc.behind_le (q : Proc) : q.behind ≤ 1 := by
  unfold Proc.behind
  split <;> omega

theorem Proc.behind_stake {q r : Proc} (h : r.stake = q.stake) : r.behind = q.behind := by
  unfold Proc.behind
  by_cases hq : q.stype = .stride
  · have hr : r.stype = .stride := by
      by_contra hr
      rw [Proc.stake_none hr, Proc.stake_some hq] at h
      cases h
    rw [Proc.stake_some hr, Proc.stake_some hq, Option.some.injEq, Prod.mk.injEq] at h
    rw [hq, hr, h.2]
  · have hr : r.stype ≠ .stride := by
      intro hr
      rw [Proc.stake_some hr, Proc.stake_none hq] at h
      cases h
    simp only [hq, hr, false_and]

namespace Kernel

variable {s s' : Kernel} {p : ProcPtr}

/-- The shares are those the scheduler is meant for. -/
def InRange (s : Kernel) : Prop :=
  (20 ≤ s.mlfq.share.toNat ∧ s.mlfq.share.toNat ≤ 100) ∧
  ∀ p, (s.proc p).stype = .stride → 1 ≤ (s.proc p).share.toNat ∧ (s.proc p).share.toNat ≤ 80

instance (s : Kernel) : Decidable s.InRange := inferInstanceAs (Decidable (_ ∧ _))

/-- How many stride processes are below `MAXPASS`. -/
def behind (s : Kernel) : Nat := ∑ p, (s.proc p).behind

theorem behind_le (s : Kernel) : s.behind ≤ 64 := by
  have h : ∑ p : ProcPtr, (s.proc p).behind ≤ ∑ _p : ProcPtr, 1 :=
    Finset.sum_le_sum fun p _ => Proc.behind_le (s.proc p)
  rw [Finset.sum_const, Finset.card_univ, Fintype.card_fin] at h
  exact h

theorem SameClients.behind (h : SameClients s s') : s'.behind = s.behind :=
  Finset.sum_congr rfl fun p _ => Proc.behind_stake (h.stake p)

/-- One process changes. -/
theorem behind_other (s s' : Kernel) (p : ProcPtr)
    (hother : ∀ q, q ≠ p → (s'.proc q).stake = (s.proc q).stake) :
    s'.behind + (s.proc p).behind = s.behind + (s'.proc p).behind := by
  have hrest : ∑ q ∈ Finset.univ.erase p, (s'.proc q).behind =
      ∑ q ∈ Finset.univ.erase p, (s.proc q).behind :=
    Finset.sum_congr rfl fun q hq => Proc.behind_stake (hother q (Finset.ne_of_mem_erase hq))
  have hnew := Finset.sum_erase_add Finset.univ (fun q => (s'.proc q).behind)
    (Finset.mem_univ p)
  have hold := Finset.sum_erase_add Finset.univ (fun q => (s.proc q).behind)
    (Finset.mem_univ p)
  rw [hrest] at hnew
  unfold behind
  omega

end Kernel

namespace Loop

open Kernel

variable {s s' : Loop} {a : LoopAct} {p : ProcPtr}

/-- When a process can be picked and a client is below `MAXPASS`, such a client is ready. -/
def CaughtUp (s : Loop) : LoopAct → Prop
  | .pick => (∃ c, s.kernel.IsClient c ∧ s.kernel.Ready c) →
      (∃ c, s.kernel.IsClient c ∧ s.kernel.clientPass c < MAXPASS) →
      ∃ c, s.kernel.IsClient c ∧ s.kernel.Ready c ∧ s.kernel.clientPass c < MAXPASS
  | _ => True

instance (s : Loop) : DecidablePred (CaughtUp s)
  | .pick => inferInstanceAs (Decidable
      ((∃ c, s.kernel.IsClient c ∧ s.kernel.Ready c) →
        (∃ c, s.kernel.IsClient c ∧ s.kernel.clientPass c < MAXPASS) →
        ∃ c, s.kernel.IsClient c ∧ s.kernel.Ready c ∧ s.kernel.clientPass c < MAXPASS))
  | .sched _ => isTrue trivial
  | .setCpuShare _ => isTrue trivial
  | .fork _ => isTrue trivial
  | .reap _ => isTrue trivial
  | .wakeup _ => isTrue trivial

/-- The counters are near `MAXPASS` at most. While a stride process leaves its class, its slice is
charged to MLFQ, which may be beyond `MAXPASS`; each process that is `behind` can do so once. -/
structure Low (s : Loop) : Prop where
  stride : ∀ p, (s.kernel.proc p).stype = .stride →
    (s.kernel.proc p).pass.toNat < MAXPASS.toNat + 850000
  mlfq : s.kernel.mlfq.pass.toNat + 10000 * s.kernel.behind < MAXPASS.toNat + 650000
  slice : ∀ p, s.kernel.running = some p →
    ((s.kernel.proc p).stype = .stride → (s.kernel.proc p).pass.toNat < MAXPASS.toNat + 650000) ∧
    (s.kernel.mlfq.pass < MAXPASS ∨
      ((s.kernel.proc p).stype = .stride ∧ (s.kernel.proc p).pass < MAXPASS) ∨
      s.kernel.mlfq.pass.toNat + 10000 * (s.kernel.behind + 1) < MAXPASS.toNat + 650000)

theorem room_mono {m b b' M : Nat} (hle : b' ≤ b) (h : m + 10000 * b < M) : m + 10000 * b' < M :=
  lt_of_le_of_lt (Nat.add_le_add_left (Nat.mul_le_mul_left _ hle) _) h

theorem Low.client (h : Low s) {c : Option ProcPtr} (hc : s.kernel.IsClient c) :
    (s.kernel.clientPass c).toNat < MAXPASS.toNat + 850000 := by
  cases c with
  | none =>
    have := h.mlfq
    show s.kernel.mlfq.pass.toNat < _
    omega
  | some p => exact h.stride p hc

/-! ## Steps -/

/-- A step that leaves the clients alone. -/
theorem Low.frame (h : Low s) (hsame : SameClients s.kernel s'.kernel)
    (hrun : s'.kernel.running = s.kernel.running) : Low s' := by
  have htype : ∀ q, (s'.kernel.proc q).stype = .stride ↔ (s.kernel.proc q).stype = .stride :=
    fun q => hsame.isClient (c := some q)
  have hpass : ∀ q, (s.kernel.proc q).stype = .stride →
      (s'.kernel.proc q).pass = (s.kernel.proc q).pass :=
    fun q hq => (hsame.client (c := some q) hq).2
  refine ⟨fun q hq => ?_, ?_, fun r hr => ?_⟩
  · rw [hpass q ((htype q).mp hq)]
    exact h.stride q ((htype q).mp hq)
  · rw [hsame.pass, hsame.behind]
    exact h.mlfq
  · obtain ⟨hown, hor⟩ := h.slice r (hrun ▸ hr)
    rw [hsame.pass, hsame.behind, htype r]
    refine ⟨fun hq => ?_, ?_⟩
    · rw [hpass r hq]
      exact hown hq
    · rcases hor with h1 | ⟨ht, h2⟩ | h3
      · exact .inl h1
      · refine .inr (.inl ⟨ht, ?_⟩)
        rw [hpass r ht]
        exact h2
      · exact .inr (.inr h3)

/-- What `reduce` leaves. -/
theorem Low.reduce (h : Low s) :
    (∀ p, (s.kernel.proc p).stype = .stride →
      (s.kernel.reduce.proc p).pass.toNat < MAXPASS.toNat + 850000) ∧
    s.kernel.reduce.mlfq.pass.toNat + 10000 * s.kernel.reduce.behind < MAXPASS.toNat + 650000 := by
  have hmax : MAXPASS.toNat = 100000000 := rfl
  rcases reduce_cases with ⟨heq, -⟩ | hall
  · rw [heq]
    exact ⟨h.stride, h.mlfq⟩
  · refine ⟨fun p hp => ?_, ?_⟩
    · obtain ⟨hle, hval⟩ := hall (some p) hp
      have hlow := h.stride p hp
      have hval' : (s.kernel.reduce.proc p).pass = (s.kernel.proc p).pass - MAXPASS := hval
      have hle' : MAXPASS ≤ (s.kernel.proc p).pass := hle
      rw [hval', BitVec.toNat_sub_of_le hle']
      omega
    · obtain ⟨hle, hval⟩ := hall none trivial
      have hlow := h.mlfq
      have hval' : s.kernel.reduce.mlfq.pass = s.kernel.mlfq.pass - MAXPASS := hval
      have hle' : MAXPASS ≤ s.kernel.mlfq.pass := hle
      have hbehind := Kernel.behind_le s.kernel.reduce
      rw [hval', BitVec.toNat_sub_of_le hle']
      omega

/-- A process that is picked belongs to a client below `MAXPASS`. -/
theorem Low.picked_below (h : Low s) (hok : CaughtUp s .pick) (hp : Picked s s' p) :
    s.kernel.reduce.clientPass (s.kernel.clientOf p) < MAXPASS := by
  have hmax : MAXPASS.toNat = 100000000 := rfl
  rcases reduce_cases with ⟨heq, hsome⟩ | hall
  · obtain ⟨c, hc, hready, hlt⟩ :=
      hok ⟨_, isClient_clientOf s.kernel p, hp.ready⟩ hsome
    have hle := hp.least c hc hready
    rw [heq] at hle ⊢
    rw [BitVec.le_def] at hle
    exact BitVec.lt_def.mpr (lt_of_le_of_lt hle (BitVec.lt_def.mp hlt))
  · have hown := isClient_clientOf s.kernel p
    obtain ⟨hle, hval⟩ := hall _ hown
    have hlow := h.client hown
    rw [BitVec.lt_def, hval, BitVec.toNat_sub_of_le hle]
    omega

theorem Low.picked (h : Low s) (hok : CaughtUp s .pick) (hp : Picked s s' p) : Low s' := by
  have hbelow := h.picked_below hok hp
  obtain ⟨hstride, hmlfq⟩ := h.reduce
  have htype : ∀ q, (s'.kernel.proc q).stype = .stride ↔ (s.kernel.proc q).stype = .stride :=
    fun q => (hp.same.isClient (c := some q)).trans (reduce_isClient (c := some q))
  have hpass : ∀ q, (s.kernel.proc q).stype = .stride →
      (s'.kernel.proc q).pass = (s.kernel.reduce.proc q).pass :=
    fun q hq => (hp.same.client (c := some q) (reduce_isClient (c := some q) |>.mpr hq)).2
  refine ⟨fun q hq => ?_, ?_, fun r hr => ?_⟩
  · rw [hpass q ((htype q).mp hq)]
    exact hstride q ((htype q).mp hq)
  · rw [hp.same.pass, hp.same.behind]
    exact hmlfq
  · rw [hp.running] at hr
    cases hr
    unfold clientOf at hbelow
    by_cases hs : (s.kernel.proc p).stype = .stride
    · rw [if_pos hs] at hbelow
      have hlt : (s'.kernel.proc p).pass < MAXPASS := by
        rw [hpass p hs]
        exact hbelow
      refine ⟨fun _ => ?_, .inr (.inl ⟨(htype p).mpr hs, hlt⟩)⟩
      exact Nat.lt_add_right _ (BitVec.lt_def.mp hlt)
    · rw [if_neg hs] at hbelow
      refine ⟨fun hq => absurd ((htype p).mp hq) hs, .inl ?_⟩
      rw [hp.same.pass]
      exact hbelow

theorem Low.idled (h : Low s) (hi : Idled s s') : Low s' := by
  obtain ⟨hstride, hmlfq⟩ := h.reduce
  have htype : ∀ q, (s'.kernel.proc q).stype = .stride ↔ (s.kernel.proc q).stype = .stride :=
    fun q => (hi.same.isClient (c := some q)).trans (reduce_isClient (c := some q))
  refine ⟨fun q hq => ?_, ?_, fun r hr => ?_⟩
  · have hq := (htype q).mp hq
    have heq := (hi.same.client (c := some q) (reduce_isClient (c := some q) |>.mpr hq)).2
    have heq' : (s'.kernel.proc q).pass = (s.kernel.reduce.proc q).pass := heq
    rw [heq']
    exact hstride q hq
  · rw [hi.same.pass, hi.same.behind]
    exact hmlfq
  · rw [hi.running] at hr
    cases hr

/-- The sum that the end of a slice computes, in unbounded arithmetic. -/
def sum (s : Loop) (p : ProcPtr) : Nat :=
  (s.kernel.clientPass (s.kernel.clientOf p)).toNat +
    TICKETS.toNat * ((s.kernel.proc p).ticks.toNat + 1) /
      (s.kernel.clientShare (s.kernel.clientOf p)).toNat

theorem Low.sum_lt (h : Low s) (hrun : s.kernel.running = some p)
    (hticks : (s.kernel.proc p).ticks.toNat < 20) :
    s.sum p < MAXPASS.toNat + 850000 := by
  have hfee : TICKETS.toNat * ((s.kernel.proc p).ticks.toNat + 1) /
      (s.kernel.clientShare (s.kernel.clientOf p)).toNat ≤ 200000 := by
    refine le_trans (Nat.div_le_self _ _) ?_
    show 10000 * ((s.kernel.proc p).ticks.toNat + 1) ≤ 200000
    omega
  have hpass : (s.kernel.clientPass (s.kernel.clientOf p)).toNat < MAXPASS.toNat + 650000 := by
    unfold clientOf
    split
    · rename_i hs
      exact (h.slice p hrun).1 hs
    · have := h.mlfq
      show s.kernel.mlfq.pass.toNat < _
      omega
  unfold sum
  omega

theorem Low.left (h : Low s) (hrange : s.kernel.InRange) (hrun : s.kernel.running = some p)
    (hticks : (s.kernel.proc p).ticks.toNat < 20) {st : ProcState} (hl : Left s s' p st) :
    Low s' := by
  have hmax : MAXPASS.toNat = 100000000 := rfl
  have hsum := h.sum_lt hrun hticks
  have hval : ∀ c, s.kernel.IsClient c →
      (s'.kernel.clientPass c).toNat = (s.kernel.clientPass c).toNat ∨
      c = s.kernel.clientOf p ∧ (s'.kernel.clientPass c).toNat = s.sum p := by
    intro c hc
    rcases hl.pass c hc with heq | ⟨hof, heq⟩
    · rw [heq]
      exact .inl rfl
    · refine .inr ⟨hof, ?_⟩
      unfold sum at hsum ⊢
      rw [heq, BitVec.toNat_add, toNat_fee hticks, hof, Nat.mod_eq_of_lt]
      show _ < 2 ^ 32
      omega
  have htype : ∀ q, (s'.kernel.proc q).stype = .stride ↔ (s.kernel.proc q).stype = .stride :=
    fun q => hl.isClient (some q)
  -- no stride process falls behind
  have hup : ∀ q, (s'.kernel.proc q).behind ≤ (s.kernel.proc q).behind := by
    intro q
    unfold Proc.behind
    by_cases hq : (s.kernel.proc q).stype = .stride
    · have hle : (s.kernel.proc q).pass.toNat ≤ (s'.kernel.proc q).pass.toNat := by
        rcases hval (some q) hq with heq | ⟨hof, heq⟩
        · exact le_of_eq heq.symm
        · have heq' : (s'.kernel.proc q).pass.toNat = s.sum p := heq
          rw [heq']
          unfold sum
          rw [← hof]
          exact Nat.le_add_right _ _
      split
      · rename_i hlt
        rw [if_pos]
        refine ⟨hq, ?_⟩
        have := BitVec.lt_def.mp hlt.2
        exact BitVec.lt_def.mpr (by omega)
      · exact Nat.zero_le _
    · rw [if_neg fun hlt => hq ((htype q).mp hlt.1)]
      exact Nat.zero_le _
  have hbehind : s'.kernel.behind ≤ s.kernel.behind := Finset.sum_le_sum fun q _ => hup q
  refine ⟨fun q hq => ?_, ?_, fun r hr => ?_⟩
  · rcases hval (some q) ((htype q).mp hq) with heq | ⟨-, heq⟩
    · have heq' : (s'.kernel.proc q).pass.toNat = (s.kernel.proc q).pass.toNat := heq
      rw [heq']
      exact h.stride q ((htype q).mp hq)
    · have heq' : (s'.kernel.proc q).pass.toNat = s.sum p := heq
      rw [heq']
      exact hsum
  · have hold := h.mlfq
    rcases hval none trivial with heq | ⟨hof, heq⟩
    · have heq' : s'.kernel.mlfq.pass.toNat = s.kernel.mlfq.pass.toNat := heq
      omega
    · have heq' : s'.kernel.mlfq.pass.toNat = s.sum p := heq
      have hs : (s.kernel.proc p).stype ≠ .stride := by
        intro hs
        unfold clientOf at hof
        rw [if_pos hs] at hof
        cases hof
      -- a share of twenty makes the fee ten thousand at most
      have hfee : TICKETS.toNat * ((s.kernel.proc p).ticks.toNat + 1) /
          s.kernel.mlfq.share.toNat ≤ 10000 := by
        apply Nat.div_le_of_le_mul
        have hshare := hrange.1.1
        calc 10000 * ((s.kernel.proc p).ticks.toNat + 1) ≤ 10000 * 20 :=
              Nat.mul_le_mul_left _ (by omega)
          _ ≤ s.kernel.mlfq.share.toNat * 10000 := by omega
      have hcomp : s.sum p = s.kernel.mlfq.pass.toNat +
          TICKETS.toNat * ((s.kernel.proc p).ticks.toNat + 1) / s.kernel.mlfq.share.toNat := by
        unfold sum
        rw [← hof]
        rfl
      have hbound := Kernel.behind_le s'.kernel
      rcases (h.slice p hrun).2 with h1 | ⟨h2, -⟩ | h3
      · rw [BitVec.lt_def] at h1
        omega
      · exact absurd h2 hs
      · omega
  · rw [hl.running] at hr
    cases hr

theorem Low.share (h : Low s) (hrun : s.kernel.running = some p) (share : Word) :
    Low { s with kernel := s.kernel.cpuShare p share } := by
  have hmax : MAXPASS.toNat = 100000000 := rfl
  obtain ⟨hself, hother, hmlfq, -⟩ := cpuShare_spec share
  have hrunning : (s.kernel.cpuShare p share).running = some p := hrun
  generalize s.kernel.cpuShare p share = k at hself hother hmlfq hrunning ⊢
  have hbehind := behind_other s.kernel k p fun q hq => by rw [hother q hq]
  have hle := Kernel.behind_le k
  have hold := h.mlfq
  obtain ⟨hown, hor⟩ := h.slice p hrun
  have hpassm : k.mlfq.pass = s.kernel.mlfq.pass := by
    obtain ⟨_, hm⟩ := setCpuShare_mlfq s.kernel.mlfq (s.kernel.proc p) share
    rw [hmlfq, hm]
  -- what is left to show is about `p` and about MLFQ
  have key : ((k.proc p).stype = .stride → (k.proc p).pass.toNat < MAXPASS.toNat + 650000) ∧
      k.mlfq.pass.toNat + 10000 * k.behind < MAXPASS.toNat + 650000 ∧
      (k.mlfq.pass < MAXPASS ∨ ((k.proc p).stype = .stride ∧ (k.proc p).pass < MAXPASS) ∨
        k.mlfq.pass.toNat + 10000 * (k.behind + 1) < MAXPASS.toNat + 650000) := by
    rw [hpassm]
    have hone : (s.kernel.proc p).stype = .stride ∧ (s.kernel.proc p).pass < MAXPASS →
        (s.kernel.proc p).behind = 1 := fun hlt => if_pos hlt
    -- a process that was behind and no longer counts leaves room for one fee
    have hspare : (k.proc p).behind = 0 → s.kernel.mlfq.pass < MAXPASS ∨
        ((k.proc p).stype = .stride ∧ (k.proc p).pass < MAXPASS) ∨
        s.kernel.mlfq.pass.toNat + 10000 * (k.behind + 1) < MAXPASS.toNat + 650000 := by
      intro hzero
      rcases hor with h1 | h2 | h3
      · exact .inl h1
      · have hcount := hone h2
        exact .inr (.inr (room_mono (by omega) hold))
      · exact .inr (.inr (room_mono (by omega) h3))
    rcases setCpuShare_cases s.kernel.mlfq (s.kernel.proc p) share with heq | ⟨ht, hnew⟩ |
      ⟨ht, hnew, -⟩
    · have hsame : k.proc p = s.kernel.proc p := by rw [hself, heq]
      rw [hsame] at hbehind ⊢
      have hb : k.behind = s.kernel.behind := by omega
      rw [hb]
      exact ⟨hown, hold, hor⟩
    · rw [← hself] at hnew
      have hzero : (k.proc p).behind = 0 := by
        unfold Proc.behind
        rw [hnew]
        rfl
      refine ⟨fun hq => ?_, room_mono (by omega) hold, ?_⟩
      · rw [hnew] at hq
        cases hq
      · exact hspare hzero
    · rw [← hself] at ht hnew
      have hcomp : (k.proc p).pass.toNat = s.kernel.mlfq.pass.toNat := by rw [hnew]
      refine ⟨fun _ => ?_, ?_⟩
      · rw [hcomp]
        exact lt_of_le_of_lt (Nat.le_add_right _ _) hold
      · by_cases hlt : s.kernel.mlfq.pass < MAXPASS
        · have hlt' := BitVec.lt_def.mp hlt
          exact ⟨by omega, .inl hlt⟩
        · have hzero : (k.proc p).behind = 0 := by
            unfold Proc.behind
            rw [hnew]
            exact if_neg fun h' => hlt h'.2
          exact ⟨room_mono (by omega) hold, hspare hzero⟩
  obtain ⟨hpassp, hmain, hslice'⟩ := key
  refine ⟨fun q hq => ?_, hmain, fun r hr => ?_⟩
  · by_cases hqp : q = p
    · subst hqp
      exact lt_trans (hpassp hq) (Nat.add_lt_add_left (by decide) _)
    · have hq' : (k.proc q).stype = .stride := hq
      rw [hother q hqp] at hq'
      show (k.proc q).pass.toNat < _
      rw [hother q hqp]
      exact h.stride q hq'
  · obtain rfl : p = r := Option.some.inj (hrunning.symm.trans hr)
    exact ⟨hpassp, hslice'⟩

theorem Low.reap (h : Low s) {q : ProcPtr} (hrun : s.kernel.running = some p) (hq : q ≠ p) :
    Low { s with kernel := s.kernel.reap q } := by
  have hother : ∀ r, r ≠ q → (s.kernel.reap q).proc r = s.kernel.proc r :=
    fun r => (reap_proc s.kernel q r).1
  obtain ⟨htype, -⟩ := (reap_proc s.kernel q q).2
  have hbehind := behind_other s.kernel (s.kernel.reap q) q
    fun r hr => by rw [hother r hr]
  have hzero : ((s.kernel.reap q).proc q).behind = 0 := by
    unfold Proc.behind
    rw [htype]
    rfl
  have hle : (s.kernel.reap q).behind ≤ s.kernel.behind := by omega
  have hne : ∀ r, ((s.kernel.reap q).proc r).stype = .stride → r ≠ q := by
    rintro r hr rfl
    rw [htype] at hr
    cases hr
  have hold := h.mlfq
  refine ⟨fun r hr => ?_, ?_, fun r hr => ?_⟩
  · have hrq := hne r hr
    have hr' : ((s.kernel.reap q).proc r).stype = .stride := hr
    rw [hother r hrq] at hr'
    show ((s.kernel.reap q).proc r).pass.toNat < _
    rw [hother r hrq]
    exact h.stride r hr'
  · show (s.kernel.reap q).mlfq.pass.toNat + _ < _
    rw [reap_mlfq]
    exact room_mono hle hold
  · have hr' : s.kernel.running = some r := (reap_running s.kernel).symm.trans hr
    obtain rfl : p = r := Option.some.inj (hrun.symm.trans hr')
    obtain ⟨hown, hor⟩ := h.slice p hrun
    show (((s.kernel.reap q).proc p).stype = .stride → ((s.kernel.reap q).proc p).pass.toNat < _) ∧
      ((s.kernel.reap q).mlfq.pass < _ ∨ (((s.kernel.reap q).proc p).stype = .stride ∧
        ((s.kernel.reap q).proc p).pass < _) ∨
        (s.kernel.reap q).mlfq.pass.toNat + 10000 * ((s.kernel.reap q).behind + 1) < _)
    rw [hother p (Ne.symm hq), reap_mlfq]
    refine ⟨hown, ?_⟩
    rcases hor with h1 | h2 | h3
    · exact .inl h1
    · exact .inr (.inl h2)
    · exact .inr (.inr (room_mono (Nat.succ_le_succ hle) h3))

theorem Low.step (h : Low s) (hslice : InSlice s) (htidy : Tidy s) (hrange : s.kernel.InRange)
    (hok : CaughtUp s a) (hs : s.step a = some s') : Low s' := by
  rcases step_cases hs with ⟨rfl, -, ⟨p, hp⟩ | hi⟩ | ⟨p, st, -, hrun, -, ⟨-, hl⟩ | hran⟩ |
    ⟨p, share, rfl, hrun, rfl⟩ | ⟨p, np, -, hrun, hnp, rfl⟩ | ⟨p, q, -, hrun, hq, -, rfl⟩ |
    ⟨q, -, hst, rfl⟩
  · exact h.picked hok hp
  · exact h.idled hi
  · exact h.left hrange hrun (hslice p hrun).1 hl
  · exact h.frame hran.same hran.running
  · exact h.share hrun share
  · exact h.frame (same_fork np (htidy.not_stride hnp)) rfl
  · exact h.reap hrun hq
  · exact h.frame (same_wakeup) rfl

/-! ## Every run -/

theorem boot_low : Low boot where
  stride p hp := by
    by_cases h : p = 0 <;> simp [boot, Kernel.boot, h] at hp
  mlfq := by
    have h := Kernel.behind_le boot.kernel
    have hmax : MAXPASS.toNat = 100000000 := rfl
    have hpass : boot.kernel.mlfq.pass.toNat = 0 := rfl
    omega
  slice p hp := by cases hp

/-- In every run with shares in range in which no decision passes over all the clients below
`MAXPASS`, the additions of `scheduler` fit in 32 bits and `reduce` subtracts from values of at
least `MAXPASS`. -/
theorem pass_never_wraps
    (h : Reaches Loop.step (fun s a => s.kernel.InRange ∧ CaughtUp s a) boot s) :
    (∀ p, s.kernel.running = some p → s.sum p ≤ 2 ^ 32 - 1) ∧
    (s.kernel.reduce = s.kernel ∨ ∀ c, s.kernel.IsClient c →
      MAXPASS.toNat ≤ (s.kernel.clientPass c).toNat ∧
      (s.kernel.reduce.clientPass c).toNat = (s.kernel.clientPass c).toNat - MAXPASS.toNat) := by
  have hinv : InSlice s ∧ Tidy s ∧ Low s := by
    refine h.invariant (motive := fun s => InSlice s ∧ Tidy s ∧ Low s)
      ⟨boot_inSlice, boot_tidy, boot_low⟩ ?_
    rintro s a s' ⟨hslice, htidy, hlow⟩ ⟨hrange, hok⟩ hs
    exact ⟨hslice.step hs, htidy.step hslice hs, hlow.step hslice htidy hrange hok hs⟩
  obtain ⟨hslice, -, hlow⟩ := hinv
  refine ⟨fun p hp => ?_, ?_⟩
  · have hsum := hlow.sum_lt hp (hslice p hp).1
    have hmax : MAXPASS.toNat = 100000000 := rfl
    omega
  · rcases reduce_cases with ⟨heq, -⟩ | hall
    · exact .inl heq
    · refine .inr fun c hc => ?_
      obtain ⟨hle, hval⟩ := hall c hc
      rw [hval, BitVec.toNat_sub_of_le hle]
      exact ⟨BitVec.le_def.mp hle, rfl⟩

/-- The first process takes a share of 50 and runs. -/
def strideStart : List LoopAct := [.pick, .setCpuShare 50#32, .sched .runnable]

theorem pass_never_wraps_start : ∃ s,
    Reaches Loop.step (fun s a => s.kernel.InRange ∧ CaughtUp s a) boot s ∧
    s.kernel.running = some 0 ∧ s.sum 0 = 400 ∧ s.sum 0 ≤ 2 ^ 32 - 1 := by
  obtain ⟨s, hreach, hrun, hsum⟩ := loop_run boot (fun s a => s.kernel.InRange ∧ CaughtUp s a)
    strideStart (fun s => s.kernel.running = some 0 ∧ s.sum 0 = 400) (by decide +kernel)
  exact ⟨s, hreach, hrun, hsum, (pass_never_wraps hreach).1 0 hrun⟩

/-! ## A client that runs alone -/

/-- The first process is a stride process with a share of 1 and pass `x`, and there is no other. -/
def Alone (x : Nat) (s : Loop) : Prop :=
  (s.kernel.running = none ∧ s.kernel.panic = none) ∧
  (∀ q, q ≠ 0 → (s.kernel.proc q).state = .unused ∧ (s.kernel.proc q).stype ≠ .stride) ∧
  ((s.kernel.proc 0).state = .runnable ∧ (s.kernel.proc 0).stype = .stride ∧
    (s.kernel.proc 0).share = 1#32 ∧ (s.kernel.proc 0).pass.toNat = x) ∧
  s.kernel.mlfq.share = 99#32 ∧ s.kernel.mlfq.pass = 0#32

instance (x : Nat) : DecidablePred (Alone x) := fun _ => inferInstanceAs (Decidable (_ ∧ _))

theorem Alone.inRange {x : Nat} (h : Alone x s) : s.kernel.InRange := by
  obtain ⟨-, hother, ⟨-, -, hshare, -⟩, hmlfq, -⟩ := h
  refine ⟨?_, fun p hp => ?_⟩
  · rw [hmlfq]
    decide
  · by_cases hp0 : p = 0
    · rw [hp0, hshare]
      decide
    · exact absurd hp (hother p hp0).2

/-- MLFQ has nobody to run, and holds `reduce` back with its pass of 0. -/
theorem Alone.picked {x : Nat} (h : Alone x s) :
    Picked s s.pick 0 ∧ s.kernel.reduce = s.kernel := by
  obtain ⟨⟨hrun, -⟩, hother, ⟨hstate, htype, -, -⟩, -, hpass⟩ := h
  constructor
  · rcases pick_cases s hrun with ⟨p, hp⟩ | hi
    · have hready := hp.ready
      unfold clientOf at hready
      by_cases hs : (s.kernel.proc p).stype = .stride
      · by_cases hp0 : p = 0
        · rw [hp0] at hp
          exact hp
        · exact absurd hs (hother p hp0).2
      · rw [if_neg hs] at hready
        obtain ⟨q, hq, hrunnable⟩ := hready
        by_cases hq0 : q = 0
        · rw [hq0, htype] at hq
          cases hq
        · rw [(hother q hq0).1] at hrunnable
          cases hrunnable
    · exact absurd hstate (hi.nobody (some 0) htype)
  · unfold Kernel.reduce
    rw [if_pos]
    rw [hpass]
    decide

/-- A slice of five ticks adds 50000. -/
theorem Alone.slice {x : Nat} (h : Alone x s) (hx : x + 50000 < 2 ^ 32) :
    ∃ s', Reaches Loop.step (fun s _ => s.kernel.InRange) s s' ∧ Alone (x + 50000) s' := by
  obtain ⟨hp, hreduce⟩ := h.picked
  have hrange := h.inRange
  obtain ⟨⟨hrun, hpanic⟩, hother, ⟨hstate, htype, hshare, hpass⟩, hmlfq, hzero⟩ := h
  have hof : s.kernel.clientOf 0 = some 0 := if_pos htype
  have hfee : s.kernel.clientShare (s.kernel.clientOf 0) ≠ 0 := by
    rw [hof]
    show (s.kernel.proc 0).share ≠ 0
    rw [hshare]
    decide
  have hsame : ∀ s' : Loop, SameShares s.kernel s'.kernel → s'.kernel.InRange := by
    intro s' h'
    have hm : s'.kernel.mlfq.share = s.kernel.mlfq.share := h'.share none trivial
    refine ⟨by rw [hm]; exact hrange.1, fun p hp => ?_⟩
    have hp' : (s.kernel.proc p).stype = .stride := (h'.isClient (some p)).mp hp
    have hs : (s'.kernel.proc p).share = (s.kernel.proc p).share := h'.share (some p) hp'
    rw [hs]
    exact hrange.2 p hp'
  obtain ⟨k, s', hreach, hslice, -, -, hk⟩ := exists_slice (fun s _ => s.kernel.InRange) hrange
    hsame hpanic hrun hp hfee
  obtain rfl := hk htype
  refine ⟨s', hreach, ⟨hslice.running, hslice.panic⟩, fun q hq => ?_, ⟨?_, ?_, ?_, ?_⟩, ?_, ?_⟩
  · rw [hslice.state, if_neg hq]
    exact ⟨(hother q hq).1, fun h' => (hother q hq).2 ((hslice.isClient (some q)).mp h')⟩
  · exact (hslice.state 0).trans (if_pos rfl)
  · exact (hslice.isClient (some 0)).mpr htype
  · exact (hslice.share (some 0) htype).trans hshare
  · have hown := hslice.own
    rw [hof, hreduce] at hown
    have hown' : (s'.kernel.proc 0).pass = (s.kernel.proc 0).pass +
        TICKETS * 5#32 / (s.kernel.proc 0).share := hown
    rw [hown', hshare, BitVec.toNat_add, hpass]
    exact Nat.mod_eq_of_lt hx
  · exact (hslice.share none trivial).trans hmlfq
  · have hrest := hslice.others none trivial (by rw [hof]; simp)
    rw [hreduce] at hrest
    exact hrest.trans hzero

theorem Alone.slices {x : Nat} (n : Nat) (h : Alone x s) (hn : x + 50000 * n < 2 ^ 32) :
    ∃ s', Reaches Loop.step (fun s _ => s.kernel.InRange) s s' ∧ Alone (x + 50000 * n) s' := by
  induction n with
  | zero => exact ⟨s, .refl, h⟩
  | succ n ih =>
    rw [Nat.mul_succ, ← Nat.add_assoc] at hn ⊢
    obtain ⟨s₁, hreach, h₁⟩ := ih (lt_of_le_of_lt (Nat.le_add_right _ _) hn)
    obtain ⟨s₂, hreach', h₂⟩ := h₁.slice hn
    exact ⟨s₂, hreach.trans hreach', h₂⟩

/-- The first process takes a share of 1 and sleeps after one tick. -/
def aloneStart : List LoopAct := [.pick, .setCpuShare 1#32, .sched .sleeping, .wakeup 0]

/-- After 85899 more slices its pass is 4294960000, and the next tick takes it past 32 bits. -/
theorem alone_wraps : ∃ s, Reaches Loop.step (fun s _ => s.kernel.InRange) boot s ∧
    s.kernel.running = some 0 ∧ (s.step (.sched .sleeping)).isSome ∧ s.Ends 0 .sleeping ∧
    2 ^ 32 - 1 < s.sum 0 := by
  obtain ⟨s₁, hreach₁, h₁⟩ := loop_run boot (fun s _ => s.kernel.InRange) aloneStart
    (Alone 10000) (by decide +kernel)
  obtain ⟨s₂, hreach₂, h₂⟩ := h₁.slices 85899 (by decide)
  obtain ⟨hp, hreduce⟩ := h₂.picked
  have hrange := h₂.inRange
  obtain ⟨⟨hrun, hpanic⟩, -, ⟨-, htype, hshare, hpass⟩, -, -⟩ := h₂
  have hstep : Reaches step (fun s _ => s.kernel.InRange) s₂ s₂.pick :=
    .tail .refl hrange (step_pick hpanic hrun)
  have hclient : s₂.kernel.reduce.IsClient (some 0) := by
    rw [hreduce]
    exact htype
  have hsame := hp.same.client hclient
  rw [hreduce] at hsame
  have hof : s₂.pick.kernel.clientOf 0 = some 0 := if_pos (hp.same.isClient.mpr hclient)
  have hshare' : s₂.pick.kernel.clientShare (some 0) = 1#32 := hsame.1.trans hshare
  have hpass' : (s₂.pick.kernel.clientPass (some 0)).toNat = 4294960000 := by
    rw [hsame.2]
    exact hpass
  refine ⟨s₂.pick, (hreach₁.trans hreach₂).trans hstep, hp.running, ?_, ?_, ?_⟩
  · unfold step
    rw [pick_panic, hpanic, hp.running]
    rfl
  · rintro ⟨h, -⟩
    cases h
  · unfold sum
    rw [hof, hshare', hpass', hp.ticks]
    decide

end Loop

end Xv6
