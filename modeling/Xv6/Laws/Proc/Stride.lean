import Mathlib.Data.Finset.Lattice.Fold
import Mathlib.Data.Fintype.Option
import Mathlib.Order.Lattice.Nat
import Xv6.Laws.Proc.Loop

/-!
# Stride scheduling among clients that are always ready

While every client is ready at every decision and none changes its share, the loop always runs a
client of least pass, and a slice moves it by at most `margin`, the largest fee of a slice of
twenty ticks. So all pass values stay within `margin` of each other, one of them is below
`MAXPASS` after `reduce`, and none gets further than `margin` beyond it (`stride_fairness`).
-/

namespace Xv6

open Xv6.Lib

namespace Kernel

/-- The largest value of `TICKETS * 20 / share` over the clients. -/
def margin (s : Kernel) : Nat :=
  ((Finset.univ : Finset (Option ProcPtr)).filter s.IsClient).sup fun c =>
    TICKETS.toNat * 20 / (s.clientShare c).toNat

theorem fee_le_margin (s : Kernel) {c : Option ProcPtr} (hc : s.IsClient c) :
    TICKETS.toNat * 20 / (s.clientShare c).toNat ≤ s.margin := by
  unfold margin
  exact Finset.le_sup (f := fun c => TICKETS.toNat * 20 / (s.clientShare c).toNat)
    (Finset.mem_filter.mpr ⟨Finset.mem_univ c, hc⟩)

theorem margin_le (s : Kernel) : s.margin ≤ 200000 := by
  unfold margin
  apply Finset.sup_le
  intro c _
  exact Nat.div_le_self _ _

end Kernel

namespace Loop

open Kernel

variable {s s' s₀ : Loop} {a : LoopAct} {D : Nat} {p : ProcPtr}

/-- Every client is ready at a decision, and `set_cpu_share` is refused or has nothing to do. -/
def AllReady (s : Loop) : LoopAct → Prop
  | .pick => ∀ c, s.kernel.IsClient c → s.kernel.Ready c
  | .setCpuShare share => ∀ p, s.kernel.running = some p →
      (Xv6.setCpuShare s.kernel.mlfq (s.kernel.proc p) share).2 = (s.kernel.mlfq, s.kernel.proc p)
  | _ => True

/-- What a slice of `p` starts from. -/
structure Leading (s : Loop) (p : ProcPtr) : Prop where
  low : (s.kernel.clientPass (s.kernel.clientOf p)).toNat < MAXPASS.toNat
  least : ∀ c, s.kernel.IsClient c →
    (s.kernel.clientPass (s.kernel.clientOf p)).toNat ≤ (s.kernel.clientPass c).toNat
  alive : ∀ q, (s.kernel.proc q).stype = .stride → ProcState.embryo < (s.kernel.proc q).state

/-- All pass values are within `D` of each other, and `D` is a fee no slice exceeds. -/
structure Close (D : Nat) (s : Loop) : Prop where
  small : D ≤ 200000
  near : ∀ c d, s.kernel.IsClient c → s.kernel.IsClient d →
    (s.kernel.clientPass c).toNat ≤ (s.kernel.clientPass d).toNat + D
  fee : ∀ c, s.kernel.IsClient c → TICKETS.toNat * 20 / (s.kernel.clientShare c).toNat ≤ D
  between : s.kernel.running = none →
    ∀ c, s.kernel.IsClient c → (s.kernel.clientPass c).toNat < MAXPASS.toNat + D
  slice : ∀ p, s.kernel.running = some p → Leading s p

/-- No client is further than `D` beyond `MAXPASS`. -/
theorem Close.bound (h : Close D s) {c : Option ProcPtr} (hc : s.kernel.IsClient c) :
    (s.kernel.clientPass c).toNat < MAXPASS.toNat + D := by
  cases hrun : s.kernel.running with
  | none => exact h.between hrun c hc
  | some p =>
    have hlow := (h.slice p hrun).low
    have hnear := h.near c _ hc (isClient_clientOf s.kernel p)
    omega

/-! ## Steps -/

/-- After `reduce`, some client is below `MAXPASS`, and the others are within `D` of it. -/
theorem Close.reduce (h : Close D s) (hrun : s.kernel.running = none) :
    (∃ c, s.kernel.IsClient c ∧ (s.kernel.reduce.clientPass c).toNat < MAXPASS.toNat) ∧
    ∀ c d, s.kernel.IsClient c → s.kernel.IsClient d →
      (s.kernel.reduce.clientPass c).toNat ≤ (s.kernel.reduce.clientPass d).toNat + D := by
  constructor
  · rcases reduce_cases with ⟨heq, c, hc, hlt⟩ | hall
    · rw [heq]
      exact ⟨c, hc, hlt⟩
    · obtain ⟨hle, hpass⟩ := hall none trivial
      refine ⟨none, trivial, ?_⟩
      rw [hpass, BitVec.toNat_sub_of_le hle]
      have hlow := h.between hrun none trivial
      have hsmall := h.small
      have hmax : MAXPASS.toNat = 100000000 := rfl
      omega
  · intro c d hc hd
    have hdiff := reduce_difference hc hd
    have hnear := h.near c d hc hd
    omega

/-- A step that leaves the clients and their states as they are to the loop. -/
theorem Close.frame (h : Close D s) (hsame : SameClients s.kernel s'.kernel)
    (hrun : s'.kernel.running = s.kernel.running)
    (hstate : ∀ q, (s.kernel.proc q).stype = .stride → .embryo < (s.kernel.proc q).state →
      ProcState.embryo < (s'.kernel.proc q).state) : Close D s' where
  small := h.small
  near c d hc hd := by
    have hc := hsame.isClient.mp hc
    have hd := hsame.isClient.mp hd
    rw [(hsame.client hc).2, (hsame.client hd).2]
    exact h.near c d hc hd
  fee c hc := by
    have hc := hsame.isClient.mp hc
    rw [(hsame.client hc).1]
    exact h.fee c hc
  between hidle c hc := by
    have hc := hsame.isClient.mp hc
    rw [(hsame.client hc).2]
    exact h.between (hrun ▸ hidle) c hc
  slice p hp := by
    have hlead := h.slice p (hrun ▸ hp)
    have hof := hsame.client (isClient_clientOf s.kernel p)
    refine ⟨?_, fun c hc => ?_, fun q hq => ?_⟩
    · rw [hsame.clientOf, hof.2]
      exact hlead.low
    · have hc := hsame.isClient.mp hc
      rw [hsame.clientOf, hof.2, (hsame.client hc).2]
      exact hlead.least c hc
    · have hq' : (s.kernel.proc q).stype = .stride := hsame.isClient (c := some q) |>.mp hq
      exact hstate q hq' (hlead.alive q hq')

theorem Close.picked (h : Close D s) (hrun : s.kernel.running = none)
    (hready : ∀ c, s.kernel.IsClient c → s.kernel.Ready c) (hp : Picked s s' p) : Close D s' := by
  obtain ⟨⟨c₀, hc₀, hlow⟩, hnear⟩ := h.reduce hrun
  have hclient : ∀ c, s'.kernel.IsClient c → s.kernel.IsClient c :=
    fun c hc => reduce_isClient.mp (hp.same.isClient.mp hc)
  have hpass : ∀ c, s.kernel.IsClient c →
      s'.kernel.clientPass c = s.kernel.reduce.clientPass c :=
    fun c hc => (hp.same.client (reduce_isClient.mpr hc)).2
  have hof : s'.kernel.clientOf p = s.kernel.clientOf p :=
    (hp.same.clientOf p).trans (reduce_clientOf)
  have hown := hpass _ (isClient_clientOf s.kernel p)
  refine ⟨h.small, fun c d hc hd => ?_, fun c hc => ?_, fun hidle => ?_, fun r hr => ?_⟩
  · rw [hpass c (hclient c hc), hpass d (hclient d hd)]
    exact hnear c d (hclient c hc) (hclient d hd)
  · rw [(hp.same.client (reduce_isClient.mpr (hclient c hc))).1, reduce_clientShare]
    exact h.fee c (hclient c hc)
  · rw [hp.running] at hidle
    cases hidle
  · rw [hp.running] at hr
    cases hr
    refine ⟨?_, fun c hc => ?_, fun q hq => ?_⟩
    · rw [hof, hown]
      have hle := hp.least c₀ hc₀ (hready c₀ hc₀)
      rw [BitVec.le_def] at hle
      exact lt_of_le_of_lt hle hlow
    · rw [hof, hown, hpass c (hclient c hc)]
      exact BitVec.le_def.mp (hp.least c (hclient c hc) (hready c (hclient c hc)))
    · rw [hp.state]
      split
      · decide
      · have hq' : (s.kernel.proc q).state = .runnable :=
          hready (some q) (hclient (some q) hq)
        rw [hq']
        decide

theorem Close.left (h : Close D s) (hrun : s.kernel.running = some p)
    (hticks : (s.kernel.proc p).ticks.toNat < 20) {st : ProcState} (hl : Left s s' p st) :
    Close D s' := by
  have hlead := h.slice p hrun
  have hsmall := h.small
  have hmax : MAXPASS.toNat = 100000000 := rfl
  -- only the pass of the running client moves, by at most `D`
  have hmove : ∀ c, s.kernel.IsClient c →
      (s.kernel.clientPass c).toNat ≤ (s'.kernel.clientPass c).toNat ∧
      ((s'.kernel.clientPass c).toNat = (s.kernel.clientPass c).toNat ∨
        (s'.kernel.clientPass c).toNat ≤
          (s.kernel.clientPass (s.kernel.clientOf p)).toNat + D) := by
    intro c hc
    rcases hl.pass c hc with heq | ⟨hof, heq⟩
    · rw [heq]
      exact ⟨le_rfl, .inl rfl⟩
    · have hfee : TICKETS.toNat * ((s.kernel.proc p).ticks.toNat + 1) /
          (s.kernel.clientShare c).toNat ≤ D := by
        refine le_trans (Nat.div_le_div_right ?_) (h.fee c hc)
        apply Nat.mul_le_mul_left
        omega
      have hlow := hlead.low
      rw [← hof] at hlow ⊢
      have hval : (s'.kernel.clientPass c).toNat = (s.kernel.clientPass c).toNat +
          TICKETS.toNat * ((s.kernel.proc p).ticks.toNat + 1) / (s.kernel.clientShare c).toNat := by
        rw [heq, BitVec.toNat_add, toNat_fee hticks, Nat.mod_eq_of_lt]
        show _ < 2 ^ 32
        omega
      rw [hval]
      exact ⟨Nat.le_add_right _ _, .inr (by omega)⟩
  refine ⟨h.small, fun c d hc hd => ?_, fun c hc => ?_, fun _ c hc => ?_, fun r hr => ?_⟩
  · have hc := (hl.isClient c).mp hc
    have hd := (hl.isClient d).mp hd
    have hleast := hlead.least d hd
    have hnear := h.near c d hc hd
    have hup := (hmove d hd).1
    rcases (hmove c hc).2 with heq | hle
    · omega
    · omega
  · have hc := (hl.isClient c).mp hc
    rw [hl.share c hc]
    exact h.fee c hc
  · have hc := (hl.isClient c).mp hc
    have hbound := h.bound hc
    have hlow := hlead.low
    rcases (hmove c hc).2 with heq | hle
    · omega
    · omega
  · rw [hl.running] at hr
    cases hr

theorem Close.idled (h : Close D s) (hi : Idled s s') (hrun : s.kernel.running = none) :
    Close D s' := by
  obtain ⟨-, hnear⟩ := h.reduce hrun
  have hclient : ∀ c, s'.kernel.IsClient c → s.kernel.IsClient c :=
    fun c hc => reduce_isClient.mp (hi.same.isClient.mp hc)
  have hpass : ∀ c, s.kernel.IsClient c →
      s'.kernel.clientPass c = s.kernel.reduce.clientPass c :=
    fun c hc => (hi.same.client (reduce_isClient.mpr hc)).2
  refine ⟨h.small, fun c d hc hd => ?_, fun c hc => ?_, fun _ c hc => ?_, fun r hr => ?_⟩
  · rw [hpass c (hclient c hc), hpass d (hclient d hd)]
    exact hnear c d (hclient c hc) (hclient d hd)
  · rw [(hi.same.client (reduce_isClient.mpr (hclient c hc))).1, reduce_clientShare]
    exact h.fee c (hclient c hc)
  · have hc := hclient c hc
    have hlow := h.between hrun c hc
    rw [hpass c hc]
    rcases reduce_cases with ⟨heq, -⟩ | hall
    · rw [heq]
      exact hlow
    · obtain ⟨hle, hval⟩ := hall c hc
      rw [hval, BitVec.toNat_sub_of_le hle]
      omega
  · rw [hi.running] at hr
    cases hr

theorem Close.step (h : Close D s) (hslice : InSlice s) (hok : AllReady s a)
    (hs : s.step a = some s') : Close D s' := by
  rcases step_cases hs with ⟨rfl, hrun, ⟨p, hp⟩ | hi⟩ | ⟨p, st, -, hrun, -, ⟨-, hl⟩ | hran⟩ |
    ⟨p, share, rfl, hrun, rfl⟩ | ⟨p, np, -, hrun, hnp, rfl⟩ | ⟨p, q, -, hrun, hq, hz, rfl⟩ |
    ⟨q, -, hst, rfl⟩
  · exact h.picked hrun hok hp
  · exact h.idled hi hrun
  · exact h.left hrun (hslice p hrun).1 hl
  · refine h.frame hran.same hran.running fun q _ hq => ?_
    rw [hran.state]
    split
    · decide
    · exact hq
  · have heq := hok p hrun
    have hkernel : s.kernel.cpuShare p share = s.kernel := by
      have hproc : (s.kernel.cpuShare p share).proc = s.kernel.proc := by
        funext q
        show (if q = p then (setCpuShare s.kernel.mlfq (s.kernel.proc p) share).2.2
          else s.kernel.proc q) = _
        rw [heq]
        split
        · rename_i hqp
          rw [hqp]
        · rfl
      have hmlfq : (s.kernel.cpuShare p share).mlfq = s.kernel.mlfq := by
        show (setCpuShare s.kernel.mlfq (s.kernel.proc p) share).2.1 = _
        rw [heq]
      show { s.kernel with
        proc := (s.kernel.cpuShare p share).proc, mlfq := (s.kernel.cpuShare p share).mlfq } = _
      rw [hproc, hmlfq]
    rw [hkernel]
    exact h
  · have hlead := h.slice p hrun
    have hnot : (s.kernel.proc np).stype ≠ .stride := by
      intro hstride
      have := hlead.alive np hstride
      rw [hnp] at this
      exact absurd this (by decide)
    refine h.frame (same_fork np hnot) rfl fun q hq halive => ?_
    have hne : q ≠ np := by
      rintro rfl
      exact hnot hq
    have hproc : (s.fork np).kernel.proc q = s.kernel.proc q := if_neg hne
    rw [hproc]
    exact halive
  · have hlead := h.slice p hrun
    have hnot : (s.kernel.proc q).stype ≠ .stride := by
      intro hstride
      have := hlead.alive q hstride
      rw [hz] at this
      exact absurd this (by decide)
    have hproc := fun r => (reap_proc s.kernel q r).1
    refine h.frame ⟨fun r => ?_, ?_, ?_⟩ (reap_running s.kernel) fun r hr halive => ?_
    · by_cases hrq : r = q
      · subst hrq
        rw [Proc.stake_none hnot]
        apply Proc.stake_none
        rw [(reap_proc s.kernel r r).2.1]
        decide
      · rw [hproc r hrq]
    · rw [reap_mlfq]
    · rw [reap_mlfq]
    · have hrq : r ≠ q := by
        rintro rfl
        exact hnot hr
      rw [hproc r hrq]
      exact halive
  · refine h.frame (same_wakeup) rfl fun r _ halive => ?_
    show ProcState.embryo < (if r = q then _ else s.kernel.proc r).state
    split
    · show ProcState.embryo < .runnable
      decide
    · exact halive

/-! ## Every run -/

/-- In every run that starts at a decision with the pass values below `MAXPASS + margin` and
within `margin` of each other, and in which all clients are ready at each decision: the loop picks
a client of least pass, the pass values stay within `margin` of each other, `reduce` keeps their
differences, and none exceeds `MAXPASS + 2 * margin`. -/
theorem stride_fairness (hidle : s₀.kernel.running = none)
    (hlow : ∀ c, s₀.kernel.IsClient c →
      (s₀.kernel.clientPass c).toNat < MAXPASS.toNat + s₀.kernel.margin)
    (hnear : ∀ c d, s₀.kernel.IsClient c → s₀.kernel.IsClient d →
      (s₀.kernel.clientPass c).toNat ≤ (s₀.kernel.clientPass d).toNat + s₀.kernel.margin)
    (h : Reaches Loop.step AllReady s₀ s) :
    (AllReady s .pick → ∀ p, s.kernel.reduce.boost.getschedproc.1 = some p →
      ∀ c, s.kernel.IsClient c → s.kernel.reduce.boost.clientPass (s.kernel.clientOf p) ≤
        s.kernel.reduce.boost.clientPass c) ∧
    (∀ c d, s.kernel.IsClient c → s.kernel.IsClient d →
      (s.kernel.clientPass c).toNat ≤ (s.kernel.clientPass d).toNat + s₀.kernel.margin ∧
      ((s.kernel.reduce.clientPass c).toNat : Int) - (s.kernel.reduce.clientPass d).toNat =
        (s.kernel.clientPass c).toNat - (s.kernel.clientPass d).toNat) ∧
    ∀ c, s.kernel.IsClient c →
      (s.kernel.clientPass c).toNat ≤ MAXPASS.toNat + 2 * s₀.kernel.margin := by
  have hinv : InSlice s ∧ Close s₀.kernel.margin s := by
    refine h.invariant (motive := fun s => InSlice s ∧ Close s₀.kernel.margin s) ⟨?_, ?_⟩ ?_
    · intro p hp
      rw [hidle] at hp
      cases hp
    · refine ⟨margin_le _, hnear, fun c hc => fee_le_margin _ hc, fun _ => hlow, fun p hp => ?_⟩
      rw [hidle] at hp
      cases hp
    · rintro s a s' ⟨hslice, hclose⟩ hok hs
      exact ⟨hslice.step hs, hclose.step hslice hok hs⟩
  obtain ⟨-, hclose⟩ := hinv
  refine ⟨fun hready p hp c hc => ?_, fun c d hc hd => ?_, fun c hc => ?_⟩
  · rw [getschedproc_fst] at hp
    obtain ⟨-, hleast⟩ := schedChoice_least hp
    have hsame : SameClients s.kernel.reduce s.kernel.reduce.boost := same_boost
    rw [hsame.clientOf, reduce_clientOf] at hleast
    exact hleast c (hsame.isClient.mpr (reduce_isClient.mpr hc))
      ((ready_boost_reduce _ _).mpr (hready c hc))
  · exact ⟨hclose.near c d hc hd, reduce_difference hc hd⟩
  · have hbound := hclose.bound hc
    omega

/-- The first process in MLFQ, and a stride process with a share of 40. -/
def twoClients : Loop where
  kernel := { Kernel.boot with
    proc := fun p =>
      if p = 1 then { state := .runnable, stype := .stride, share := 40#32 } else Kernel.boot.proc p
    mlfq := { share := 60#32 } }

/-- MLFQ wins the tie and runs for five ticks; then the stride process runs. -/
def twoSlices : List LoopAct := .pick :: List.replicate 5 (.sched .runnable) ++ [.pick]

theorem stride_fairness_two : ∃ s, Reaches Loop.step AllReady twoClients s ∧
    s.kernel.running = some 1 ∧ s.kernel.mlfq.pass = 833#32 ∧
    s.kernel.mlfq.pass.toNat ≤ (s.kernel.proc 1).pass.toNat + twoClients.kernel.margin := by
  have hzero : ∀ c, twoClients.kernel.clientPass c = 0 := by
    intro c
    cases c with
    | none => rfl
    | some p =>
      show (if p = 1 then _ else if p = 0 then _ else _ : Proc).pass = 0
      split
      · rfl
      · split <;> rfl
  obtain ⟨s, hreach, hrun, hpass, hstride⟩ := loop_run twoClients
    (fun s a => a = .pick ∧ (∀ c, s.kernel.IsClient c → s.kernel.Ready c) ∨ a = .sched .runnable)
    twoSlices (fun s => s.kernel.running = some 1 ∧ s.kernel.mlfq.pass = 833#32 ∧
      (s.kernel.proc 1).stype = .stride) (by decide +kernel)
  have hready : Reaches step AllReady twoClients s := by
    apply hreach.mono
    rintro s a (⟨rfl, h⟩ | rfl)
    · exact h
    · trivial
  obtain ⟨-, hclose, -⟩ := stride_fairness rfl
    (fun c _ => by rw [hzero c]; exact Nat.lt_add_right _ (by decide))
    (fun c d _ _ => by rw [hzero c]; exact Nat.zero_le _) hready
  exact ⟨s, hready, hrun, hpass, (hclose none (some 1) trivial hstride).1⟩

end Loop

end Xv6
