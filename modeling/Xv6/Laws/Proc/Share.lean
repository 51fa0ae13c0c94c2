import Mathlib.Algebra.BigOperators.Group.Finset.Basic
import Mathlib.Data.BitVec
import Xv6.Laws.Proc.Step

/-!
# CPU shares

`set_cpu_share` moves shares between MLFQ and the STRIDE processes; every other step leaves
them where they are, provided a process that dies or has given its share back in `exit` holds
none (`Settled`). The 32-bit sum of all shares is then an invariant.
-/

namespace Xv6

open Xv6.Lib

/-- The share of a STRIDE process. -/
def Proc.grant (q : Proc) : Option Word := if q.stype = .stride then some q.share else none

/-- What a sum over the STRIDE processes counts for a process. -/
def Proc.held (q : Proc) : Word := q.grant.getD 0

/-- Behind the `set_cpu_share(0)` of `exit`. -/
def Pc.gaveBack : Pc → Bool
  | .exitThds _ | .exitSleep _ => true
  | _ => false

/-- At a `set_cpu_share` that asks for a share. -/
def Pc.asks : Pc → Bool
  | .setCpuShare share => 0 < share.toInt
  | _ => false

/-- At the section in which `thread_exit` ends its thread. -/
def Pc.dies : Pc → Bool
  | .threadExitDie _ => true
  | _ => false

theorem Pc.gaveBack_of_ordinary {k : Pc} (hk : k.ordinary) : k.gaveBack = false := by
  cases k <;> first | rfl | cases hk

theorem Pc.ordinary_of_plain {k : Pc} (hk : k.plain) : k.ordinary := by
  cases k <;> first | rfl | cases hk

namespace Kernel

variable {s s' s₁ : Kernel} {a : Act} {p q : ProcPtr} {t u : ThdPtr} {c : CpuId} {k : Pc}
  {share : Word}

/-- Who holds no share: those who are not STRIDE, and those whose process is not alive or has
given its share back. -/
structure Settled (s : Kernel) : Prop where
  idle : ∀ p, (s.proc p).stype ≠ .stride → (s.proc p).share = 0
  low : ∀ p, (s.proc p).state ≤ .embryo → (s.proc p).stype ≠ .stride
  past : ∀ t p, (s.thread t).mp = some p → (s.pc t).gaveBack → (s.proc p).stype ≠ .stride

/-- The shares are where they were. -/
structure Unmoved (s s' : Kernel) : Prop where
  mlfq : s'.mlfq.share = s.mlfq.share
  grant : ∀ p, (s'.proc p).grant = (s.proc p).grant

theorem Unmoved.trans (h : Unmoved s s₁) (h' : Unmoved s₁ s') : Unmoved s s' :=
  ⟨h'.mlfq.trans h.mlfq, fun p => (h'.grant p).trans (h.grant p)⟩

theorem Unmoved.held (h : Unmoved s s') (p : ProcPtr) : (s'.proc p).held = (s.proc p).held :=
  congrArg (Option.getD · 0) (h.grant p)

/-- A step that keeps classes and shares. -/
theorem Settled.frame (h : Settled s) (hm : s'.mlfq.share = s.mlfq.share)
    (hproc : ∀ p, (s'.proc p).stype = (s.proc p).stype ∧ (s'.proc p).share = (s.proc p).share)
    (hlow : ∀ p, (s'.proc p).state ≤ .embryo → (s.proc p).stype ≠ .stride)
    (hpast : ∀ t p, (s'.thread t).mp = some p → (s'.pc t).gaveBack → (s.proc p).stype ≠ .stride) :
    Settled s' ∧ Unmoved s s' := by
  refine ⟨⟨fun p hp => ?_, fun p hp => ?_, fun t p ht hk => ?_⟩, hm, fun p => ?_⟩
  · rw [(hproc p).2]
    exact h.idle p ((hproc p).1 ▸ hp)
  · rw [(hproc p).1]
    exact hlow p hp
  · rw [(hproc p).1]
    exact hpast t p ht hk
  · unfold Proc.grant
    rw [(hproc p).1, (hproc p).2]

theorem Settled.calm (h : Settled s) (hcalm : Calm s s') : Settled s' ∧ Unmoved s s' := by
  refine h.frame hcalm.share (fun p => ⟨hcalm.stype p, hcalm.pshare⟩) (fun p hp => ?_)
    fun t p ht hk => ?_
  · exact h.low p (hcalm.low hp ▸ hp)
  · rw [hcalm.mp] at ht
    rw [hcalm.pc] at hk
    exact h.past t p ht hk

/-- A thread goes to a place where its process's share is not yet given back, or is. -/
theorem Settled.setPc (h : Settled s)
    (hk : k.gaveBack → ∀ p, (s.thread t).mp = some p → (s.proc p).stype ≠ .stride) :
    Settled (s.setPc t k) ∧ Unmoved s (s.setPc t k) := by
  refine h.frame rfl (fun _ => ⟨rfl, rfl⟩) h.low fun u p hu hk' => ?_
  by_cases hut : u = t <;> simp only [setPc_pc, hut, ↓reduceIte] at hk'
  · exact hk hk' p (hut ▸ hu)
  · exact h.past u p hu hk'

/-- A process changes in neither class, share nor state. -/
theorem Settled.setProc (h : Settled s) {f : Proc → Proc}
    (hf : (f (s.proc p)).stype = (s.proc p).stype ∧ (f (s.proc p)).share = (s.proc p).share)
    (hst : (f (s.proc p)).state = (s.proc p).state) :
    Settled (s.setProc p f) ∧ Unmoved s (s.setProc p f) := by
  refine h.frame rfl (fun q => ?_) (fun q hq => ?_) h.past
  · exact ⟨setProc_keeps Proc.stype hf.1 q, setProc_keeps Proc.share hf.2 q⟩
  · rw [setProc_keeps Proc.state hst] at hq
    exact h.low q hq

/-! ## set_cpu_share -/

theorem setCpuShare_stride {m : Mlfq} {q : Proc} (hneg : share.toInt ≤ 0) (hq : q.stype = .stride) :
    Xv6.setCpuShare m q share = (0, { m with share := m.share + q.share },
      { q with stype := .mlfq, qlev := .hqlev, share := 0, pass := 0 }) := by
  rw [setCpuShare, if_pos hneg, if_pos hq]

theorem setCpuShare_other {m : Mlfq} {q : Proc} (hneg : share.toInt ≤ 0) (hq : q.stype ≠ .stride) :
    Xv6.setCpuShare m q share = (0, m, q) := by
  rw [setCpuShare, if_pos hneg, if_neg hq]

/-- A request is granted or refused by what it would leave to MLFQ, in 32 bits. -/
theorem setCpuShare_pos (m : Mlfq) (q : Proc) (hpos : 0 < share.toInt) :
    Xv6.setCpuShare m q share =
      if m.share + q.held - share < 20#32 then (-1, m, q)
      else (0, { m with share := m.share + q.held - share },
        { q with stype := .stride, qlev := .hqlev, share := share, pass := m.pass }) := by
  have hnew : (if q.stype = .stride then m.share + q.share - share else m.share - share) =
      m.share + q.held - share := by
    unfold Proc.held Proc.grant
    split
    · rfl
    · exact (BitVec.add_zero m.share).symm ▸ rfl
  rw [setCpuShare, if_neg (not_le.mpr hpos)]
  dsimp only
  rw [hnew]

/-- A request moves shares and makes none. -/
theorem setCpuShare_conserves (m : Mlfq) (q : Proc) :
    (Xv6.setCpuShare m q share).2.1.share + (Xv6.setCpuShare m q share).2.2.held =
      m.share + q.held := by
  by_cases hneg : share.toInt ≤ 0
  · by_cases hq : q.stype = .stride
    · simp [setCpuShare_stride hneg hq, Proc.held, Proc.grant, hq]
    · simp [setCpuShare_other hneg hq]
  · rw [setCpuShare_pos m q (not_le.mp hneg)]
    split
    · rfl
    · exact BitVec.sub_add_cancel _ _

theorem setCpuShare_idle (m : Mlfq) (q : Proc) (hidle : q.stype ≠ .stride → q.share = 0) :
    (Xv6.setCpuShare m q share).2.2.stype ≠ .stride → (Xv6.setCpuShare m q share).2.2.share = 0 := by
  by_cases hneg : share.toInt ≤ 0
  · by_cases hq : q.stype = .stride
    · simp [setCpuShare_stride hneg hq]
    · rw [setCpuShare_other hneg hq]
      exact hidle
  · rw [setCpuShare_pos m q (not_le.mp hneg)]
    split
    · exact hidle
    · exact fun h => absurd rfl h

/-- A request for nothing gives the share back. -/
theorem setCpuShare_nonpos (m : Mlfq) (q : Proc) (hneg : share.toInt ≤ 0) :
    (Xv6.setCpuShare m q share).2.2.stype ≠ .stride := by
  by_cases hq : q.stype = .stride
  · simp [setCpuShare_stride hneg hq]
  · rw [setCpuShare_other hneg hq]
    exact hq

/-- The shares are where `set_cpu_share(share)` by `p` puts them. -/
structure Moved (s s' : Kernel) (p : ProcPtr) (share : Word) : Prop where
  mlfq : s'.mlfq.share = (Xv6.setCpuShare s.mlfq (s.proc p) share).2.1.share
  grant : ∀ q, (s'.proc q).grant =
    if q = p then (Xv6.setCpuShare s.mlfq (s.proc p) share).2.2.grant else (s.proc q).grant

theorem Moved.unmoved (h : Moved s s₁ p share) (h' : Unmoved s₁ s') : Moved s s' p share :=
  ⟨h'.mlfq.trans h.mlfq, fun q => (h'.grant q).trans (h.grant q)⟩

theorem Moved.self (h : Moved s s' p share) :
    (s'.proc p).held = (Xv6.setCpuShare s.mlfq (s.proc p) share).2.2.held := by
  unfold Proc.held
  rw [h.grant, if_pos rfl]

theorem Moved.other (h : Moved s s' p share) (q : ProcPtr) (hq : q ≠ p) :
    (s'.proc q).held = (s.proc q).held := by
  unfold Proc.held
  rw [h.grant, if_neg hq]

theorem Settled.cpuShare (h : Settled s) (hlive : .embryo < (s.proc p).state)
    (hpast : 0 < share.toInt → ∀ u, (s.thread u).mp = some p → ¬ (s.pc u).gaveBack) :
    Settled (s.cpuShare p share) ∧ Moved s (s.cpuShare p share) p share := by
  have hself : (s.cpuShare p share).proc p = (setCpuShare s.mlfq (s.proc p) share).2.2 := by
    simp [Kernel.cpuShare]
  have hother : ∀ q, q ≠ p → (s.cpuShare p share).proc q = s.proc q := by
    intro q hq
    simp [Kernel.cpuShare, hq]
  refine ⟨⟨fun q hq => ?_, fun q hq => ?_, fun u q hu hk => ?_⟩, rfl, fun q => ?_⟩
  · by_cases hqp : q = p
    · subst hqp
      rw [hself] at hq ⊢
      exact setCpuShare_idle _ _ (h.idle q) hq
    · rw [hother q hqp] at hq ⊢
      exact h.idle q hq
  · by_cases hqp : q = p
    · subst hqp
      obtain ⟨_, _, _, _, heq⟩ := setCpuShare_proc s.mlfq (s.proc q) share
      rw [hself, heq] at hq
      exact absurd hq (not_le.mpr hlive)
    · rw [hother q hqp] at hq ⊢
      exact h.low q hq
  · by_cases hqp : q = p
    · subst hqp
      rw [hself]
      refine setCpuShare_nonpos _ _ (not_lt.mp fun hpos => ?_)
      exact hpast hpos u hu hk
    · rw [hother q hqp]
      exact h.past u q hu hk
  · by_cases hqp : q = p
    · rw [if_pos hqp, hqp, hself]
    · rw [if_neg hqp, hother q hqp]

/-! ## Steps -/

/-- Another thread of the process is alive. -/
def LiveSibling (s : Kernel) (p : ProcPtr) (t : ThdPtr) : Prop :=
  ∃ u, u ≠ t ∧ (s.thread u).mp = some p ∧ .embryo < (s.thread u).state

instance (s : Kernel) (p : ProcPtr) (t : ThdPtr) : Decidable (s.LiveSibling p t) :=
  inferInstanceAs (Decidable (∃ u, u ≠ t ∧ (s.thread u).mp = some p ∧ .embryo < (s.thread u).state))

/-- No share is requested behind the back of an `exit` that has given the share back, and the
last thread of a STRIDE process does not die in `thread_exit`. -/
def ShareSafe (s : Kernel) (p : ProcPtr) (t : ThdPtr) : Prop :=
  ((s.pc t).asks → ∀ u, (s.thread u).mp = some p → ¬ (s.pc u).gaveBack) ∧
  ((s.pc t).dies → s.LiveSibling p t ∨ (s.proc p).stype ≠ .stride)

def KeepsShares (s : Kernel) : Act → Prop
  | .kstep c _ _ => ∀ pt ∈ s.onCpu c, s.ShareSafe pt.1 pt.2
  | _ => True

instance (s : Kernel) (p : ProcPtr) (t : ThdPtr) : Decidable (s.ShareSafe p t) :=
  inferInstanceAs (Decidable (_ ∧ _))

instance (s : Kernel) : DecidablePred s.KeepsShares := fun a => by
  induction a using Act.casesOn <;>
    first | exact (s.onCpu _).decidableForallMem | exact isTrue trivial

/-- A live sibling stays alive through scheduling, and keeps its process alive when `t` dies. -/
theorem LiveSibling.dead (h : s.LiveSibling p t) (hcalm : Calm s s₁) (hcore : Core none s₁) :
    .embryo < ((s₁.dead p t).proc p).state := by
  obtain ⟨u, hut, hmp, hlive⟩ := h
  have hmp' : (s₁.thread u).mp = some p := (hcalm.mp u).trans hmp
  have hne : (s.thread u).mp ≠ none := by simp [hmp]
  have hlive' : .embryo < (s₁.thread u).state := by
    cases hst : (s₁.thread u).state
    · rw [hcore.free u hst] at hmp'
      cases hmp'
    · rw [(hcalm.zombie u hne).mp hst] at hlive
      exact absurd hlive (by decide)
    · rw [hcalm.embryo u hne hst] at hlive
      exact absurd hlive (by decide)
    all_goals decide
  exact lt_of_lt_of_le hlive' (hcore.le_setstate_other hmp' hut)

/-- A thread of a process that holds no share, or has a live thread left, dies. -/
theorem Settled.dead (h : Settled s)
    (hlow : ((s.dead p t).proc p).state ≤ .embryo → (s.proc p).stype ≠ .stride) :
    Settled (s.dead p t) ∧ Unmoved s (s.dead p t) := by
  have hstill : ∀ q, ((s.dead p t).proc q).still = (s.proc q).still := by
    intro q
    simp [Kernel.dead]
  refine h.frame (by simp [Kernel.dead]) (fun q => ?_) (fun q hq => ?_) fun u q hu hk => ?_
  · constructor
    · simpa only [Proc.still] using congrArg Proc.stype (hstill q)
    · simpa only [Proc.still] using congrArg Proc.share (hstill q)
  · by_cases hqp : q = p
    · subst hqp
      exact hlow hq
    · rw [Kernel.dead, setPc_proc, setstate_proc_of_ne hqp] at hq
      exact h.low q hq
  · by_cases hut : u = t
    · simp [Kernel.dead, hut, Pc.gaveBack] at hk
    · simp only [Kernel.dead, setPc_pc, setPc_thread, setstate_thread, setstate_pc, hut,
        ↓reduceIte] at hu hk
      exact h.past u q hu hk

/-- A thread falls asleep. -/
theorem Settled.asleep (h : Settled s) (hmp : (s.thread t).mp = some p) {chan : Chan}
    (hk : k.gaveBack → (s.proc p).stype ≠ .stride) :
    Settled (s.asleep p t chan k) ∧ Unmoved s (s.asleep p t chan k) := by
  have hstill : ∀ q, ((s.asleep p t chan k).proc q).still = (s.proc q).still := by
    intro q
    simp [Kernel.asleep]
  refine h.frame (by simp [Kernel.asleep]) (fun q => ?_) (fun q hq => ?_) fun u q hu hk' => ?_
  · constructor
    · simpa only [Proc.still] using congrArg Proc.stype (hstill q)
    · simpa only [Proc.still] using congrArg Proc.share (hstill q)
  · by_cases hqp : q = p
    · subst hqp
      have hle : .sleeping ≤ ((s.asleep q t chan k).proc q).state :=
        le_setstate (s := s.setThd t fun x => { x with chan := some chan }) (by simpa using hmp)
      exact absurd (hle.trans hq) (by decide)
    · rw [Kernel.asleep, setPc_proc, setstate_proc_of_ne hqp] at hq
      exact h.low q hq
  · by_cases hut : u = t
    · subst hut
      simp only [asleep, setPc_pc, setPc_thread, setstate_thread, setThd_thread,
        ↓reduceIte] at hu hk'
      obtain rfl : p = q := Option.some.inj (hmp.symm.trans hu)
      exact hk hk'
    · simp only [Kernel.asleep, setPc_pc, setPc_thread, setstate_thread, setstate_pc, setThd_thread,
        setThd_pc, hut, ↓reduceIte] at hu hk'
      exact h.past u q hu hk'

/-- A step of `t` either leaves the shares alone or is a `set_cpu_share` of its process. -/
def ShareStep (s : Kernel) (a : Act) (c : CpuId) (p : ProcPtr) (t : ThdPtr) (s' : Kernel) : Prop :=
  Unmoved s s' ∨ ∃ share, Moved s s' p share ∧
    ((∃ ok page, a = .kstep c ok page) ∧ s.pc t = .setCpuShare share ∨ share = 0)

/-- Freed threads have no process. -/
theorem Settled.freeAll (h : Settled s) {P : ThdPtr → Thread → Prop} [∀ u, DecidablePred (P u)] :
    Settled (s.freeAll P) ∧ Unmoved s (s.freeAll P) := by
  refine h.frame (by simp) (fun q => by simp) (fun q hq => h.low q (by simpa using hq))
    fun u q hu hk => ?_
  rw [freeAll_thread] at hu
  rw [freeAll_pc] at hk
  split at hu
  · cases hu
  · exact h.past u q hu hk

theorem Settled.freeThd (h : Settled s) (u : ThdPtr) :
    Settled (s.freeThd u) ∧ Unmoved s (s.freeThd u) := by
  refine h.frame (by simp) (fun q => by simp) (fun q hq => h.low q (by simpa using hq))
    fun v q hv hk => ?_
  rw [freeThd_thread] at hv
  rw [freeThd_pc] at hk
  split at hv
  · cases hv
  · exact h.past v q hv hk

/-- A process without a share changes its state or its class and stays without. -/
theorem Settled.setProc_low (h : Settled s) {f : Proc → Proc} (hlow : (s.proc q).stype ≠ .stride)
    (hf : (f (s.proc q)).stype ≠ .stride ∧ (f (s.proc q)).share = 0) :
    Settled (s.setProc q f) ∧ Unmoved s (s.setProc q f) := by
  refine ⟨⟨fun r hr => ?_, fun r hr => ?_, fun u r hu hk => ?_⟩, by rw [setProc_mlfq], fun r => ?_⟩
  all_goals by_cases hrq : r = q
  · simp [hrq, hf.2]
  · simpa [hrq] using h.idle r (by simpa [hrq] using hr)
  · simp [hrq, hf.1]
  · simpa [hrq] using h.low r (by simpa [hrq] using hr)
  · simp [hrq, hf.1]
  · rw [setProc_proc, if_neg hrq]
    exact h.past u r hu hk
  · simp [hrq, Proc.grant, hf.1, hlow]
  · simp [hrq]

/-- A ZOMBIE process is reaped: it held no share. -/
theorem Settled.reap (h : Settled s) (hz : (s.proc q).state = .zombie) :
    Settled (s.reap q) ∧ Unmoved s (s.reap q) := by
  obtain ⟨h₁, hu₁⟩ := h.freeAll (P := fun _ x => x.mp = some q)
  rw [reap_eq]
  obtain ⟨h₂, hu₂⟩ := h₁.setProc_low (q := q) (f := Proc.reaped)
    (by rw [freeAll_proc]; exact h.low q (by rw [hz]; decide)) ⟨by simp [Proc.reaped], rfl⟩
  exact ⟨h₂, hu₁.trans hu₂⟩

theorem adopt_share : ((s.adopt p).proc q).stype = (s.proc q).stype ∧
      ((s.adopt p).proc q).share = (s.proc q).share ∧
      ((s.adopt p).proc q).state = (s.proc q).state := by
  unfold adopt
  dsimp only
  split <;> exact ⟨rfl, rfl, rfl⟩

/-- The children are passed on. -/
theorem Settled.adopt (h : Settled s) (p : ProcPtr) : Settled (s.adopt p) ∧ Unmoved s (s.adopt p) := by
  refine h.frame rfl (fun q => ?_) (fun q hq => ?_) h.past
  · exact ⟨(adopt_share).1, (adopt_share).2.1⟩
  · exact h.low q ((adopt_share).2.2 ▸ hq)

/-- Every step of a thread keeps who holds no share, and moves shares in `set_cpu_share` only. -/
theorem Settled.effect (hcore : Core none s) (h : Settled s) (hok : KeepsShares s a)
    (hon : s.onCpu c = some (p, t)) (heff : Effect s a c p t s') :
    Settled s' ∧ ShareStep s a c p t s' := by
  obtain ⟨hrun, hmp⟩ := onCpu_running hcore hon
  have hlive : .embryo < (s.proc p).state :=
    lt_of_lt_of_le (by rw [hrun]; decide) (hcore.le_proc t p hmp)
  -- an update of the tables, a move of `t`, then scheduling
  have hcalm : ∀ s₁ : Kernel, Settled s₁ ∧ Unmoved s s₁ → Calm s₁ s' →
      Settled s' ∧ ShareStep s a c p t s' := by
    rintro s₁ ⟨h₁, hu⟩ hcalm
    obtain ⟨h₂, hu₂⟩ := h₁.calm hcalm
    exact ⟨h₂, .inl (hu.trans hu₂)⟩
  have hmove : ∀ (s₁ : Kernel) (k : Pc), Settled s₁ ∧ Unmoved s s₁ → Calm (s₁.setPc t k) s' →
      k.gaveBack = false → Settled s' ∧ ShareStep s a c p t s' := by
    rintro s₁ k ⟨h₁, hu⟩ hc hk
    obtain ⟨h₂, hu₂⟩ := h₁.setPc (t := t) (k := k) (by simp [hk])
    exact hcalm _ ⟨h₂, hu.trans hu₂⟩ hc
  have hstay : Settled s ∧ Unmoved s s := ⟨h, rfl, fun _ => rfl⟩
  cases heff with
  | calm hc => exact hcalm s hstay hc
  | move hpc hk _ hc =>
    exact hmove s _ hstay hc (Pc.gaveBack_of_ordinary (Pc.ordinary_of_plain hk))
  | threadExit hpc _ hc => exact hmove s _ hstay hc rfl
  | nullInode _ _ hs' =>
    subst hs'
    exact ⟨⟨h.idle, h.low, h.past⟩, .inl ⟨rfl, fun _ => rfl⟩⟩
  | sleep hpc hk _ _ hc =>
    refine hcalm _ (h.asleep hmp ?_) hc
    rcases hk with rfl | hk
    · simp [Pc.gaveBack]
    · simp [Pc.gaveBack_of_ordinary (Pc.ordinary_of_plain hk)]
  | exitEnter _ _ _ hc => exact hmove s _ hstay hc rfl
  | exitClose _ hc => exact hmove s _ hstay hc rfl
  | exitNext _ hc =>
    refine hmove _ _ (h.setProc ⟨rfl, rfl⟩ rfl) hc ?_
    unfold ExitCaller.behind
    split <;> rfl
  | exitPut _ _ hc =>
    refine hmove _ _ ?_ hc rfl
    exact ⟨⟨h.idle, h.low, h.past⟩, rfl, fun _ => rfl⟩
  | exitCwd _ hc => exact hmove _ _ (h.setProc ⟨rfl, rfl⟩ rfl) hc rfl
  | exitShare hpc hc =>
    have hzero : (0 : Word).toInt ≤ 0 := by decide
    obtain ⟨h₁, hm⟩ := h.cpuShare hlive fun hpos => absurd hpos (not_lt.mpr hzero)
    have hp : ((s.cpuShare p 0).proc p).stype ≠ .stride := by
      simpa [Kernel.cpuShare] using setCpuShare_nonpos s.mlfq (s.proc p) hzero
    obtain ⟨h₂, hu₂⟩ := h₁.setPc (t := t) (k := .exitThds _) fun _ q hq => by
      obtain rfl : p = q := Option.some.inj (hmp.symm.trans hq)
      exact hp
    obtain ⟨h₃, hu₃⟩ := h₂.calm hc
    exact ⟨h₃, .inr ⟨0, hm.unmoved (hu₂.trans hu₃), .inr rfl⟩⟩
  | cpuShare ha hpc hc =>
    obtain ⟨ok, page, rfl⟩ := ha
    obtain ⟨h₁, hm⟩ := h.cpuShare hlive fun hpos => (hok (p, t) hon).1 (by
      rw [hpc]
      exact decide_eq_true hpos)
    obtain ⟨h₂, hu₂⟩ := h₁.setPc (t := t) (k := .sysret) (by simp [Pc.gaveBack])
    obtain ⟨h₃, hu₃⟩ := h₂.calm hc
    exact ⟨h₃, .inr ⟨_, hm.unmoved (hu₂.trans hu₃), .inl ⟨⟨ok, page, rfl⟩, hpc⟩⟩⟩
  | @await e k hpc _ _ hc =>
    obtain ⟨h₁, hu⟩ := h.setProc (p := p) (f := fun q => { q with exited := true }) ⟨rfl, rfl⟩ rfl
    obtain ⟨h₂, hu₂⟩ := h₁.asleep (p := p) (t := t) (k := k) hmp fun hk => by
      rcases hpc with ⟨hpc, rfl⟩ | ⟨hpc, rfl⟩
      · simpa using h.past t p hmp (by rw [hpc]; rfl)
      · cases hk
    exact hcalm _ ⟨h₂, hu.trans hu₂⟩ hc
  | awaitAgain _ _ hc => exact hcalm _ (h.asleep hmp (h.past t p hmp)) hc
  | @exitBack e b _ _ hc =>
    refine hmove _ _ (h.setProc ⟨rfl, rfl⟩ rfl) hc ?_
    cases e <;> rfl
  | execBack _ hc => exact hmove _ _ (h.setProc ⟨rfl, rfl⟩ rfl) hc rfl
  | execDone _ _ hc =>
    obtain ⟨h₁, hu⟩ := h.setProc (p := p) (f := fun q => { q with exited := false }) ⟨rfl, rfl⟩ rfl
    obtain ⟨h₂, hu₂⟩ := h₁.freeAll (P := fun u x => u ≠ t ∧ x.mp = some p ∧ x.state = .zombie)
    exact hmove _ _ ⟨h₂, hu.trans hu₂⟩ hc rfl
  | exitFinish hpc _ hcore₁ h₁ _ _ hc =>
    obtain ⟨h₂, hu₂⟩ := h.setProc (p := p) (f := fun q => { q with exited := false }) ⟨rfl, rfl⟩ rfl
    obtain ⟨h₃, hu₃⟩ := h₂.adopt p
    obtain ⟨h₄, hu₄⟩ := h₃.calm h₁
    have hp : (s.proc p).stype ≠ .stride := by
      refine h.past t p hmp ?_
      rcases hpc with ⟨hpc, _⟩ | hpc <;> rw [hpc] <;> rfl
    obtain ⟨h₅, hu₅⟩ := h₄.dead (p := p) (t := t) fun _ => by
      rw [h₁.stype]
      simp only [Kernel.adopt, setProc_proc, ↓reduceIte]
      split <;> exact hp
    exact hcalm _ ⟨h₅, ((hu₂.trans hu₃).trans hu₄).trans hu₅⟩ hc
  | die ha hpc hcore₁ h₁ hc =>
    obtain ⟨ok, page, rfl⟩ := ha
    obtain ⟨h₂, hu₂⟩ := h.calm h₁
    obtain ⟨h₃, hu₃⟩ := h₂.dead (p := p) (t := t) fun hlow => by
      rw [h₁.stype]
      rcases (hok (p, t) hon).2 (by rw [hpc]; rfl) with hsib | hno
      · exact absurd hlow (not_le.mpr (hsib.dead h₁ hcore₁))
      · exact hno
    exact hcalm _ ⟨h₃, hu₂.trans hu₃⟩ hc
  | join _ _ _ hc => exact hmove _ _ (h.freeThd _) hc rfl
  | reap _ h₁ _ hz hc =>
    obtain ⟨h₂, hu₂⟩ := h.calm h₁
    obtain ⟨h₃, hu₃⟩ := h₂.reap hz
    exact hmove _ _ ⟨h₃, hu₂.trans hu₃⟩ hc rfl
  | allocproc _ hnp hc =>
    have hno := h.low _ (by rw [hnp]; decide)
    obtain ⟨h₁, hu₁⟩ := h.setProc_low (f := fun q => { q with state := .embryo }) hno ⟨hno, h.idle _ hno⟩
    refine hmove _ _ ?_ hc rfl
    exact ⟨⟨h₁.idle, h₁.low, h₁.past⟩, hu₁.mlfq, hu₁.grant⟩
  | forkFail _ hnp hc =>
    have hno := h.low _ (by rw [(hcore.child t _ hnp).1])
    exact hmove _ _ (h.setProc_low hno ⟨hno, h.idle _ hno⟩) hc rfl
  | @allocOwner n q k _ hk hn hmpn hq _ hc =>
    have hk' := Pc.gaveBack_of_ordinary (Pc.ordinary_of_plain hk)
    obtain ⟨h₁, hu₁⟩ := h.setPc (t := n) (k := .forkret) (by simp [Pc.gaveBack])
    have h₂ : Settled ((s.setPc n .forkret).setThd n fun x => { x with mp := some q }) ∧
        Unmoved (s.setPc n .forkret) ((s.setPc n .forkret).setThd n fun x => { x with mp := some q }) := by
      refine h₁.frame rfl (fun _ => ⟨rfl, rfl⟩) h₁.low fun u r hu hku => ?_
      by_cases hun : u = n
      · simp [hun, Pc.gaveBack] at hku
      · exact h₁.past u r (by simpa [hun] using hu) hku
    exact hmove _ _ ⟨h₂.1, hu₁.trans h₂.2⟩ hc hk'
  | forkInit hpc hc =>
    have hnp := (hcore.child t _ (by rw [hpc]; rfl)).1
    have hno := h.low _ (by rw [hnp])
    exact hmove _ _ (h.setProc_low hno ⟨by simp, h.idle _ hno⟩) hc rfl
  | forkFile _ hk _ hc =>
    have hk' := Pc.gaveBack_of_ordinary (Pc.ordinary_of_plain hk)
    exact hmove _ _ (h.setProc ⟨rfl, rfl⟩ rfl) hc hk'
  | forkCwd _ hc => exact hmove _ _ (h.setProc ⟨rfl, rfl⟩ rfl) hc rfl
  | @forkRun np n hpc hc =>
    have hnp := (hcore.child t np (by rw [hpc]; rfl)).1
    have hno := h.low np (by rw [hnp])
    rw [setstate_runnable] at hc
    have hthd : Settled (s.setThd n fun x => { x with state := .runnable }) ∧
        Unmoved s (s.setThd n fun x => { x with state := .runnable }) := by
      refine h.frame rfl (fun _ => ⟨rfl, rfl⟩) h.low fun u r hu hk => h.past u r ?_ hk
      by_cases hun : u = n <;> simpa [hun] using hu
    obtain ⟨h₁, hu₁⟩ := hthd
    obtain ⟨h₂, hu₂⟩ := h₁.setProc_low (q := np) (f := fun q => { q with state := .runnable }) hno
      ⟨hno, h.idle _ hno⟩
    exact hmove _ _ ⟨h₂, hu₁.trans hu₂⟩ hc rfl
  | chdirSet _ _ hc => exact hmove _ _ (h.setProc ⟨rfl, rfl⟩ rfl) hc rfl
  | ofile _ _ hc => exact hcalm _ (h.setProc ⟨rfl, rfl⟩ rfl) hc

/-- Every step keeps who holds no share, and moves shares in `set_cpu_share` only. -/
theorem Settled.step (hcore : Core none s) (h : Settled s) (hcreate : CreatesSlots s a)
    (hok : KeepsShares s a) (hs : s.step a = some s') :
    Settled s' ∧ (Unmoved s s' ∨ ∃ c p t, s.onCpu c = some (p, t) ∧ ShareStep s a c p t s') := by
  rcases step_effect hcore hcreate hs with hcalm | ⟨c, p, t, hon, heff⟩
  · obtain ⟨h₁, hu⟩ := h.calm hcalm
    exact ⟨h₁, .inl hu⟩
  · obtain ⟨h₁, hstep⟩ := h.effect hcore hok hon heff
    exact ⟨h₁, .inr ⟨c, p, t, hon, hstep⟩⟩

theorem boot_settled : Settled boot := by
  refine ⟨fun p _ => ?_, fun p hp => ?_, fun t p ht hk => ?_⟩
  · by_cases hp : p = 0 <;> simp [boot, hp]
  · by_cases hp0 : p = 0 <;> simp [boot, hp0]
  · by_cases ht0 : t = 0 <;> simp [boot, ht0, Pc.gaveBack] at hk

/-! ## The sum of all shares -/

/-- A sum over a table, when one slot changes. -/
theorem sum_slot {A : Type} [AddCommMonoid A] {f g : ProcPtr → A} (hother : ∀ q, q ≠ p → g q = f q) :
    ∃ r, ∑ q, f q = f p + r ∧ ∑ q, g q = g p + r := by
  refine ⟨∑ q ∈ Finset.univ.erase p, f q, ?_, ?_⟩
  · exact (Finset.add_sum_erase _ f (Finset.mem_univ p)).symm
  · rw [← Finset.add_sum_erase _ g (Finset.mem_univ p)]
    congr 1
    exact Finset.sum_congr rfl fun q hq => hother q (Finset.ne_of_mem_erase hq)

/-- The share of MLFQ and of all STRIDE processes, in 32 bits. -/
def total (s : Kernel) : Word := s.mlfq.share + ∑ p, (s.proc p).held

theorem Unmoved.total (h : Unmoved s s') : s'.total = s.total := by
  unfold Kernel.total
  rw [h.mlfq, Finset.sum_congr rfl fun p _ => h.held p]

theorem Moved.total (h : Moved s s' p share) : s'.total = s.total := by
  obtain ⟨r, hf, hg⟩ := sum_slot (p := p) (f := fun q => (s.proc q).held)
    (g := fun q => (s'.proc q).held) h.other
  unfold Kernel.total
  rw [hf, hg, h.mlfq, h.self, ← add_assoc, ← add_assoc, setCpuShare_conserves]

/-- In every run that keeps shares: the sum is 100 in 32 bits after every step, and a ZOMBIE
process, which is what `wait` reaps, has share 0. -/
theorem shares_conserved
    (h : Reaches Kernel.step (fun s a => CreatesSlots s a ∧ KeepsShares s a) boot s) :
    s.total = 100#32 ∧ ∀ p, (s.proc p).state = .zombie → (s.proc p).share = 0 := by
  have hinv : Core none s ∧ Settled s ∧ s.total = 100#32 := by
    refine h.invariant (motive := fun s => Core none s ∧ Settled s ∧ s.total = 100#32)
      ⟨boot_core, boot_settled, by decide +kernel⟩ ?_
    rintro s a s' ⟨hcore, hset, htot⟩ ⟨hcreate, hok⟩ hs
    obtain ⟨hset', hstep⟩ := hset.step hcore hcreate hok hs
    refine ⟨hcore.step hcreate hs, hset', ?_⟩
    rcases hstep with hu | ⟨c, p, t, _, hu | ⟨share, hm, _⟩⟩
    · rw [hu.total, htot]
    · rw [hu.total, htot]
    · rw [hm.total, htot]
  obtain ⟨_, hset, htot⟩ := hinv
  exact ⟨htot, fun p hp => hset.idle p (hset.low p (by rw [hp]; decide))⟩

/-- The child asks for 30, gives them back in `exit`, and is reaped. -/
def borrowRun : List Act :=
  [.dispatch 0, .resume 0] ++ forkActs 0 ++ [.dispatch 1, .resume 1, .syscall 1 (.setCpuShare 30)] ++
    ksteps 1 2 ++ [.syscall 1 .exit] ++ ksteps 1 21

theorem shares_conserved_after_exit :
    ∃ s, Reaches Kernel.step (fun s a => CreatesSlots s a ∧ KeepsShares s a) boot s ∧
      s.total = 100#32 ∧ (s.proc 1).state = .zombie ∧ (s.proc 1).share = 0 := by
  obtain ⟨s, hreach, hz⟩ := boot_reaches (fun s a => CreatesSlots s a ∧ KeepsShares s a) borrowRun
    (fun s => (s.proc 1).state = .zombie) (by decide +kernel)
  obtain ⟨htotal, hshare⟩ := shares_conserved hreach
  exact ⟨s, hreach, htotal, hz, hshare 1 hz⟩

/-- One thread of the child has given the share back in `exit` when the other asks for 30; the
other leaves with `thread_exit`. -/
def lateRequestRun : List Act :=
  siblingsRun ++ [.syscall 1 .exit] ++ ksteps 1 20 ++ [.syscall 2 (.setCpuShare 30)] ++ ksteps 2 2 ++
    ksteps 1 1 ++ [.syscall 2 (.threadExit 0)] ++ ksteps 2 2 ++ [.resume 2]

/-- The child is a ZOMBIE with share 30, and the share is gone once it is reaped. -/
theorem late_request_run :
    (∃ s, Reaches Kernel.step CreatesSlots boot s ∧ (s.proc 1).state = .zombie ∧
      (s.proc 1).share = 30) ∧
    ∃ s, Reaches Kernel.step CreatesSlots boot s ∧ s.total = 70#32 := by
  constructor
  · exact boot_reaches _ lateRequestRun (fun s => (s.proc 1).state = .zombie ∧ (s.proc 1).share = 30)
      (by decide +kernel)
  · obtain ⟨s, hreach, hm, hno⟩ := boot_reaches CreatesSlots
      (lateRequestRun ++ [.syscall 0 .wait] ++ ksteps 0 1)
      (fun s => s.mlfq.share = 70#32 ∧ ∀ p, (s.proc p).stype ≠ .stride) (by decide +kernel)
    exact ⟨s, hreach, by simp [total, Proc.held, Proc.grant, hm, hno]⟩

end Kernel

end Xv6
