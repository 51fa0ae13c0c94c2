import Xv6.Laws.Proc.CoreSched

/-!
# What scheduling leaves alone

`Calm s s'` says that `s'` differs from `s` by scheduling: threads are woken, chosen and taken
off their CPUs, but nobody dies or falls asleep, no process comes to life, and the resources
of every process, the owner and the place of every thread stay. What a call does between two
stretches of scheduling is then all that an invariant about resources has to look at.
-/

namespace Xv6

open Xv6.Lib

/-- A process's resources: the fields that scheduling, `kill` and `allocproc` do not write. -/
def Proc.still (q : Proc) : Proc :=
  { q with state := .unused, pid := 0, killed := false, qlev := .hqlev, ticks := 0, pass := 0
           pin := none }

namespace Kernel

variable {s s' : Kernel} {x : Option CpuId} {p q : ProcPtr} {t u : ThdPtr} {c : CpuId}
  {st : ProcState} {m : Panic}

/-- `s'` differs from `s` by scheduling only. -/
structure Calm (s s' : Kernel) : Prop where
  proc : ∀ p, (s'.proc p).still = (s.proc p).still
  live : ∀ p, (s'.proc p).state = (s.proc p).state ∨
    .embryo < (s.proc p).state ∧ .embryo < (s'.proc p).state
  mp : ∀ t, (s'.thread t).mp = (s.thread t).mp
  zombie : ∀ t, (s.thread t).mp ≠ none →
    ((s'.thread t).state = .zombie ↔ (s.thread t).state = .zombie)
  embryo : ∀ t, (s.thread t).mp ≠ none → (s'.thread t).state = .embryo → (s.thread t).state = .embryo
  asleep : ∀ t, (s'.thread t).state = .sleeping →
    (s.thread t).state = .sleeping ∧ (s'.thread t).chan = (s.thread t).chan
  pc : s'.pc = s.pc
  initproc : s'.initproc = s.initproc
  drops : s'.drops = s.drops
  share : s'.mlfq.share = s.mlfq.share
  null : s'.panic = some .nullInode → s.panic = some .nullInode
  /-- a charge divides by zero only for want of a share -/
  div : s'.panic = some .divideByZero → s.panic = some .divideByZero ∨ s.mlfq.share = 0 ∨
    ∃ p, (s.proc p).stype = .stride ∧ (s.proc p).share = 0

namespace Calm

theorem refl (s : Kernel) : Calm s s :=
  ⟨fun _ => rfl, fun _ => .inl rfl, fun _ => rfl, fun _ _ => .rfl, fun _ _ h => h,
    fun _ h => ⟨h, rfl⟩, rfl, rfl, rfl, rfl, id, .inl⟩

theorem parent (h : Calm s s') (p : ProcPtr) : (s'.proc p).parent = (s.proc p).parent := by
  simpa only [Proc.still] using congrArg Proc.parent (h.proc p)
theorem exited (h : Calm s s') (p : ProcPtr) : (s'.proc p).exited = (s.proc p).exited := by
  simpa only [Proc.still] using congrArg Proc.exited (h.proc p)
theorem ofile (h : Calm s s') (p : ProcPtr) : (s'.proc p).ofile = (s.proc p).ofile := by
  simpa only [Proc.still] using congrArg Proc.ofile (h.proc p)
theorem cwd (h : Calm s s') (p : ProcPtr) : (s'.proc p).cwd = (s.proc p).cwd := by
  simpa only [Proc.still] using congrArg Proc.cwd (h.proc p)
theorem stype (h : Calm s s') (p : ProcPtr) : (s'.proc p).stype = (s.proc p).stype := by
  simpa only [Proc.still] using congrArg Proc.stype (h.proc p)
theorem pshare (h : Calm s s') : (s'.proc p).share = (s.proc p).share := by
  simpa only [Proc.still] using congrArg Proc.share (h.proc p)

/-- A process below the live states has not changed its state. -/
theorem low (h : Calm s s') (hp : (s'.proc p).state ≤ .embryo) :
    (s.proc p).state = (s'.proc p).state := by
  rcases h.live p with e | ⟨_, hlt⟩
  · exact e.symm
  · exact absurd hp (not_le.mpr hlt)

theorem trans {s₁ s₂ s₃ : Kernel} (h : Calm s₁ s₂) (h' : Calm s₂ s₃) : Calm s₁ s₃ where
  proc p := (h'.proc p).trans (h.proc p)
  live p := by
    rcases h'.live p with e' | ⟨h1', h2'⟩ <;> rcases h.live p with e | ⟨h1, h2⟩
    · exact .inl (e'.trans e)
    · exact .inr ⟨h1, e' ▸ h2⟩
    · exact .inr ⟨e ▸ h1', h2'⟩
    · exact .inr ⟨h1, h2'⟩
  mp t := (h'.mp t).trans (h.mp t)
  zombie t ht := (h'.zombie t (by rw [h.mp]; exact ht)).trans (h.zombie t ht)
  embryo t ht he := h.embryo t ht (h'.embryo t (by rw [h.mp]; exact ht) he)
  asleep t ht := by
    obtain ⟨h1, h2⟩ := h'.asleep t ht
    obtain ⟨h3, h4⟩ := h.asleep t h1
    exact ⟨h3, h2.trans h4⟩
  pc := h'.pc.trans h.pc
  initproc := h'.initproc.trans h.initproc
  drops := h'.drops.trans h.drops
  share := h'.share.trans h.share
  null hp := h.null (h'.null hp)
  div hp := by
    rcases h'.div hp with hp | hp | ⟨p, h1, h2⟩
    · exact h.div hp
    · exact .inr (.inl (h.share ▸ hp))
    · exact .inr (.inr ⟨p, (h.stype p) ▸ h1, (h.pshare) ▸ h2⟩)

end Calm

/-! ## Steps that are calm -/

theorem calm_halt (h1 : m ≠ .nullInode) (h2 : m ≠ .divideByZero) : Calm s (s.halt m) := by
  refine { Calm.refl s with null := fun hp => ?_, div := fun hp => ?_ }
  all_goals cases hs : s.panic <;> simp_all

theorem calm_release : Calm s s.release := { Calm.refl s with }

theorem calm_handOver : Calm s (s.handOver c) := { Calm.refl s with }

theorem calm_setCpu (f : Cpu → Cpu) : Calm s (s.setCpu c f) := { Calm.refl s with }

theorem calm_setProc {f : Proc → Proc} (hf : (f (s.proc p)).still = (s.proc p).still)
    (hst : (f (s.proc p)).state = (s.proc p).state) : Calm s (s.setProc p f) := by
  refine { Calm.refl s with proc := fun q => ?_, live := fun q => .inl ?_ }
  all_goals by_cases hq : q = p <;> simp [hq, hf, hst]

/-- What scheduling can do to a thread. -/
structure CalmThread (x y : Thread) : Prop where
  mp : y.mp = x.mp
  zombie : x.mp ≠ none → (y.state = .zombie ↔ x.state = .zombie)
  embryo : x.mp ≠ none → y.state = .embryo → x.state = .embryo
  asleep : y.state = .sleeping → x.state = .sleeping ∧ y.chan = x.chan

theorem CalmThread.refl (x : Thread) : CalmThread x x :=
  ⟨rfl, fun _ => .rfl, fun _ => id, fun h => ⟨h, rfl⟩⟩

theorem Calm.thread (h : Calm s s') (u : ThdPtr) : CalmThread (s.thread u) (s'.thread u) :=
  ⟨h.mp u, h.zombie u, h.embryo u, h.asleep u⟩

/-- One thread changes. -/
theorem calm_setThread {g : Thread → Thread} (h : CalmThread (s.thread t) (g (s.thread t))) :
    Calm s (s.setThd t g) := by
  have hthd : ∀ u, CalmThread (s.thread u) ((s.setThd t g).thread u) := by
    intro u
    rw [setThd_thread]
    split
    · rename_i hu
      rw [hu]
      exact h
    · exact .refl _
  exact { Calm.refl s with
    mp := fun u => (hthd u).mp, zombie := fun u => (hthd u).zombie
    embryo := fun u => (hthd u).embryo, asleep := fun u => (hthd u).asleep }

/-- A thread that is not asleep changes nothing but its registers and its channel. -/
theorem calm_setThd {g : Thread → Thread} (hmp : (g (s.thread t)).mp = (s.thread t).mp)
    (hst : (g (s.thread t)).state = (s.thread t).state) (hrun : (s.thread t).state ≠ .sleeping) :
    Calm s (s.setThd t g) :=
  calm_setThread ⟨hmp, fun _ => by rw [hst], fun _ => by rw [hst]; exact id,
    fun h => absurd (hst ▸ h) hrun⟩

/-- A slot that belongs to nobody is taken or given back. -/
theorem calm_setThd_free {g : Thread → Thread} (hmp : (s.thread t).mp = none)
    (hmp' : (g (s.thread t)).mp = none) (hst : (g (s.thread t)).state ≠ .sleeping) :
    Calm s (s.setThd t g) :=
  calm_setThread ⟨hmp'.trans hmp.symm, fun h => absurd hmp h, fun h => absurd hmp h,
    fun h => absurd h hst⟩

theorem calm_setMlfq {m : Mlfq} (hm : m.share = s.mlfq.share) : Calm s { s with mlfq := m } :=
  { Calm.refl s with share := hm }

@[simp] theorem setstate_still : ((s.setstate p t st).proc q).still = (s.proc q).still := by
  rw [setstate_eq]
  by_cases hq : q = p <;> simp [hq, Proc.still]

/-- A process is at least in the state its thread was put in. -/
theorem le_setstate (hmp : (s.thread u).mp = some p) : st ≤ ((s.setstate p u st).proc p).state := by
  rw [setstate_eq]
  simp only [setProc_proc, setThd_proc, ↓reduceIte]
  split
  · exact le_rfl
  · have hle := maxThd_le_iff.mp (le_refl ((s.setThd u fun x => { x with state := st }).maxThd p)) u
      (by simpa using hmp)
    simpa using hle

/-- A process stays at least in the state of its other threads. -/
theorem Core.le_setstate_other (h : Core x s) (hmp : (s.thread u).mp = some p) (hut : u ≠ t) :
    (s.thread u).state ≤ ((s.setstate p t st).proc p).state := by
  rw [setstate_eq]
  simp only [setProc_proc, setThd_proc, ↓reduceIte]
  split
  · rename_i hle
    exact (h.le_proc u p hmp).trans hle
  · have hle := maxThd_le_iff.mp (le_refl ((s.setThd t fun x => { x with state := st }).maxThd p)) u
      (by simpa [hut] using hmp)
    simpa [hut] using hle

/-- A thread of a live process, not ZOMBIE, becomes RUNNING or RUNNABLE. -/
theorem calm_setstate (hmp : (s.thread u).mp = some p) (hu : (s.thread u).state ≠ .zombie)
    (hp : .embryo < (s.proc p).state) (hst : .sleeping < st) : Calm s (s.setstate p u st) := by
  have h₁ : Calm s (s.setThd u fun x => { x with state := st }) := by
    refine calm_setThread ⟨rfl, fun _ => iff_of_false ?_ hu, fun _ he => ?_, fun h => ?_⟩
    · rintro rfl
      exact absurd hst (by decide)
    · rw [show st = .embryo from he] at hst
      exact absurd hst (by decide)
    · exact absurd h hst.ne'
  have hlive : .embryo < ((s.setstate p u st).proc p).state :=
    lt_of_lt_of_le (lt_trans (by decide) hst) (le_setstate hmp)
  rw [setstate_eq] at hlive ⊢
  refine h₁.trans { Calm.refl _ with proc := fun q => ?_, live := fun q => ?_, div := .inl }
  · by_cases hq : q = p <;> simp [hq, Proc.still]
  · by_cases hq : q = p
    · subst hq
      exact .inr ⟨hp, hlive⟩
    · simp [hq]

theorem calm_wakeAll (h : Core x s) {P : Thread → Prop} [DecidablePred P]
    (hP : ∀ x, P x → x.state = .sleeping) : Calm s (s.wakeAll P) := by
  have key : Core x (s.wakeAll P) ∧ Calm s (s.wakeAll P) := by
    refine wakeAll_induct P (motive := fun s' => Core x s' ∧ Calm s s') ⟨h, .refl s⟩ ?_ ?_
    · rintro s' u p ⟨hcore, hcalm⟩ hu hmp
      have hsl : (s'.thread u).state = .sleeping := hP _ hu
      have hlive : .embryo < (s'.proc p).state :=
        lt_of_lt_of_le (by rw [hsl]; decide) (hcore.le_proc u p hmp)
      refine ⟨hcore.wake hsl hmp, hcalm.trans ?_⟩
      exact calm_setstate hmp (by rw [hsl]; decide) hlive (by decide)
    · rintro s' u ⟨hcore, hcalm⟩ _ _
      exact ⟨hcore.halt (by decide) (by decide), hcalm.trans (calm_halt (by decide) (by decide))⟩
  exact key.2

theorem calm_wakeup1 (h : Core x s) (chan : Option Chan) : Calm s (s.wakeup1 chan) := by
  rw [wakeup1_eq]
  exact calm_wakeAll h fun _ hx => hx.1

theorem calm_wakeThds (h : Core x s) : Calm s (s.wakeThds p) := by
  rw [wakeThds_eq]
  exact calm_wakeAll h fun _ hx => hx.2

theorem calm_withNext {k : Kernel → ThdPtr → Kernel} (h1 : m ≠ .nullInode) (h2 : m ≠ .divideByZero)
    (hk : ∀ u, (s.thread u).mp = some p → (s.thread u).state = .runnable →
      Calm (s.setProc p fun q => { q with pin := some u })
        (k (s.setProc p fun q => { q with pin := some u }) u)) :
    Calm s (s.withNext p m k) := by
  unfold withNext
  split
  · exact calm_halt (by decide) (by decide)
  · split
    · exact calm_halt h1 h2
    · rename_i u hu
      refine Calm.trans ?_ (hk u (nextthd_spec hu).1 (nextthd_spec hu).2)
      exact calm_setProc rfl rfl

theorem calm_switchuvm : Calm s (s.switchuvm c p) := by
  unfold switchuvm
  split
  · exact calm_halt (by decide) (by decide)
  · split
    · exact calm_halt (by decide) (by decide)
    · exact calm_setCpu _

theorem calm_charge : Calm s (s.charge p) := by
  have hhalt : (s.mlfq.share = 0 ∨ ∃ p, (s.proc p).stype = .stride ∧ (s.proc p).share = 0) →
      Calm s (s.halt .divideByZero) := by
    intro hzero
    refine { Calm.refl s with null := fun hp => ?_, div := fun _ => .inr hzero }
    cases hs : s.panic <;> simp_all
  unfold charge
  split
  · rename_i hstride
    split
    · rename_i hzero
      exact hhalt (.inr ⟨p, hstride, hzero⟩)
    · exact calm_setProc rfl rfl
  · split
    · rename_i hzero
      exact hhalt (.inl hzero)
    · exact calm_setMlfq rfl

theorem calm_demote : Calm s (s.demote p) := by
  unfold demote
  split
  · split
    · exact calm_setProc rfl rfl
    · exact .refl s
  · exact .refl s

theorem calm_leaveCpu : Calm s (s.leaveCpu c p) :=
  ((calm_setCpu _).trans calm_charge).trans (calm_demote.trans calm_release)

theorem calm_sched : Calm s (s.sched c p t) := by
  unfold sched
  split
  · exact calm_halt (by decide) (by decide)
  · dsimp only
    refine Calm.trans (calm_setProc (s := s) (p := p) (f := fun q =>
      { q with ticks := q.ticks + 1, pass := if q.stype = .mlfq then q.pass + 1 else q.pass })
      rfl rfl) ?_
    split
    · rename_i hp
      refine calm_withNext (by decide) (by decide) fun u hmp hst => ?_
      have hsleep : ProcState.sleeping < .running := by decide
      refine Calm.trans (calm_setstate (u := u) (p := p) hmp
        (by rw [setProc_thread, hst]; decide) ?_ hsleep) ?_
      · rw [setProc_proc, if_pos rfl]
        exact hp.1 ▸ (by decide)
      · split
        · exact calm_handOver
        · exact calm_handOver.trans (calm_setCpu _)
    · exact calm_leaveCpu

theorem calm_reduce_boost : Calm s s.reduce.boost := by
  obtain ⟨_, _, _, _, heq⟩ := reduce_boost_eq s
  rw [heq]
  exact { Calm.refl s with proc := fun _ => rfl, live := fun _ => .inl rfl }

theorem calm_scheduler : Calm s (s.scheduler c) := by
  obtain ⟨⟨m, hm⟩, hrun⟩ := getschedproc_spec s.reduce.boost
  have h0 : Calm s s.reduce.boost.getschedproc.2 := by
    rw [hm]
    exact calm_reduce_boost.trans (calm_setMlfq rfl)
  unfold scheduler
  split
  · rename_i heq
    rw [heq] at h0
    exact h0
  · rename_i q s₁ heq
    rw [heq] at h0 hm hrun
    dsimp only at h0 hm hrun
    have hq : (s₁.proc q).state = .runnable := by
      rw [hm]
      exact hrun q rfl
    refine h0.trans (calm_withNext (by decide) (by decide) fun u hmp hst => ?_)
    refine Calm.trans (calm_setCpu (c := c) fun x => { x with proc := some q, thd := some u }) ?_
    refine Calm.trans (calm_switchuvm (c := c) (p := q)) ?_
    refine Calm.trans (calm_setProc (p := q) (f := fun q => { q with ticks := 0 }) rfl rfl) ?_
    refine Calm.trans (calm_setstate (u := u) (p := q) ?_ ?_ ?_ (by decide)) calm_handOver
    · simpa using hmp
    · simp [hst]
    · have hproc : (switchuvm (setCpu (s₁.setProc q fun x => { x with pin := some u }) c fun x =>
          { x with proc := some q, thd := some u }) c q).proc q =
          (s₁.setProc q fun x => { x with pin := some u }).proc q := by
        unfold switchuvm
        split
        · rfl
        · split <;> rfl
      simp only [setProc_proc, ↓reduceIte, hproc, hq]
      decide

/-- A thread gives up its CPU without blocking. -/
theorem calm_yield (h : Core none s) (hproc : (s.cpu c).proc = some p)
    (hthd : (s.cpu c).thd = some t) : Calm s (s.yield c p t) := by
  obtain ⟨hrun, hmp⟩ := h.running c t (by simp) hthd
  replace hmp := hmp.symm.trans hproc
  refine (calm_setstate hmp (by rw [hrun]; decide) ?_ (by decide)).trans calm_sched
  exact lt_of_lt_of_le (by rw [hrun]; decide) (h.le_proc t p hmp)

end Kernel

end Xv6
