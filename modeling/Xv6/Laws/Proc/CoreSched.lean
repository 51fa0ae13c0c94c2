import Xv6.Laws.Proc.Core

/-!
# Scheduling keeps the invariant

`scheduler` and `sched` look for a RUNNABLE thread of a process whose state says it has one.
`withNext_runnable` is where the invariant pays: the search succeeds, so neither panic is
reached, and the thread found is on no CPU.
-/

namespace Xv6

open Xv6.Lib

namespace Kernel

variable {s s' : Kernel} {x : Option CpuId} {p q : ProcPtr} {t u : ThdPtr} {c d : CpuId}
  {st : ProcState} {k : Pc}

/-! ## Waking -/

/-- A sleeper is on no CPU. -/
theorem Core.wake (h : Core x s) (hsl : (s.thread u).state = .sleeping)
    (hmp : (s.thread u).mp = some p) : Core x (s.setstate p u .runnable) := by
  refine h.setstate hmp (by rw [hsl]; decide) (.inr (by decide)) ?_ fun _ => .inr rfl
  intro c hx hc
  rw [(h.running c u hx hc).1] at hsl
  cases hsl

theorem Core.wakeAll (h : Core x s) {P : Thread → Prop} [DecidablePred P]
    (hP : ∀ x, P x → x.state = .sleeping) : Core x (s.wakeAll P) :=
  wakeAll_induct P h (fun _ _ _ hs hu hmp => hs.wake (hP _ hu) hmp)
    fun _ _ hs _ _ => hs.halt (by decide) (by decide)

theorem Core.wakeup1 (h : Core x s) (chan : Option Chan) : Core x (s.wakeup1 chan) := by
  rw [wakeup1_eq]
  exact h.wakeAll fun _ hx => hx.1

theorem Core.wakeThds (h : Core x s) (p : ProcPtr) : Core x (s.wakeThds p) := by
  rw [wakeThds_eq]
  exact h.wakeAll fun _ hx => hx.2

@[simp] theorem wakeup1_cpu (chan : Option Chan) : (s.wakeup1 chan).cpu = s.cpu := by
  rw [wakeup1_eq, wakeAll_cpu]
@[simp] theorem wakeup1_pc (chan : Option Chan) : (s.wakeup1 chan).pc = s.pc := by
  rw [wakeup1_eq, wakeAll_pc]
@[simp] theorem wakeThds_cpu : (s.wakeThds p).cpu = s.cpu := by rw [wakeThds_eq, wakeAll_cpu]
@[simp] theorem wakeThds_pc : (s.wakeThds p).pc = s.pc := by rw [wakeThds_eq, wakeAll_pc]

/-! ## The search for a thread -/

theorem nextthd_spec {pin : ThdPtr} (h : s.nextthd p pin = some u) :
    (s.thread u).mp = some p ∧ (s.thread u).state = .runnable := by
  simpa using List.find?_some h

/-- A RUNNABLE process has a thread to run: the search goes on with it. -/
theorem withNext_runnable (h : Core x s) (hp : (s.proc p).state = .runnable) (m : Panic)
    (k : Kernel → ThdPtr → Kernel) :
    ∃ u, (s.thread u).mp = some p ∧ (s.thread u).state = .runnable ∧
      s.withNext p m k = k (s.setProc p fun q => { q with pin := some u }) u := by
  obtain ⟨pin, hpin⟩ := Option.ne_none_iff_exists'.mp (h.pinned p (by rw [hp]; decide))
  obtain ⟨v, hv, hsv⟩ := h.attained p (by rw [hp]; decide) (by rw [hp]; decide)
  have hfound : (s.nextthd p pin).isSome := by
    refine (find?_scanFrom_isSome pin _).mpr ⟨v, ?_⟩
    simpa [hv] using hsv.trans hp
  obtain ⟨u, hu⟩ := Option.isSome_iff_exists.mp hfound
  refine ⟨u, (nextthd_spec hu).1, (nextthd_spec hu).2, ?_⟩
  simp only [withNext, hpin, hu]

/-- A RUNNABLE thread is on no CPU. -/
theorem Core.off_cpu (h : Core x s) (hu : (s.thread u).state ≠ .running) (hx : x ≠ some d) :
    (s.cpu d).thd ≠ some u :=
  fun hd => hu (h.running d u hx hd).1

/-- A RUNNABLE thread is chosen. -/
theorem Core.choose (h : Core x s) (hmp : (s.thread u).mp = some p)
    (hst : (s.thread u).state = .runnable) : Core x (s.setstate p u .running) :=
  h.setstate hmp (by rw [hst]; decide) (.inr (by decide))
    (fun _ hd => h.off_cpu (by rw [hst]; decide) hd) (fun _ => .inl rfl)

/-! ## Leaving a CPU -/

theorem Core.charge (h : Core x s) (p : ProcPtr) : Core x (s.charge p) := by
  unfold Kernel.charge
  split
  · split
    · exact h.halt (by decide) (by decide)
    · exact h.setProc p rfl id
  · split
    · exact h.halt (by decide) (by decide)
    · exact h.setMlfq _

theorem Core.demote (h : Core x s) (p : ProcPtr) : Core x (s.demote p) := by
  unfold Kernel.demote
  split
  · split
    · exact h.setProc p rfl id
    · exact h
  · exact h

@[simp] theorem charge_cpu : (s.charge p).cpu = s.cpu := by
  unfold charge; split <;> split <;> rfl

@[simp] theorem demote_cpu : (s.demote p).cpu = s.cpu := by
  unfold demote
  split
  · split <;> rfl
  · rfl

theorem Core.leaveCpu (h : Core (some c) s) (p : ProcPtr) : Core none (s.leaveCpu c p) := by
  refine ((((h.setCpu _).charge p).demote p).release).restore ?_
  simp

/-- A RUNNABLE thread is put on a CPU that was left out. -/
theorem Core.putOn (h : Core (some c) s) (hmp : (s.thread u).mp = some p)
    (hst : (s.thread u).state = .runnable) (hproc : (s'.cpu c).proc = some p)
    (hthd : (s'.cpu c).thd = some u) (hcpu : ∀ d, d ≠ c → (s'.cpu d).thd = (s.cpu d).thd)
    (hs' : Core (some c) s')
    (hthread : s'.thread = (s.setstate p u .running).thread) : Core none s' := by
  refine hs'.restore ?_
  intro v hv
  obtain rfl : u = v := Option.some.inj (hthd.symm.trans hv)
  refine ⟨by rw [hthread]; simp, by rw [hproc, hthread]; simp [hmp], fun d hd => ?_⟩
  rw [hcpu d hd]
  exact h.off_cpu (by rw [hst]; decide) (by simpa using hd.symm)

/-- `sched()` by a thread that is no longer RUNNING. -/
theorem Core.sched (h : Core (some c) s) (hproc : (s.cpu c).proc = some p)
    (hthd : (s.cpu c).thd = some t) (hrun : (s.thread t).state ≠ .running) :
    Core none (s.sched c p t) := by
  unfold Kernel.sched
  rw [if_neg hrun]
  dsimp only
  have h1 : Core (some c) (s.setProc p fun q =>
      { q with ticks := q.ticks + 1, pass := if q.stype = .mlfq then q.pass + 1 else q.pass }) :=
    h.setProc p rfl id
  split
  · rename_i hp
    obtain ⟨u, hmp, hst, hnext⟩ := withNext_runnable h1 hp.1 .noThreadSched fun s u =>
      let s := (s.setstate p u .running).handOver c
      if t = u then s
      else s.setCpu c fun x => { x with thd := some u, esp0 := (s.thread u).kstack }
    rw [hnext]
    have h2 := h1.setProc p (f := fun q => { q with pin := some u }) rfl (by simp)
    have h3 := (h2.choose hmp hst).handOver c
    dsimp only
    split
    · rename_i htu
      refine h2.putOn hmp hst ?_ ?_ (fun d _ => ?_) h3 rfl
      · simpa using hproc
      · simpa [← htu] using hthd
      · simp
    · refine h2.putOn hmp hst ?_ ?_ (fun d hd => ?_) (h3.setCpu _) rfl
      · simpa using hproc
      · simp
      · simp [hd]
  · exact h1.leaveCpu p

/-! ## A thread gives up its CPU -/

section OnCpu

variable (h : Core none s) (hproc : (s.cpu c).proc = some p) (hthd : (s.cpu c).thd = some t)

include h hproc hthd

/-- The thread a CPU runs changes its state; its CPU is left out until `sched`. -/
theorem Core.lower (hst : st = .zombie ∨ .embryo < st)
    (hhold : (s.pc t).hold ≠ {} → st = .runnable) : Core (some c) (s.setstate p t st) := by
  obtain ⟨hrun, hmp⟩ := h.running c t (by simp) hthd
  refine (h.leave c).setstate (hmp.symm.trans hproc) (by rw [hrun]; decide) hst ?_
    fun hne => .inr (hhold hne)
  intro d hd hdt
  exact hd (congrArg some (h.alone c d t (by simp) (by simp) hthd hdt))

theorem Core.yield : Core none (s.yield c p t) := by
  refine (h.lower hproc hthd (.inr (by decide)) fun _ => rfl).sched ?_ ?_ ?_
  · simpa using hproc
  · simpa using hthd
  · simp

/-- A thread that holds nothing goes to sleep or dies. -/
theorem Core.park (hst : st = .zombie ∨ st = .sleeping)
    (hhold : (s.pc t).hold = {}) (hk : k.hold = {}) :
    Core none (((s.setstate p t st).setPc t k).sched c p t) := by
  have hst' : (st = .zombie ∨ .embryo < st) ∧ st ≠ .running := by
    rcases hst with rfl | rfl <;> decide
  refine ((h.lower hproc hthd hst'.1 fun hne => absurd hhold hne).setPc t hk).sched ?_ ?_ ?_
  · simpa using hproc
  · simpa using hthd
  · simpa using hst'.2

theorem Core.sleep (hhold : (s.pc t).hold = {}) (hk : k.hold = {}) (chan : Chan) :
    Core none (s.sleep c p t chan k) := by
  refine Core.park ?_ ?_ ?_ (.inr rfl) ?_ hk
  · exact h.setThd t rfl rfl
  · simpa using hproc
  · simpa using hthd
  · simpa using hhold

end OnCpu

/-! ## An idle CPU -/

theorem Core.reduce_boost (h : Core x s) : Core x s.reduce.boost := by
  obtain ⟨_, _, _, _, heq⟩ := reduce_boost_eq s
  rw [heq]
  exact h.congr (fun _ => rfl) (fun _ hp => hp) (fun _ => ⟨rfl, rfl⟩) (fun _ => rfl)
    (fun _ => ⟨rfl, rfl⟩) h.found

theorem getstrideproc_runnable (h : s.getstrideproc = some p) : (s.proc p).state = .runnable := by
  have key : ∀ q, s.getstrideproc = some q → (s.proc q).state = .runnable := by
    unfold getstrideproc
    refine List.foldlRecOn (motive := fun r => ∀ q, r = some q → (s.proc q).state = .runnable)
      _ _ (by simp) ?_
    intro r hr q _
    split
    · rename_i hq
      split
      · rintro _ ⟨⟩
        exact hq.2
      · split
        · rintro _ ⟨⟩
          exact hq.2
        · exact hr
    · exact hr
  exact key p h

theorem getmlfqproc_runnable (h : s.getmlfqproc = some p) : (s.proc p).state = .runnable := by
  have hp := List.find?_some h
  simp only [decide_eq_true_eq] at hp
  exact hp.2

theorem schedChoice_runnable (h : s.schedChoice = some p) : (s.proc p).state = .runnable := by
  unfold schedChoice at h
  split at h
  · rename_i h1 h2
    split at h
    · exact getstrideproc_runnable (h ▸ h1)
    · exact getmlfqproc_runnable (h ▸ h2)
  · rename_i h1 _
    exact getstrideproc_runnable (h ▸ h1)
  · rename_i _ h2
    exact getmlfqproc_runnable (h ▸ h2)
  · cases h

/-- `getschedproc` picks a RUNNABLE process and changes at most the cursor of MLFQ. -/
theorem getschedproc_spec (s : Kernel) :
    (∃ pin, s.getschedproc.2 = { s with mlfq := { s.mlfq with pin := pin } }) ∧
      ∀ p, s.getschedproc.1 = some p → (s.proc p).state = .runnable := by
  unfold getschedproc
  split
  · rename_i p2 h2
    split
    · refine ⟨⟨_, rfl⟩, ?_⟩
      rintro p ⟨⟩
      exact getmlfqproc_runnable h2
    · exact ⟨⟨s.mlfq.pin, rfl⟩, fun p hp => schedChoice_runnable hp⟩
  · exact ⟨⟨s.mlfq.pin, rfl⟩, fun p hp => schedChoice_runnable hp⟩

theorem Core.switchuvm (h : Core x s) (c : CpuId) (p : ProcPtr) : Core x (s.switchuvm c p) := by
  unfold Kernel.switchuvm
  split
  · exact h.halt (by decide) (by decide)
  · split
    · exact h.halt (by decide) (by decide)
    · refine h.congr (fun _ => rfl) (fun _ hq => hq) (fun _ => ⟨rfl, rfl⟩) (fun _ => rfl)
        (fun d => ?_) h.found
      simp only [setCpu_cpu]
      split
      · rename_i hd
        rw [hd]
        exact ⟨rfl, rfl⟩
      · exact ⟨rfl, rfl⟩

@[simp] theorem switchuvm_pc : (s.switchuvm c p).pc = s.pc := by
  unfold switchuvm
  split
  · rfl
  · split <;> rfl

@[simp] theorem switchuvm_thread : (s.switchuvm c p).thread = s.thread := by
  unfold switchuvm
  split
  · rfl
  · split <;> rfl

@[simp] theorem switchuvm_thd : ((s.switchuvm c p).cpu d).thd = (s.cpu d).thd := by
  unfold switchuvm
  split
  · rfl
  · split
    · rfl
    · by_cases hd : d = c <;> simp [hd]

@[simp] theorem switchuvm_cpu_proc : ((s.switchuvm c p).cpu d).proc = (s.cpu d).proc := by
  unfold switchuvm
  split
  · rfl
  · split
    · rfl
    · by_cases hd : d = c <;> simp [hd]

theorem Core.scheduler (h : Core none s) (c : CpuId) : Core none (s.scheduler c) := by
  obtain ⟨⟨m, hm⟩, hrun⟩ := getschedproc_spec s.reduce.boost
  have h0 : Core none s.reduce.boost.getschedproc.2 := by
    rw [hm]
    exact h.reduce_boost.setMlfq _
  unfold Kernel.scheduler
  split
  · rename_i heq
    rw [heq] at h0
    exact h0
  · rename_i p s₁ heq
    rw [heq] at h0 hm hrun
    dsimp only at h0 hm hrun
    have hp : (s₁.proc p).state = .runnable := by
      rw [hm]
      exact hrun p rfl
    obtain ⟨u, hmp, hst, hnext⟩ := withNext_runnable h0 hp .noThreadScheduler fun s t =>
      let s := s.setCpu c fun x => { x with proc := some p, thd := some t }
      let s := (s.switchuvm c p).setProc p fun q => { q with ticks := 0 }
      (s.setstate p t .running).handOver c
    rw [hnext]
    dsimp only
    have h1 : Core (some c) (s₁.setProc p fun q => { q with pin := some u }) :=
      (h0.setProc p rfl (by simp)).leave c
    have h2 := ((h1.setCpu fun x => { x with proc := some p, thd := some u }).switchuvm c p).setProc p
      (f := fun q => { q with ticks := 0 }) rfl id
    have h3 := (h2.choose (u := u) (p := p) (by simpa using hmp) (by simpa using hst)).handOver c
    refine h1.putOn hmp hst ?_ ?_ (fun d hd => ?_) h3 ?_
    · simp
    · simp
    · simp [hd]
    · funext v
      simp

end Kernel

end Xv6
