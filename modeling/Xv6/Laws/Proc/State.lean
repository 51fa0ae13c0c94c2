import Mathlib.Data.Finset.Lattice.Fold
import Mathlib.Data.Fintype.Basic
import Xv6.Laws.Proc.CoreSlots

/-!
# A process's state is the largest of its threads' states

The invariant holds at boot and is kept by every step of every call, on any number of CPUs, as
long as no `thread_create` fails after it has taken its slot (`CreatesSlots`): the failure
paths of `thread_create` free the slot and leave its `mp`. `stale_owner_run` is a run through
such a failure, at whose end a process is RUNNABLE and none of its threads is.
-/

namespace Xv6

open Xv6.Lib

/-- The stretches of `thread_create` that can fail with a slot taken. -/
def Pc.fills : Pc → Bool
  | .createStack _ | .createArgs _ => true
  | _ => false

namespace Kernel

variable {s s' : Kernel} {p q : ProcPtr} {t u : ThdPtr} {c : CpuId}

/-! ## The calls, stretch by stretch -/

section OnCpu

variable (hproc : (s.cpu c).proc = some p) (hthd : (s.cpu c).thd = some t)

theorem Core.cpuShare (h : Core none s) (p : ProcPtr) (share : Word) :
    Core none (s.cpuShare p share) := by
  refine Core.setMlfq ?_ _
  obtain ⟨_, _, _, _, heq⟩ := setCpuShare_proc s.mlfq (s.proc p) share
  exact h.setProc p (by rw [heq]) fun hpin => by rw [heq]; exact hpin

theorem Core.allthdRound (h : Core none s) : Core none (s.allthdRound p t).2 := by
  have hset : Core none (s.setExited p false) := h.setProc p rfl id
  unfold Kernel.allthdRound
  split
  · exact hset
  · split
    · exact hset
    · exact h

@[simp] theorem allthdRound_cpu : (s.allthdRound p t).2.cpu = s.cpu := by
  unfold allthdRound
  split
  · rfl
  · split <;> rfl

@[simp] theorem allthdRound_pc : (s.allthdRound p t).2.pc = s.pc := by
  unfold allthdRound
  split
  · rfl
  · split <;> rfl

theorem Core.allthdexit (h : Core none s) : Core none (s.allthdexit p t).2 := by
  unfold Kernel.allthdexit
  split
  · exact h
  · refine Core.allthdRound (Core.wakeThds ?_ p)
    exact h.setProc p rfl id

@[simp] theorem allthdexit_cpu : (s.allthdexit p t).2.cpu = s.cpu := by
  unfold allthdexit
  split
  · rfl
  · simp

@[simp] theorem allthdexit_pc : (s.allthdexit p t).2.pc = s.pc := by
  unfold allthdexit
  split
  · rfl
  · simp

theorem Core.exitReturn (h : Core none s) (k : ExitCaller) : Core none (s.exitReturn t k) := by
  cases k with
  | sysExit => exact h.ret t 0
  | threadExit retval => exact h.setPc t rfl

/-- The loop over the children changes parents and wakes. -/
theorem Core.abandon_loop (h : Core none s) :
    Core none ((List.finRange NPROC).foldl (abandon p) s) ∧
      ((List.finRange NPROC).foldl (abandon p) s).cpu = s.cpu ∧
      ((List.finRange NPROC).foldl (abandon p) s).pc = s.pc := by
  refine List.foldlRecOn (motive := fun s' => Core none s' ∧ s'.cpu = s.cpu ∧ s'.pc = s.pc)
    _ _ ⟨h, rfl, rfl⟩ ?_
  rintro s' ⟨hs', hcpu, hpc⟩ q _
  unfold abandon
  split
  · have h1 : Core none (s'.setProc q fun x => { x with parent := some s'.initproc }) :=
      hs'.setProc q rfl id
    dsimp only
    split
    · exact ⟨h1.wakeup1 _, by simpa using hcpu, by simpa using hpc⟩
    · exact ⟨h1, hcpu, hpc⟩
  · exact ⟨hs', hcpu, hpc⟩

include hproc hthd

theorem Core.exitFinish (h : Core none s) (hhold : (s.pc t).hold = {}) :
    Core none (s.exitFinish c p t) := by
  obtain ⟨h1, hcpu, hpc⟩ := Core.abandon_loop (p := p)
    (h.wakeup1 ((s.proc p).parent.map .proc))
  refine h1.park ?_ ?_ (.inl rfl) ?_ rfl
  · rw [hcpu]
    simpa using hproc
  · rw [hcpu]
    simpa using hthd
  · rw [hpc]
    simpa using hhold

theorem Core.exitRound {r : Round × Kernel} (h : Core none r.2) (k : ExitCaller)
    (hcpu : r.2.cpu = s.cpu) (hhold : (r.2.pc t).hold = {}) : Core none (exitRound c p t k r) := by
  rw [← hcpu] at hproc hthd
  obtain ⟨r, s₁⟩ := r
  cases r with
  | done => exact h.exitFinish hproc hthd hhold
  | failed => exact (h.exitReturn k).release
  | sleeps => exact h.sleep hproc hthd hhold rfl _

theorem Core.execFinish (h : Core none s) : Core none (s.execFinish c p t) := by
  obtain ⟨hrun, hmp⟩ := h.running c t (by simp) hthd
  have hlive : (s.proc p).state ≠ .zombie := by
    have hle := h.le_proc t p (hmp.symm.trans hproc)
    rw [hrun] at hle
    intro hz
    rw [hz] at hle
    exact absurd hle (by decide)
  have h1 : Core none (s.freeAll fun u x => u ≠ t ∧ x.mp = some p ∧ x.state = .zombie) := by
    refine h.freeAll (fun u x hx => hx.2.2) fun u x q hx hq => ?_
    obtain rfl : p = q := Option.some.inj (hx.2.1.symm.trans hq)
    exact hlive
  exact ((h1.switchuvm c p).ret t 0).release

theorem Core.execRound {r : Round × Kernel} (h : Core none r.2) (hcpu : r.2.cpu = s.cpu)
    (hhold : (r.2.pc t).hold = {}) : Core none (execRound c p t r) := by
  rw [← hcpu] at hproc hthd
  obtain ⟨r, s₁⟩ := r
  cases r with
  | done => exact h.execFinish hproc hthd
  | failed => exact (h.ret t (-1)).release
  | sleeps => exact h.sleep hproc hthd hhold rfl _

section Calls

variable (h : Core none s)

include h

theorem Core.threadExitDie (hhold : (s.pc t).hold = {}) (retval : Word) :
    Core none (s.threadExitDie c p t retval) := by
  have h1 : Core none (s.setThd t fun x => { x with eax := retval }) := h.setThd t rfl rfl
  refine (h1.wakeup1 _).park ?_ ?_ (.inl rfl) ?_ rfl
  · simpa using hproc
  · simpa using hthd
  · simpa using hhold

theorem Core.joinRound (hhold : (s.pc t).hold = {}) (tid : Word) :
    Core none (s.joinRound c p t tid) := by
  obtain ⟨hrun, hmp⟩ := h.running c t (by simp) hthd
  unfold Kernel.joinRound
  split
  · rename_i u hfind
    have hu := List.find?_some hfind
    simp only [decide_eq_true_eq] at hu
    refine ((h.freeThd hu.2.2 fun q hq hz => ?_).ret t 0).release
    have hle := h.le_proc t p (hmp.symm.trans hproc)
    obtain rfl : p = q := Option.some.inj (hu.1.symm.trans hq)
    rw [hrun, hz] at hle
    exact absurd hle (by decide)
  · split
    · exact (h.ret t (-1)).release
    · exact h.sleep hproc hthd hhold rfl _

theorem Core.waitRound (hhold : (s.pc t).hold = {}) : Core none (s.waitRound c p t) := by
  unfold Kernel.waitRound
  split
  · rename_i q hfind
    have hq := List.find?_some hfind
    simp only [decide_eq_true_eq] at hq
    exact ((h.reap hq.2).ret t _).release
  · split
    · exact (h.ret t (-1)).release
    · exact h.sleep hproc hthd hhold rfl _

omit hproc hthd in
theorem Core.kill (pid : Word) : Core none (s.kill t pid) := by
  unfold Kernel.kill
  split
  · refine Core.ret (Core.wakeThds ?_ _) t 0
    exact h.setProc _ rfl id
  · exact h.ret t (-1)

omit hproc hthd in
theorem Core.exitNextFd (k : ExitCaller) (fd : Fin NOFILE) : Core none (s.exitNextFd t k fd) := by
  unfold Kernel.exitNextFd
  split <;> exact h.setPc t rfl

/-- A thread switched to goes on. -/
theorem Core.resume : Core none (s.resume c p t) := by
  have hawake : Core none (s.setThd t fun x => { x with chan := none }) := h.setThd t rfl rfl
  unfold Kernel.resume
  dsimp only
  cases hpc : s.pc t
  case forkret => exact (h.setPc t rfl).release
  case slept => exact (hawake.setPc t rfl).release
  case waitSleep => exact hawake.waitRound hproc hthd (by rw [setThd_pc, hpc]; rfl)
  case joinSleep tid =>
    refine Core.joinRound ?_ ?_ hawake ?_ tid
    · exact hproc
    · exact hthd
    · rw [setThd_pc, hpc]
      rfl
  case exitSleep k =>
    refine Core.exitRound (s := s) hproc hthd hawake.allthdRound k ?_ ?_
    · rw [allthdRound_cpu, setThd_cpu]
    · rw [allthdRound_pc, setThd_pc, hpc]
      rfl
  case execSleep =>
    refine Core.execRound (s := s) hproc hthd hawake.allthdRound ?_ ?_
    · rw [allthdRound_cpu, setThd_cpu]
    · rw [allthdRound_pc, setThd_pc, hpc]
      rfl
  all_goals exact h.release

/-- The next stretch of a call. -/
theorem Core.kstep {ok : Bool} {page : Option Nat} (hok : (s.pc t).fills → ok = true)
    (hs : s.kstep c p t ok page = some s') : Core none s' := by
  obtain ⟨hrun, hmp⟩ := h.running c t (by simp) hthd
  replace hmp : (s.thread t).mp = some p := hmp.symm.trans hproc
  unfold Kernel.kstep at hs
  cases hpc : s.pc t
  all_goals
    have hhold := congrArg Pc.hold hpc
    simp only [hpc, Option.ite_none_right_eq_some, Option.some.injEq, reduceCtorEq] at hs
    -- under the lock or not, `hs` names the next state
    first | subst hs | obtain ⟨-, rfl⟩ := hs | skip
  case sysret =>
    refine h.setPc t ?_
    split <;> rfl
  case chdirSet ip =>
    refine Core.ret ?_ t 0
    exact h.setProc p rfl id
  case setCpuShare share =>
    exact (h.cpuShare p share).ret t _
  case kill pid =>
    exact h.kill pid
  case wait =>
    exact h.waitRound hproc hthd hhold
  case threadJoin tid =>
    exact h.joinRound hproc hthd hhold tid
  case threadExit retval =>
    unfold threadExit
    split <;> exact h.setPc t rfl
  case threadExitDie retval =>
    exact h.threadExitDie hproc hthd hhold retval
  case exitEntry k =>
    unfold exitEntry
    split
    · exact h.halt (by decide) (by decide)
    · exact h.setPc t rfl
  case exitClose k fd =>
    unfold exitClose
    split
    · exact h.setPc t rfl
    · exact h.exitNextFd k fd
  case exitClear k fd =>
    refine Core.exitNextFd ?_ k fd
    exact h.setProc p rfl id
  case exitPut k =>
    unfold exitPut
    split
    · exact h.halt (by decide) (by decide)
    · refine Core.setPc ?_ t rfl
      exact h.congr (fun _ => rfl) (fun _ hq => hq) (fun _ => ⟨rfl, rfl⟩) (fun _ => rfl)
        (fun _ => ⟨rfl, rfl⟩) h.found
  case exitCwd k =>
    refine Core.setPc ?_ t rfl
    exact h.setProc p rfl id
  case exitShare k =>
    exact (h.cpuShare p 0).setPc t rfl
  case exitThds k =>
    exact Core.exitRound hproc hthd h.allthdexit k allthdexit_cpu (by rw [allthdexit_pc]; exact hhold)
  case fork =>
    exact h.allocproc hrun
  case forkCopy np =>
    split
    · exact h.setPc_keep t hhold.symm
    · exact h.forkFail hhold
  case allocthd k =>
    exact h.allocthd hrun hhold
  case allocStack k n =>
    exact h.allocStack hrun hhold page
  case allocOwner k n =>
    exact h.allocOwner hrun hmp hhold
  case forkInit np n =>
    exact h.forkInit hhold
  case forkFile np n fd =>
    exact h.forkFile hhold
  case forkCwd np n =>
    exact h.forkCwd hhold
  case forkRun np n =>
    exact h.forkRun hhold
  case createStack n =>
    rw [hok (by rw [hpc]; rfl)]
    exact h.setPc_keep t hhold.symm
  case createArgs n =>
    rw [hok (by rw [hpc]; rfl)]
    exact h.setPc_keep t hhold.symm
  case createRun n =>
    exact h.createRun hrun hmp hhold
  case exec relative =>
    unfold execPath
    split
    · exact h.halt (by decide) (by decide)
    · split
      · exact h.setPc t rfl
      · exact h.ret t (-1)
  case execThds =>
    exact Core.execRound hproc hthd h.allthdexit allthdexit_cpu (by rw [allthdexit_pc]; exact hhold)

/-- A step of a call that leaves the tables alone. -/
theorem Core.work {w : Work} (hpc : s.pc t = .kernel)
    (hs : s.work c p t w = some s') : Core none s' := by
  have hhold := congrArg Pc.hold hpc
  cases w
  all_goals
    simp only [Kernel.work, Option.ite_none_right_eq_some, Option.some.injEq] at hs
    first | subst hs | obtain ⟨-, rfl⟩ := hs
  case sleep chan =>
    exact h.sleep hproc hthd hhold rfl chan
  case wakeup chan =>
    exact h.wakeup1 _
  case path =>
    split
    · exact h.halt (by decide) (by decide)
    · exact h
  case chdir ip =>
    split
    · exact h.halt (by decide) (by decide)
    · exact h.setPc t rfl
  case ofile fd f =>
    exact h.setProc p rfl id
  case grow =>
    exact h.switchuvm c p
  case done r =>
    exact h.ret t r

end Calls

end OnCpu

/-! ## Whole runs -/

/-- No `thread_create` fails after it has taken its slot: `ualloc` and `copyout` succeed. -/
def CreatesSlots (s : Kernel) : Act → Prop
  | .kstep c ok _ => ∀ pt ∈ s.onCpu c, (s.pc pt.2).fills → ok = true
  | _ => True

instance (s : Kernel) : DecidablePred s.CreatesSlots := fun a => by
  induction a using Act.casesOn <;>
    first | exact (s.onCpu _).decidableForallMem | exact isTrue trivial

theorem onCpu_iff : s.onCpu c = some (p, t) ↔ (s.cpu c).proc = some p ∧ (s.cpu c).thd = some t := by
  unfold onCpu
  cases (s.cpu c).proc <;> cases (s.cpu c).thd <;> simp

/-- What a step is: who acts, and where it is. -/
inductive Steps (s : Kernel) : Act → Kernel → Prop
  | dispatch {c : CpuId} (hidle : (s.cpu c).thd = none) : Steps s (.dispatch c) (s.scheduler c)
  | intrWakeup {chan : Chan} : Steps s (.intrWakeup chan) (s.wakeup1 (some chan))
  | resume {c : CpuId} {p : ProcPtr} {t : ThdPtr} (hon : s.onCpu c = some (p, t))
      (hlock : s.lock = some c) : Steps s (.resume c) (s.resume c p t)
  | preempt {c : CpuId} {p : ProcPtr} {t : ThdPtr} (hon : s.onCpu c = some (p, t))
      (hrun : (s.thread t).state = .running) : Steps s (.preempt c) (s.yield c p t)
  | trap {c : CpuId} {p : ProcPtr} {t : ThdPtr} {bad : Bool} {s₁ : Kernel}
      (hon : s.onCpu c = some (p, t)) (hpc : s.pc t = .user)
      (h₁ : s₁ = if bad then s.setKilled p else s) :
      Steps s (.trap c bad) (if s₁.dying p then s₁.setPc t (.threadExit 0) else s₁)
  | syscall {c : CpuId} {p : ProcPtr} {t : ThdPtr} {call : Syscall} (hon : s.onCpu c = some (p, t))
      (hpc : s.pc t = .user) :
      Steps s (.syscall c call) (s.setPc t (if s.dying p then .threadExit 0 else call.entry))
  | kstep {c : CpuId} {p : ProcPtr} {t : ThdPtr} {ok : Bool} {page : Option Nat} {s' : Kernel}
      (hon : s.onCpu c = some (p, t)) (hk : s.kstep c p t ok page = some s') :
      Steps s (.kstep c ok page) s'
  | work {c : CpuId} {p : ProcPtr} {t : ThdPtr} {w : Work} {s' : Kernel}
      (hon : s.onCpu c = some (p, t)) (hpc : s.pc t = .kernel) (hw : s.work c p t w = some s') :
      Steps s (.work c w) s'

theorem step_panic {a : Act} (hs : s.step a = some s') : s.panic = none := by
  unfold step at hs
  split at hs
  · cases hs
  · rename_i hp
    simpa using hp

theorem onCpu_some {f : ProcPtr → ThdPtr → Option Kernel}
    (h : (match s.onCpu c with | some (p, t) => f p t | none => none) = some s') :
    ∃ p t, s.onCpu c = some (p, t) ∧ f p t = some s' := by
  split at h
  · rename_i p t hon
    exact ⟨p, t, hon, h⟩
  · cases h

theorem steps {a : Act} (hs : s.step a = some s') : Steps s a s' := by
  have hpanic := step_panic hs
  unfold step at hs
  rw [if_neg (by simp [hpanic])] at hs
  cases a with
  | dispatch c =>
    obtain ⟨hidle, heq⟩ := Option.ite_none_right_eq_some.mp hs
    rw [← Option.some.inj heq]
    exact .dispatch hidle.2.2
  | intrWakeup chan =>
    obtain ⟨-, heq⟩ := Option.ite_none_right_eq_some.mp hs
    rw [← Option.some.inj heq]
    exact .intrWakeup
  | resume c =>
    obtain ⟨p, t, hon, hs⟩ := onCpu_some hs
    obtain ⟨hlock, heq⟩ := Option.ite_none_right_eq_some.mp hs
    rw [← Option.some.inj heq]
    exact .resume hon hlock
  | preempt c =>
    obtain ⟨p, t, hon, hs⟩ := onCpu_some hs
    obtain ⟨hrun, heq⟩ := Option.ite_none_right_eq_some.mp hs
    rw [← Option.some.inj heq]
    exact .preempt hon hrun.2
  | trap c bad =>
    obtain ⟨p, t, hon, hs⟩ := onCpu_some hs
    obtain ⟨hpc, heq⟩ := Option.ite_none_right_eq_some.mp hs
    rw [← apply_ite some] at heq
    rw [← Option.some.inj heq]
    exact .trap hon hpc.1 rfl
  | syscall c call =>
    obtain ⟨p, t, hon, hs⟩ := onCpu_some hs
    obtain ⟨hpc, heq⟩ := Option.ite_none_right_eq_some.mp hs
    rw [← Option.some.inj heq]
    exact .syscall hon hpc.1
  | kstep c ok page =>
    obtain ⟨p, t, hon, hs⟩ := onCpu_some hs
    exact .kstep hon (Option.ite_none_right_eq_some.mp hs).2
  | work c w =>
    obtain ⟨p, t, hon, hs⟩ := onCpu_some hs
    obtain ⟨hpc, hw⟩ := Option.ite_none_right_eq_some.mp hs
    exact .work hon hpc.1 hw

/-- The next stretch of the call that thread `t` is in. -/
theorem step_kstep {ok : Bool} {page : Option Nat} (hon : s.onCpu c = some (p, t))
    (hs : s.step (.kstep c ok page) = some s') : s.kstep c p t ok page = some s' := by
  cases steps hs with
  | kstep hon' hk =>
    cases hon.symm.trans hon'
    exact hk

/-- Every step keeps the invariant. -/
theorem Core.step (h : Core none s) {a : Act} (hok : CreatesSlots s a) (hs : s.step a = some s') :
    Core none s' := by
  cases steps hs with
  | dispatch => exact h.scheduler _
  | intrWakeup => exact h.wakeup1 _
  | resume hon =>
    obtain ⟨hproc, hthd⟩ := onCpu_iff.mp hon
    exact h.resume hproc hthd
  | preempt hon =>
    obtain ⟨hproc, hthd⟩ := onCpu_iff.mp hon
    exact h.yield hproc hthd
  | @trap c p t bad s₁ hon _ h₁ =>
    have hcore : Core none s₁ := by
      rw [h₁]
      split
      · exact h.setProc _ rfl id
      · exact h
    split
    · exact hcore.setPc t rfl
    · exact hcore
  | @syscall c p t call =>
    refine h.setPc t ?_
    split
    · rfl
    · cases call <;> rfl
  | kstep hon hk =>
    obtain ⟨hproc, hthd⟩ := onCpu_iff.mp hon
    exact h.kstep hproc hthd (hok _ hon) hk
  | work hon hpc hw =>
    obtain ⟨hproc, hthd⟩ := onCpu_iff.mp hon
    exact h.work hproc hthd hpc hw

theorem boot_core : Core none boot := by
  have hthd : ∀ t, (boot.thread t).state = (if t = 0 then .runnable else .unused) ∧
      (boot.thread t).mp = if t = 0 then some 0 else none := by
    intro t
    by_cases ht : t = 0 <;> simp [boot, ht]
  have hproc : ∀ p, (boot.proc p).state = if p = 0 then .runnable else .unused := by
    intro p
    by_cases hp : p = 0 <;> simp [boot, hp]
  have hhold : ∀ t, (boot.pc t).hold = {} := by
    intro t
    by_cases ht : t = 0 <;> simp [boot, ht, Pc.hold]
  refine ⟨⟨?_, ?_, ?_, ?_, ?_, ?_, ?_, ?_, ?_, ?_, by decide⟩, by simp [boot], by simp [boot]⟩
  · intro t p
    rw [(hthd t).1, (hthd t).2, hproc]
    by_cases ht : t = 0
    · rintro hp
      simp only [ht, ↓reduceIte, Option.some.injEq] at hp
      simp [ht, ← hp]
    · simp [ht]
  · intro p
    rw [hproc]
    by_cases hp : p = 0
    · subst hp
      exact fun _ _ => ⟨0, by simp [hthd]⟩
    · simp [hp]
  · intro t
    rw [(hthd t).1, (hthd t).2]
    by_cases ht : t = 0 <;> simp [ht]
  · intro t
    rw [(hthd t).1, (hthd t).2]
    by_cases ht : t = 0 <;> simp [ht]
  · intro p
    rw [hproc]
    by_cases hp : p = 0
    · simp [hp, boot]
    · simp only [hp, ↓reduceIte]
      exact fun h => absurd h (by decide)
  all_goals intro t
  · simp [hhold]
  · simp [hhold]
  · simp [hhold]
  · simp [hhold]
  · simp [hhold]

/-- The invariant holds in every state of every run without such a failure. -/
theorem core_of_reaches (h : Reaches Kernel.step CreatesSlots boot s) : Core none s :=
  h.invariant boot_core fun _ _ _ hs hok hstep => hs.step hok hstep

/-- The largest state among the threads of `p`, UNUSED if there is none. -/
def threadsSup (s : Kernel) (p : ProcPtr) : ProcState :=
  (Finset.univ.filter fun t => (s.thread t).mp = some p).sup fun t => (s.thread t).state

theorem Core.state_eq_threadsSup (h : Core none s) (hp : (s.proc p).state ≠ .embryo) :
    (s.proc p).state = s.threadsSup p := by
  refine le_antisymm ?_ ?_
  · by_cases hu : (s.proc p).state = .unused
    · rw [hu]
      exact bot_le
    · obtain ⟨t, ht, hst⟩ := h.attained p hu hp
      rw [← hst]
      exact Finset.le_sup (f := fun t => (s.thread t).state) (by simpa using ht)
  · refine Finset.sup_le fun t ht => h.le_proc t p ?_
    simpa using ht

theorem Core.runnable_iff (h : Core none s) :
    (s.proc p).state = .runnable ↔
      ∃ t, (s.thread t).mp = some p ∧ (s.thread t).state = .runnable := by
  constructor
  · intro hp
    obtain ⟨t, ht, hst⟩ := h.attained p (by rw [hp]; decide) (by rw [hp]; decide)
    exact ⟨t, ht, hst.trans hp⟩
  · rintro ⟨t, ht, hst⟩
    exact le_antisymm (le_runnable _) (hst ▸ h.le_proc t p ht)

/-- In every run in which no `thread_create` fails after it has taken its slot: a process is
RUNNABLE exactly when one of its threads is, a process not in EMBRYO is in the largest state
of its threads, and neither search for a RUNNABLE thread has failed. -/
theorem state_is_max_of_threads (h : Reaches Kernel.step CreatesSlots boot s) :
    (∀ p, (s.proc p).state = .runnable ↔
      ∃ t, (s.thread t).mp = some p ∧ (s.thread t).state = .runnable) ∧
    (∀ p, (s.proc p).state ≠ .embryo → (s.proc p).state = s.threadsSup p) ∧
    s.panic ≠ some .noThreadScheduler ∧ s.panic ≠ some .noThreadSched := by
  have hcore := core_of_reaches h
  exact ⟨fun p => hcore.runnable_iff, fun p hp => hcore.state_eq_threadsSup hp, hcore.found⟩

/-! ## Two runs -/

/-- A concrete run from boot, with what can be checked at its end. -/
theorem boot_reaches (ok : Kernel → Act → Prop) [∀ s a, Decidable (ok s a)] (as : List Act)
    (P : Kernel → Prop) [DecidablePred P] (h : (runIf Kernel.step ok boot as).any fun s => P s) :
    ∃ s, Reaches Kernel.step ok boot s ∧ P s :=
  exists_reaches as P h

/-- `n` stretches of the call on CPU `c`, with memory for all of them. -/
def ksteps (c n : Nat) : List Act := List.replicate n (.kstep c true (some 7))

/-- The thread on CPU `c` forks. -/
def forkActs (c : Nat) : List Act := .syscall c .fork :: ksteps c 25

/-- `init` forks. The child runs on a second CPU and starts a thread, which runs on a third. -/
def siblingsRun : List Act :=
  [.dispatch 0, .resume 0] ++ forkActs 0 ++ [.dispatch 1, .resume 1, .syscall 1 .threadCreate] ++
    ksteps 1 7 ++ [.dispatch 2, .resume 2]

theorem state_is_max_after_create :
    ∃ s, Reaches Kernel.step CreatesSlots boot s ∧ (s.proc 1).state = s.threadsSup 1 ∧
      (s.proc 1).state = .running := by
  obtain ⟨s, hreach, h1⟩ := boot_reaches CreatesSlots siblingsRun
    (fun s => (s.proc 1).state = .running) (by decide +kernel)
  exact ⟨s, hreach, (state_is_max_of_threads hreach).2.1 1 (by rw [h1]; decide), h1⟩

/-- A `thread_create` of process 1 fails and leaves `mp` on slot 3. The process exits; before
its parent reaps it, a `thread_create` of process 2 takes slot 3 and is about to claim it.
The parent's `wait` frees the slot a second time, the parent's own `thread_create` takes it,
and both calls complete. -/
def staleOwnerRun : List Act :=
  [.dispatch 0, .resume 0] ++ forkActs 0 ++ forkActs 0 ++
    [.dispatch 1, .resume 1, .dispatch 2, .resume 2] ++
    -- `ualloc` fails
    [.syscall 1 .threadCreate] ++ ksteps 1 3 ++ [.kstep 1 false none] ++ ksteps 1 1 ++
    -- the only thread leaves, and sleeps for the slot that is left
    [.syscall 1 (.threadExit 0)] ++ ksteps 1 22 ++
    [.syscall 0 (.kill 2)] ++ ksteps 0 2 ++ [.dispatch 1, .resume 1] ++ ksteps 1 1 ++
    [.syscall 2 .threadCreate] ++ ksteps 2 2 ++
    [.syscall 0 .wait] ++ ksteps 0 2 ++
    [.syscall 0 .threadCreate] ++ ksteps 0 7 ++ [.dispatch 1, .resume 1] ++
    [.syscall 0 .threadCreate] ++ ksteps 0 3 ++ ksteps 2 4 ++ ksteps 0 3

/-- After that run `init` is RUNNABLE and has no RUNNABLE thread, with the lock free, and the
scheduler panics two dispatches later. -/
theorem stale_owner_run :
    (∃ s, Reaches Kernel.step (fun _ _ => True) boot s ∧ s.lock = none ∧ s.panic = none ∧
      (s.proc 0).state = .runnable ∧
      ∀ t, (s.thread t).mp = some 0 → (s.thread t).state ≠ .runnable) ∧
    ∃ s, Reaches Kernel.step (fun _ _ => True) boot s ∧ s.panic = some .noThreadScheduler := by
  constructor
  · exact boot_reaches _ staleOwnerRun (fun s => s.lock = none ∧ s.panic = none ∧
      (s.proc 0).state = .runnable ∧
      ∀ t, (s.thread t).mp = some 0 → (s.thread t).state ≠ .runnable) (by decide +kernel)
  · exact boot_reaches _ (staleOwnerRun ++ [.dispatch 3, .resume 3, .dispatch 4])
      (fun s => s.panic = some .noThreadScheduler) (by decide +kernel)

end Kernel

end Xv6
