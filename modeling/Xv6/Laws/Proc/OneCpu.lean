import Xv6.Laws.Proc.Born
import Xv6.Laws.Proc.Robin
import Xv6.Laws.Proc.Slice

/-!
# The loop and the kernel

The loop follows the kernel while one CPU is at work: `scheduler()` is a `pick`, a `yield()` or a
`sleep()` is a `sched`, `set_cpu_share` is one, and a `wakeup` is one for each process it wakes.
What the loop does not have, threads and their places, may change in between. It writes the state of
the process that runs only when it takes the CPU or gives it up, so there the two may differ.

`fork`, `exit` and `wait` are not followed: the loop takes a slot in one step, and between
`allocproc` and the last section of `fork` the kernel shows it half filled in.
-/

namespace Xv6

open Xv6.Lib

/-- The loop has the same of two processes, their states apart. -/
def Proc.Alike (x y : Proc) : Prop :=
  x.stype = y.stype ∧ x.qlev = y.qlev ∧ x.ticks = y.ticks ∧ x.share = y.share ∧ x.pass = y.pass

namespace Kernel

variable {s s' k : Kernel} {l : Loop} {a : Act} {p : ProcPtr} {t : ThdPtr} {c : CpuId}

/-- The loop, at `k`, agrees with the kernel up to the state of the process that runs. -/
structure Shows (s k : Kernel) : Prop where
  running : k.running = s.running
  mlfq : k.mlfq = s.mlfq
  panic : k.panic = s.panic
  proc : ∀ q, (k.proc q).Alike (s.proc q)
  state : ∀ q, s.running ≠ some q → (k.proc q).state = (s.proc q).state

attribute [local grind =] setProc_proc
attribute [local grind] Kernel.running Kernel.setProc Proc.Alike Xv6.setCpuShare Loop.tick Loop.wakeup

namespace Shows

/-! ## What the loop does not see -/

theorem refl (s : Kernel) : Shows s s := by
  constructor <;> grind

theorem trans (h' : Shows s' s) (h : Shows s k) : Shows s' k := by
  cases h
  cases h'
  constructor <;> grind

theorem congr (h : Shows s k) (hproc : s'.proc = s.proc) (hrun : s'.running = s.running)
    (hmlfq : s'.mlfq = s.mlfq) (hpanic : s'.panic = s.panic) : Shows s' k := by
  cases h
  constructor <;> grind

theorem setProc {f : Proc → Proc} (hrun : s.running = some p)
    (hf : (s.proc p).Alike (f (s.proc p))) : Shows (s.setProc p f) s := by
  constructor <;> grind

theorem setstate (hrun : s.running = some p) (t : ThdPtr) (st : ProcState) :
    Shows (s.setstate p t st) s := by
  have hthd : Shows (s.setThd t fun x => { x with state := st }) s :=
    (refl s).congr rfl rfl rfl rfl
  rw [setstate_eq]
  exact (setProc (hthd.running.symm.trans hrun) ⟨rfl, rfl, rfl, rfl, rfl⟩).trans hthd

/-! ## The functions of the scheduler -/

theorem reduce (h : Shows s k) : Shows s.reduce k.reduce := by
  cases h
  unfold Kernel.reduce
  constructor <;> grind

theorem boost (h : Shows s k) : Shows s.boost k.boost := by
  cases h
  unfold Kernel.boost
  constructor <;> grind

theorem charge (h : Shows s k) : Shows (s.charge p) (k.charge p) := by
  obtain ⟨hrun, hmlfq, hpanic, hproc, hstate⟩ := h
  have hp := hproc p
  unfold Kernel.charge
  rw [hp.1, hp.2.2.1, hp.2.2.2.1, hmlfq]
  split <;> split
  · exact ⟨hrun, hmlfq, by simp [hpanic], hproc, hstate⟩
  · constructor <;> grind
  · exact ⟨hrun, hmlfq, by simp [hpanic], hproc, hstate⟩
  · exact ⟨hrun, rfl, hpanic, hproc, hstate⟩

theorem demote (h : Shows s k) : Shows (s.demote p) (k.demote p) := by
  cases h
  unfold Kernel.demote
  constructor <;> grind

theorem cpuShare (h : Shows s k) (share : Word) :
    Shows (s.cpuShare p share) (k.cpuShare p share) := by
  cases h
  unfold Kernel.cpuShare
  constructor <;> grind

theorem leaveCpu (h : Shows s k) (hstate : ∀ q, (k.proc q).state = (s.proc q).state) :
    Shows (s.leaveCpu 0 p) (k.leaveCpu 0 p) := by
  have hcpu : Shows (s.setCpu 0 fun x => { x with proc := none, thd := none })
      (k.setCpu 0 fun x => { x with proc := none, thd := none }) :=
    { h with running := rfl, state := fun q _ => hstate q }
  exact { hcpu.charge.demote with }

theorem getschedproc (h : Shows s k) (hidle : s.running = none) :
    k.getschedproc.1 = s.getschedproc.1 ∧ s.getschedproc.2.running = none ∧
      Shows s.getschedproc.2 k.getschedproc.2 := by
  have hstate : ∀ q, (k.proc q).state = (s.proc q).state := fun q => h.state q (by simp [hidle])
  have hget : k.getmlfqproc = s.getmlfqproc := by
    simp only [getmlfqproc, (h.proc _).1, hstate, h.mlfq]
  have hchoice : k.schedChoice = s.schedChoice := by
    simp only [schedChoice, getstrideproc, (h.proc _).1, (h.proc _).2.2.2.2, hstate, hget, h.mlfq]
  unfold Kernel.getschedproc
  rw [hget, hchoice]
  split
  · split
    · exact ⟨rfl, hidle, { h with mlfq := by rw [h.mlfq] }⟩
    · exact ⟨rfl, hidle, h⟩
  · exact ⟨rfl, hidle, h⟩

/-! ## Taking the CPU and giving it up -/

theorem withNext {m : Panic} {f : Kernel → ThdPtr → Kernel}
    (hp : (s.withNext p m f).panic = none) :
    ∃ u, s.withNext p m f = f (s.setProc p fun q => { q with pin := some u }) u := by
  rcases withNext_cases f with h | h | ⟨u, -, -, h⟩
  · exact absurd (h ▸ hp) halt_panic_ne
  · exact absurd (h ▸ hp) halt_panic_ne
  · exact ⟨u, h⟩

theorem scheduler (h : Shows s l.kernel) (hidle : s.running = none) (h0 : s.panic = none)
    (hp : (s.scheduler 0).panic = none) : Shows (s.scheduler 0) l.pick.kernel := by
  have hpanic : l.pick.kernel.panic = none := by rw [Loop.pick_panic, h.panic, h0]
  obtain ⟨_, _, _, _, heq⟩ := reduce_boost_eq s
  have hget := h.reduce.boost.getschedproc (by rw [heq]; exact hidle)
  unfold Loop.pick at hpanic ⊢
  unfold Kernel.scheduler at hp ⊢
  generalize s.reduce.boost.getschedproc = y at hget hp ⊢
  generalize l.kernel.reduce.boost.getschedproc = z at hget hpanic ⊢
  obtain ⟨o, s₁⟩ := y
  obtain ⟨o', k⟩ := z
  obtain ⟨rfl, hrun, hk⟩ := hget
  cases o' with
  | none => exact hk
  | some p =>
    dsimp only at hp hrun hk ⊢
    obtain ⟨u, h⟩ := withNext hp
    rw [h] at hp ⊢
    constructor
    · simp [Kernel.running, setstate_eq]
    · simp [setstate_eq, switchuvm_mlfq, hk.mlfq]
    · exact hpanic.trans hp.symm
    · intro q
      have hq := hk.proc q
      by_cases he : q = p
      · subst he
        simpa [Proc.Alike, setstate_eq, switchuvm_proc] using ⟨hq.1, hq.2.1, hq.2.2.2⟩
      · simpa [he, setstate_eq, switchuvm_proc] using hq
    · intro q hq
      have hne : p ≠ q := by simpa [Kernel.running, setstate_eq] using hq
      simpa [setstate_eq, switchuvm_proc, hne.symm] using hk.state q (by simp [hrun])

theorem sched (h : Shows s l.kernel) (hrun : s.running = some p)
    (hp : (s.sched 0 p t).panic = none) :
    Shows (s.sched 0 p t) (l.sched p (s.proc p).state).kernel := by
  obtain ⟨hrun', hmlfq, hpanic, hproc, hstate⟩ := h
  have hsp := hproc p
  obtain ⟨s₁, hs₁⟩ : ∃ s₁, (s.setProc p fun q => { q with
    ticks := q.ticks + 1, pass := if q.stype = .mlfq then q.pass + 1 else q.pass }) = s₁ := ⟨_, rfl⟩
  have htick : ∀ st, Shows s₁ (l.tick p st).kernel := by
    intro st
    constructor <;> grind
  have hst : ∀ q, ((l.tick p (s.proc p).state).kernel.proc q).state = (s₁.proc q).state := by
    grind
  have hends : (s₁.proc p).state = .runnable ∧ (s₁.proc p).ticks < (s₁.proc p).quan ↔
      ¬ l.Ends p (s.proc p).state := by
    grind [Loop.Ends, Proc.quan]
  have hrun₁ : s₁.running = some p := hs₁ ▸ hrun
  unfold Kernel.sched at hp ⊢
  rw [hs₁] at hp ⊢
  unfold Loop.sched
  split at hp
  · exact absurd hp halt_panic_ne
  rename_i ht
  rw [if_neg ht]
  dsimp only at hp ⊢
  by_cases hE : l.Ends p (s.proc p).state
  · rw [if_pos hE, if_neg (by simpa [hends] using hE)]
    exact (htick _).leaveCpu hst
  · -- the next thread of the process goes on
    rw [if_pos (hends.mpr hE)] at hp ⊢
    rw [if_neg hE]
    refine Shows.trans ?_ (htick _)
    obtain ⟨u, h⟩ := withNext hp
    rw [h]
    have hpin := setProc (f := fun q => { q with pin := some u }) hrun₁ ⟨rfl, rfl, rfl, rfl, rfl⟩
    have hset := (setstate (hpin.running.symm.trans hrun₁) u .running).trans hpin
    split
    · exact hset.congr rfl rfl rfl rfl
    · exact hset.congr rfl (by simp [Kernel.running]) rfl rfl

end Shows

/-! ## Steps and runs -/

/-- The loop can go on to where it agrees with `s`. -/
def Follows (s : Kernel) (l : Loop) : Prop :=
  ∃ l', Reaches Loop.step (fun _ _ => True) l l' ∧ Shows s l'.kernel

theorem Follows.one {b : LoopAct} {l' : Loop} (hs : l.step b = some l') (h : Shows s l'.kernel) :
    Follows s l := ⟨l', .tail .refl trivial hs, h⟩

/-- A `sched()` that finds its process not RUNNING. -/
theorem Shows.gives (h : Shows s l.kernel) (hl : l.kernel.panic = none) (hrun : s.running = some p)
    (hst : (s.proc p).state ≠ .unused ∧ (s.proc p).state ≠ .running)
    (hp : (s.sched 0 p t).panic = none) : Follows (s.sched 0 p t) l := by
  refine .one (b := .sched (s.proc p).state) ?_ (h.sched hrun hp)
  simp [Loop.step, hl, h.running.trans hrun, hst]

/-- A process whose only RUNNING thread falls asleep does not stay RUNNING. -/
theorem Core.asleep_state (h : Core (some c) (s.setstate p t .sleeping))
    (hmp : (s.thread t).mp = some p) (hone : ∀ u, u ≠ t → (s.thread u).state ≠ .running) :
    ((s.setstate p t .sleeping).proc p).state ≠ .unused ∧
      ((s.setstate p t .sleeping).proc p).state ≠ .running := by
  refine ⟨fun e => absurd (e ▸ le_setstate hmp) (by decide), fun e => ?_⟩
  obtain ⟨u, -, hu⟩ := h.attained p (by rw [e]; decide) (by rw [e]; decide)
  rw [e, setstate_thread] at hu
  split at hu
  · cases hu
  · rename_i hut
    exact hone u hut hu

/-- `sleep()` by the only RUNNING thread. -/
theorem Shows.sleep {chan : Chan} {k : Pc} (h : Shows s l.kernel) (hcore : Core none s)
    (h0 : s.panic = none) (hon : s.onCpu 0 = some (p, t)) (hhold : (s.pc t).hold = {})
    (hone : ∀ u, u ≠ t → (s.thread u).state ≠ .running)
    (hp : (s.sleep 0 p t chan k).panic = none) : Follows (s.sleep 0 p t chan k) l := by
  obtain ⟨hrun, hthd⟩ := onCpu_iff.mp hon
  have hmp : (s.thread t).mp = some p := (hcore.running 0 t nofun hthd).2.symm.trans hrun
  have hchan : Shows (s.setThd t fun x => { x with chan := some chan }) l.kernel :=
    h.congr rfl rfl rfl rfl
  have hset := (Shows.setstate (hchan.running.symm.trans (h.running.trans hrun)) t
    .sleeping).trans hchan
  have hcore' := Core.lower (hcore.setThd t (g := fun x => { x with chan := some chan }) rfl rfl)
    hrun hthd (.inr (by decide : ProcState.embryo < .sleeping)) fun hne => absurd hhold hne
  refine Shows.gives (hset.congr rfl rfl rfl rfl) (h.panic.trans h0)
    (hset.running.symm.trans (h.running.trans hrun)) (hcore'.asleep_state ?_ fun u hu => ?_) hp
  · simpa using hmp
  · simpa [hu] using hone u hu

theorem Shows.wakeup1 (h : Shows s l.kernel) (hcore : Core none s) (o : Option Chan)
    (hp : (s.wakeup1 o).panic = none) : Follows (s.wakeup1 o) l := by
  rw [wakeup1_eq] at hp ⊢
  refine (wakeAll_induct _ (motive := fun s => Core none s ∧ (s.panic = none → Follows s l))
    ⟨hcore, fun _ => ⟨l, .refl, h⟩⟩ ?_ fun s u hs _ _ => ?_).2 hp
  · rintro s u p ⟨hcore, hs⟩ ⟨hu, -⟩ hmp
    refine ⟨hcore.wake hu hmp, fun hp => ?_⟩
    rw [setstate_panic] at hp
    obtain ⟨l', hl, h⟩ := hs hp
    by_cases hrun : s.running = some p
    · exact ⟨l', hl, (Shows.setstate hrun u _).trans h⟩
    · obtain ⟨hrun', hmlfq, hpanic, hproc, hstate⟩ := h
      have hle : .sleeping ≤ (l'.kernel.proc p).state := by
        rw [hstate p hrun, ← hu]
        exact hcore.le_proc u p hmp
      refine ⟨l'.wakeup p, hl.tail (a := .wakeup p) trivial ?_, ?_⟩
      · simp [Loop.step, hpanic.trans hp, hle]
      · rw [setstate_runnable]
        refine Shows.congr (s := s.setProc p fun x => { x with state := .runnable }) ?_ rfl rfl rfl rfl
        constructor <;> grind
  · exact ⟨hs.1.halt (by decide) (by decide), fun hp => absurd hp halt_panic_ne⟩

/-- A step of a run on one CPU: it is one of the loop's, or it leaves alone what the loop sees. A
thread falls asleep while no other runs. -/
inductive OneCpu (s : Kernel) : Act → Prop
  | dispatch : OneCpu s (.dispatch 0)
  | preempt : OneCpu s (.preempt 0)
  | intrWakeup {chan : Chan} : OneCpu s (.intrWakeup chan)
  | wakeup {chan : Chan} : OneCpu s (.work 0 (.wakeup chan))
  | share {share : Word} {ok : Bool} {page : Option Nat}
      (hpc : ∀ t ∈ (s.cpu 0).thd, s.pc t = .setCpuShare share) : OneCpu s (.kstep 0 ok page)
  | sleep {chan : Chan} (hone : ∀ u, (s.thread u).state = .running → (s.cpu 0).thd = some u) :
      OneCpu s (.work 0 (.sleep chan))
  | unseen {a : Act} (h : ∀ s', s.step a = some s' → Shows s' s) : OneCpu s a

/-- A step of the kernel is one of the loop, several wakeups, or none. -/
theorem Shows.step (h : Shows s l.kernel) (hcore : Core none s) (hok : OneCpu s a)
    (hs : s.step a = some s') (hp : s'.panic = none) : Follows s' l := by
  have h0 : s.panic = none := step_panic hs
  have hl := h.panic.trans h0
  cases hok with
  | dispatch =>
    obtain ⟨hidle, rfl⟩ : s.running = none ∧ s.scheduler 0 = s' := by grind [Kernel.step]
    exact .one (Loop.step_pick hl (h.running.trans hidle)) (h.scheduler hidle h0 hp)
  | preempt =>
    cases steps hs with
    | @preempt _ p t hon =>
      have hrun : s.running = some p := (onCpu_iff.mp hon).1
      have hset := Shows.setstate hrun t .runnable
      refine (hset.trans h).gives hl (hset.running.symm.trans hrun) ?_ hp
      simp [setstate_runnable]
  | intrWakeup =>
    cases steps hs with
    | intrWakeup => exact h.wakeup1 hcore _ hp
  | wakeup =>
    cases steps hs with
    | work _ _ hw =>
      obtain ⟨-, hw⟩ := Option.ite_none_right_eq_some.mp hw
      rw [← Option.some.inj hw] at hp ⊢
      exact h.wakeup1 hcore _ hp
  | @share share _ _ hpc =>
    cases steps hs with
    | @kstep _ p _ _ _ _ hon hk =>
      obtain ⟨hrun, hthd⟩ := onCpu_iff.mp hon
      rw [Kernel.kstep, hpc _ hthd] at hk
      obtain ⟨-, hk⟩ := Option.ite_none_right_eq_some.mp hk
      cases hk
      have hstep : l.step (.setCpuShare share) =
          some { l with kernel := l.kernel.cpuShare p share } := by
        unfold Loop.step
        rw [if_neg (by simp [hl]), h.running.trans hrun]
      exact .one hstep ((h.cpuShare share).congr rfl rfl rfl rfl)
  | @sleep chan hone =>
    cases steps hs with
    | @work _ p t _ _ hon hpc hw =>
      obtain ⟨hrun, hthd⟩ := onCpu_iff.mp hon
      obtain ⟨-, hw⟩ := Option.ite_none_right_eq_some.mp hw
      cases hw
      refine h.sleep hcore h0 hon (by simp [hpc, Pc.hold]) (fun u hu hr => ?_) hp
      exact hu (Option.some.inj ((hone u hr).symm.trans hthd))
  | unseen hsee => exact ⟨l, .refl, (hsee _ hs).trans h⟩

/-- The loop follows a run on one CPU. -/
theorem loop_follows {s₀ : Kernel} (hcore : Core none s₀) (h : Shows s₀ l.kernel)
    (hrun : Reaches Kernel.step (fun s a => CreatesSlots s a ∧ OneCpu s a) s₀ s)
    (hp : s.panic = none) : Follows s l := by
  have hinv : Core none s ∧ (s.panic = none → Follows s l) := by
    refine hrun.invariant (motive := fun s => Core none s ∧ (s.panic = none → Follows s l))
      ⟨hcore, fun _ => ⟨l, .refl, h⟩⟩ ?_
    intro s a s' ⟨hcore, hs⟩ ⟨hslots, hok⟩ hstep
    refine ⟨hcore.step hslots hstep, fun hp => ?_⟩
    obtain ⟨l₁, hl, h⟩ := hs (step_panic hstep)
    obtain ⟨l₂, hl', h'⟩ := h.step hcore hok hstep hp
    exact ⟨l₂, hl.trans hl', h'⟩
  exact hinv.2 hp

end Kernel

end Xv6
