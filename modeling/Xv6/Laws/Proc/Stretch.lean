import Xv6.Laws.Proc.Slots
import Xv6.Laws.Proc.Step

/-!
# What one step can do to the thread table

`Stretch` lists what a thread's step can do to the slots, the places of the threads and the
flags of the processes, up to scheduling: each constructor names the state in the middle, and
`Quiet` leads from there to the next state. Unlike `Effect` it needs only `Slots`, so it covers
runs in which `thread_create` fails half-way; in return `wait` may only reap a child all of
whose slots are ZOMBIE (`ReapsDead`).

`label` names, from the state before the step, the steps a history is kept of.
-/

namespace Xv6

open Xv6.Lib

/-- The CPU whose thread acts. -/
def Act.cpu : Act → Option CpuId
  | .resume c | .preempt c | .trap c _ | .syscall c _ | .kstep c _ _ | .work c _ => some c
  | _ => none

/-- What a step does for a thread that is being made. -/
inductive Making where
  | nothing
  /-- `t->mp = p` -/
  | owns (k : AllocCaller) (n : ThdPtr)
  /-- `nth->usp = sp`, with a stack from `ualloc` -/
  | places (n : ThdPtr)
  /-- `nth->usp = curthd->usp`, in `fork` -/
  | inherits (n : ThdPtr)
  /-- `ufree(curproc, nth->usp)`, when `copyout` has failed -/
  | drops (n : ThdPtr)
  deriving DecidableEq

/-- What the step does at place `k`. -/
def Act.making : Act → Pc → Making
  | .kstep _ _ _, .allocOwner k n => .owns k n
  | .kstep _ _ _, .forkInit _ n => .inherits n
  | .kstep _ ok _, .createStack n => bif ok then .places n else .nothing
  | .kstep _ ok _, .createArgs n => bif ok then .nothing else .drops n
  | _, _ => .nothing

/-- The new thread gets a user stack. -/
def Making.stacks : Making → Bool
  | .places _ | .inherits _ => true
  | _ => false

/-- The steps that a history records. -/
inductive Label where
  | plain
  /-- `exec` is called -/
  | begins
  /-- `thread_join` finds the ZOMBIE slot and returns 0 -/
  | joins (u : ThdPtr)
  /-- `thread_exit(retval)` ends the thread -/
  | dies (retval : Word)
  /-- `exec` commits -/
  | commits
  deriving DecidableEq

namespace Kernel

/-- The ZOMBIE thread of `p` that `thread_join(tid)` finds. -/
def joinTarget (s : Kernel) (p : ProcPtr) (tid : Word) : Option ThdPtr :=
  (List.finRange NTHREAD).find? fun u =>
    (s.thread u).mp = some p ∧ (s.thread u).tid = tid ∧ (s.thread u).state = .zombie

/-- The ZOMBIE child that `wait` finds. -/
def waitTarget (s : Kernel) (p : ProcPtr) : Option ProcPtr :=
  (List.finRange NPROC).find? fun q => (s.proc q).parent = some p ∧ (s.proc q).state = .zombie

/-- A round of `thread_join`. -/
def joinLabel (s : Kernel) (p : ProcPtr) (tid : Word) : Label :=
  match s.joinTarget p tid with
  | some u => .joins u
  | none => .plain

/-- The next stretch of a call. -/
def callLabel (s : Kernel) (p : ProcPtr) (t : ThdPtr) : Pc → Label
  | .threadJoin tid => s.joinLabel p tid
  | .threadExitDie retval => .dies retval
  | .execThds => bif (s.proc p).exited || s.havethds p t then .plain else .commits
  | _ => .plain

/-- The stretch behind a `sched()`. -/
def wakeLabel (s : Kernel) (p : ProcPtr) (t : ThdPtr) : Pc → Label
  | .joinSleep tid => s.joinLabel p tid
  | .execSleep => bif s.havethds p t then .plain else .commits
  | _ => .plain

/-- What thread `t` of `p` is about to do with action `a`. -/
def label (s : Kernel) (p : ProcPtr) (t : ThdPtr) : Act → Label
  | .syscall _ (.exec _) => bif s.dying p then .plain else .begins
  | .kstep .. => s.callLabel p t (s.pc t)
  | .resume _ => s.wakeLabel p t (s.pc t)
  | _ => .plain

/-- `wait` reaps only a child all of whose slots are ZOMBIE. -/
def ReapsDead (s : Kernel) : Act → Prop
  | .kstep c _ _ => ∀ pt, s.onCpu c = some pt → s.pc pt.2 = .wait →
      ∀ q, s.waitTarget pt.1 = some q → s.AllZombie q
  | .resume c => ∀ pt, s.onCpu c = some pt → s.pc pt.2 = .waitSleep →
      ∀ q, s.waitTarget pt.1 = some q → s.AllZombie q
  | _ => True

instance (s : Kernel) : DecidablePred s.ReapsDead
  -- not by instance search, which enumerates all pairs of slots
  | .kstep c _ _ => @Option.decidableForallMem _ (fun pt : ProcPtr × ThdPtr => s.pc pt.2 = .wait →
      ∀ q ∈ s.waitTarget pt.1, s.AllZombie q) inferInstance (s.onCpu c)
  | .resume c => @Option.decidableForallMem _ (fun pt : ProcPtr × ThdPtr => s.pc pt.2 = .waitSleep →
      ∀ q ∈ s.waitTarget pt.1, s.AllZombie q) inferInstance (s.onCpu c)
  | .dispatch _ | .preempt _ | .intrWakeup _ | .trap _ _ | .syscall _ _ | .work _ _ =>
    inferInstanceAs (Decidable True)

/-- The same CPUs, the same holder of the lock, the same cursors. -/
structure Near (s s₁ : Kernel) : Prop where
  cpu : s₁.cpu = s.cpu
  lock : s₁.lock = s.lock
  pin : ∀ q, (s₁.proc q).pin = (s.proc q).pin
  panic : s₁.panic = s.panic

/-- What a step by thread `t` of `p` on CPU `c` can do to the thread table, up to scheduling. -/
inductive Stretch (s : Kernel) (a : Act) (c : CpuId) (p : ProcPtr) (t : ThdPtr) (s' : Kernel) : Prop
  | quiet (hl : s.label p t a = .plain) (h : Quiet none none s s')
  /-- the thread moves on, with the reservations it had or with none -/
  | move {k : Pc} (hl : s.label p t a = .plain) (hk : k.goesOn) (hx : k.inExec → (s.pc t).inExec)
      (hhold : k.hold = {} ∨ k.hold.np = (s.pc t).hold.np ∧ k.hold.slot = (s.pc t).hold.slot ∧
        k.hold.owned = (s.pc t).hold.owned ∧ k.stacked = (s.pc t).stacked ∧
        (k.placed → (s.pc t).placed ∨ (a.making (s.pc t)).stacks))
      (h : Quiet none none (s.setPc t k) s')
  | begins {relative : Bool} (hl : s.label p t a = .begins) (ha : a = .syscall c (.exec relative))
      (h : s' = s.setPc t (.exec relative))
  /-- the thread falls asleep; in `thread_join`, with no ZOMBIE thread of that tid -/
  | sleep {k : Pc} {chan : Chan} (hl : s.label p t a = .plain) (hk : k.rests)
      (hx : k.inExec → (s.pc t).inExec)
      (hj : ∀ tid, k = .joinSleep tid → chan = .proc p ∧ s.joinTarget p tid = none)
      (hc : chan = .proc p ∨ a = .work c (.sleep chan))
      (h : Quiet (some c) none (s.asleep p t chan k) s')
  /-- `allthdexit` sets `exited`, wakes the threads of the process and goes to sleep -/
  | await {e : ExitCaller} {k : Pc} (hl : s.label p t a = .plain)
      (hpc : s.pc t = .exitThds e ∧ k = .exitSleep e ∨ s.pc t = .execThds ∧ k = .execSleep)
      (hwoke : ∀ u, (s.thread u).mp = some p → (s.thread u).state ≠ .sleeping)
      (h : Quiet (some c) none
        ((s.setExited p true).asleep p t (.proc p) k) s')
  /-- `allthdexit` fails after a sleep -/
  | back {e : ExitCaller} {k : Pc} (hl : s.label p t a = .plain)
      (hpc : s.pc t = .exitSleep e ∧ k = e.back ∨ s.pc t = .execSleep ∧ k = .sysret)
      (h : Quiet none none ((s.setExited p false).setPc t k) s')
  /-- `exec` frees the other threads -/
  | commit (hl : s.label p t a = .commits) (hpc : s.pc t = .execThds ∨ s.pc t = .execSleep)
      (hsib : ¬ s.Sibling p t)
      (h : Quiet none none ((((s.setExited p false).freeAll fun u r =>
        u ≠ t ∧ r.mp = some p ∧ r.state = .zombie).switchuvm c p).setPc t .sysret) s')
  /-- the end of `exit`: `s₁` is the state before the thread dies -/
  | finish {s₁ : Kernel} (hl : s.label p t a = .plain) (hsib : ¬ s.Sibling p t)
      (h₁ : Quiet none none (s.setExited p false) s₁)
      (hnear : Near s s₁)
      (h : Quiet (some c) none (s₁.dead p t) s')
  /-- the end of `thread_exit`, with everybody woken who sleeps on the process -/
  | die {retval : Word} (hl : s.label p t a = .dies retval) (heax : (s.thread t).eax = retval)
      (hwoke : ∀ u, (s.thread u).state = .sleeping → (s.thread u).chan ≠ some (.proc p))
      (h : Quiet (some c) none (s.dead p t) s')
  | kill {q : ProcPtr} {pid : Word} (hl : s.label p t a = .plain) (hpc : s.pc t = .kill pid)
      (hwoke : ∀ u, (s.thread u).mp = some q → (s'.thread u).state ≠ .sleeping)
      (h : Quiet none none ((s.setKilled q).setPc t .sysret) s')
  /-- a process that misbehaves is killed -/
  | misbehave (hl : s.label p t a = .plain) (hpc : s.pc t = .user)
      (h : Quiet none none
        ((s.setKilled p).setPc t (.threadExit 0)) s')
  | join {u : ThdPtr} {tid : Word} (hl : s.label p t a = .joins u) (hu : s.joinTarget p tid = some u)
      (hpc : s.pc t = .threadJoin tid ∨ s.pc t = .joinSleep tid)
      (h : Quiet none none ((s.freeThd u).setPc t .sysret) s')
  | reap {q : ProcPtr} (hl : s.label p t a = .plain) (hz : (s.proc q).state = .zombie)
      (hall : s.AllZombie q) (h : Quiet none none ((s.reap q).setPc t .sysret) s')
  | allocproc {np : ProcPtr} (hl : s.label p t a = .plain) (hnp : (s.proc np).state = .unused)
      (h : Quiet none none
        ((s.setProc np fun q => { q with state := .embryo }).setPc t (.forkCopy np)) s')
  | forkFail {np : ProcPtr} (hl : s.label p t a = .plain) (hnp : (s.pc t).hold.np = some np)
      (howned : (s.pc t).hold.owned = false)
      (h : Quiet none none ((s.setProc np fun q => { q with state := .unused }).setPc t .sysret) s')
  /-- `allocthd` takes a slot -/
  | alloc {n : ThdPtr} {k : AllocCaller} (hl : s.label p t a = .plain) (hpc : s.pc t = .allocthd k)
      (hn : (s.thread n).state = .unused)
      (h : s' = { s.setThd n fun x => { x with state := .embryo, tid := s.nexttid } with
        nexttid := s.nexttid + 1 }.setPc t (.allocStack k n))
  | stack {n : ThdPtr} {k : AllocCaller} {page : Nat} (hl : s.label p t a = .plain)
      (hpc : s.pc t = .allocStack k n)
      (h : s' = (s.setThd n fun x => { x with kstack := some page }).setPc t (.allocOwner k n))
  | own {n : ThdPtr} {k : AllocCaller} {ok : Bool} {page : Option Nat} (hl : s.label p t a = .plain)
      (ha : a = .kstep c ok page) (hpc : s.pc t = .allocOwner k n) (h : s' = s.allocOwner p t k n)
  /-- `thread_create` fails and gives its slot back -/
  | fail {n : ThdPtr} (hl : s.label p t a = .plain) (hslot : (s.pc t).hold.slot = some n)
      (h : Quiet none none
        ((s.unalloc n).setPc t .sysret) s')
  /-- `fork` fails and gives its slot and its process back -/
  | failFork {n : ThdPtr} {np : ProcPtr} (hl : s.label p t a = .plain)
      (hslot : (s.pc t).hold.slot = some n) (hnp : (s.pc t).hold.np = some np)
      (howned : (s.pc t).hold.owned = false)
      (h : Quiet none none (((s.unalloc n).setProc
        np fun q => { q with state := .unused }).setPc t .sysret) s')
  /-- a new thread can run -/
  | start {n : ThdPtr} {q : ProcPtr} (hl : s.label p t a = .plain)
      (hslot : (s.pc t).hold.slot = some n) (howned : (s.pc t).hold.owned = true)
      (hstacked : (s.pc t).stacked = true) (hplaced : (s.pc t).placed = true)
      (hmp : (s.thread n).mp = some q)
      (h : Quiet none none (((s.setThd n fun x => { x with state := .runnable }).setProc q
        fun x => { x with state := .runnable }).setPc t .sysret) s')
  /-- `growproc` switches to its process again -/
  | grow (hl : s.label p t a = .plain) (ha : a = .work c .grow) (h : s' = s.switchuvm c p)

variable {s s' s₁ : Kernel} {a : Act} {x y : Option CpuId} {p q np : ProcPtr} {t u n : ThdPtr}
  {c : CpuId} {k : Pc} {e : ExitCaller} {ok : Bool} {page : Option Nat} {chan : Chan} {tid : Word}

theorem Near.refl (s : Kernel) : Near s s := ⟨rfl, rfl, fun _ => rfl, rfl⟩

theorem Near.trans {s₂ : Kernel} (h : Near s s₁) (h' : Near s₁ s₂) : Near s s₂ where
  cpu := h'.cpu.trans h.cpu
  lock := h'.lock.trans h.lock
  pin q := (h'.pin q).trans (h.pin q)
  panic := h'.panic.trans h.panic

theorem Near.onCpu (h : Near s s₁) (c : CpuId) : s₁.onCpu c = s.onCpu c := by
  unfold Kernel.onCpu
  rw [h.cpu]

theorem near_setThd (g : Thread → Thread) : Near s (s.setThd t g) := ⟨rfl, rfl, fun _ => rfl, rfl⟩

theorem near_setProc {f : Proc → Proc} (hf : (f (s.proc p)).pin = (s.proc p).pin) :
    Near s (s.setProc p f) :=
  ⟨rfl, rfl, setProc_keeps Proc.pin hf, rfl⟩

theorem near_setstate (st : ProcState) : Near s (s.setstate p t st) :=
  ⟨setstate_cpu, setstate_lock, fun _ => setstate_pin, setstate_panic⟩

/-- The thread moves on, outside `exec` and with no reservations. -/
theorem Stretch.goes (hl : s.label p t a = .plain) (hk : k.goesOn ∧ k.inExec = false ∧ k.hold = {})
    (h : Quiet none none (s.setPc t k) s') : Stretch s a c p t s' :=
  .move hl hk.1 (by simp [hk.2.1]) (.inl hk.2.2) h

/-! ## Labels and scheduling -/

section Label

variable (h : Quiet x y s s₁)

include h

theorem Quiet.joinTarget (p : ProcPtr) (tid : Word) : s₁.joinTarget p tid = s.joinTarget p tid := by
  unfold Kernel.joinTarget
  congr 1
  funext u
  rw [(h.thd u).mp, (h.thd u).tid]
  simp only [(h.thd u).zombie]

theorem Quiet.sibling (p : ProcPtr) (t : ThdPtr) : s₁.Sibling p t ↔ s.Sibling p t := by
  unfold Sibling
  refine exists_congr fun u => and_congr_right fun _ => ?_
  rw [(h.thd u).mp]
  exact and_congr_right fun _ => not_congr (h.thd u).zombie

theorem Quiet.havethds (p : ProcPtr) (t : ThdPtr) : s₁.havethds p t = s.havethds p t := by
  rw [Bool.eq_iff_iff, havethds_iff, havethds_iff]
  exact h.sibling p t

theorem Quiet.joinLabel (p : ProcPtr) (tid : Word) : s₁.joinLabel p tid = s.joinLabel p tid := by
  unfold Kernel.joinLabel
  rw [h.joinTarget]

theorem Quiet.callLabel (p : ProcPtr) (t : ThdPtr) (k : Pc) :
    s₁.callLabel p t k = s.callLabel p t k := by
  cases k
  case threadJoin tid => exact h.joinLabel p tid
  case execThds =>
    show (bif (s₁.proc p).exited || s₁.havethds p t then Label.plain else .commits) =
      bif (s.proc p).exited || s.havethds p t then .plain else .commits
    rw [h.havethds p t, (h.flags p).2]
  all_goals rfl

theorem Quiet.wakeLabel (p : ProcPtr) (t : ThdPtr) (k : Pc) :
    s₁.wakeLabel p t k = s.wakeLabel p t k := by
  cases k
  case joinSleep tid => exact h.joinLabel p tid
  case execSleep =>
    show (bif s₁.havethds p t then Label.plain else .commits) =
      bif s.havethds p t then .plain else .commits
    rw [h.havethds p t]
  all_goals rfl

theorem Quiet.label (p : ProcPtr) (t : ThdPtr) (a : Act) : s₁.label p t a = s.label p t a := by
  cases a
  case syscall c call =>
    cases call
    case exec relative =>
      simp only [Kernel.label, dying, (h.flags p).1, (h.flags p).2]
    all_goals rfl
  case kstep c ok page =>
    simp only [Kernel.label]
    rw [h.pc]
    exact h.callLabel p t _
  case resume c =>
    simp only [Kernel.label]
    rw [h.pc]
    exact h.wakeLabel p t _
  all_goals rfl

end Label

/-- A step that commits is the section of `exec`, or its last wakeup in `allthdexit`. -/
theorem label_commits (h : s.label p t a = .commits) :
    (∃ d ok page, a = .kstep d ok page ∧ s.pc t = .execThds) ∨
      ∃ d, a = .resume d ∧ s.pc t = .execSleep := by
  cases a
  case kstep d ok page =>
    change s.callLabel p t (s.pc t) = .commits at h
    refine .inl ⟨d, ok, page, rfl, ?_⟩
    cases hpc : s.pc t
    case execThds => rfl
    case threadJoin tid =>
      rw [hpc] at h
      change s.joinLabel p tid = .commits at h
      unfold joinLabel at h
      split at h <;> cases h
    all_goals
      rw [hpc] at h
      cases h
  case resume d =>
    change s.wakeLabel p t (s.pc t) = .commits at h
    refine .inr ⟨d, rfl, ?_⟩
    cases hpc : s.pc t
    case execSleep => rfl
    case joinSleep tid =>
      rw [hpc] at h
      change s.joinLabel p tid = .commits at h
      unfold joinLabel at h
      split at h <;> cases h
    all_goals
      rw [hpc] at h
      cases h
  case syscall d call =>
    cases call
    case exec relative =>
      change (bif s.dying p then Label.plain else .begins) = .commits at h
      cases hd : s.dying p <;> rw [hd] at h <;> cases h
    all_goals cases h
  all_goals cases h

theorem Quiet.setPc (h : Quiet x y s s₁) (t : ThdPtr) (k : Pc) :
    Quiet x y (s.setPc t k) (s₁.setPc t k) where
  thd := h.thd
  pc := by
    funext u
    rw [setPc_pc, setPc_pc, h.pc]
  nexttid := h.nexttid
  flags := h.flags
  proc := h.proc
  panic := h.panic
  cpus hp hc := by
    have hc' : Cpus x s := ⟨hc.running, hc.alone⟩
    exact ⟨(h.cpus hp hc').running, (h.cpus hp hc').alone⟩
  stacked hs := by
    have hs' : Stacked s := ⟨hs.esp0, hs.cursor, hs.found⟩
    exact ⟨(h.stacked hs').esp0, (h.stacked hs').cursor, (h.stacked hs').found⟩
  kfree := h.kfree

/-! ## The calls -/

theorem sameSlot_running {r r' : Thread} (hr : r.state = .running) (hmp : r'.mp = r.mp)
    (htid : r'.tid = r.tid) (hk : r'.kstack = r.kstack) (hst : r'.state = r.state) : SameSlot r r' := by
  refine ⟨hmp, htid, hk, .inl hst, fun h => ?_, fun h => ?_⟩
  · rw [hst, hr] at h
    cases h
  · rw [hr] at h
    cases h

theorem quiet_cpuShare (share : Word) : Quiet x x s (s.cpuShare p share) := by
  obtain ⟨stype, qlev, share', pass, heq⟩ := setCpuShare_proc s.mlfq (s.proc p) share
  unfold cpuShare
  refine Quiet.trans (quiet_setProc (p := p) (f := fun q => (setCpuShare s.mlfq q share).2.2) ?_ ⟨?_, ?_⟩ ?_)
    (quiet_setMlfq _) <;> rw [heq]

theorem quiet_drops (f : ProcPtr → Nat) : Quiet x x s { s with drops := f } :=
  .frame (fun _ => .refl _) (fun _ => id) (fun _ => .inl rfl) (fun _ => ⟨rfl, rfl⟩)
    (fun _ _ _ _ _ => rfl) rfl rfl rfl (fun _ => id) id (fun _ _ => id)

theorem behind_goesOn (fd : Fin NOFILE) :
    (e.behind fd).goesOn ∧ (e.behind fd).inExec = false ∧ (e.behind fd).hold = {} := by
  unfold ExitCaller.behind
  cases nextSlot fd <;> exact ⟨rfl, rfl, rfl⟩

section OnCpu

variable (h : Slots none s) (hpanic : s.panic = none) (hon : s.onCpu c = some (p, t))

include h hpanic hon

theorem Slots.onCpu : (s.thread t).state = .running ∧ (s.thread t).mp = some p := by
  obtain ⟨hproc, hthd⟩ := onCpu_iff.mp hon
  obtain ⟨hrun, hmp⟩ := (h.cpus hpanic).running c t (by simp) hthd
  exact ⟨hrun, hmp.symm.trans hproc⟩

theorem quiet_awake : Quiet none none s (s.setThd t fun x => { x with chan := none }) :=
  quiet_setThd (sameSlot_running (h.onCpu hpanic hon).1 rfl rfl rfl rfl) rfl

omit h hpanic hon in
/-- A running thread's call returns. -/
theorem quiet_ret (hrun : (s.thread t).state = .running) (r : Word) :
    Quiet x x (s.setPc t .sysret) (s.ret t r) :=
  quiet_setThd (s := s.setPc t .sysret) (t := t) (g := fun x => { x with eax := r })
    (sameSlot_running hrun rfl rfl rfl rfl) rfl

theorem ret_stretch (hl : s.label p t a = .plain) (r : Word) : Stretch s a c p t (s.ret t r) :=
  .goes hl (k := .sysret) ⟨rfl, rfl, rfl⟩ (quiet_ret (h.onCpu hpanic hon).1 r)

omit h hpanic in
theorem quiet_park (hcpu : s₁.cpu = s.cpu) : Quiet (some c) none s₁ (s₁.sched c p t) := by
  obtain ⟨hproc, hthd⟩ := onCpu_iff.mp hon
  refine quiet_sched ?_ ?_
  · rw [hcpu]
    exact hproc
  · rw [hcpu]
    exact hthd

omit h hpanic in
theorem sleep_stretch (hl : s.label p t a = .plain) (hk : k.rests) (hx : k.inExec → (s.pc t).inExec)
    (hj : ∀ tid, k = .joinSleep tid → chan = .proc p ∧ s.joinTarget p tid = none)
    (hc : chan = .proc p ∨ a = .work c (.sleep chan)) : Stretch s a c p t (s.sleep c p t chan k) :=
  .sleep hl hk hx hj hc (quiet_park hon (by simp [asleep]))

/-- One round of `wait`. -/
theorem waitRound_stretch (hl : s.label p t a = .plain)
    (hreap : ∀ q, s.waitTarget p = some q → s.AllZombie q) :
    Stretch s a c p t (s.waitRound c p t) := by
  obtain ⟨hrun, -⟩ := h.onCpu hpanic hon
  unfold waitRound
  split
  · rename_i q hfind
    have hq := List.find?_some hfind
    simp only [decide_eq_true_eq] at hq
    have hall := hreap q hfind
    have hrun' : ((s.reap q).thread t).state = .running := by
      rw [reap_eq, setProc_thread, freeAll_thread, if_neg]
      · exact hrun
      · intro hmp
        rw [hall t hmp] at hrun
        cases hrun
    exact .reap hl hq.2 hall ((quiet_ret hrun' _).trans quiet_release)
  · split
    · exact .goes hl (k := .sysret) ⟨rfl, rfl, rfl⟩ ((quiet_ret hrun _).trans quiet_release)
    · exact sleep_stretch hon hl rfl (fun hx => by cases hx) (by simp) (.inl rfl)

/-- One round of `thread_join`. -/
theorem joinRound_stretch (hl : s.label p t a = s.joinLabel p tid)
    (hpc : s.pc t = .threadJoin tid ∨ s.pc t = .joinSleep tid) :
    Stretch s a c p t (s.joinRound c p t tid) := by
  obtain ⟨hrun, -⟩ := h.onCpu hpanic hon
  unfold joinRound
  split
  · rename_i u hfind
    have hu := List.find?_some hfind
    simp only [decide_eq_true_eq] at hu
    have htarget : s.joinTarget p tid = some u := hfind
    have hrun' : ((s.freeThd u).thread t).state = .running := by
      rw [freeThd_thread, if_neg]
      · exact hrun
      · rintro rfl
        rw [hu.2.2] at hrun
        cases hrun
    refine .join ?_ htarget hpc ((quiet_ret hrun' _).trans quiet_release)
    rw [hl, joinLabel, htarget]
  · rename_i hnone
    have htarget : s.joinTarget p tid = none := hnone
    have hplain : s.label p t a = .plain := by rw [hl, joinLabel, htarget]
    split
    · exact .goes hplain (k := .sysret) ⟨rfl, rfl, rfl⟩ ((quiet_ret hrun _).trans quiet_release)
    · refine sleep_stretch hon hplain rfl (fun hx => by cases hx) (fun tid' htid' => ?_) (.inl rfl)
      cases htid'
      exact ⟨rfl, htarget⟩

omit hpanic hon in
theorem Slots.wakeup1_near (o : Option Chan) : Near s (s.wakeup1 o) := by
  rw [wakeup1_eq]
  have hkeep : Slots none (s.wakeAll fun r => r.state = .sleeping ∧ r.chan = o) ∧
      Near s (s.wakeAll fun r => r.state = .sleeping ∧ r.chan = o) := by
    refine wakeAll_induct _ (motive := fun s' => Slots none s' ∧ Near s s') ⟨h, .refl s⟩
      (fun s' u q hs' hu hmp => ?_) fun s' u hs' hu hmp => ?_
    · refine ⟨(quiet_setstate hmp ?_ ?_ (by decide) (by decide)).slots hs'.1,
        hs'.2.trans (near_setstate _)⟩
      · rw [hu.1]
        decide
      · rw [hu.1]
        decide
    · exact absurd hmp (hs'.1.owner u (by rw [hu.1]; exact .inl (by decide)))
  exact hkeep.2

omit h hpanic hon in
/-- `exit` passes the children on. -/
theorem Slots.abandon (p : ProcPtr) (l : List ProcPtr) (h : Slots none s) :
    Quiet none none s (l.foldl (abandon p) s) ∧ Near s (l.foldl (Kernel.abandon p) s) := by
  have hkeep : Slots none (l.foldl (Kernel.abandon p) s) ∧
      Quiet none none s (l.foldl (Kernel.abandon p) s) ∧ Near s (l.foldl (Kernel.abandon p) s) := by
    refine List.foldlRecOn (motive := fun s' => Slots none s' ∧ Quiet none none s s' ∧ Near s s') l _
      ⟨h, .refl _ _, .refl s⟩ ?_
    rintro s' ⟨hslots, hquiet, hnear⟩ q -
    unfold Kernel.abandon
    split
    · dsimp only
      have hset : Quiet none none s' (s'.setProc q fun x => { x with parent := some s'.initproc }) :=
        quiet_setProc rfl ⟨rfl, rfl⟩ rfl
      have hslots' := hset.slots hslots
      have hnear' : Near s (s'.setProc q fun x => { x with parent := some s'.initproc }) :=
        hnear.trans (near_setProc rfl)
      split
      · exact ⟨(quiet_wakeup1 _).slots hslots', (hquiet.trans hset).trans (quiet_wakeup1 _),
          hnear'.trans (hslots'.wakeup1_near _)⟩
      · exact ⟨hslots', hquiet.trans hset, hnear'⟩
    · exact ⟨hslots, hquiet, hnear⟩
  exact hkeep.2

omit hpanic in
/-- The end of `exit`. -/
theorem finish_stretch (hl : s.label p t a = .plain) (hsib : ¬ s.Sibling p t) :
    Stretch s a c p t ((s.setExited p false).exitFinish c p t) := by
  have hslots : Slots none (s.setExited p false) := h.setProc_same rfl
  have hset : Near s (s.setExited p false) := near_setProc rfl
  have hwake : Quiet none none (s.setExited p false)
      ((s.setExited p false).wakeup1
        (((s.setExited p false).proc p).parent.map .proc)) := quiet_wakeup1 _
  obtain ⟨hquiet, hnear⟩ := (hwake.slots hslots).abandon p (List.finRange NPROC)
  replace hnear := (hset.trans (hslots.wakeup1_near _)).trans hnear
  have heq : (s.setExited p false).exitFinish c p t =
      (((List.finRange NPROC).foldl (abandon p)
        ((s.setExited p false).wakeup1
          (((s.setExited p false).proc p).parent.map .proc))).dead p t).sched
        c p t := rfl
  rw [heq]
  generalize (List.finRange NPROC).foldl (abandon p) _ = s₂ at hquiet hnear
  refine .finish hl hsib (hwake.trans hquiet) hnear (quiet_park hon ?_)
  show (s₂.setstate p t .zombie).cpu = s.cpu
  rw [setstate_cpu, hnear.cpu]

/-- `exec` has the process to itself. -/
theorem commit_stretch (hl : s.label p t a = .commits) (hpc : s.pc t = .execThds ∨ s.pc t = .execSleep)
    (hsib : ¬ s.Sibling p t) :
    Stretch s a c p t ((s.setExited p false).execFinish c p t) := by
  refine .commit hl hpc hsib ((quiet_ret ?_ 0).trans quiet_release)
  rw [switchuvm_thread, freeAll_thread, if_neg]
  · exact (h.onCpu hpanic hon).1
  · exact fun hne => hne.1 rfl

theorem quiet_exitReturn (e : ExitCaller) : Quiet none none (s.setPc t e.back) (s.exitReturn t e) := by
  cases e with
  | sysExit => exact quiet_ret (h.onCpu hpanic hon).1 0
  | threadExit retval => exact .refl _ _

/-- A round of `allthdexit` in `exit`, after a sleep. -/
theorem exitAgain_stretch (hl : s.label p t a = .plain) (hpc : s.pc t = .exitSleep e) :
    Stretch s a c p t (exitRound c p t e (s.allthdRound p t)) := by
  obtain ⟨hno, heq⟩ | ⟨hyes, heq⟩ | ⟨hyes, heq⟩ := allthdRound_cases
  · rw [heq]
    exact finish_stretch h hon hl hno
  · rw [heq]
    refine .back hl (.inl ⟨hpc, rfl⟩) (Quiet.trans ?_ quiet_release)
    exact quiet_exitReturn (h.setProc_same rfl) hpanic hon e
  · rw [heq]
    refine sleep_stretch hon hl rfl ?_ ?_ (.inl rfl)
    · rw [hpc]
      exact id
    · simp

/-- A round of `allthdexit` in `exec`, after a sleep. -/
theorem execAgain_stretch
    (hl : s.label p t a = bif s.havethds p t then .plain else .commits) (hpc : s.pc t = .execSleep) :
    Stretch s a c p t (execRound c p t (s.allthdRound p t)) := by
  obtain ⟨hno, heq⟩ | ⟨hyes, heq⟩ | ⟨hyes, heq⟩ := allthdRound_cases
  · rw [heq]
    refine commit_stretch h hpanic hon ?_ (.inr hpc) hno
    rw [hl, Bool.eq_false_iff.mpr fun hh => hno (havethds_iff.mp hh)]
    rfl
  · rw [heq]
    rw [havethds_iff.mpr hyes] at hl
    refine .back (e := .sysExit) hl (.inr ⟨hpc, rfl⟩) (Quiet.trans (quiet_ret ?_ _) quiet_release)
    exact (h.onCpu hpanic hon).1
  · rw [heq]
    rw [havethds_iff.mpr hyes] at hl
    refine sleep_stretch hon hl rfl ?_ ?_ (.inl rfl)
    · rw [hpc]
      exact id
    · simp

omit h hpanic hon in
theorem setExited_proc (b : Bool) (q : ProcPtr) :
    ((s.setExited p b).proc q).state = (s.proc q).state ∧
    ((s.setExited p b).proc q).killed = (s.proc q).killed ∧
    ((s.setExited p b).proc q).pin = (s.proc q).pin := by
  by_cases hq : q = p <;> simp [hq]

omit h hpanic hon in
/-- What `allthdexit` does before its first scan, up to the flag. -/
theorem quiet_roused (hex : (s.proc p).exited = false) :
    Quiet x x s (((s.setExited p true).wakeThds p).setProc p
      fun q => { q with exited := false }) := by
  have hw : Quiet x x (s.setExited p true)
      ((s.setExited p true).wakeThds p) := quiet_wakeThds p
  generalize (s.setExited p true).wakeThds p = w at hw
  have hset := setExited_proc (s := s) (p := p) true
  have hback := setExited_proc (s := w) (p := p) false
  refine ⟨hw.thd, hw.pc, hw.nexttid, fun q => ⟨?_, ?_⟩, fun q => ?_, hw.panic, fun hp hc => ?_,
    fun hs => ?_, hw.kfree⟩
  · rw [(hback q).2.1, (hw.flags q).1, (hset q).2.1]
  · by_cases hq : q = p
    · simp [hq, hex]
    · have hflag := (hw.flags q).2
      simpa [hq] using hflag
  · rw [(hback q).1, ← (hset q).1]
    exact hw.proc q
  · have hc' := hw.cpus hp ⟨hc.running, hc.alone⟩
    exact ⟨hc'.running, hc'.alone⟩
  · have hs' := hw.stacked ⟨hs.esp0, fun d r u hl hr hu => by
      rw [(hset r).2.2]
      exact hs.cursor d r u hl hr hu, hs.found⟩
    refine ⟨hs'.esp0, fun d r u hl hr hu => ?_, hs'.found⟩
    rw [(hback r).2.2]
    exact hs'.cursor d r u hl hr hu

omit h hpanic hon in
theorem wakeThds_woke (hu : ((s.wakeThds p).thread u).mp = some p) :
    ((s.wakeThds p).thread u).state ≠ .sleeping := by
  rw [wakeThds_eq, wakeAll_thread] at hu ⊢
  split
  · simp
  · rename_i hno
    rw [if_neg hno] at hu
    intro hsl
    exact hno ⟨⟨hu, hsl⟩, by rw [hu]; simp⟩

omit h hpanic hon in
theorem wakeThds_near : Near s (s.wakeThds p) := by
  rw [wakeThds_eq]
  refine wakeAll_induct _ (motive := fun s' => Near s s') (.refl s)
    (fun s' u q hs' _ _ => hs'.trans (near_setstate _)) fun s' u _ hu hmp => ?_
  rw [hu.1] at hmp
  cases hmp

omit h hpanic hon in
/-- A call of `allthdexit` that is not refused: `w` is the state at its first scan. -/
theorem allthdexit_roused (hex : (s.proc p).exited = false) : ∃ w : Kernel,
    s.allthdexit p t = w.allthdRound p t ∧
    Quiet none none s (w.setExited p false) ∧
    ((w.setExited p false).setExited p true) = w ∧
    Near s w ∧ ∀ u, (w.thread u).mp = some p → (w.thread u).state ≠ .sleeping := by
  refine ⟨(s.setExited p true).wakeThds p, ?_, quiet_roused hex, ?_,
    (near_setProc rfl).trans (wakeThds_near), fun u hu => wakeThds_woke hu⟩
  · unfold allthdexit
    rw [if_neg (by simp [hex])]
  · rw [setProc_exited_setProc]
    apply setProc_exited_self
    obtain ⟨st, hst⟩ := wakeAll_proc (fun r => r.mp = some p ∧ r.state = .sleeping)
      (s.setExited p true) p
    rw [wakeThds_eq, hst]
    simp

/-- What a step does, from the state `s₁` that scheduling leads to. -/
def Does (s : Kernel) (a : Act) (c : CpuId) (p : ProcPtr) (t : ThdPtr) (s' : Kernel) : Prop :=
  ∃ s₁, Quiet none none s s₁ ∧ Near s s₁ ∧ Stretch s₁ a c p t s'

omit h hpanic hon in
theorem Stretch.does (hs : Stretch s a c p t s') : Does s a c p t s' :=
  ⟨s, .refl _ _, .refl s, hs⟩

omit h hpanic hon in
theorem Does.goes (hl : s.label p t a = .plain) (hk : k.goesOn ∧ k.inExec = false ∧ k.hold = {})
    (h : Quiet none none (s.setPc t k) s') : Does s a c p t s' :=
  Stretch.does (.goes hl hk h)

omit h hpanic hon in
/-- The thread moves on with the reservations it had. -/
theorem Does.holds (hl : s.label p t a = .plain) (h : Quiet none none (s.setPc t k) s')
    (hk : k.goesOn ∧ k.inExec = false) (hhold : (s.pc t).hold = k.hold)
    (hstk : (s.pc t).stacked = k.stacked)
    (hplaced : k.placed → (s.pc t).placed ∨ (a.making (s.pc t)).stacks) : Does s a c p t s' := by
  refine Stretch.does (.move hl hk.1 (by simp [hk.2]) (.inr ?_) h)
  rw [hhold]
  exact ⟨rfl, rfl, rfl, hstk.symm, hplaced⟩

/-- As `Does`, when `allthdexit` is called: unless it is refused, the threads of the process have been
woken in `s₁`. -/
def Rouses (s : Kernel) (a : Act) (c : CpuId) (p : ProcPtr) (t : ThdPtr) (s' : Kernel) : Prop :=
  ∃ s₁, (Quiet none none s s₁ ∧ Near s s₁ ∧ Stretch s₁ a c p t s') ∧
    ((s.proc p).exited = false → ∀ u, (s₁.thread u).mp = some p → (s₁.thread u).state ≠ .sleeping)

omit h hpanic hon in
theorem Rouses.does (hs : Rouses s a c p t s') : Does s a c p t s' := by
  obtain ⟨s₁, hs₁, -⟩ := hs
  exact ⟨s₁, hs₁⟩

omit h hpanic hon in
theorem Stretch.refused (hs : Stretch s a c p t s') (hex : (s.proc p).exited = true) :
    Rouses s a c p t s' := by
  refine ⟨s, ⟨.refl _ _, .refl s, hs⟩, fun h0 => ?_⟩
  rw [hex] at h0
  cases h0

omit h hpanic hon in
/-- A call of `allthdexit`: it is refused, or a round follows from a state `s₁` in which the threads
of the process have been woken and the flag is not yet set. -/
theorem allthdexit_rouses {f : Round × Kernel → Kernel}
    (hfail : (s.proc p).exited = true → Stretch s a c p t (f (.failed, s)))
    (hround : ∀ s₁, (s.proc p).exited = false → (s₁.proc p).exited = false → Quiet none none s s₁ →
      Near s s₁ → (∀ u, (s₁.thread u).mp = some p → (s₁.thread u).state ≠ .sleeping) →
      (¬ s₁.Sibling p t → Stretch s₁ a c p t (f (.done, s₁))) ∧
      (s₁.Sibling p t → Stretch s₁ a c p t (f (.failed, s₁)) ∧
        Stretch s₁ a c p t (f (.sleeps, s₁.setExited p true)))) :
    Rouses s a c p t (f (s.allthdexit p t)) := by
  cases hex : (s.proc p).exited with
  | true =>
    have heq : s.allthdexit p t = (.failed, s) := by
      unfold allthdexit
      rw [if_pos hex]
    rw [heq]
    exact (hfail hex).refused hex
  | false =>
    obtain ⟨w, heq, hquiet, hset, hnear, hwoke⟩ := allthdexit_roused (t := t) hex
    rw [heq]
    refine ⟨w.setExited p false,
      ⟨hquiet, hnear.trans (near_setProc rfl), ?_⟩, fun _ => hwoke⟩
    obtain ⟨hdone, hwaits⟩ := hround _ hex (by simp) hquiet (hnear.trans (near_setProc rfl)) hwoke
    rw [hset] at hwaits
    obtain ⟨hno, heq'⟩ | ⟨hyes, heq'⟩ | ⟨hyes, heq'⟩ := allthdRound_cases
    · rw [heq']
      exact hdone hno
    · rw [heq']
      exact (hwaits hyes).1
    · rw [heq']
      exact (hwaits hyes).2

/-- The section of `exit` that starts with `allthdexit`. -/
theorem exitThds_rouses (hl : s.label p t a = .plain) (hpc : s.pc t = .exitThds e) :
    Rouses s a c p t (exitRound c p t e (s.allthdexit p t)) := by
  have hback : e.back.goesOn ∧ e.back.inExec = false ∧ e.back.hold = {} := by
    cases e <;> exact ⟨rfl, rfl, rfl⟩
  refine allthdexit_rouses (fun _ => ?_) fun s₁ _ hflag hquiet hnear hwoke => ?_
  · exact .goes hl hback ((quiet_exitReturn h hpanic hon e).trans quiet_release)
  · have hl' := (hquiet.label p t a).trans hl
    have hon' := (hnear.onCpu c).trans hon
    refine ⟨fun hno => ?_, fun _ => ⟨?_, ?_⟩⟩
    · have hfinish := finish_stretch (hquiet.slots h) hon' hl' hno
      rwa [setProc_exited_self hflag] at hfinish
    · exact .goes hl' hback
        ((quiet_exitReturn (hquiet.slots h) (hnear.panic.trans hpanic) hon' e).trans quiet_release)
    · refine .await (e := e) hl' (.inl ⟨?_, rfl⟩) hwoke (quiet_park hon (by simp [asleep, hnear.cpu]))
      rw [hquiet.pc]
      exact hpc

/-- The section of `exec` that starts with `allthdexit`. -/
theorem execThds_rouses
    (hl : s.label p t a = bif (s.proc p).exited || s.havethds p t then .plain else .commits)
    (hpc : s.pc t = .execThds) : Rouses s a c p t (execRound c p t (s.allthdexit p t)) := by
  obtain ⟨hrun, -⟩ := h.onCpu hpanic hon
  refine allthdexit_rouses (fun hex => ?_) fun s₁ hex hflag hquiet hnear hwoke => ?_
  · rw [hex, Bool.true_or, cond_true] at hl
    exact .goes hl (k := .sysret) ⟨rfl, rfl, rfl⟩ ((quiet_ret hrun _).trans quiet_release)
  · rw [hex, Bool.false_or, ← hquiet.havethds, ← hquiet.label] at hl
    have hon' := (hnear.onCpu c).trans hon
    have hp' := hnear.panic.trans hpanic
    have hpc' : s₁.pc t = .execThds := by
      rw [hquiet.pc]
      exact hpc
    have hslots := hquiet.slots h
    refine ⟨fun hno => ?_, fun hyes => ?_⟩
    · rw [Bool.eq_false_iff.mpr fun hh => hno (havethds_iff.mp hh)] at hl
      have hcommit := commit_stretch hslots hp' hon' hl (.inl hpc') hno
      rwa [setProc_exited_self hflag] at hcommit
    · rw [havethds_iff.mpr hyes] at hl
      refine ⟨?_, ?_⟩
      · exact .goes hl (k := .sysret) ⟨rfl, rfl, rfl⟩
          ((quiet_ret (hslots.onCpu hp' hon').1 _).trans quiet_release)
      · exact .await (e := .sysExit) hl (.inr ⟨hpc', rfl⟩) hwoke
          (quiet_park hon (by simp [asleep, hnear.cpu]))

/-- A thread switched to goes on. -/
theorem resume_does (hok : ReapsDead s (.resume c)) : Does s (.resume c) c p t (s.resume c p t) := by
  have hquiet := quiet_awake h hpanic hon
  have hslots := hquiet.slots h
  have hl := hquiet.label p t (.resume c)
  unfold resume
  dsimp only
  cases hpc : s.pc t
  all_goals
    have hlabel : s.label p t (.resume c) = s.wakeLabel p t _ := congrArg (s.wakeLabel p t) hpc
  case forkret =>
    exact .goes hlabel (k := .user) ⟨rfl, rfl, rfl⟩ quiet_release
  case slept =>
    exact ⟨_, hquiet, near_setThd _,
      .goes (hl.trans hlabel) (k := .kernel) ⟨rfl, rfl, rfl⟩ quiet_release⟩
  case waitSleep =>
    refine ⟨_, hquiet, near_setThd _, waitRound_stretch hslots hpanic hon (hl.trans hlabel) fun q hq u hu => ?_⟩
    have hz := hok (p, t) hon hpc q hq u (by rw [← (hquiet.thd u).mp]; exact hu)
    exact (hquiet.thd u).zombie.mpr hz
  case joinSleep tid =>
    refine ⟨_, hquiet, near_setThd _, joinRound_stretch hslots hpanic hon ?_ (.inr hpc)⟩
    exact (hl.trans hlabel).trans (hquiet.joinLabel p tid).symm
  case exitSleep e => exact ⟨_, hquiet, near_setThd _, exitAgain_stretch hslots hpanic hon (hl.trans hlabel) hpc⟩
  case execSleep =>
    refine ⟨_, hquiet, near_setThd _, execAgain_stretch hslots hpanic hon ?_ hpc⟩
    rw [hquiet.havethds]
    exact hl.trans hlabel
  all_goals exact (Stretch.quiet hlabel quiet_release).does

theorem forkFail_stretch (hl : s.label p t a = .plain) (hnp : (s.pc t).hold.np = some np)
    (howned : (s.pc t).hold.owned = false) : Stretch s a c p t (s.forkFail t np) := by
  refine .forkFail hl hnp howned (quiet_ret ?_ _)
  exact (h.onCpu hpanic hon).1

/-- `kill` finds process `q`. -/
theorem kill_stretch {pid : Word} (hl : s.label p t a = .plain) (hpc : s.pc t = .kill pid) :
    Stretch s a c p t (s.kill t pid) := by
  unfold kill
  split
  · rename_i q _
    have hquiet : Quiet none none (s.setKilled q)
        ((s.setKilled q).wakeThds q) := quiet_wakeThds q
    have hrun : (((s.setKilled q).wakeThds q).thread t).state =
        .running := by
      rw [wakeThds_eq, wakeAll_thread, if_neg]
      · exact (h.onCpu hpanic hon).1
      · rintro ⟨⟨-, hsl⟩, -⟩
        rw [setProc_thread, (h.onCpu hpanic hon).1] at hsl
        cases hsl
    have hwoke : ∀ u, (((s.setKilled q).wakeThds q).thread u).mp = some q →
        (((s.setKilled q).wakeThds q).thread u).state ≠ .sleeping :=
      fun u => wakeThds_woke
    generalize (s.setKilled q).wakeThds q = w at hquiet hrun hwoke
    refine .kill (q := q) hl hpc (fun u hu => ?_) ((hquiet.setPc t .sysret).trans (quiet_ret hrun 0))
    have hmp : (w.thread u).mp = some q := by
      rw [(hquiet.thd u).mp]
      exact hu
    show ((w.setThd t fun x => { x with eax := 0 }).thread u).state ≠ .sleeping
    rw [setThd_thread]
    split
    · rename_i hut
      subst hut
      exact hwoke u hmp
    · exact hwoke u hmp
  · exact ret_stretch h hpanic hon hl _

/-- The last section of `thread_exit`. -/
theorem threadExitDie_does {retval : Word} (hpc : s.pc t = .threadExitDie retval) :
    Does s (.kstep c ok page) c p t (s.threadExitDie c p t retval) := by
  obtain ⟨hrun, hmp⟩ := h.onCpu hpanic hon
  have hset : Quiet none none s (s.setThd t fun x => { x with eax := retval }) :=
    quiet_setThd (sameSlot_running hrun rfl rfl rfl rfl) rfl
  have hslots := hset.slots h
  have hwake : Quiet none none (s.setThd t fun x => { x with eax := retval })
      ((s.setThd t fun x => { x with eax := retval }).wakeup1 (some (.proc p))) := quiet_wakeup1 _
  have heax : (((s.setThd t fun x => { x with eax := retval }).wakeup1 (some (.proc p))).thread t).eax =
      retval := by
    rw [wakeup1_eq, wakeAll_thread, if_neg]
    · simp
    · rintro ⟨⟨hsl, -⟩, -⟩
      simp [hrun] at hsl
  have hnear : Near s ((s.setThd t fun x => { x with eax := retval }).wakeup1 (some (.proc p))) :=
    (near_setThd _).trans (hslots.wakeup1_near _)
  have hdone := fun u => wakeup1_done (u := u) (o := some (.proc p))
    fun hu => hslots.owner u (by rw [hu]; exact .inl (by decide))
  have heq : s.threadExitDie c p t retval =
      (((s.setThd t fun x => { x with eax := retval }).wakeup1 (some (.proc p))).dead p t).sched c p t := by
    unfold threadExitDie
    have hmp' : ((s.setThd t fun x => { x with eax := retval }).thread t).mp = some p := by simpa using hmp
    dsimp only
    rw [hmp']
    rfl
  rw [heq]
  generalize (s.setThd t fun x => { x with eax := retval }).wakeup1 (some (.proc p)) = s₁
    at hwake heax hnear hdone
  refine ⟨s₁, hset.trans hwake, hnear, .die ?_ heax hdone (quiet_park hon ?_)⟩
  · rw [(hset.trans hwake).label]
    exact congrArg (s.callLabel p t) hpc
  · show (s₁.setstate p t .zombie).cpu = s.cpu
    rw [setstate_cpu, hnear.cpu]

/-- The slot a creating thread holds is not its own. -/
theorem Slots.slot_ne_self (hn : (s.pc t).hold.slot = some n) : t ≠ n := by
  rintro rfl
  have hst := (h.slot t t hn).1
  rw [(h.onCpu hpanic hon).1] at hst
  cases hst

/-- `thread_create` fails. -/
theorem createFail_stretch (hl : s.label p t a = .plain) (hn : (s.pc t).hold.slot = some n)
    (hstacked : (s.pc t).stacked = true) : Stretch s a c p t (s.createFail t n) := by
  have hk := (h.slot t n hn).2.2 hstacked
  have hne := h.slot_ne_self hpanic hon hn
  refine .fail hl hn ?_
  unfold createFail kfree
  rw [if_neg hk]
  refine quiet_ret ?_ _
  rw [setThd_thread, if_neg hne]
  exact (h.onCpu hpanic hon).1

omit hon in
/-- `fork` fills in its new process. -/
theorem forkInit_stretch (hl : s.label p t (.kstep c ok page) = .plain) (hpc : s.pc t = .forkInit np n) :
    Stretch s (.kstep c ok page) c p t (s.forkInit p t np n) := by
  have hnp : (s.pc t).hold.np = some np := by rw [hpc]; rfl
  have hn : (s.pc t).hold.slot = some n := by rw [hpc]; rfl
  have hst := (h.slot t n hn).1
  have hproc : ∀ q, (s.forkInit p t np n).proc q = if q = np then { s.proc np with
      pin := some n, parent := some p, stype := .mlfq, qlev := .hqlev, pass := 0 } else s.proc q :=
    fun _ => rfl
  refine .move hl (k := .forkFile np n 0) rfl
    (fun hx => by cases hx) (.inr ?_) ?_
  · rw [hpc]
    exact ⟨rfl, rfl, rfl, rfl, fun _ => .inr rfl⟩
  · refine .frame (fun u => ?_) (fun u hu => ?_) (fun q => .inl ?_) (fun q => ?_) (fun q d u hq hu => ?_)
      rfl rfl rfl (fun _ => id) id (fun _ _ => id)
    · show SameSlot (s.thread u) ((s.setThd n fun x => { x with eax := 0 }).thread u)
      rw [setThd_thread]
      split
      · rename_i hun
        subst hun
        refine ⟨rfl, rfl, rfl, .inl rfl, fun hsl => ⟨hsl, rfl⟩, fun hz => ?_⟩
        have hz' : (s.thread u).state = .zombie := hz
        rw [hst] at hz'
        cases hz'
      · exact .refl _
    · show ((s.setThd n fun x => { x with eax := 0 }).thread u).state = .running
      rw [setThd_thread]
      split
      · rename_i hun
        subst hun
        exact hu
      · exact hu
    · rw [hproc]
      show _ = (s.proc q).state
      split
      · rename_i hq
        rw [hq]
      · rfl
    · rw [hproc]
      show _ = (s.proc q).killed ∧ _ = (s.proc q).exited
      split
      · rename_i hq
        rw [hq]
        exact ⟨rfl, rfl⟩
      · exact ⟨rfl, rfl⟩
    · -- the new process runs nowhere yet
      have hne : q ≠ np := by
        rintro rfl
        obtain ⟨hrun, hmp⟩ := (h.cpus hpanic).running d u (by simp) hu
        have hslot := ((h.child t q hnp).2 u (hmp.symm.trans hq)).1
        rw [(h.slot t u hslot).1] at hrun
        cases hrun
      rw [hproc, if_neg hne]
      rfl

/-- `fork` and `thread_create` give up. -/
theorem allocFail_stretch {k : AllocCaller} (hl : s.label p t a = .plain)
    (hhold : (s.pc t).hold.np = k.np) (howned : (s.pc t).hold.owned = false) :
    Stretch s a c p t (s.allocFail t k) := by
  cases k with
  | fork np => exact forkFail_stretch h hpanic hon hl hhold howned
  | create => exact ret_stretch h hpanic hon hl _

/-- `kalloc` in `allocthd`. -/
theorem allocStack_stretch {k : AllocCaller} (hl : s.label p t a = .plain)
    (hpc : s.pc t = .allocStack k n) : Stretch s a c p t (s.allocStack t k n page) := by
  have hn : (s.pc t).hold.slot = some n := by rw [hpc]; rfl
  have hne := h.slot_ne_self hpanic hon hn
  have hrun : ((s.unalloc n).thread t).state = .running := by
    rw [setThd_thread, if_neg hne]
    exact (h.onCpu hpanic hon).1
  cases page with
  | some page => exact .stack hl hpc rfl
  | none =>
    cases k with
    | create => exact .fail hl hn (quiet_ret hrun _)
    | fork np =>
      have hnp : (s.pc t).hold.np = some np := by rw [hpc]; rfl
      refine .failFork hl hn hnp ?_ (quiet_ret ?_ _)
      · rw [hpc]
        rfl
      · exact hrun

omit h hpanic hon in
/-- A thread moves on and a process changes in a field that scheduling does not look at. -/
theorem quiet_field {f : Proc → Proc} (hf : ∀ r, (f r).state = r.state ∧ (f r).killed = r.killed ∧
    (f r).exited = r.exited ∧ (f r).pin = r.pin) :
    Quiet x x (s.setPc t k) ((s.setProc q f).setPc t k) :=
  (quiet_setProc (hf _).1 ⟨(hf _).2.1, (hf _).2.2.1⟩ (hf _).2.2.2).setPc t k

/-- The last section of `fork` and of `thread_create`. -/
theorem start_stretch {r : Word} (hl : s.label p t a = .plain) (hn : (s.pc t).hold.slot = some n)
    (howned : (s.pc t).hold.owned = true) (hstacked : (s.pc t).stacked = true)
    (hplaced : (s.pc t).placed = true) (hmp : (s.pc t).hold.np.or (s.thread t).mp = some q) :
    Stretch s a c p t (((s.setThd n fun x => { x with state := .runnable }).setProc q
      fun x => { x with state := .runnable }).ret t r) := by
  refine .start hl hn howned hstacked hplaced (((h.slot t n hn).2.1 howned).trans hmp) (quiet_ret ?_ _)
  rw [setProc_thread, setThd_thread, if_neg (h.slot_ne_self hpanic hon hn)]
  exact (h.onCpu hpanic hon).1

/-- The next stretch of a call. -/
theorem kstep_does (hok : ReapsDead s (.kstep c ok page)) (hs : s.kstep c p t ok page = some s') :
    Does s (.kstep c ok page) c p t s' := by
  obtain ⟨hrun, hmp⟩ := h.onCpu hpanic hon
  unfold kstep at hs
  cases hpc : s.pc t
  all_goals
    have hhold := congrArg Pc.hold hpc
    have hstk := congrArg Pc.stacked hpc
    have hl : s.label p t (.kstep c ok page) = s.callLabel p t _ := congrArg (s.callLabel p t) hpc
    simp only [hpc, Option.ite_none_right_eq_some, Option.some.injEq, reduceCtorEq] at hs
    -- under the lock or not, `hs` names the next state
    first | subst hs | obtain ⟨-, rfl⟩ := hs | skip
  case sysret =>
    split <;> exact .goes hl ⟨rfl, rfl, rfl⟩ (.refl _ _)
  case chdirSet ip =>
    refine .goes hl (k := .sysret) ⟨rfl, rfl, rfl⟩ ?_
    refine Quiet.trans ((quiet_setProc (p := p) (f := fun q => { q with cwd := some ip }) rfl ⟨rfl, rfl⟩
      rfl).setPc t .sysret) (quiet_ret ?_ _)
    exact hrun
  case setCpuShare share =>
    refine .goes hl (k := .sysret) ⟨rfl, rfl, rfl⟩ ?_
    refine ((quiet_cpuShare share).setPc t .sysret).trans (quiet_ret ?_ _)
    exact hrun
  case kill pid =>
    exact (kill_stretch h hpanic hon hl hpc).does
  case wait =>
    exact (waitRound_stretch h hpanic hon hl (hok (p, t) hon hpc)).does
  case threadJoin tid =>
    exact (joinRound_stretch h hpanic hon hl (.inl hpc)).does
  case threadExit retval =>
    unfold threadExit
    split <;> exact .goes hl ⟨rfl, rfl, rfl⟩ (.refl _ _)
  case threadExitDie retval =>
    exact threadExitDie_does h hpanic hon hpc
  case exitEntry e =>
    unfold exitEntry
    split
    · exact (Stretch.quiet hl (quiet_halt (by decide) (by decide))).does
    · exact .goes hl ⟨rfl, rfl, rfl⟩ (.refl _ _)
  case exitClose e fd =>
    unfold exitClose
    split
    · exact .goes hl ⟨rfl, rfl, rfl⟩ (.refl _ _)
    · rw [exitNextFd_eq]
      exact .goes hl (behind_goesOn fd) (.refl _ _)
  case exitClear e fd =>
    rw [exitClear, exitNextFd_eq]
    exact .goes hl (behind_goesOn fd) (quiet_field fun _ => ⟨rfl, rfl, rfl, rfl⟩)
  case exitPut e =>
    unfold exitPut
    split
    · exact (Stretch.quiet hl (quiet_halt (by decide) (by decide))).does
    · exact .goes hl (k := .exitCwd e) ⟨rfl, rfl, rfl⟩ ((quiet_drops _).setPc t _)
  case exitCwd e =>
    exact .goes (k := .exitShare e) hl ⟨rfl, rfl, rfl⟩
      (quiet_field fun _ => ⟨rfl, rfl, rfl, rfl⟩)
  case exitShare e =>
    exact .goes hl (k := .exitThds e) ⟨rfl, rfl, rfl⟩ ((quiet_cpuShare 0).setPc t _)
  case exitThds e =>
    exact (exitThds_rouses h hpanic hon hl hpc).does
  case fork =>
    unfold allocproc
    split
    · rename_i np hfind
      have hnp : (s.proc np).state = .unused := by simpa using List.find?_some hfind
      refine (Stretch.allocproc hl hnp ?_).does
      refine .frame (fun _ => .refl _) (fun _ => id) (fun q => .inl ?_)
        (fun q => ?_) (fun q _ _ _ _ => ?_) rfl rfl rfl (fun _ => id) id (fun _ _ => id)
      · by_cases hq : q = np <;> simp [hq]
      · by_cases hq : q = np <;> simp [hq]
      · by_cases hq : q = np <;> simp [hq]
    · exact (ret_stretch h hpanic hon hl _).does
  case forkCopy np =>
    split
    · exact .holds hl (.refl _ _) ⟨rfl, rfl⟩ hhold hstk (fun hg => by cases hg)
    · exact (forkFail_stretch h hpanic hon hl (by rw [hhold]; rfl) (by rw [hhold]; rfl)).does
  case allocthd k =>
    unfold allocthd
    split
    · rename_i n hfind
      have hn : (s.thread n).state = .unused := by simpa using List.find?_some hfind
      exact (Stretch.alloc hl hpc hn rfl).does
    · exact (allocFail_stretch h hpanic hon hl (by rw [hhold]; rfl) (by rw [hhold]; rfl)).does
  case allocStack k n =>
    exact (allocStack_stretch h hpanic hon hl hpc).does
  case allocOwner k n =>
    exact (Stretch.own hl rfl hpc rfl).does
  case forkInit np n =>
    exact (forkInit_stretch h hpanic hl hpc).does
  case forkFile np n fd =>
    unfold forkFile
    have hplaced : (s.pc t).placed = true := by rw [hpc]; rfl
    cases hf : (s.proc p).ofile fd with
    | none =>
      dsimp only
      split <;>
        exact .holds hl (.refl _ _) ⟨rfl, rfl⟩ hhold hstk fun _ => .inl hplaced
    | some f =>
      dsimp only
      split <;>
        exact .holds hl (quiet_field fun _ => ⟨rfl, rfl, rfl, rfl⟩) ⟨rfl, rfl⟩ hhold hstk
          fun _ => .inl hplaced
  case forkCwd np n =>
    unfold forkCwd
    split
    · exact (Stretch.quiet hl (quiet_halt (by decide) (by decide))).does
    · exact .holds hl (quiet_field fun _ => ⟨rfl, rfl, rfl, rfl⟩) ⟨rfl, rfl⟩ hhold hstk
        fun _ => .inl (by rw [hpc]; rfl)
  case forkRun np n =>
    exact (start_stretch h hpanic hon hl (by rw [hhold]; rfl) (by rw [hhold]; rfl) (by rw [hstk]; rfl)
      (by rw [hpc]; rfl) (by rw [hhold]; rfl)).does
  case createStack n =>
    split
    · rename_i hok'
      exact .holds hl (.refl _ _) ⟨rfl, rfl⟩ hhold hstk fun _ => .inr (by rw [hok', hpc]; rfl)
    · exact (createFail_stretch h hpanic hon hl (by rw [hhold]; rfl) (by rw [hstk]; rfl)).does
  case createArgs n =>
    split
    · exact .holds hl (.refl _ _) ⟨rfl, rfl⟩ hhold hstk fun _ => .inl (by rw [hpc]; rfl)
    · exact (createFail_stretch h hpanic hon hl (by rw [hhold]; rfl) (by rw [hstk]; rfl)).does
  case createRun n =>
    exact (start_stretch h hpanic hon hl (by rw [hhold]; rfl) (by rw [hhold]; rfl) (by rw [hstk]; rfl)
      (by rw [hpc]; rfl) (by rw [hhold]; exact hmp)).does
  case exec relative =>
    unfold execPath
    split
    · exact (Stretch.quiet hl (quiet_halt (by decide) (by decide))).does
    · split
      · refine (Stretch.move hl rfl (fun _ => ?_) (.inl rfl) (.refl _ _)).does
        rw [hpc]
        rfl
      · exact (ret_stretch h hpanic hon hl _).does
  case execThds =>
    exact (execThds_rouses h hpanic hon hl hpc).does

/-- A step of a call that leaves the tables alone. -/
theorem work_does {w : Work} (hs : s.work c p t w = some s') : Does s (.work c w) c p t s' := by
  cases w
  all_goals
    simp only [work, Option.ite_none_right_eq_some, Option.some.injEq] at hs
    first | subst hs | obtain ⟨-, rfl⟩ := hs
  case sleep chan =>
    exact (sleep_stretch hon rfl (k := .slept) rfl (fun hx => by cases hx) (by simp) (.inr rfl)).does
  case wakeup chan =>
    exact (Stretch.quiet rfl (quiet_wakeup1 _)).does
  case path =>
    split
    · exact (Stretch.quiet rfl (quiet_halt (by decide) (by decide))).does
    · exact (Stretch.quiet rfl (.refl _ _)).does
  case chdir ip =>
    split
    · exact (Stretch.quiet rfl (quiet_halt (by decide) (by decide))).does
    · exact .goes rfl (k := .chdirSet ip) ⟨rfl, rfl, rfl⟩ (.refl _ _)
  case ofile fd f =>
    exact (Stretch.quiet rfl (quiet_setProc rfl ⟨rfl, rfl⟩ rfl)).does
  case grow =>
    exact (Stretch.grow rfl rfl rfl).does
  case done r =>
    exact (ret_stretch h hpanic hon rfl r).does

omit h hpanic hon in
/-- A trap from user mode that is not a system call. -/
theorem trap_does {bad : Bool} (hpc : s.pc t = .user)
    (h₁ : s₁ = if bad then s.setKilled p else s) :
    Does s (.trap c bad) c p t (if s₁.dying p then s₁.setPc t (.threadExit 0) else s₁) := by
  subst h₁
  cases bad with
  | true =>
    rw [if_pos (by simp [dying])]
    exact (Stretch.misbehave rfl hpc (.refl _ _)).does
  | false =>
    simp only [Bool.false_eq_true, ↓reduceIte]
    split
    · exact .goes rfl (k := .threadExit 0) ⟨rfl, rfl, rfl⟩ (.refl _ _)
    · exact (Stretch.quiet rfl (.refl _ _)).does

omit h hpanic hon in
theorem syscall_does {call : Syscall} : Does s (.syscall c call) c p t
    (s.setPc t (if s.dying p then .threadExit 0 else call.entry)) := by
  cases hd : s.dying p with
  | true =>
    rw [if_pos rfl]
    refine .goes ?_ (k := .threadExit 0) ⟨rfl, rfl, rfl⟩ (.refl _ _)
    cases call
    case exec relative =>
      show (bif s.dying p then Label.plain else .begins) = .plain
      rw [hd]
      rfl
    all_goals rfl
  | false =>
    rw [if_neg (by simp)]
    cases call
    case exec relative =>
      refine (Stretch.begins ?_ rfl rfl).does
      show (bif s.dying p then Label.plain else .begins) = .begins
      rw [hd]
      rfl
    all_goals exact .goes rfl ⟨rfl, rfl, rfl⟩ (.refl _ _)

end OnCpu

/-- Every step is scheduling, or one of the stretches of a thread. -/
theorem step_does (h : Slots none s) (hok : ReapsDead s a) (hs : s.step a = some s') :
    (Quiet none none s s' ∧ ∀ c p t, s.onCpu c = some (p, t) → s.label p t a = .plain) ∨
      ∃ c p t, a.cpu = some c ∧ s.onCpu c = some (p, t) ∧ Does s a c p t s' := by
  have hpanic := step_panic hs
  cases steps hs with
  | dispatch hidle =>
    exact .inl ⟨quiet_scheduler hidle fun u hu => h.stack u (.inl hu), fun _ _ _ _ => rfl⟩
  | intrWakeup => exact .inl ⟨quiet_wakeup1 _, fun _ _ _ _ => rfl⟩
  | resume hon => exact .inr ⟨_, _, _, rfl, hon, resume_does h hpanic hon hok⟩
  | preempt hon =>
    obtain ⟨hproc, hthd⟩ := onCpu_iff.mp hon
    obtain ⟨hrun, hmp⟩ := h.onCpu hpanic hon
    exact .inl ⟨quiet_yield hproc hthd hmp hrun, fun _ _ _ _ => rfl⟩
  | trap hon hpc h₁ => exact .inr ⟨_, _, _, rfl, hon, trap_does hpc h₁⟩
  | syscall hon => exact .inr ⟨_, _, _, rfl, hon, syscall_does⟩
  | kstep hon hk => exact .inr ⟨_, _, _, rfl, hon, kstep_does h hpanic hon hok hk⟩
  | work hon _ hw => exact .inr ⟨_, _, _, rfl, hon, work_does h hpanic hon hw⟩

end Kernel

end Xv6
