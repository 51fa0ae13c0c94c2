import Xv6.Lib.Machine
import Xv6.Proc.Calls

/-!
# The kernel as a machine

One action is one CPU's next stretch of kernel code. A stretch that takes `ptable.lock` is
enabled only while the lock is free; a stretch outside the lock is enabled at any time. What
the rest of the kernel decides (whether `kalloc` finds a page, which file a descriptor gets)
is part of the action, so a property of every run holds whatever it decides.

A run may put any number of CPUs to work: `CpuId` is unbounded.
-/

namespace Xv6

open Xv6.Lib

/-- The system calls of the model. -/
inductive Syscall where
  | fork
  | exit
  | wait
  | kill (pid : Word)
  | exec (relative : Bool)
  | setCpuShare (share : Word)
  | threadCreate
  | threadExit (retval : Word)
  | threadJoin (tid : Word)
  /-- any other call: it reads and writes the process's files and directory, sleeps and wakes -/
  | other
  deriving DecidableEq, Repr

/-- Where a system call starts. -/
def Syscall.entry : Syscall → Pc
  | .fork => .fork
  | .exit => .exitEntry .sysExit
  | .wait => .wait
  | .kill pid => .kill pid
  | .exec relative => .exec relative
  | .setCpuShare share => .setCpuShare share
  | .threadCreate => .allocthd .create
  | .threadExit retval => .threadExit retval
  | .threadJoin tid => .threadJoin tid
  | .other => .kernel

/-- What a call that leaves the tables alone does next. -/
inductive Work where
  /-- `sleep(chan, lk)` -/
  | sleep (chan : Chan)
  /-- `wakeup(chan)` -/
  | wakeup (chan : Chan)
  /-- `namex` of a relative path: `idup(myproc()->cwd)` -/
  | path
  /-- `sys_chdir`: `iput(curproc->cwd)`, then `curproc->cwd = ip` -/
  | chdir (ip : InodePtr)
  /-- a descriptor is installed or cleared -/
  | ofile (fd : Fin NOFILE) (f : Option FilePtr)
  /-- `growproc` ends with `switchuvm(curproc)` -/
  | grow
  | done (r : Word)
  deriving DecidableEq, Repr

/-- One CPU's next stretch of kernel code. -/
inductive Act where
  /-- an idle CPU goes through the loop of `scheduler()` up to its `swtch` -/
  | dispatch (c : CpuId)
  /-- the thread switched to goes on behind its `sched()` -/
  | resume (c : CpuId)
  /-- a timer interrupt: `yield()` -/
  | preempt (c : CpuId)
  /-- an interrupt handler calls `wakeup(chan)` -/
  | intrWakeup (chan : Chan)
  /-- a trap from user mode other than a system call; `bad` when the process misbehaved -/
  | trap (c : CpuId) (bad : Bool)
  | syscall (c : CpuId) (call : Syscall)
  /-- the next stretch of the call the thread is in; `page` is what `kalloc` returns and
  `ok` whether a step that can fail for want of memory succeeds -/
  | kstep (c : CpuId) (ok : Bool) (page : Option Nat)
  | work (c : CpuId) (w : Work)
  deriving DecidableEq, Repr

namespace Kernel

/-- `killed || exited`. -/
def dying (s : Kernel) (p : ProcPtr) : Bool := (s.proc p).killed || (s.proc p).exited

/-- The thread a CPU runs, with its process. -/
def onCpu (s : Kernel) (c : CpuId) : Option (ProcPtr × ThdPtr) :=
  match (s.cpu c).proc, (s.cpu c).thd with
  | some p, some t => some (p, t)
  | _, _ => none

/-- A thread switched to goes on; it holds the lock. -/
def resume (s : Kernel) (c : CpuId) (p : ProcPtr) (t : ThdPtr) : Kernel :=
  let awake := s.setThd t fun x => { x with chan := none }
  match s.pc t with
  | .forkret => (s.setPc t .user).release
  | .slept => (awake.setPc t .kernel).release
  | .waitSleep => awake.waitRound c p t
  | .joinSleep tid => awake.joinRound c p t tid
  | .exitSleep k => exitRound c p t k (awake.allthdRound p t)
  | .execSleep => execRound c p t (awake.allthdRound p t)
  -- back in `yield`
  | _ => s.release

/-- The next stretch of the call thread `t` is in. A section needs the lock. -/
def kstep (s : Kernel) (c : CpuId) (p : ProcPtr) (t : ThdPtr) (ok : Bool) (page : Option Nat) :
    Option Kernel :=
  let locked (s' : Kernel) : Option Kernel := if s.lock = none then some s' else none
  match s.pc t with
  | .sysret => some (s.setPc t (if s.dying p then .threadExit 0 else .user))
  | .chdirSet ip => some ((s.setProc p fun q => { q with cwd := some ip }).ret t 0)
  | .setCpuShare share =>
    locked ((s.cpuShare p share).ret t (.ofInt 32 (Xv6.setCpuShare s.mlfq (s.proc p) share).1))
  | .kill pid => locked (s.kill t pid)
  | .wait => locked (s.waitRound c p t)
  | .threadJoin tid => locked (s.joinRound c p t tid)
  | .threadExit retval => locked (s.threadExit p t retval)
  | .threadExitDie retval => locked (s.threadExitDie c p t retval)
  | .exitEntry k => some (s.exitEntry p t k)
  | .exitClose k fd => some (s.exitClose p t k fd)
  | .exitClear k fd => some (s.exitClear p t k fd)
  | .exitPut k => some (s.exitPut p t k)
  | .exitCwd k => some (s.exitCwd p t k)
  | .exitShare k => locked ((s.cpuShare p 0).setPc t (.exitThds k))
  | .exitThds k => locked (exitRound c p t k (s.allthdexit p t))
  | .fork => locked (s.allocproc t)
  | .forkCopy np => some (if ok then s.setPc t (.allocthd (.fork np)) else s.forkFail t np)
  | .allocthd k => locked (s.allocthd t k)
  | .allocStack k n => some (s.allocStack t k n page)
  | .allocOwner k n => some (s.allocOwner p t k n)
  | .forkInit np n => some (s.forkInit p t np n)
  | .forkFile np n fd => some (s.forkFile p t np n fd)
  | .forkCwd np n => some (s.forkCwd p t np n)
  | .forkRun np n => locked (s.forkRun t np n)
  | .createStack n => some (if ok then s.setPc t (.createArgs n) else s.createFail t n)
  | .createArgs n => some (if ok then s.setPc t (.createRun n) else s.createFail t n)
  | .createRun n => locked (s.createRun p t n)
  | .exec relative => some (s.execPath p t relative ok)
  | .execThds => locked (execRound c p t (s.allthdexit p t))
  | _ => none

/-- A step of a call that leaves the tables alone. -/
def work (s : Kernel) (c : CpuId) (p : ProcPtr) (t : ThdPtr) : Work → Option Kernel
  | .sleep chan => if s.lock = none then some (s.sleep c p t chan .slept) else none
  | .wakeup chan => if s.lock = none then some (s.wakeup1 (some chan)) else none
  | .path => some (if (s.proc p).cwd = none then s.halt .nullInode else s)
  | .chdir ip =>
    some (if (s.proc p).cwd = none then s.halt .nullInode else s.setPc t (.chdirSet ip))
  | .ofile fd f =>
    some (s.setProc p fun q => { q with ofile := fun i => if i = fd then f else q.ofile i })
  | .grow => some (s.switchuvm c p)
  | .done r => some (s.ret t r)

/-- The kernel's steps. A halted kernel has none. -/
def step (s : Kernel) (a : Act) : Option Kernel :=
  if s.panic.isSome then none
  else match a with
  | .dispatch c =>
    if s.lock = none ∧ (s.cpu c).proc = none ∧ (s.cpu c).thd = none then some (s.scheduler c)
    else none
  | .resume c =>
    match s.onCpu c with
    | some (p, t) => if s.lock = some c then some (s.resume c p t) else none
    | none => none
  | .preempt c =>
    match s.onCpu c with
    | some (p, t) =>
      if s.lock = none ∧ (s.thread t).state = .running then some (s.yield c p t) else none
    | none => none
  | .intrWakeup chan => if s.lock = none then some (s.wakeup1 (some chan)) else none
  | .trap c bad =>
    match s.onCpu c with
    | some (p, t) =>
      if s.pc t = .user ∧ s.lock ≠ some c then
        let s := if bad then s.setProc p fun q => { q with killed := true } else s
        if s.dying p then some (s.setPc t (.threadExit 0)) else some s
      else none
    | none => none
  | .syscall c call =>
    match s.onCpu c with
    | some (p, t) =>
      if s.pc t = .user ∧ s.lock ≠ some c then
        some (s.setPc t (if s.dying p then .threadExit 0 else call.entry))
      else none
    | none => none
  | .kstep c ok page =>
    match s.onCpu c with
    | some (p, t) => if s.lock ≠ some c then s.kstep c p t ok page else none
    | none => none
  | .work c w =>
    match s.onCpu c with
    | some (p, t) => if s.pc t = .kernel ∧ s.lock ≠ some c then s.work c p t w else none
    | none => none

/-- The kernel after `userinit`: one process, ready to run. -/
def boot : Kernel where
  proc p := if p = 0 then
    { state := .runnable, pid := 1, stype := .mlfq, cwd := some 0
      pin := some 0 } else {}
  thread t := if t = 0 then
    { kstack := some 0, state := .runnable, tid := 1, mp := some 0 } else {}
  pc t := if t = 0 then .forkret else .dead
  cpu _ := {}
  nextpid := 2
  nexttid := 2

end Kernel

end Xv6
