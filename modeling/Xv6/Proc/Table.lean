import Mathlib.Order.Lattice
import Mathlib.Order.BoundedOrder.Basic
import Mathlib.Data.Fin.Basic
import Mathlib.Tactic.Simps.Basic
import Xv6.Param

/-!
# Processes, threads and the state of the kernel

`proc.h` and the `ptable` of `proc.c`. A process owns files, a directory and a scheduling
class; a thread owns a kernel stack and a run state, and names its process in `mp`. Pointers
into the two tables are indices, and a null pointer is `none`.

The C text of the kernel runs on each thread's own kernel stack. `Pc` is what that stack
holds while the thread is not inside a `ptable.lock` section: the place where the thread goes
on, with the local variables it still needs. Two places are one step apart when a sibling
thread on another CPU can act between them.
-/

namespace Xv6

/-- `enum procstate`, in the order of its values. -/
inductive ProcState where
  | unused | zombie | embryo | sleeping | running | runnable
  deriving DecidableEq, Repr

/-- The value of the enumerator. -/
def ProcState.rank : ProcState → Nat
  | .unused => 0
  | .zombie => 1
  | .embryo => 2
  | .sleeping => 3
  | .running => 4
  | .runnable => 5

theorem ProcState.rank_injective : Function.Injective ProcState.rank := by
  intro a b h
  cases a <;> cases b <;> first | rfl | (simp [ProcState.rank] at h)

/-- C compares enumerators by value. -/
instance : LinearOrder ProcState := LinearOrder.lift' ProcState.rank ProcState.rank_injective

instance : OrderBot ProcState where
  bot := .unused
  bot_le s := Nat.zero_le s.rank

/-- `enum scheduler`; a slot that was never used holds neither. -/
inductive SchedType where
  | none | mlfq | stride
  deriving DecidableEq, Repr

/-- `enum level`. -/
inductive Level where
  | hqlev | mqlev | lqlev
  deriving DecidableEq, Repr

/-- `p->qlev++`, which the scheduler only does below `LQLEV`. -/
def Level.next : Level → Level
  | .hqlev => .mqlev
  | .mqlev => .lqlev
  | .lqlev => .lqlev

abbrev ProcPtr := Fin NPROC
abbrev ThdPtr := Fin NTHREAD
abbrev FilePtr := Fin NFILE
abbrev InodePtr := Fin NINODE
abbrev CpuId := Nat

/-- A sleep channel is an address: a process, or some other kernel object. -/
inductive Chan where
  | proc (p : ProcPtr)
  | obj (a : Nat)
  deriving DecidableEq, Repr

/-- `struct thread`. A kernel stack is the page it lies in. -/
structure Thread where
  kstack : Option Nat := none
  state : ProcState := .unused
  tid : Word := 0
  mp : Option ProcPtr := none
  eax : Word := 0
  chan : Option Chan := none

/-- `struct proc`. -/
structure Proc where
  state : ProcState := .unused
  pid : Word := 0
  parent : Option ProcPtr := none
  killed : Bool := false
  exited : Bool := false
  ofile : Fin NOFILE → Option FilePtr := fun _ => none
  cwd : Option InodePtr := none
  stype : SchedType := .none
  qlev : Level := .hqlev
  ticks : Word := 0
  share : Word := 0
  pass : Word := 0
  pin : Option ThdPtr := none

/-- The variable part of the `mlfq` record of `scheduler.c`. -/
structure Mlfq where
  share : Word := 100#32
  pass : Word := 0
  boosted : Word := 0
  pin : ProcPtr := 0

/-- `struct cpu`: what runs on it, and the kernel stack a trap will use. -/
structure Cpu where
  proc : Option ProcPtr := none
  thd : Option ThdPtr := none
  esp0 : Option Nat := none

/-- Who called `exit()`. -/
inductive ExitCaller where
  | sysExit
  | threadExit (retval : Word)
  deriving DecidableEq, Repr

/-- Who called `allocthd(p)`: `fork`, for its new process, or `thread_create`. -/
inductive AllocCaller where
  | fork (np : ProcPtr)
  | create
  deriving DecidableEq, Repr

/-- Where a thread goes on. -/
inductive Pc where
  /-- never again: the thread is a zombie, or its slot is free -/
  | dead
  /-- in user mode -/
  | user
  /-- in `trap`, after `syscall()` -/
  | sysret
  /-- in a system call that leaves the tables alone (files, pipes, memory) -/
  | kernel
  /-- in `sleep(chan, lk)` of such a system call -/
  | slept
  /-- in `sys_chdir`, the old directory is dropped -/
  | chdirSet (ip : InodePtr)
  /-- a new thread's first instruction -/
  | forkret
  | setCpuShare (share : Word)
  | kill (pid : Word)
  | wait
  | waitSleep
  | threadJoin (tid : Word)
  | joinSleep (tid : Word)
  /-- `thread_exit`, before its scan for other threads -/
  | threadExit (retval : Word)
  /-- `thread_exit`, before the section in which it dies -/
  | threadExitDie (retval : Word)
  /-- `exit`, at its check for `initproc` -/
  | exitEntry (k : ExitCaller)
  /-- `exit`, about to test `ofile[fd]` -/
  | exitClose (k : ExitCaller) (fd : Fin NOFILE)
  /-- `exit`, the file is closed and `ofile[fd]` still names it -/
  | exitClear (k : ExitCaller) (fd : Fin NOFILE)
  /-- `exit`, about to drop the directory -/
  | exitPut (k : ExitCaller)
  /-- `exit`, the directory is dropped and `cwd` still names it -/
  | exitCwd (k : ExitCaller)
  /-- `exit`, before `set_cpu_share(0)` -/
  | exitShare (k : ExitCaller)
  /-- `exit`, before the section that starts with `allthdexit` -/
  | exitThds (k : ExitCaller)
  | exitSleep (k : ExitCaller)
  | fork
  | forkCopy (np : ProcPtr)
  | allocthd (k : AllocCaller)
  /-- `allocthd`, before `kalloc` -/
  | allocStack (k : AllocCaller) (n : ThdPtr)
  /-- `allocthd`, before it fills in the context and `mp` -/
  | allocOwner (k : AllocCaller) (n : ThdPtr)
  | forkInit (np : ProcPtr) (n : ThdPtr)
  /-- `fork`, copying `ofile[fd]` -/
  | forkFile (np : ProcPtr) (n : ThdPtr) (fd : Fin NOFILE)
  | forkCwd (np : ProcPtr) (n : ThdPtr)
  | forkRun (np : ProcPtr) (n : ThdPtr)
  /-- `thread_create`, before `ualloc` -/
  | createStack (n : ThdPtr)
  /-- `thread_create`, before `copyout` -/
  | createArgs (n : ThdPtr)
  | createRun (n : ThdPtr)
  /-- `exec`, resolving its path -/
  | exec (relative : Bool)
  | execThds
  | execSleep
  deriving DecidableEq, Repr

/-- The panics of the modelled code, and the faults it can run into. -/
inductive Panic where
  | initExiting
  | schedRunning
  | noThreadScheduler
  | noThreadSched
  | switchuvmNoKstack
  | kfree
  | nullInode
  | nullProc
  | nullThread
  | divideByZero
  deriving DecidableEq, Repr

/-- The kernel. `lock` is the CPU that holds `ptable.lock` between a `swtch` and the release
by the thread switched to. `drops` is history: how often `exit` has dropped the directory of
the process that now lives in a slot. -/
structure Kernel where
  proc : ProcPtr → Proc
  thread : ThdPtr → Thread
  pc : ThdPtr → Pc
  cpu : CpuId → Cpu
  lock : Option CpuId := none
  mlfq : Mlfq := {}
  initproc : ProcPtr := 0
  nextpid : Word := 1
  nexttid : Word := 1
  panic : Option Panic := none
  drops : ProcPtr → Nat := fun _ => 0

namespace Kernel

/-- Updates one process. -/
@[simps proc, simps -fullyApplied thread pc cpu lock mlfq initproc panic drops]
def setProc (s : Kernel) (p : ProcPtr) (f : Proc → Proc) : Kernel :=
  { s with proc := fun q => if q = p then f (s.proc p) else s.proc q }

/-- Updates one thread. -/
@[simps thread, simps -fullyApplied proc pc cpu lock mlfq initproc panic drops]
def setThd (s : Kernel) (t : ThdPtr) (f : Thread → Thread) : Kernel :=
  { s with thread := fun u => if u = t then f (s.thread t) else s.thread u }

/-- Moves one thread to another place. -/
@[simps pc, simps -fullyApplied proc thread cpu lock mlfq initproc panic drops]
def setPc (s : Kernel) (t : ThdPtr) (k : Pc) : Kernel :=
  { s with pc := fun u => if u = t then k else s.pc u }

/-- Updates one CPU. -/
@[simps cpu, simps -fullyApplied proc thread pc lock mlfq initproc panic drops]
def setCpu (s : Kernel) (c : CpuId) (f : Cpu → Cpu) : Kernel :=
  { s with cpu := fun d => if d = c then f (s.cpu c) else s.cpu d }

/-- `panic`, or a fault in kernel mode: the machine stops at the first one. -/
@[simps -fullyApplied proc thread pc cpu lock mlfq initproc panic drops]
def halt (s : Kernel) (m : Panic) : Kernel := { s with panic := s.panic.or (some m) }

/-- `release(&ptable.lock)`. -/
@[simps -fullyApplied proc thread pc cpu lock mlfq initproc panic drops]
def release (s : Kernel) : Kernel := { s with lock := none }

/-- A `swtch` on CPU `c`: the thread switched to holds the lock and will release it. -/
@[simps -fullyApplied proc thread pc cpu lock mlfq initproc panic drops]
def handOver (s : Kernel) (c : CpuId) : Kernel := { s with lock := some c }

end Kernel

end Xv6
