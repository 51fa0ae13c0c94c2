import Xv6.Proc.Step

/-!
# The scheduler loop on one CPU

`scheduler()` sees processes, not threads: it picks one, the process runs until a `sched()` finds
its quantum used up or its state below RUNNABLE, and the ticks of the slice are charged to the
process or to MLFQ. This machine is that loop. It runs the functions of the kernel model on the
process table and leaves the threads alone; what the threads of a process do together is the
state in which a `sched()` leaves their process.

A client is what a pass value belongs to: a stride process, or MLFQ as a whole (`none`).
-/

namespace Xv6

open Xv6.Lib

/-- The next thing that happens on the CPU. -/
inductive LoopAct where
  /-- `scheduler()` goes through its loop up to the `swtch` -/
  | pick
  /-- a thread of the running process calls `sched()`, with the process in state `st` -/
  | sched (st : ProcState)
  /-- the running process calls `set_cpu_share(share)` -/
  | setCpuShare (share : Word)
  /-- the running process forks, and the child gets slot `np` -/
  | fork (np : ProcPtr)
  /-- the running process waits, and frees the zombie in slot `q` -/
  | reap (q : ProcPtr)
  /-- a thread of `q` is woken -/
  | wakeup (q : ProcPtr)
  deriving DecidableEq, Repr

namespace Kernel

/-- The process that the loop has on its CPU. -/
def running (s : Kernel) : Option ProcPtr := (s.cpu 0).proc

/-- The client that a slice of `p` is charged to. -/
def clientOf (s : Kernel) (p : ProcPtr) : Option ProcPtr :=
  if (s.proc p).stype = .stride then some p else none

def IsClient (s : Kernel) : Option ProcPtr → Prop
  | some p => (s.proc p).stype = .stride
  | none => True

def clientPass (s : Kernel) : Option ProcPtr → Word
  | some p => (s.proc p).pass
  | none => s.mlfq.pass

def clientShare (s : Kernel) : Option ProcPtr → Word
  | some p => (s.proc p).share
  | none => s.mlfq.share

/-- A client that `getschedproc` can pick: MLFQ is ready when one of its processes is. -/
def Ready (s : Kernel) : Option ProcPtr → Prop
  | some p => (s.proc p).state = .runnable
  | none => ∃ p, (s.proc p).stype = .mlfq ∧ (s.proc p).state = .runnable

instance (s : Kernel) : DecidablePred s.IsClient
  | some p => inferInstanceAs (Decidable ((s.proc p).stype = .stride))
  | none => isTrue trivial

instance (s : Kernel) : DecidablePred s.Ready
  | some p => inferInstanceAs (Decidable ((s.proc p).state = .runnable))
  | none => inferInstanceAs (Decidable (∃ p, (s.proc p).stype = .mlfq ∧ (s.proc p).state = .runnable))

end Kernel

/-- The loop. The rest is history: `given` and `mlfqCharged` are the ticks of the slices that are
over, and those of them that were charged to MLFQ; `mlfqGiven` counts each tick at which the process
that gets it is in MLFQ. -/
structure Loop where
  kernel : Kernel
  given : Nat := 0
  mlfqCharged : Nat := 0
  mlfqGiven : Nat := 0

namespace Loop

/-- One round of `scheduler()` up to its `swtch`. -/
def pick (s : Loop) : Loop :=
  match s.kernel.reduce.boost.getschedproc with
  | (none, k) => { s with kernel := k }
  | (some p, k) => { s with kernel :=
      (k.setCpu 0 fun x => { x with proc := some p }).setProc p fun q =>
        { q with ticks := 0, state := .running } }

/-- The rest of that round, with the ticks counted. -/
def leave (s : Loop) (p : ProcPtr) : Loop where
  kernel := s.kernel.leaveCpu 0 p
  given := s.given + (s.kernel.proc p).ticks.toNat
  mlfqCharged :=
    if (s.kernel.proc p).stype = .stride then s.mlfqCharged
    else s.mlfqCharged + (s.kernel.proc p).ticks.toNat
  mlfqGiven := s.mlfqGiven

/-- A `sched()` that gets one more tick ends the slice. -/
def Ends (s : Loop) (p : ProcPtr) (st : ProcState) : Prop :=
  ¬ (st = .runnable ∧ (s.kernel.proc p).ticks + 1 < (s.kernel.proc p).quan)

instance (s : Loop) (p : ProcPtr) (st : ProcState) : Decidable (s.Ends p st) :=
  inferInstanceAs (Decidable (¬ _))

/-- The tick that `sched()` counts. -/
def tick (s : Loop) (p : ProcPtr) (st : ProcState) : Loop :=
  { s with
    kernel := s.kernel.setProc p fun q =>
      { q with
        ticks := q.ticks + 1
        pass := if q.stype = .mlfq then q.pass + 1 else q.pass
        state := st }
    mlfqGiven := if (s.kernel.proc p).stype = .stride then s.mlfqGiven else s.mlfqGiven + 1 }

/-- `sched()`, called with the process in state `st`. -/
def sched (s : Loop) (p : ProcPtr) (st : ProcState) : Loop :=
  if s.Ends p st then (s.tick p st).leave p else s.tick p .running

/-- `fork` has filled in slot `np`. -/
def fork (s : Loop) (np : ProcPtr) : Loop :=
  { s with kernel := s.kernel.setProc np fun q =>
      { q with state := .runnable, stype := .mlfq, qlev := .hqlev, pass := 0 } }

/-- A thread of `q` is RUNNABLE again. -/
def wakeup (s : Loop) (q : ProcPtr) : Loop :=
  { s with kernel := s.kernel.setProc q fun x => { x with state := .runnable } }

/-- The loop's steps. -/
def step (s : Loop) (a : LoopAct) : Option Loop :=
  if s.kernel.panic.isSome then none
  else match a, s.kernel.running with
  | .pick, none => some s.pick
  | .sched st, some p => if st = .unused ∨ st = .running then none else some (s.sched p st)
  | .setCpuShare share, some p => some { s with kernel := s.kernel.cpuShare p share }
  | .fork np, some _ => if (s.kernel.proc np).state = .unused then some (s.fork np) else none
  | .reap q, some p =>
    if q ≠ p ∧ (s.kernel.proc q).state = .zombie then some { s with kernel := s.kernel.reap q }
    else none
  | .wakeup q, _ =>
    if .sleeping ≤ (s.kernel.proc q).state then some (s.wakeup q) else none
  | _, _ => none

/-- The loop when the first process is ready. -/
def boot : Loop where
  kernel := Kernel.boot

end Loop

end Xv6
