import Xv6.Lib.Bytes
import Xv6.Proc.Step

/-!
# The blocking loops

`piperead` and `pipewrite` of `pipe.c` and `sys_sleep` of `sysproc.c`. Each holds a spinlock of its
own, tests a condition, and then `killed` and `exited`, and sleeps; `sleep` takes `ptable.lock`
only then. `BlockSys` is the kernel with the pipes, the clock, and the place of each thread in
such a call. A thread inside one is at `Pc.kernel` or, while it sleeps, at `Pc.slept`.

What the rest of the kernel does to a pipe (`pipealloc`, `pipeclose`) is an action of its own, so
a property of every run holds whatever that is.
-/

namespace Xv6

open Xv6.Lib

def PIPESIZE : Nat := 512

/-- A pipe is the page it lies in. -/
abbrev PipePtr := Nat

/-- `&p->nread`. Addresses are numbered so that these objects have different ones. -/
def nreadChan (p : PipePtr) : Chan := .obj (4 * p + 1)
/-- `&p->nwrite`. -/
def nwriteChan (p : PipePtr) : Chan := .obj (4 * p + 2)
/-- `&ticks`. -/
def ticksChan : Chan := .obj 0

/-- `&ticks`, or a field of a pipe. -/
def Chan.blocks : Chan → Bool
  | .obj a => a == 0 || a % 4 == 1 || a % 4 == 2
  | .proc _ => false

/-- `struct pipe`; `lock` is the thread that holds `p->lock`, and none when its `locked` is 0. -/
structure Pipe where
  lock : Option ThdPtr := none
  data : Bytes PIPESIZE := Bytes.zero
  nread : Word := 0
  nwrite : Word := 0
  readopen : Bool := true
  writeopen : Bool := true

/-- A blocking call with its arguments and its loop variable. A negative `n` counts as 0: both
pipe loops compare it with `i` as an `int`. -/
inductive BlockCall where
  | piperead (p : PipePtr) (n i : Nat)
  | pipewrite (p : PipePtr) (n i : Nat)
  | sleep (n ticks0 : Word)
  deriving DecidableEq, Repr

/-- A call at its start. -/
inductive BlockEntry where
  | piperead (p : PipePtr) (n : Nat)
  | pipewrite (p : PipePtr) (n : Nat)
  | sleep (n : Word)
  deriving DecidableEq, Repr

def BlockEntry.call : BlockEntry → BlockCall
  | .piperead p n => .piperead p n 0
  | .pipewrite p n => .pipewrite p n 0
  | .sleep n => .sleep n 0

/-- Where a thread stands in its call. -/
inductive Stage where
  /-- before the first `acquire` -/
  | acquire
  /-- at the condition of the `while` -/
  | test
  /-- about to read `myproc()->killed` -/
  | killed
  /-- `killed` was 0; about to read `myproc()->exited` -/
  | exited
  /-- both were 0; before `wakeup(&p->nread)` of `pipewrite` -/
  | poke
  /-- both were 0; before the section of `sleep` -/
  | sleep
  /-- in `sleep`, behind its `sched()` -/
  | slept
  /-- at the copy loop of `piperead` -/
  | copy
  /-- before the last `wakeup` -/
  | wakeup
  /-- before the last `release`, with the reply -/
  | leave (r : Word)
  deriving DecidableEq, Repr

/-- The thread holds the lock of its call. -/
def Stage.holds : Stage → Bool
  | .acquire | .slept => false
  | _ => true

/-- `myproc()->killed` was 0, and the thread has not yet gone to sleep. -/
def Stage.pastKilled : Stage → Bool
  | .exited | .poke | .sleep => true
  | _ => false

/-- So was `myproc()->exited`. -/
def Stage.pastExited : Stage → Bool
  | .poke | .sleep => true
  | _ => false

/-- The channel the loop sleeps on. -/
def BlockCall.chan : BlockCall → Chan
  | .piperead p _ _ => nreadChan p
  | .pipewrite p _ _ => nwriteChan p
  | .sleep _ _ => ticksChan

/-- The kernel, the pipes, the clock and the blocking calls. -/
structure BlockSys where
  kernel : Kernel
  pipe : PipePtr → Pipe := fun _ => {}
  ticks : Word := 0
  tickslock : Option ThdPtr := none
  call : ThdPtr → Option (BlockCall × Stage) := fun _ => none

/-- An action of the kernel, of a thread in a blocking call, or of the timer. -/
inductive BlockAct where
  | kern (a : Act)
  /-- a thread calls one of the three -/
  | enter (c : CpuId) (b : BlockEntry)
  /-- the next step of such a call; `byte` is `addr[i]` -/
  | block (c : CpuId) (byte : Byte)
  /-- the timer interrupt: `ticks++` and `wakeup(&ticks)` -/
  | tick
  /-- the rest of the kernel writes a pipe, with its lock free before and after -/
  | other (p : PipePtr) (x : Pipe)

namespace BlockSys

/-- The holder of the lock of a call. -/
def holder (x : BlockSys) : BlockCall → Option ThdPtr
  | .piperead p _ _ | .pipewrite p _ _ => (x.pipe p).lock
  | .sleep _ _ => x.tickslock

/-- Updates one pipe. -/
def setPipe (x : BlockSys) (p : PipePtr) (f : Pipe → Pipe) : BlockSys :=
  { x with pipe := fun q => if q = p then f (x.pipe p) else x.pipe q }

/-- `acquire` and `release` of the lock of a call. -/
def setHolder (x : BlockSys) (o : Option ThdPtr) : BlockCall → BlockSys
  | .piperead p _ _ | .pipewrite p _ _ => x.setPipe p fun q => { q with lock := o }
  | .sleep _ _ => { x with tickslock := o }

/-- Moves a thread to another place. -/
def setCall (x : BlockSys) (t : ThdPtr) (o : Option (BlockCall × Stage)) : BlockSys :=
  { x with call := fun u => if u = t then o else x.call u }

/-- A step of the kernel proper. -/
def kstep (x : BlockSys) (a : Act) : Option BlockSys :=
  (x.kernel.step a).map fun k => { x with kernel := k }

/-- The condition under which the loop sleeps. `ticks - ticks0 < n` compares without a sign. -/
def waits (x : BlockSys) : BlockCall → Bool
  | .piperead p _ _ => (x.pipe p).nread = (x.pipe p).nwrite && (x.pipe p).writeopen
  | .pipewrite p _ _ => (x.pipe p).nwrite = (x.pipe p).nread + .ofNat 32 PIPESIZE
  | .sleep n ticks0 => x.ticks - ticks0 < n

/-- `ticks0 = ticks`, behind the `acquire`. -/
def started (x : BlockSys) : BlockCall → BlockCall
  | .sleep n _ => .sleep n x.ticks
  | b => b

/-- At the condition of the loop, with the lock held. -/
def test (x : BlockSys) (t : ThdPtr) (byte : Byte) : BlockCall → BlockSys
  | b@(.piperead ..) => x.setCall t (some (b, if x.waits b then .killed else .copy))
  | b@(.pipewrite p n i) =>
    if i < n then
      if x.waits b then
        x.setCall t (some (b, if (x.pipe p).readopen then .killed else .leave (-1)))
      else
        (x.setPipe p fun q => { q with
          data := fun k => if k.val = q.nwrite.toNat % PIPESIZE then byte else q.data k
          nwrite := q.nwrite + 1 }).setCall t (some (.pipewrite p n (i + 1), .test))
    else x.setCall t (some (b, .wakeup))
  | b@(.sleep ..) => x.setCall t (some (b, if x.waits b then .killed else .leave 0))

/-- The copy loop of `piperead`. -/
def copy (x : BlockSys) (t : ThdPtr) : BlockCall → BlockSys
  | b@(.piperead p n i) =>
    if i < n ∧ (x.pipe p).nread ≠ (x.pipe p).nwrite then
      (x.setPipe p fun q => { q with nread := q.nread + 1 }).setCall t
        (some (.piperead p n (i + 1), .copy))
    else x.setCall t (some (b, .wakeup))
  | b => x.setCall t (some (b, .wakeup))

/-- Behind the two flags: `pipewrite` wakes the readers first. -/
def toSleep : BlockCall → Stage
  | .pipewrite .. => .poke
  | _ => .sleep

/-- The channel that the last `wakeup` of a pipe loop names, and the reply. -/
def last : BlockCall → Option Chan × Word
  | .piperead p _ i => (some (nwriteChan p), .ofNat 32 i)
  | .pipewrite p n _ => (some (nreadChan p), .ofNat 32 n)
  | .sleep _ _ => (none, 0)

/-- The readers that `pipewrite` wakes before it sleeps. -/
def readers : BlockCall → Chan
  | .pipewrite p _ _ => nreadChan p
  | b => b.chan

/-- The next step of the call `b` of thread `t` of `p`. A `release` by a thread that does not hold the
lock is a panic, and has no next state. -/
def block (x : BlockSys) (c : CpuId) (p : ProcPtr) (t : ThdPtr) (byte : Byte) (b : BlockCall) :
    Stage → Option BlockSys
  | .acquire =>
    if x.holder b = none then some ((x.setHolder (some t) b).setCall t (some (x.started b, .test)))
    else none
  | .test => some (x.test t byte b)
  | .killed =>
    some (x.setCall t (some (b, if (x.kernel.proc p).killed then .leave (-1) else .exited)))
  | .exited =>
    some (x.setCall t (some (b, if (x.kernel.proc p).exited then .leave (-1) else toSleep b)))
  | .poke => (x.kstep (.work c (.wakeup (readers b)))).map fun y => y.setCall t (some (b, .sleep))
  | .sleep =>
    if x.holder b = some t then
      (x.kstep (.work c (.sleep b.chan))).map fun y =>
        (y.setHolder none b).setCall t (some (b, .slept))
    else none
  | .slept =>
    if x.holder b = none then some ((x.setHolder (some t) b).setCall t (some (b, .test))) else none
  | .copy => some (x.copy t b)
  | .wakeup =>
    match last b with
    | (some chan, r) =>
      (x.kstep (.work c (.wakeup chan))).map fun y => y.setCall t (some (b, .leave r))
    | (none, r) => some (x.setCall t (some (b, .leave r)))
  | .leave r =>
    if x.holder b = some t then
      (x.kstep (.work c (.done r))).map fun y => (y.setHolder none b).setCall t none
    else none

/-- The thread on CPU `c` runs kernel code of a call that leaves the tables alone. -/
def runs (x : BlockSys) (c : CpuId) : Option (ProcPtr × ThdPtr) :=
  match x.kernel.onCpu c with
  | some (p, t) =>
    if x.kernel.panic = none ∧ x.kernel.pc t = .kernel ∧ x.kernel.lock ≠ some c then some (p, t)
    else none
  | none => none

/-- A thread in a blocking call takes no other step of its own, and no timer interrupt while it holds a
lock; nobody else sleeps on its channels. -/
def admits (x : BlockSys) : Act → Bool
  | .work c w => match x.kernel.onCpu c with
    | some (_, t) => (x.call t).isNone && match w with
      | .sleep chan => !chan.blocks
      | _ => true
    | none => true
  | .preempt c => match x.kernel.onCpu c with
    | some (_, t) => !(x.call t).any fun b => b.2.holds
    | none => true
  | _ => true

/-- The steps of the kernel with the blocking loops. -/
def step (x : BlockSys) : BlockAct → Option BlockSys
  | .kern a => if x.admits a then x.kstep a else none
  | .enter c b =>
    match x.runs c with
    | some (_, t) => if x.call t = none then some (x.setCall t (some (b.call, .acquire))) else none
    | none => none
  | .block c byte =>
    match x.runs c with
    | some (p, t) => match x.call t with
      | some (b, stage) => x.block c p t byte b stage
      | none => none
    | none => none
  | .tick =>
    if x.tickslock = none then
      (x.kstep (.intrWakeup ticksChan)).map fun y => { y with ticks := y.ticks + 1 }
    else none
  | .other p q =>
    if (x.pipe p).lock = none then some (x.setPipe p fun _ => { q with lock := none }) else none

/-- Nobody is in a blocking call yet. -/
def boot : BlockSys where
  kernel := Kernel.boot

end BlockSys

end Xv6
