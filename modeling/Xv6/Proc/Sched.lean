import Xv6.Lib.Scan
import Xv6.Proc.Table

/-!
# The scheduler

`scheduler.c`, with `setstate` of `proc.c`, `nextthd` of `thread.c` and `switchuvm` of `vm.c`.
A slice belongs to a process: `scheduler` picks a process and one of its threads, and `sched`
either hands the CPU to another thread of the same process or gives it back.

Every function here runs with `ptable.lock` held.
-/

namespace Xv6

open Xv6.Lib

/-! ## Thread and process states -/

namespace Kernel

/-- The loop of `setstate`: the largest state among the threads of `p`. -/
def maxThd (s : Kernel) (p : ProcPtr) : ProcState :=
  (List.finRange NTHREAD).foldl
    (fun m u => if (s.thread u).mp = some p ∧ m < (s.thread u).state then (s.thread u).state else m)
    .unused

/-- `setstate(curproc, curthd, state)`. -/
def setstate (s : Kernel) (p : ProcPtr) (t : ThdPtr) (st : ProcState) : Kernel :=
  let s := s.setThd t fun x => { x with state := st }
  if (s.proc p).state ≤ st then s.setProc p fun q => { q with state := st }
  else s.setProc p fun q => { q with state := s.maxThd p }

/-- One round of the loop of `wakeup1`. -/
def wake (chan : Option Chan) (s : Kernel) (t : ThdPtr) : Kernel :=
  if (s.thread t).state = .sleeping ∧ (s.thread t).chan = chan then
    match (s.thread t).mp with
    | some p => s.setstate p t .runnable
    | none => s.halt .nullProc
  else s

/-- `wakeup1(chan)`. -/
def wakeup1 (s : Kernel) (chan : Option Chan) : Kernel :=
  (List.finRange NTHREAD).foldl (wake chan) s

/-- The search of `nextthd(p)`, from the cursor `p->pin`. -/
def nextthd (s : Kernel) (p : ProcPtr) (pin : ThdPtr) : Option ThdPtr :=
  (scanFrom pin).find? fun t =>
    (s.thread t).mp = some p ∧ (s.thread t).state = .runnable

/-- `if((t = nextthd(p)) == 0) panic(...)`, going on with `k` when a thread is found. -/
def withNext (s : Kernel) (p : ProcPtr) (m : Panic) (k : Kernel → ThdPtr → Kernel) : Kernel :=
  match (s.proc p).pin with
  | none => s.halt .nullThread
  | some pin =>
    match s.nextthd p pin with
    | none => s.halt m
    | some t => k (s.setProc p fun q => { q with pin := some t }) t

/-- `switchuvm(p)`: the kernel stack of the cursor's thread takes the traps of this CPU. -/
def switchuvm (s : Kernel) (c : CpuId) (p : ProcPtr) : Kernel :=
  match (s.proc p).pin with
  | none => s.halt .nullThread
  | some t =>
    match (s.thread t).kstack with
    | none => s.halt .switchuvmNoKstack
    | some stack => s.setCpu c fun x => { x with esp0 := some stack }

end Kernel

/-! ## The two classes -/

/-- `mlfq.quan`. -/
def mlfqQuan : Level → Word
  | .hqlev => 5#32
  | .mqlev => 10#32
  | .lqlev => 20#32

/-- `mlfq.allot`; the lowest queue has none. -/
def mlfqAllot : Level → Option Word
  | .hqlev => some 20#32
  | .mqlev => some 40#32
  | .lqlev => none

/-- `stride.quan`. -/
def strideQuan : Word := 5#32

/-- The time quantum of a process. -/
def Proc.quan (p : Proc) : Word := if p.stype = .stride then strideQuan else mlfqQuan p.qlev

/-- `set_cpu_share(share)` on the caller's process: the reply, and the two records it writes.
The new share of MLFQ is computed and compared without a sign. -/
def setCpuShare (m : Mlfq) (p : Proc) (share : Word) : Int × Mlfq × Proc :=
  if share.toInt ≤ 0 then
    if p.stype = .stride then
      (0, { m with share := m.share + p.share },
        { p with stype := .mlfq, qlev := .hqlev, share := 0, pass := 0 })
    else (0, m, p)
  else
    let new := if p.stype = .stride then m.share + p.share - share else m.share - share
    if new < 20#32 then (-1, m, p)
    else (0, { m with share := new },
      { p with stype := .stride, qlev := .hqlev, share := share, pass := m.pass })

namespace Kernel

/-- `boost()`. -/
def boost (s : Kernel) : Kernel :=
  if s.mlfq.boosted < 200#32 then s
  else { s with
    proc := fun p =>
      if (s.proc p).stype = .mlfq ∧ (s.proc p).qlev ≠ .hqlev then
        { s.proc p with qlev := .hqlev, pass := 0 }
      else s.proc p
    mlfq := { s.mlfq with boosted := 0 } }

/-- `reduce()`. -/
def reduce (s : Kernel) : Kernel :=
  if s.mlfq.pass < MAXPASS then s
  else if (List.finRange NPROC).any fun p =>
      (s.proc p).stype = .stride ∧ (s.proc p).pass < MAXPASS then s
  else { s with
    proc := fun p =>
      if (s.proc p).stype = .stride then { s.proc p with pass := (s.proc p).pass - MAXPASS }
      else s.proc p
    mlfq := { s.mlfq with pass := s.mlfq.pass - MAXPASS } }

/-- `getstrideproc()`: the first of the RUNNABLE stride processes with the least pass. -/
def getstrideproc (s : Kernel) : Option ProcPtr :=
  (List.finRange NPROC).foldl
    (fun minproc p =>
      if (s.proc p).stype = .stride ∧ (s.proc p).state = .runnable then
        match minproc with
        | none => some p
        | some q => if (s.proc p).pass < (s.proc q).pass then some p else minproc
      else minproc)
    none

/-- `getmlfqproc()`: the first RUNNABLE MLFQ process behind the cursor. -/
def getmlfqproc (s : Kernel) : Option ProcPtr :=
  (scanFrom s.mlfq.pin).find? fun p =>
    (s.proc p).stype = .mlfq ∧ (s.proc p).state = .runnable

/-- The process `getschedproc()` picks: between the two classes the smaller pass, MLFQ on a tie. -/
def schedChoice (s : Kernel) : Option ProcPtr :=
  match s.getstrideproc, s.getmlfqproc with
  | some p1, some p2 => if (s.proc p1).pass < s.mlfq.pass then some p1 else some p2
  | some p1, none => some p1
  | none, some p2 => some p2
  | none, none => none

/-- `getschedproc()`, which moves the cursor when it picks the MLFQ process. -/
def getschedproc (s : Kernel) : Option ProcPtr × Kernel :=
  match s.getmlfqproc with
  | some p2 =>
    if s.schedChoice = some p2 then (some p2, { s with mlfq := { s.mlfq with pin := p2 } })
    else (s.schedChoice, s)
  | none => (s.schedChoice, s)

/-! ## Taking and leaving a CPU -/

/-- A slice is over: its ticks are charged to the process or to MLFQ as a whole. -/
def charge (s : Kernel) (p : ProcPtr) : Kernel :=
  if (s.proc p).stype = .stride then
    if (s.proc p).share = 0 then s.halt .divideByZero
    else s.setProc p fun q => { q with pass := q.pass + TICKETS * q.ticks / q.share }
  else if s.mlfq.share = 0 then s.halt .divideByZero
  else { s with mlfq := { s.mlfq with
    pass := s.mlfq.pass + TICKETS * (s.proc p).ticks / s.mlfq.share
    boosted := s.mlfq.boosted + (s.proc p).ticks } }

/-- An MLFQ process that has used its allotment goes down one queue. -/
def demote (s : Kernel) (p : ProcPtr) : Kernel :=
  match mlfqAllot (s.proc p).qlev with
  | some allot =>
    if (s.proc p).stype = .mlfq ∧ allot ≤ (s.proc p).pass then
      s.setProc p fun q => { q with qlev := q.qlev.next, pass := 0 }
    else s
  | none => s

/-- The rest of the loop body of `scheduler()` after the `swtch` back to it. -/
def leaveCpu (s : Kernel) (c : CpuId) (p : ProcPtr) : Kernel :=
  (((s.setCpu c fun x => { x with proc := none, thd := none }).charge p).demote p).release

/-- `sched()`, called by thread `t` of `p` on CPU `c`. -/
def sched (s : Kernel) (c : CpuId) (p : ProcPtr) (t : ThdPtr) : Kernel :=
  if (s.thread t).state = .running then s.halt .schedRunning
  else
    let s := s.setProc p fun q =>
      { q with ticks := q.ticks + 1, pass := if q.stype = .mlfq then q.pass + 1 else q.pass }
    if (s.proc p).state = .runnable ∧ (s.proc p).ticks < (s.proc p).quan then
      s.withNext p .noThreadSched fun s u =>
        let s := (s.setstate p u .running).handOver c
        if t = u then s
        else s.setCpu c fun x => { x with thd := some u, esp0 := (s.thread u).kstack }
    else s.leaveCpu c p

/-- The loop body of `scheduler()` up to its `swtch`. -/
def scheduler (s : Kernel) (c : CpuId) : Kernel :=
  match getschedproc s.reduce.boost with
  | (none, s) => s
  | (some p, s) =>
    s.withNext p .noThreadScheduler fun s t =>
      let s := s.setCpu c fun x => { x with proc := some p, thd := some t }
      let s := (s.switchuvm c p).setProc p fun q => { q with ticks := 0 }
      (s.setstate p t .running).handOver c

/-- `yield()`. -/
def yield (s : Kernel) (c : CpuId) (p : ProcPtr) (t : ThdPtr) : Kernel :=
  (s.setstate p t .runnable).sched c p t

/-- `sleep(chan, &ptable.lock)`; the thread goes on at `k` when it is switched to. -/
def sleep (s : Kernel) (c : CpuId) (p : ProcPtr) (t : ThdPtr) (chan : Chan) (k : Pc) : Kernel :=
  let s := (s.setThd t fun x => { x with chan := some chan }).setstate p t .sleeping
  (s.setPc t k).sched c p t

end Kernel

end Xv6
