import Xv6.Proc.Sched

/-!
# The system calls on processes and threads

`exit`, `wait`, `kill`, `fork` of `proc.c`, the calls of `thread.c`, and the part of `exec`
that ends the other threads. Each definition is one stretch of a call between two places where
another CPU can act: a `ptable.lock` section, or an access to data the threads of a process
share. The arguments `c`, `p` and `t` are `mycpu()`, `myproc()` and `mythd()`.
-/

namespace Xv6.Kernel

open Xv6.Lib

variable (s : Kernel) (c : CpuId) (p : ProcPtr) (t : ThdPtr)

/-- A system call returns `r`. -/
def ret (s : Kernel) (t : ThdPtr) (r : Word) : Kernel :=
  (s.setThd t fun x => { x with eax := r }).setPc t .sysret

/-- `kfree(v)` panics on a null pointer. -/
def kfree (s : Kernel) (v : Option Nat) : Kernel :=
  if v = none then s.halt .kfree else s

/-- Frees a thread slot, as `wait`, `thread_join` and `exec` do. -/
def freeThd (s : Kernel) (u : ThdPtr) : Kernel :=
  (s.kfree (s.thread u).kstack).setThd u fun x =>
    { x with kstack := none, state := .unused, tid := 0, mp := none }

/-! ## Ending the other threads of a process -/

/-- The three outcomes of one round of the loop of `allthdexit`. -/
inductive Round where
  | done | failed | sleeps
  deriving DecidableEq, Repr

/-- The scan of `allthdexit`: some other slot of the process is not ZOMBIE. -/
def havethds : Bool :=
  (List.finRange NTHREAD).any fun u =>
    u ≠ t ∧ (s.thread u).mp = some p ∧ (s.thread u).state ≠ .zombie

/-- One round of the loop of `allthdexit`. -/
def allthdRound : Round × Kernel :=
  if ¬ s.havethds p t then (.done, s.setProc p fun q => { q with exited := false })
  else if (s.proc p).killed then (.failed, s.setProc p fun q => { q with exited := false })
  else (.sleeps, s)

/-- The first loop of `allthdexit`, and the loop of `kill`: the sleeping threads of `p`. -/
def wakeThds (s : Kernel) (p : ProcPtr) : Kernel :=
  (List.finRange NTHREAD).foldl
    (fun s u => if (s.thread u).mp = some p ∧ (s.thread u).state = .sleeping then
      s.setstate p u .runnable else s)
    s

/-- `allthdexit()` up to its first sleep. -/
def allthdexit : Round × Kernel :=
  if (s.proc p).exited then (.failed, s)
  else ((s.setProc p fun q => { q with exited := true }).wakeThds p).allthdRound p t

/-! ## exit -/

/-- `exit` returns to its caller. -/
def exitReturn (s : Kernel) (t : ThdPtr) : ExitCaller → Kernel
  | .sysExit => s.ret t 0
  | .threadExit retval => s.setPc t (.threadExitDie retval)

/-- One round of the loop that passes the children of `p` to `initproc`. -/
def abandon (p : ProcPtr) (s : Kernel) (q : ProcPtr) : Kernel :=
  if (s.proc q).parent = some p then
    let s := s.setProc q fun x => { x with parent := some s.initproc }
    if (s.proc q).state = .zombie then s.wakeup1 (some (.proc s.initproc)) else s
  else s

/-- The end of `exit`, with the other threads gone. -/
def exitFinish : Kernel :=
  let s := s.wakeup1 ((s.proc p).parent.map .proc)
  let s := (List.finRange NPROC).foldl (abandon p) s
  ((s.setstate p t .zombie).setPc t .dead).sched c p t

/-- What `exit` does after a round of `allthdexit`. -/
def exitRound (k : ExitCaller) : Round × Kernel → Kernel
  | (.done, s) => s.exitFinish c p t
  | (.failed, s) => (s.exitReturn t k).release
  | (.sleeps, s) => s.sleep c p t (.proc p) (.exitSleep k)

/-- `if(curproc == initproc) panic("init exiting")`. -/
def exitEntry (k : ExitCaller) : Kernel :=
  if p = s.initproc then s.halt .initExiting else s.setPc t (.exitClose k 0)

/-- On to the next descriptor, or out of the loop. -/
def exitNextFd (k : ExitCaller) (fd : Fin NOFILE) : Kernel :=
  match nextSlot fd with
  | some fd' => s.setPc t (.exitClose k fd')
  | none => s.setPc t (.exitPut k)

/-- `if(curproc->ofile[fd]) fileclose(curproc->ofile[fd])`. -/
def exitClose (k : ExitCaller) (fd : Fin NOFILE) : Kernel :=
  match (s.proc p).ofile fd with
  | some _ => s.setPc t (.exitClear k fd)
  | none => s.exitNextFd t k fd

/-- `curproc->ofile[fd] = 0`. -/
def exitClear (k : ExitCaller) (fd : Fin NOFILE) : Kernel :=
  (s.setProc p fun q => { q with ofile := fun i => if i = fd then none else q.ofile i }).exitNextFd
    t k fd

/-- `iput(curproc->cwd)`. -/
def exitPut (k : ExitCaller) : Kernel :=
  match (s.proc p).cwd with
  | none => s.halt .nullInode
  | some _ =>
    { s with drops := fun q => if q = p then s.drops p + 1 else s.drops q }.setPc t (.exitCwd k)

/-- `curproc->cwd = 0`. -/
def exitCwd (k : ExitCaller) : Kernel :=
  (s.setProc p fun q => { q with cwd := none }).setPc t (.exitShare k)

/-- The effect of `set_cpu_share(share)`. -/
def cpuShare (s : Kernel) (p : ProcPtr) (share : Word) : Kernel :=
  { s.setProc p fun q => (setCpuShare s.mlfq q share).2.2 with
    mlfq := (setCpuShare s.mlfq (s.proc p) share).2.1 }

/-! ## thread_exit, thread_join -/

/-- The first section of `thread_exit`: is another thread of the process alive? -/
def threadExit (retval : Word) : Kernel :=
  if (List.finRange NTHREAD).any fun u =>
      (s.thread u).mp = some p ∧ u ≠ t ∧ ProcState.zombie < (s.thread u).state then
    s.setPc t (.threadExitDie retval)
  else s.setPc t (.exitEntry (.threadExit retval))

/-- The second section of `thread_exit`. -/
def threadExitDie (retval : Word) : Kernel :=
  let s := s.setThd t fun x => { x with eax := retval }
  let s := s.wakeup1 ((s.thread t).mp.map .proc)
  ((s.setstate p t .zombie).setPc t .dead).sched c p t

/-- One round of the loop of `thread_join`. -/
def joinRound (tid : Word) : Kernel :=
  match (List.finRange NTHREAD).find? fun u =>
      (s.thread u).mp = some p ∧ (s.thread u).tid = tid ∧ (s.thread u).state = .zombie with
  | some u => ((s.freeThd u).ret t 0).release
  | none =>
    if ¬ ((List.finRange NTHREAD).any fun u =>
        (s.thread u).mp = some p ∧ (s.thread u).tid = tid) ∨
        (s.proc p).killed ∨ (s.proc p).exited then
      (s.ret t (-1)).release
    else s.sleep c p t (.proc p) (.joinSleep tid)

/-! ## wait, kill -/

/-- `wait` has found the zombie child `q`. -/
def reap (s : Kernel) (q : ProcPtr) : Kernel :=
  let s := (List.finRange NTHREAD).foldl
    (fun s u => if (s.thread u).mp = some q then s.freeThd u else s) s
  s.setProc q fun x => { x with
    pid := 0, parent := none, killed := false, state := .unused, stype := .none, qlev := .hqlev
    ticks := 0, share := 0, pass := 0, pin := none }

/-- One round of the loop of `wait`. -/
def waitRound : Kernel :=
  match (List.finRange NPROC).find? fun q =>
      (s.proc q).parent = some p ∧ (s.proc q).state = .zombie with
  | some q => ((s.reap q).ret t (s.proc q).pid).release
  | none =>
    if ¬ ((List.finRange NPROC).any fun q => (s.proc q).parent = some p) ∨
        (s.proc p).killed ∨ (s.proc p).exited then
      (s.ret t (-1)).release
    else s.sleep c p t (.proc p) .waitSleep

/-- `kill(pid)`: the first slot with that pid, whatever its state. -/
def kill (pid : Word) : Kernel :=
  match (List.finRange NPROC).find? fun q => (s.proc q).pid = pid with
  | some q => ((s.setProc q fun x => { x with killed := true }).wakeThds q).ret t 0
  | none => s.ret t (-1)

/-! ## fork, thread_create -/

/-- `allocproc()`. -/
def allocproc : Kernel :=
  match (List.finRange NPROC).find? fun q => (s.proc q).state = .unused with
  | some np =>
    { s.setProc np fun q => { q with state := .embryo, pid := s.nextpid } with
      nextpid := s.nextpid + 1
      drops := fun q => if q = np then 0 else s.drops q }.setPc t (.forkCopy np)
  | none => s.ret t (-1)

/-- `fork` gives up its new process. -/
def forkFail (s : Kernel) (t : ThdPtr) (np : ProcPtr) : Kernel :=
  (s.setProc np fun q => { q with state := .unused }).ret t (-1)

/-- `allocthd` found nothing: what its caller does. -/
def allocFail (s : Kernel) (t : ThdPtr) : AllocCaller → Kernel
  | .fork np => s.forkFail t np
  | .create => s.ret t (-1)

/-- The section of `allocthd`. -/
def allocthd (k : AllocCaller) : Kernel :=
  match (List.finRange NTHREAD).find? fun u => (s.thread u).state = .unused with
  | some n =>
    { s.setThd n fun x => { x with state := .embryo, tid := s.nexttid } with
      nexttid := s.nexttid + 1 }.setPc t (.allocStack k n)
  | none => s.allocFail t k

/-- `if((t->kstack = kalloc()) == 0)`. -/
def allocStack (k : AllocCaller) (n : ThdPtr) (page : Option Nat) : Kernel :=
  match page with
  | some _ => (s.setThd n fun x => { x with kstack := page }).setPc t (.allocOwner k n)
  | none => (s.setThd n fun x => { x with kstack := none, state := .unused }).allocFail t k

/-- The context that starts at `forkret`, and `t->mp = p`. -/
def allocOwner (k : AllocCaller) (n : ThdPtr) : Kernel :=
  match k with
  | .fork np =>
    ((s.setThd n fun x => { x with mp := some np }).setPc n .forkret).setPc t (.forkInit np n)
  | .create =>
    ((s.setThd n fun x => { x with mp := some p }).setPc n .forkret).setPc t (.createStack n)

/-- `fork` fills in its new process; the child will see `fork` return 0. -/
def forkInit (np : ProcPtr) (n : ThdPtr) : Kernel :=
  let s := s.setProc np fun q =>
    { q with pin := some n, parent := some p, stype := .mlfq, qlev := .hqlev, pass := 0 }
  (s.setThd n fun x => { x with eax := 0 }).setPc t (.forkFile np n 0)

/-- `if(curproc->ofile[i]) np->ofile[i] = filedup(curproc->ofile[i])`. -/
def forkFile (np : ProcPtr) (n : ThdPtr) (fd : Fin NOFILE) : Kernel :=
  let s := match (s.proc p).ofile fd with
    | some f => s.setProc np fun q =>
        { q with ofile := fun i => if i = fd then some f else q.ofile i }
    | none => s
  match nextSlot fd with
  | some fd' => s.setPc t (.forkFile np n fd')
  | none => s.setPc t (.forkCwd np n)

/-- `np->cwd = idup(curproc->cwd)`. -/
def forkCwd (np : ProcPtr) (n : ThdPtr) : Kernel :=
  match (s.proc p).cwd with
  | none => s.halt .nullInode
  | some ip => (s.setProc np fun q => { q with cwd := some ip }).setPc t (.forkRun np n)

/-- The last section of `fork`. -/
def forkRun (np : ProcPtr) (n : ThdPtr) : Kernel :=
  let s := s.setProc np fun q => { q with state := .runnable }
  (s.setThd n fun x => { x with state := .runnable }).ret t (s.proc np).pid

/-- `thread_create` fails after `allocthd`: the slot is free again, its `mp` stays. -/
def createFail (n : ThdPtr) : Kernel :=
  ((s.kfree (s.thread n).kstack).setThd n fun x => { x with kstack := none, state := .unused }).ret
    t (-1)

/-- The last section of `thread_create`. -/
def createRun (n : ThdPtr) : Kernel :=
  let s := s.setThd n fun x => { x with state := .runnable }
  (s.setProc p fun q => { q with state := .runnable }).ret t 0

/-! ## exec -/

/-- `exec` has the process to itself: it frees the other threads and commits. -/
def execFinish : Kernel :=
  let s := (List.finRange NTHREAD).foldl
    (fun s u => if u ≠ t ∧ (s.thread u).mp = some p ∧ (s.thread u).state = .zombie then
      s.freeThd u else s) s
  ((s.switchuvm c p).ret t 0).release

/-- What `exec` does after a round of `allthdexit`. -/
def execRound : Round × Kernel → Kernel
  | (.done, s) => s.execFinish c p t
  | (.failed, s) => (s.ret t (-1)).release
  | (.sleeps, s) => s.sleep c p t (.proc p) .execSleep

/-- The path of `exec`: a relative one starts with `idup(myproc()->cwd)`. -/
def execPath (relative loads : Bool) : Kernel :=
  if relative ∧ (s.proc p).cwd = none then s.halt .nullInode
  else if loads then s.setPc t .execThds
  else s.ret t (-1)

end Xv6.Kernel
