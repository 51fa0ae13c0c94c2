import Xv6.Proc.Block

/-!
# Pipes

`pipeclose` of `pipe.c` beside the loops of `piperead` and `pipewrite`. It holds `p->lock` up to its
`release`, so that part is one step. The second of the two calls then gives the page to `kfree`
without the lock: `kfree` fills the page with ones, and links it into the free list by a store to its
first word, which is `p->lock.locked`. Between the three steps, and after them, a call that is in
progress on the pipe goes on with what it finds there.

`PipeLog` is the history of a run: every byte that a `pipewrite` has stored and every byte that a
`piperead` has removed, in order, with the call and the place in its buffer.
-/

namespace Xv6

open Xv6.Lib

/-- A page that `memset` of `kfree` has filled. `locked` is not 0 and no CPU is `lk->cpu`: nobody
holds the lock and nobody gets it. The thread that frees the page stands for that. -/
def Pipe.junk (t : ThdPtr) : Pipe where
  lock := some t
  data := fun _ => 1#8
  nread := 0x01010101#32
  nwrite := 0x01010101#32

/-- `r->next = kmem.freelist` of `kfree`, over the word `locked`. -/
def Pipe.link (q : Pipe) (t : ThdPtr) (next : Word) : Pipe :=
  { q with lock := if next = 0 then none else some t }

/-- The other end is closed, so that `pipeclose(p, writable)` frees the page. -/
def Pipe.lastEnd (q : Pipe) (writable : Bool) : Bool :=
  bif writable then !q.readopen else !q.writeopen

/-- What `pipeclose(p, writable)` leaves of the pipe at its `release`. -/
def Pipe.closed (q : Pipe) (writable : Bool) : Pipe :=
  bif writable then { q with writeopen := false } else { q with readopen := false }

/-- The channel that `pipeclose` wakes. -/
def closeChan (i : PipePtr) (writable : Bool) : Chan :=
  bif writable then nreadChan i else nwriteChan i

/-- The kernel with the pipes and with the threads that are on their way through `kfree`. -/
structure PipeSys extends BlockSys where
  /-- the thread has closed the second end of the pipe; `true` when the page is filled -/
  closing : ThdPtr → Option (PipePtr × Bool) := fun _ => none
  /-- the second end of the pipe has been closed -/
  freed : PipePtr → Bool := fun _ => false

/-- An action of the kernel with the blocking loops, a call of `pipeclose` up to its `release`, or a
step of its `kfree`, which finds `next` in `kmem.freelist`. -/
inductive PipeAct where
  | block (a : BlockAct)
  | close (c : CpuId) (i : PipePtr) (writable : Bool)
  | kfree (c : CpuId) (next : Word)

namespace PipeSys

/-- A thread that has a page to free does nothing else before. -/
def admits (x : PipeSys) : BlockAct → Bool
  | .kern (.work c _) | .enter c _ => match x.kernel.onCpu c with
    | some (_, t) => (x.closing t).isNone
    | none => true
  -- nobody writes a pipe but the three functions of `pipe.c`
  | .other _ _ => false
  | _ => true

/-- Thread `t` goes on to `kfree` of pipe `i`, or comes out of it. -/
def setClosing (x : PipeSys) (t : ThdPtr) (o : Option (PipePtr × Bool)) : PipeSys :=
  { x with closing := fun u => if u = t then o else x.closing u }

/-- The steps. -/
def step (x : PipeSys) : PipeAct → Option PipeSys
  | .block a => if x.admits a then (x.toBlockSys.step a).map fun y => { x with toBlockSys := y } else none
  | .close c i writable =>
    match x.runs c with
    | some (_, t) =>
      if x.call t = none ∧ x.closing t = none ∧ (x.pipe i).lock = none then
        (x.kstep (.work c (.wakeup (closeChan i writable)))).map fun y =>
          let z := { x with toBlockSys := y.setPipe i fun q => q.closed writable }
          if (x.pipe i).lastEnd writable then
            { z.setClosing t (some (i, false)) with freed := fun j => j = i || x.freed j }
          else z
      else none
    | none => none
  | .kfree c next =>
    match x.runs c with
    | some (_, t) =>
      match x.closing t with
      | some (i, false) =>
        some ({ x with toBlockSys := x.setPipe i fun _ => .junk t }.setClosing t (some (i, true)))
      | some (i, true) =>
        some ({ x with toBlockSys := x.setPipe i fun q => q.link t next }.setClosing t none)
      | none => none
    | none => none

/-- Nobody is in a call or in `kfree` yet. -/
def boot : PipeSys where
  toBlockSys := BlockSys.boot

end PipeSys

/-- `addr[index]` of a call, as it went into the pipe or came out of it. -/
structure PipeByte where
  call : Nat
  index : Nat
  byte : Byte
  deriving DecidableEq, Repr

/-- What has gone through the pipes. Calls are numbered in the order they begin. -/
structure PipeLog where
  stored : PipePtr → List PipeByte := fun _ => []
  removed : PipePtr → List PipeByte := fun _ => []
  calls : Nat := 0
  call : ThdPtr → Nat := fun _ => 0

namespace PipeLog

def begin (l : PipeLog) (t : ThdPtr) : PipeLog :=
  { l with calls := l.calls + 1, call := fun u => if u = t then l.calls else l.call u }

def store (l : PipeLog) (i : PipePtr) (e : PipeByte) : PipeLog :=
  { l with stored := fun j => if j = i then l.stored i ++ [e] else l.stored j }

def remove (l : PipeLog) (i : PipePtr) (e : PipeByte) : PipeLog :=
  { l with removed := fun j => if j = i then l.removed i ++ [e] else l.removed j }

end PipeLog

namespace BlockSys

/-- Records the bytes that a step of a loop moves. -/
def logBlock (x : BlockSys) (t : ThdPtr) (byte : Byte) (l : PipeLog) :
    BlockCall → Stage → PipeLog
  | b@(.pipewrite i n j), .test =>
    if j < n ∧ x.waits b = false then l.store i ⟨l.call t, j, byte⟩ else l
  | .piperead i n j, .copy =>
    if j < n ∧ (x.pipe i).nread ≠ (x.pipe i).nwrite then
      l.remove i ⟨l.call t, j, (x.pipe i).data.byte ((x.pipe i).nread.toNat % PIPESIZE)⟩
    else l
  | _, _ => l

end BlockSys

/-- Records the calls and the bytes. -/
def PipeSys.logPipe (x : PipeSys) (a : PipeAct) (_ : PipeSys) (l : PipeLog) : PipeLog :=
  match a with
  | .block (.enter c _) =>
    match x.runs c with
    | some (_, t) => l.begin t
    | none => l
  | .block (.block c byte) =>
    match x.runs c with
    | some (_, t) =>
      match x.call t with
      | some (b, st) => x.logBlock t byte l b st
      | none => l
    | none => l
  | _ => l

end Xv6
