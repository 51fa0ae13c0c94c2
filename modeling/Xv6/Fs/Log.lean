import Xv6.Fs.Bio

/-!
# The log

`log.c` as a machine. File system operations run between `begin_op` and `end_op` on any number
of threads; the last one to end commits, by the steps of `commit`; a crash can come between any
two steps and leaves the disk alone, and `initlog` recovers from it.

One step is what other threads or a crash cannot divide: a critical section of `log.lock`, or
the call chain around one `bwrite`. `log_write` is two steps, because its tests run before it
takes the lock. A thread changes a buffer it holds and logs it in one step, since nobody else
sees the buffer in between.

`before`, `after`, `committed` and `lost` are history. A transaction is the operations from a
`begin_op` with nothing outstanding to the commit. `before` is what the home blocks hold before
the current or the last transaction and `after` is that with the transaction's own changes;
`committed` says that `write_head` has reached the disk, and `lost` that a crash came first.
-/

namespace Xv6

open Xv6.Lib

/-- The log's blocks, which only `log.c` reads and writes. -/
def InLog (b : Nat) : Prop := mkfs.logstart ≤ b ∧ b < mkfs.logstart + mkfs.nlog

instance (b : Nat) : Decidable (InLog b) := inferInstanceAs (Decidable (_ ∧ _))

/-- `hb->block[i]` and the entries behind it. -/
def putBlocks (b : Block) (i : Nat) : List Nat → Block
  | [] => b
  | x :: xs => putBlocks (b.setWord (1 + i) x) (i + 1) xs

/-- A `logheader` over the bytes of a block. -/
def putHead (lh : List Nat) (b : Block) : Block := putBlocks (b.setWord 0 lh.length) 0 lh

/-- The `logheader` in a block. -/
def getHead (b : Block) : List Nat := (List.range (b.word 0)).map fun i => b.word (1 + i)

/-- Where `commit` and `initlog` are. -/
inductive LogPc where
  | idle
  | writeLog (tail : Nat)
  | writeHead
  | install (tail : Nat)
  | clear
  | finish
  /-- `recover_from_log`, from here on -/
  | readHead
  | reinstall (tail : Nat)
  | reclear
  deriving DecidableEq, Repr

/-- `initlog` has returned. -/
def LogPc.up : LogPc → Bool
  | .readHead | .reinstall _ | .reclear => false
  | _ => true

/-- An operation. `blocks` is history: the distinct blocks it has logged. -/
structure LogOp where
  blocks : List Nat := []
  /-- inside `log_write`, behind the tests -/
  checked : Bool := false
  deriving DecidableEq, Repr

/-- `struct log`, over the cache and the disk. `lh` is `lh.block[0..lh.n)`, and `committing` is
the thread in `commit`. -/
structure LogSys where
  bio : Bio
  outstanding : Nat := 0
  committing : Option ThdPtr := none
  lh : List Nat := []
  pc : LogPc := .readHead
  op : ThdPtr → Option LogOp := fun _ => none
  panic : Option FsPanic := none
  before : Nat → Block
  after : Nat → Block
  committed : Bool := false
  lost : Bool := true

inductive LogAct where
  | beginOp (t : ThdPtr)
  | bread (t : ThdPtr) (b : Nat)
  | brelse (t : ThdPtr) (i : Fin NBUF)
  /-- the tests of `log_write` -/
  | check (t : ThdPtr)
  /-- the thread sets the buffer's data and goes through the critical section of `log_write` -/
  | logWrite (t : ThdPtr) (i : Fin NBUF) (data : Block)
  | endOp (t : ThdPtr)
  /-- the next step of `commit`, or of `end_op` behind it -/
  | commit (t : ThdPtr)
  | crash
  /-- the next step of `initlog` -/
  | recover

def LogAct.isCrash : LogAct → Bool
  | .crash => true
  | _ => false

/-! ## The functions of log.c over the cache -/

namespace Bio

/-- One round of `write_log`: the log block at `tail` gets the cached block `b`. -/
def writeLog (s : Bio) (t : ThdPtr) (tail b : Nat) : Except FsPanic Bio := do
  let (dst, s) ← s.bread t (mkfs.logstart + tail + 1)
  let (src, s) ← s.bread t b
  let s ← (s.setBuf dst fun x => { x with data := (s.buf src).data }).bwrite dst
  return (s.brelse src).brelse dst

/-- One round of `install_trans`: block `b` gets the log block at `tail`. -/
def installTrans (s : Bio) (t : ThdPtr) (tail b : Nat) : Except FsPanic Bio := do
  let (lbuf, s) ← s.bread t (mkfs.logstart + tail + 1)
  let (dbuf, s) ← s.bread t b
  let s ← (s.setBuf dbuf fun x => { x with data := (s.buf lbuf).data }).bwrite dbuf
  return (s.brelse lbuf).brelse dbuf

def writeHead (s : Bio) (t : ThdPtr) (lh : List Nat) : Except FsPanic Bio := do
  let (i, s) ← s.bread t mkfs.logstart
  let s ← (s.setBuf i fun x => { x with data := putHead lh x.data }).bwrite i
  return s.brelse i

def readHead (s : Bio) (t : ThdPtr) : Except FsPanic (List Nat × Bio) := do
  let (i, s) ← s.bread t mkfs.logstart
  return (getHead (s.buf i).data, s.brelse i)

end Bio

/-! ## Steps -/

namespace LogSys

/-- The log after a boot from `disk`. -/
def boot (disk : Nat → Block) : LogSys where
  bio := Bio.binit disk
  before := disk
  after := disk

def halt (s : LogSys) (e : FsPanic) : LogSys := { s with panic := some e }

/-- Goes on with what a call returns, or panics. -/
def andThen {α : Type} (s : LogSys) (r : Except FsPanic α) (k : α → LogSys) : LogSys :=
  match r with
  | .ok x => k x
  | .error e => s.halt e

def setOp (s : LogSys) (t : ThdPtr) (o : Option LogOp) : LogSys :=
  { s with op := fun u => if u = t then o else s.op u }

/-- What a recovery leaves: the last transaction is there as a whole or not at all. -/
def durable (s : LogSys) : Nat → Block := if s.committed then s.after else s.before

/-- The critical section of `begin_op`; `none` while it sleeps. -/
def beginOp (s : LogSys) (t : ThdPtr) : Option LogSys :=
  if s.committing.isSome then none
  else if s.lh.length + (s.outstanding + 1) * MAXOPBLOCKS > LOGSIZE then none
  else
    let s' := { s with outstanding := s.outstanding + 1 }.setOp t (some {})
    -- history: with nothing outstanding, a transaction starts
    some (if s.outstanding = 0 then
      { s' with before := s.durable, after := s.durable, committed := false, lost := false }
    else s')

/-- The tests of `log_write`. -/
def check (s : LogSys) (t : ThdPtr) (o : LogOp) : LogSys :=
  if LOGSIZE ≤ s.lh.length ∨ mkfs.nlog - 1 ≤ s.lh.length then s.halt .tooBig
  else if s.outstanding < 1 then s.halt .outsideTrans
  else s.setOp t (some { o with checked := true })

/-- The critical section of `log_write`, with absorption. -/
def logWrite (s : LogSys) (t : ThdPtr) (o : LogOp) (i : Fin NBUF) (data : Block) : LogSys :=
  let b := (s.bio.buf i).blockno
  { s with
    bio := s.bio.setBuf i fun x => { x with data := data, dirty := true }
    lh := if b ∈ s.lh then s.lh else s.lh ++ [b]
    after := fun k => if k = b then data else s.after k }.setOp t
      (some { blocks := if b ∈ o.blocks then o.blocks else b :: o.blocks })

/-- The first critical section of `end_op`. -/
def endOp (s : LogSys) (t : ThdPtr) : LogSys :=
  let s' := { s with outstanding := s.outstanding - 1 }.setOp t none
  if s.committing.isSome then s'.halt .committing
  else if s.outstanding - 1 = 0 then
    { s' with committing := some t, pc := if s.lh.isEmpty then .finish else .writeLog 0 }
  else s'

/-- The next step of `commit`; `none` while it sleeps on a buffer. -/
def commit (s : LogSys) (t : ThdPtr) : Option LogSys :=
  match s.pc with
  | .writeLog tail =>
    match s.lh[tail]? with
    | some b =>
      if s.bio.locked (mkfs.logstart + tail + 1) ∨ s.bio.locked b then none
      else some (s.andThen (s.bio.writeLog t tail b) fun bio =>
        { s with bio := bio, pc := .writeLog (tail + 1) })
    | none => some { s with pc := .writeHead }
  | .writeHead =>
    if s.bio.locked mkfs.logstart then none
    else some (s.andThen (s.bio.writeHead t s.lh) fun bio =>
      { s with bio := bio, pc := .install 0, committed := true })
  | .install tail =>
    match s.lh[tail]? with
    | some b =>
      if s.bio.locked (mkfs.logstart + tail + 1) ∨ s.bio.locked b then none
      else some (s.andThen (s.bio.installTrans t tail b) fun bio =>
        { s with bio := bio, pc := .install (tail + 1) })
    | none => some { s with lh := [], pc := .clear }
  | .clear =>
    if s.bio.locked mkfs.logstart then none
    else some (s.andThen (s.bio.writeHead t s.lh) fun bio => { s with bio := bio, pc := .finish })
  | .finish => some { s with committing := none, pc := .idle }
  | _ => none

/-- The next step of `recover_from_log`, on the first thread. -/
def recover (s : LogSys) : Option LogSys :=
  match s.pc with
  | .readHead => some (s.andThen (s.bio.readHead 0) fun r =>
      { s with bio := r.2, lh := r.1, pc := .reinstall 0 })
  | .reinstall tail =>
    match s.lh[tail]? with
    | some b => some (s.andThen (s.bio.installTrans 0 tail b) fun bio =>
        { s with bio := bio, pc := .reinstall (tail + 1) })
    | none => some { s with lh := [], pc := .reclear }
  | .reclear => some (s.andThen (s.bio.writeHead 0 s.lh) fun bio => { s with bio := bio, pc := .idle })
  | _ => none

/-- The power goes; the disk stays. -/
def crash (s : LogSys) : LogSys where
  bio := Bio.binit s.bio.disk
  before := s.before
  after := s.after
  committed := s.committed
  lost := !s.committed

/-- What an action does while the kernel has not panicked. -/
def act (s : LogSys) : LogAct → Option LogSys
  | .crash => some s.crash
  | .recover => s.recover
  | .beginOp t => if s.pc.up ∧ s.op t = none then s.beginOp t else none
  | .bread t b =>
    if s.pc.up ∧ ¬ InLog b ∧ s.bio.locked b = false then
      some (s.andThen (s.bio.bread t b) fun r => { s with bio := r.2 })
    else none
  | .brelse t i =>
    if (s.bio.buf i).owner = some t then some { s with bio := s.bio.brelse i } else none
  | .check t =>
    match s.op t with
    | some o => if o.checked then none else some (s.check t o)
    | none => none
  | .logWrite t i data =>
    match s.op t with
    | some o =>
      if o.checked ∧ (s.bio.buf i).owner = some t then some (s.logWrite t o i data) else none
    | none => none
  | .endOp t =>
    match s.op t with
    | some o => if o.checked then none else some (s.endOp t)
    | none => none
  | .commit t => if s.committing = some t then s.commit t else none

/-- Takes one step; after a panic, only the power can go. -/
def step (s : LogSys) (a : LogAct) : Option LogSys :=
  if s.panic.isSome ∧ a.isCrash = false then none else s.act a

end LogSys

end Xv6
