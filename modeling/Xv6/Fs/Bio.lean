import Xv6.Fs.Disk
import Xv6.Proc.Table

/-!
# The buffer cache

`bio.c`, over the disk driver of `ide.c`. The buffers are a table, and the linked list behind
`bcache.head` is the list of their indices, most recently used first. `bread` locks the buffer
it returns and `brelse` unlocks it; a buffer's `owner` is the thread that holds its lock. A
thread that would sleep on the lock is one that has not called `bget` yet, so `refcnt` is 1
while a buffer has an owner and 0 otherwise.

The driver writes one block at a time and in the order of the calls.
-/

namespace Xv6

open Xv6.Lib

/-- The panics of the file system, `ide.c` to `fs.c`. -/
inductive FsPanic where
  /-- `idestart`: "incorrect blockno" -/
  | incorrectBlockno
  /-- "bget: no buffers" -/
  | noBuffers
  /-- `log_write`: "too big a transaction" -/
  | tooBig
  /-- "log_write outside of trans" -/
  | outsideTrans
  /-- `end_op`: "log.committing" -/
  | committing
  deriving DecidableEq, Repr

/-- `struct buf`. The bss has `dev` 0, which is not the disk. -/
structure Buf where
  dev : Nat := 0
  blockno : Nat := 0
  valid : Bool := false
  dirty : Bool := false
  owner : Option ThdPtr := none
  data : Block := Bytes.zero

/-- The buffer is for block `b`. -/
def Buf.holds (x : Buf) (b : Nat) : Bool := x.dev == ROOTDEV && x.blockno == b

/-- Nobody uses the buffer, and the log has no claim on it. -/
def Buf.unused (x : Buf) : Bool := x.owner.isNone && !x.dirty

/-- The disk and the cache. -/
structure Bio where
  disk : Nat → Block
  buf : Fin NBUF → Buf
  order : List (Fin NBUF)

namespace Bio

/-- Updates one buffer. -/
def setBuf (s : Bio) (i : Fin NBUF) (f : Buf → Buf) : Bio :=
  { s with buf := fun j => if j = i then f (s.buf i) else s.buf j }

/-- `binit`: each buffer goes to the head of the list. -/
def binit (disk : Nat → Block) : Bio where
  disk := disk
  buf := fun _ => {}
  order := (List.finRange NBUF).reverse

/-- The buffer for block `b`, if there is one. -/
def cached (s : Bio) (b : Nat) : Option (Fin NBUF) := s.order.find? fun i => (s.buf i).holds b

/-- `bget` of `b` would sleep. -/
def locked (s : Bio) (b : Nat) : Bool := (s.cached b).any fun i => (s.buf i).owner.isSome

/-- Finds the buffer for block `b`, or recycles the least recently used one that is free. -/
def bget (s : Bio) (t : ThdPtr) (b : Nat) : Except FsPanic (Fin NBUF × Bio) :=
  match s.cached b with
  | some i => .ok (i, s.setBuf i fun x => { x with owner := some t })
  | none =>
    match s.order.reverse.find? fun i => (s.buf i).unused with
    | some i => .ok (i, s.setBuf i fun x =>
        { x with dev := ROOTDEV, blockno := b, valid := false, dirty := false, owner := some t })
    | none => .error .noBuffers

/-- Writes a dirty buffer to the disk, or reads one from it. -/
def iderw (s : Bio) (i : Fin NBUF) : Except FsPanic Bio :=
  let b := (s.buf i).blockno
  if FSSIZE ≤ b then .error .incorrectBlockno
  else if (s.buf i).dirty then
    .ok ({ s with disk := fun k => if k = b then (s.buf i).data else s.disk k }.setBuf i fun x =>
      { x with valid := true, dirty := false })
  else .ok (s.setBuf i fun x => { x with data := s.disk b, valid := true })

def bread (s : Bio) (t : ThdPtr) (b : Nat) : Except FsPanic (Fin NBUF × Bio) := do
  let (i, s) ← s.bget t b
  if (s.buf i).valid then return (i, s)
  return (i, ← s.iderw i)

def bwrite (s : Bio) (i : Fin NBUF) : Except FsPanic Bio :=
  (s.setBuf i fun x => { x with dirty := true }).iderw i

/-- Unlocks the buffer and moves it to the head of the list. -/
def brelse (s : Bio) (i : Fin NBUF) : Bio :=
  { s.setBuf i fun x => { x with owner := none } with order := i :: s.order.erase i }

end Bio

end Xv6
