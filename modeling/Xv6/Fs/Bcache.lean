import Mathlib.Data.List.FinRange
import Xv6.Lib.Links
import Xv6.Param

/-!
# The buffer cache under any number of threads

`bio.c` cut at `bcache.lock`: the sections of `bget` and `brelse` are one step each, and so are
taking and releasing a buffer's sleep lock, each change of its flags, and the end of a disk request.
The list of buffers is the one of the source, threaded through `next` and `prev`; a pointer is a
buffer or `&bcache.head`, which is `none`.

A call is one use of a buffer, from `bread` to `brelse`. A thread may have several at a time, and
how many threads there are plays no part; calls at the same place with the same arguments are
interchangeable. A call that panics has no next state.
-/

namespace Xv6.Bcache

open Xv6.Lib

/-- A node of the list. -/
abbrev BufPtr := Option (Fin NBUF)

/-- `struct buf`, without its data. `locked` is the sleep lock. -/
structure Buf where
  dev : Word := 0
  blockno : Word := 0
  valid : Bool := false
  dirty : Bool := false
  refcnt : Nat := 0
  locked : Bool := false
  deriving DecidableEq, Repr

/-- How far a call has come. -/
inductive Phase where
  /-- in `bget`, before `acquiresleep` -/
  | lock
  /-- in `bread`, before the test of `B_VALID` -/
  | check
  /-- in `iderw` for `bread` -/
  | read
  /-- `bread` has returned -/
  | hold
  /-- in `iderw` for `bwrite` -/
  | write
  /-- in `brelse`, behind `releasesleep` -/
  | release
  deriving DecidableEq, Repr

/-- The call has the buffer's lock. -/
def Phase.locks : Phase → Bool
  | .lock => false
  | .release => false
  | _ => true

/-- One use of a buffer: what `bread` was asked for, the buffer it got, and how far it is. -/
structure Call where
  dev : Word
  blockno : Word
  buf : Fin NBUF
  phase : Phase
  deriving DecidableEq, Repr

structure Cache where
  buf : Fin NBUF → Buf
  links : Links BufPtr
  calls : List Call := []

inductive Act where
  /-- `bread(dev, blockno)`, up to the release of `bcache.lock` in `bget` -/
  | bread (dev blockno : Word)
  | acquiresleep (c : Call)
  | test (c : Call)
  /-- the disk is done with the buffer -/
  | ideintr (c : Call)
  | bwrite (c : Call)
  | logWrite (c : Call)
  /-- `brelse`, up to its `releasesleep` -/
  | brelse (c : Call)
  /-- the section of `brelse` -/
  | drop (c : Call)

/-- `binit()`. -/
def binit : Cache where
  buf _ := {}
  links := ((List.finRange NBUF).map some).foldl (fun k b => k.link none b)
    { next := fun _ => none, prev := fun _ => none }

namespace Cache

def setBuf (s : Cache) (i : Fin NBUF) (f : Buf → Buf) : Cache :=
  { s with buf := Function.update s.buf i (f (s.buf i)) }

/-- The buffer behind a pointer passes the test. -/
def test (s : Cache) (p : Buf → Bool) : BufPtr → Bool
  | some i => p (s.buf i)
  | none => false

/-- The section of `bget`: the buffer for the block, or the least recently used one that is free. -/
def bget (s : Cache) (dev blockno : Word) : Option Cache :=
  let found := Links.scan s.links.next none
    (s.test fun b => b.dev == dev && b.blockno == blockno) (NBUF + 1) (s.links.next none)
  match found with
  | some (some i) =>
    some { s.setBuf i fun b => { b with refcnt := b.refcnt + 1 } with
      calls := ⟨dev, blockno, i, .lock⟩ :: s.calls }
  | _ =>
    let free := Links.scan s.links.prev none
      (s.test fun b => b.refcnt == 0 && !b.dirty) (NBUF + 1) (s.links.prev none)
    match free with
    | some (some i) =>
      some { s.setBuf i fun b =>
          { b with dev, blockno, valid := false, dirty := false, refcnt := 1 } with
        calls := ⟨dev, blockno, i, .lock⟩ :: s.calls }
    | _ => none

/-- A call that is in phase `ph` changes its buffer and goes on to phase `ph'`. -/
def advance (s : Cache) (c : Call) (ph ph' : Phase) (f : Buf → Buf) : Option Cache :=
  if c ∈ s.calls ∧ c.phase = ph then
    some { s.setBuf c.buf f with calls := { c with phase := ph' } :: s.calls.erase c }
  else none

/-- The section of `brelse`: a buffer that nobody uses goes to the head of the list. -/
def drop (s : Cache) (c : Call) : Option Cache :=
  if c ∈ s.calls ∧ c.phase = .release then
    let s := { s.setBuf c.buf fun b => { b with refcnt := b.refcnt - 1 } with
      calls := s.calls.erase c }
    if (s.buf c.buf).refcnt = 0 then
      some { s with links := (s.links.unlink (some c.buf)).link none (some c.buf) }
    else some s
  else none

def step (s : Cache) : Act → Option Cache
  | .bread dev blockno => s.bget dev blockno
  | .acquiresleep c =>
    if (s.buf c.buf).locked then none
    else s.advance c .lock .check fun b => { b with locked := true }
  | .test c =>
    if (s.buf c.buf).valid then s.advance c .check .hold id else s.advance c .check .read id
  | .ideintr c =>
    s.advance c (if c.phase = .write then .write else .read) .hold fun b =>
      { b with valid := true, dirty := false }
  | .bwrite c => s.advance c .hold .write fun b => { b with dirty := true }
  | .logWrite c => s.advance c .hold .hold fun b => { b with dirty := true }
  | .brelse c => s.advance c .hold .release fun b => { b with locked := false }
  | .drop c => s.drop c

end Cache

/-- The blocks that were handed to `log_write` and have not been written to the disk since. -/
def logged (s : Cache) (a : Act) (_ : Cache) (l : List (Word × Word)) : List (Word × Word) :=
  match a with
  | .logWrite c => ((s.buf c.buf).dev, (s.buf c.buf).blockno) :: l
  | .ideintr c =>
    if c.phase = .write then l.filter (· != ((s.buf c.buf).dev, (s.buf c.buf).blockno)) else l
  | _ => l

/-- The disk of a call is not device 0. -/
def OnDisk : Act → Prop
  | .bread dev _ => dev ≠ 0
  | _ => True

instance : DecidablePred OnDisk := fun a => by
  cases a <;> unfold OnDisk <;> infer_instance

end Xv6.Bcache
