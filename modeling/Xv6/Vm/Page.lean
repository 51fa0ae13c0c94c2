import Mathlib.Logic.Function.Basic
import Xv6.Lib.Bytes
import Xv6.Param

/-!
# Pages and kernel pointers

`kalloc.c`, and memory as kernel code reaches it. A page frame is its number and holds `PGSIZE`
bytes; what the hardware sees of a page table maps the numbers of user pages to frames. The upper
half of the address space is all of physical memory, the lower half is what the current page table
maps, whether `PTE_U` is set or not. A pointer to neither is a fault, and a function that meets one
has no result.
-/

namespace Xv6

open Xv6.Lib

/-- The number of user pages, and that of page frames. -/
def NUPAGE : Nat := KERNBASE / PGSIZE
def NFRAME : Nat := PHYSTOP / PGSIZE

/-- The number of the page at `PGROUNDUP(a)`. -/
def pageUp (a : Nat) : Nat := (a + PGSIZE - 1) / PGSIZE

/-- The page that `a` lies in. -/
def pageOf (a : Word) : Nat := a.toNat / PGSIZE

/-- A page table entry that is present: its frame, and `PTE_U`. -/
structure Pte where
  frame : Nat
  user : Bool := true
  deriving DecidableEq, Repr

/-- The user half of a page table. -/
abbrev Pgdir := Nat → Option Pte

/-- Physical memory and `kmem.freelist`. -/
structure Ram where
  page : Nat → Bytes PGSIZE
  freelist : List Nat

/-- `P2V` of a frame. -/
def kaddr (f : Nat) : Word := .ofNat 32 (KERNBASE + f * PGSIZE)

namespace Ram

def setPage (r : Ram) (f : Nat) (b : Bytes PGSIZE) : Ram :=
  { r with page := Function.update r.page f b }

/-- `kalloc()`. -/
def kalloc (r : Ram) : Option (Nat × Ram) :=
  match r.freelist with
  | [] => none
  | f :: rest => some (f, { r with freelist := rest })

/-- The pointer to the first free page. -/
def head (r : Ram) : Word := (r.freelist.head?.map kaddr).getD 0

/-- `kfree(v)` fills the page with ones and links it into the free list. -/
def kfree (r : Ram) (f : Nat) : Ram :=
  { r.setPage f (Bytes.setField (fun _ => 1#8) 0 4 r.head.toNat) with freelist := f :: r.freelist }

/-! ## Kernel pointers -/

/-- The frame behind virtual page `i` while the kernel runs on `pd`. -/
def frameAt (pd : Pgdir) (i : Nat) : Option Nat :=
  if i < NUPAGE then (pd i).map Pte.frame
  else if i - NUPAGE < NFRAME then some (i - NUPAGE) else none

/-- Writes `len` bytes, at most a page of them, behind the pointer `a`. -/
def kwrite (r : Ram) (pd : Pgdir) (a : Word) (len : Nat) (g : Nat → Byte) : Option Ram :=
  let o := a.toNat % PGSIZE
  if o + len ≤ PGSIZE then
    (frameAt pd (pageOf a)).map fun f => r.setPage f ((r.page f).write o len g)
  else
    (frameAt pd (pageOf a)).bind fun f => (frameAt pd (pageOf a + 1)).map fun f' =>
      let r := r.setPage f ((r.page f).write o (PGSIZE - o) g)
      r.setPage f' ((r.page f').write 0 (o + len - PGSIZE) fun k => g (k + (PGSIZE - o)))

/-- `*(uint*)a`. -/
def kread (r : Ram) (pd : Pgdir) (a : Word) : Option Word :=
  let o := a.toNat % PGSIZE
  if o + 4 ≤ PGSIZE then
    (frameAt pd (pageOf a)).map fun f => .ofNat 32 ((r.page f).field o 4)
  else
    (frameAt pd (pageOf a)).bind fun f => (frameAt pd (pageOf a + 1)).map fun f' =>
      .ofNat 32 ((r.page f).field o (PGSIZE - o) +
        256 ^ (PGSIZE - o) * (r.page f').field 0 (o + 4 - PGSIZE))

/-- `*(uint*)a = w`. -/
def kstore (r : Ram) (pd : Pgdir) (a w : Word) : Option Ram :=
  r.kwrite pd a 4 fun j => .ofNat 8 (w.toNat / 256 ^ j)

/-- `memset(a, 0, PGSIZE)`. -/
def clearPage (r : Ram) (pd : Pgdir) (a : Word) : Option Ram := r.kwrite pd a PGSIZE fun _ => 0

/-- `struct list` behind the pointer `a`: `usp` and `next`. -/
def node (r : Ram) (pd : Pgdir) (a : Word) : Option (Word × Word) :=
  (r.kread pd a).bind fun usp => (r.kread pd (a + 4)).map fun next => (usp, next)

end Ram

end Xv6
