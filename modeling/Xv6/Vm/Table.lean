import Xv6.Vm.Page

/-!
# Two-level page tables

`vm.c` with the page tables it builds: `walkpgdir` takes a page for a table that is missing,
`setupkvm` maps the kernel into every new directory, and `freevm` gives all of it back. A page
directory is a value of its own here: `tab k` is the frame of the table that entry `k` names, and
`pte i` the entry for page `i`, which exists when its table does. `walkpgdir` and `mappages` get
page numbers, since all their callers pass whole pages, and sizes stay below `KERNBASE`.

A function that panics, or reads an entry whose table does not exist, has no result.
-/

namespace Xv6

open Xv6.Lib

/-- `NPTENTRIES`, which is `NPDENTRIES` as well. -/
def NPTENTRIES : Nat := 1024

def PTE_P : BitVec 12 := 0x001#12
def PTE_W : BitVec 12 := 0x002#12
def PTE_U : BitVec 12 := 0x004#12

/-- A page table entry: `PTE_ADDR`, as the number of a frame, and `PTE_FLAGS`. -/
structure PageEntry where
  frame : Nat := 0
  flags : BitVec 12 := 0#12
  deriving DecidableEq, Repr

namespace PageEntry

def present (e : PageEntry) : Bool := e.flags &&& PTE_P ≠ 0#12

def user (e : PageEntry) : Bool := e.flags &&& PTE_U ≠ 0#12

end PageEntry

/-- A page directory and its page tables. -/
structure PageDir where
  frame : Nat
  tab : Nat → Option Nat := fun _ => none
  pte : Nat → PageEntry := fun _ => {}

/-- The symbols that `kernel.ld` defines, as numbers of physical pages: `data`, which begins a page,
and `end`, rounded up. -/
structure Symbols where
  data : Nat
  ends : Nat
  text : 256 < data
  order : data < ends
  fits : ends ≤ NFRAME

/-- `kfree(v)`, with its check. -/
def Ram.kfreePage (K : Symbols) (r : Ram) (f : Nat) : Option Ram :=
  if K.ends ≤ f ∧ f < NFRAME then some (r.kfree f) else none

namespace PageDir

/-- `PDX` of page `i`. -/
def pdx (i : Nat) : Nat := i / NPTENTRIES

/-- The entry that `walkpgdir(pgdir, va, 0)` finds. -/
def walk (d : PageDir) (i : Nat) : Option PageEntry := (d.tab (pdx i)).map fun _ => d.pte i

/-- `*pte = e`. -/
def setPte (d : PageDir) (i : Nat) (e : PageEntry) : PageDir :=
  { d with pte := Function.update d.pte i e }

/-- Table `k` is the page `f`, cleared. -/
def addTable (d : PageDir) (k f : Nat) : PageDir :=
  { d with tab := Function.update d.tab k (some f)
           pte := fun i => if pdx i = k then {} else d.pte i }

/-- What the page tables map. -/
def maps (d : PageDir) (i : Nat) : Option PageEntry :=
  (d.walk i).bind fun e => if e.present then some e else none

/-- The user half as the hardware sees it. -/
def flat (d : PageDir) : Pgdir := fun i =>
  if i < NUPAGE then (d.maps i).map fun e => { frame := e.frame, user := e.user } else none

/-- `walkpgdir(pgdir, va, 1)`; nothing when there is no page for the table. -/
def walkpgdir (r : Ram) (d : PageDir) (i : Nat) : Option (Ram × PageDir) :=
  match d.tab (pdx i) with
  | some _ => some (r, d)
  | none => r.kalloc.map fun (f, r) => (r.setPage f Bytes.zero, d.addTable (pdx i) f)

/-- The loop of `mappages`, over `n` pages from page `i` on. The flag is false when a table could not
be allocated; a page that is mapped already is the panic "remap". -/
def mappages (perm : BitVec 12) : Nat → Nat → Nat → Ram → PageDir → Option (Bool × Ram × PageDir)
  | 0, _, _, r, d => some (true, r, d)
  | n + 1, i, pa, r, d =>
    match walkpgdir r d i with
    | none => some (false, r, d)
    | some (r, d) =>
      if (d.pte i).present then none
      else mappages perm n (i + 1) (pa + 1) r (d.setPte i { frame := pa, flags := perm ||| PTE_P })

variable (K : Symbols)

/-- The loop of `deallocuvm`, from page `i` up to page `last`. A table that is missing is jumped over.
Each of the `n` turns goes up by a page at least. -/
def unmap (last : Nat) : Nat → Nat → Ram → PageDir → Option (Ram × PageDir)
  | 0, _, r, d => some (r, d)
  | n + 1, i, r, d =>
    if i < last then
      match d.walk i with
      | none => unmap last n ((pdx i + 1) * NPTENTRIES) r d
      | some e =>
        if e.present then
          (if e.frame = 0 then none else r.kfreePage K e.frame).bind fun r =>
            unmap last n (i + 1) r (d.setPte i {})
        else unmap last n (i + 1) r d
    else some (r, d)

/-- `deallocuvm(pgdir, oldsz, newsz)`. -/
def deallocuvm (r : Ram) (d : PageDir) (oldsz newsz : Word) : Option (Word × Ram × PageDir) :=
  if oldsz ≤ newsz then some (oldsz, r, d)
  else (unmap K (pageUp oldsz.toNat) (pageUp oldsz.toNat - pageUp newsz.toNat) (pageUp newsz.toNat)
    r d).map fun x => (newsz, x)

/-- The second loop of `freevm`, over `n` entries of the directory from entry `k` on. -/
def freeTables (d : PageDir) : Nat → Nat → Ram → Option Ram
  | 0, _, r => some r
  | n + 1, k, r =>
    match d.tab k with
    | some f => (r.kfreePage K f).bind fun r => freeTables d n (k + 1) r
    | none => freeTables d n (k + 1) r

/-- `freevm(pgdir)`. -/
def freevm (r : Ram) (d : PageDir) : Option Ram :=
  (deallocuvm K r d (.ofNat 32 KERNBASE) 0).bind fun (_, r, d) =>
    (freeTables K d NPTENTRIES 0 r).bind fun r => r.kfreePage K d.frame

/-! ## Building a directory -/

/-- `kmap`: the first page, the number of pages, the first frame and the permissions. -/
def kmap : List (Nat × Nat × Nat × BitVec 12) :=
  [(NUPAGE, 256, 0, PTE_W), (NUPAGE + 256, K.data - 256, 256, 0),
    (NUPAGE + K.data, NFRAME - K.data, K.data, PTE_W), (0xFE000, 0x2000, 0xFE000, PTE_W)]

/-- The loop of `setupkvm`. -/
def mapKernel : List (Nat × Nat × Nat × BitVec 12) → Ram → PageDir → Option (Ram × Option PageDir)
  | [], r, d => some (r, some d)
  | (i, n, pa, perm) :: ms, r, d =>
    match mappages perm n i pa r d with
    | none => none
    | some (true, r, d) => mapKernel ms r d
    | some (false, r, d) => (freevm K r d).map fun r => (r, none)

/-- `setupkvm()`: nothing on panic, and no directory when it returns 0. -/
def setupkvm (r : Ram) : Option (Ram × Option PageDir) :=
  match r.kalloc with
  | none => some (r, none)
  | some (f, r) => mapKernel K (kmap K) (r.setPage f Bytes.zero) { frame := f }

/-- What becomes of `mem = kalloc()` and `mappages(pgdir, a, PGSIZE, V2P(mem), perm)`, as the loops
of `allocuvm` and `copyuvm` call them. -/
inductive Fresh where
  | mapped (r : Ram) (d : PageDir)
  /-- `kalloc` returned 0 -/
  | noPage
  /-- `mappages` failed, with page `mem` taken -/
  | noTable (mem : Nat) (r : Ram) (d : PageDir)

/-- A new page with the contents `b`, mapped at page `i`. -/
def mapFresh (perm : BitVec 12) (b : Bytes PGSIZE) (r : Ram) (d : PageDir) (i : Nat) : Option Fresh :=
  match r.kalloc with
  | none => some .noPage
  | some (f, r) =>
    match mappages perm 1 i f (r.setPage f b) d with
    | none => none
    | some (true, r, d) => some (.mapped r d)
    | some (false, r, d) => some (.noTable f r d)

/-- The loop of `allocuvm`, over `n` pages from page `i` on. -/
def allocLoop (oldsz newsz : Word) : Nat → Nat → Ram → PageDir → Option (Word × Ram × PageDir)
  | 0, _, r, d => some (newsz, r, d)
  | n + 1, i, r, d =>
    match mapFresh (PTE_W ||| PTE_U) Bytes.zero r d i with
    | none => none
    | some (.mapped r d) => allocLoop oldsz newsz n (i + 1) r d
    | some .noPage => (deallocuvm K r d newsz oldsz).map fun (_, x) => (0, x)
    | some (.noTable mem r d) => (deallocuvm K r d newsz oldsz).bind fun (_, r, d) =>
        (r.kfreePage K mem).map fun r => (0, r, d)

/-- `allocuvm(pgdir, oldsz, newsz)`. -/
def allocuvm (r : Ram) (d : PageDir) (oldsz newsz : Word) : Option (Word × Ram × PageDir) :=
  if KERNBASE ≤ newsz.toNat then some (0, r, d)
  else if newsz < oldsz then some (oldsz, r, d)
  else allocLoop K oldsz newsz (pageUp newsz.toNat - pageUp oldsz.toNat) (pageUp oldsz.toNat) r d

/-- The loop of `copyuvm`, over `n` pages from page `i` on. A page that is not present is a panic. -/
def copyLoop (src : PageDir) : Nat → Nat → Ram → PageDir → Option (Ram × Option PageDir)
  | 0, _, r, d => some (r, some d)
  | n + 1, i, r, d =>
    match src.maps i with
    | none => none
    | some e =>
      match mapFresh e.flags (r.page e.frame) r d i with
      | none => none
      | some (.mapped r d) => copyLoop src n (i + 1) r d
      | some .noPage => (freevm K r d).map fun r => (r, none)
      | some (.noTable mem r d) =>
        (r.kfreePage K mem).bind fun r => (freevm K r d).map fun r => (r, none)

/-- `copyuvm(pgdir, sz)`: nothing on panic, and no directory when it returns 0. -/
def copyuvm (r : Ram) (src : PageDir) (sz : Word) : Option (Ram × Option PageDir) :=
  match setupkvm K r with
  | none => none
  | some (r, none) => some (r, none)
  | some (r, some d) => copyLoop K src (pageUp sz.toNat) 0 r d

/-! ## User memory -/

/-- `clearpteu(pgdir, uva)`. -/
def clearpteu (d : PageDir) (uva : Word) : Option PageDir :=
  (d.walk (pageOf uva)).map fun e =>
    d.setPte (pageOf uva) { e with flags := e.flags &&& ~~~PTE_U }

/-- `uva2ka(pgdir, uva)`: the frame, or 0. It reads the entry whether `walkpgdir` has found one or
not. -/
def uva2ka (d : PageDir) (uva : Word) : Option (Option Nat) :=
  (d.walk (pageOf uva)).map fun e => if e.present ∧ e.user then some e.frame else none

/-- The loop of `copyout`, with as many turns at most as there are bytes. -/
def copyoutLoop (d : PageDir) : Nat → Ram → Word → List Byte → Option (Bool × Ram)
  | 0, r, _, _ => some (true, r)
  | n + 1, r, va, buf =>
    if buf = [] then some (true, r)
    else
      match d.uva2ka va with
      | none => none
      | some none => some (false, r)
      | some (some f) =>
        let o := va.toNat % PGSIZE
        let k := min (PGSIZE - o) buf.length
        copyoutLoop d n (r.setPage f ((r.page f).write o k fun j => buf.getD j 0))
          (va - .ofNat 32 o + .ofNat 32 PGSIZE) (buf.drop k)

/-- `copyout(pgdir, va, p, len)` of the bytes `buf`. -/
def copyout (r : Ram) (d : PageDir) (va : Word) (buf : List Byte) : Option (Bool × Ram) :=
  copyoutLoop d buf.length r va buf

end PageDir

/-- The memory of a process: `pgdir`, `sz` and `fslist` of `struct proc`, with the physical memory
behind them. -/
structure UserMem where
  ram : Ram
  dir : PageDir
  sz : Word
  fslist : Word := 0

namespace UserMem

variable (K : Symbols)

/-- What `growproc` does with the size that `allocuvm` or `deallocuvm` returns; 0 is a failure. -/
def resize (m : UserMem) : Word × Ram × PageDir → Int × UserMem
  | (sz, ram, dir) => if sz = 0 then (-1, { m with ram, dir }) else (0, { m with ram, dir, sz })

/-- `growproc(n)`. -/
def growproc (m : UserMem) (n : Word) : Option (Int × UserMem) :=
  if 0 < n.toInt then (PageDir.allocuvm K m.ram m.dir m.sz (m.sz + n)).map m.resize
  else if n.toInt < 0 then (PageDir.deallocuvm K m.ram m.dir m.sz (m.sz + n)).map m.resize
  else some (0, m)

/-- `ualloc(p)`, by a thread of the process. The reply 0 is a failure. -/
def ualloc (m : UserMem) : Option (Word × UserMem) :=
  if m.fslist = 0 then
    (PageDir.allocuvm K m.ram m.dir m.sz (m.sz + .ofNat 32 (2 * PGSIZE))).bind fun (sz, ram, dir) =>
      if sz = 0 then some (0, { m with ram, dir })
      else
        (dir.clearpteu (sz - .ofNat 32 (2 * PGSIZE))).bind fun dir =>
          (dir.uva2ka (sz - .ofNat 32 PGSIZE)).bind fun page =>
            (ram.clearPage dir.flat (page.elim 0 kaddr)).map fun ram => (sz, { m with ram, dir, sz })
  else
    (m.ram.node m.dir.flat m.fslist).bind fun (usp, next) =>
      (m.ram.clearPage m.dir.flat m.fslist).map fun ram => (usp, { m with ram, fslist := next })

/-- `ufree(p, sp)`, with `cur` as the page table in use. -/
def ufree (m : UserMem) (cur : Pgdir) (sp : Word) : Option UserMem :=
  (m.dir.uva2ka (sp - .ofNat 32 PGSIZE)).bind fun page =>
    let ustack := page.elim 0 kaddr
    (m.ram.clearPage cur ustack).bind fun ram =>
      (ram.kstore cur ustack sp).bind fun ram =>
        (ram.kstore cur (ustack + 4) m.fslist).map fun ram =>
          { m with ram, fslist := ustack }

end UserMem

end Xv6
