import Xv6.Proc.Table
import Xv6.Vm.Exec

/-!
# exec loads a program

`exec` from its `begin_op` to the guard page of the new stack, with the label `bad`. A program is a
regular file: its size and its bytes, of which `readi` copies a part. All fields of the ELF header
and of the program headers come from the file, and their sums are those of `uint`.

No result is a panic, of `loaduvm`, `mappages`, `deallocuvm`, `kfree` or `clearpteu`.
-/

namespace Xv6

open Xv6.Lib

/-- A regular file. -/
structure ProgFile where
  size : Word
  data : Nat → Byte

/-- The fields of `struct elfhdr` that the loader reads. -/
structure ElfHdr where
  magic : Word
  phoff : Word
  phnum : Nat

/-- `struct proghdr`, as far as the loader reads it. -/
structure ProgHdr where
  type : Word
  off : Word
  vaddr : Word
  filesz : Word
  memsz : Word

def ELF_MAGIC : Word := 0x464C457F#32
def ELF_PROG_LOAD : Word := 1#32

namespace ProgFile

/-- The number of bytes that `readi(ip, dst, off, n)` copies, or nothing for -1. -/
def readi (f : ProgFile) (off n : Word) : Option Word :=
  if f.size < off ∨ off + n < off then none
  else some (if f.size < off + n then f.size - off else n)

/-- The bytes from `off` on. -/
def bytes (f : ProgFile) (off : Word) (n : Nat) : Bytes n := fun k => f.data (off.toNat + k)

/-- The ELF header, of 52 bytes. -/
def elfhdr (f : ProgFile) : ElfHdr where
  magic := .ofNat 32 ((f.bytes 0 52).field 0 4)
  phoff := .ofNat 32 ((f.bytes 0 52).field 28 4)
  phnum := (f.bytes 0 52).field 44 2

/-- The program header at `off`, of 32 bytes. -/
def proghdr (f : ProgFile) (off : Word) : ProgHdr where
  type := .ofNat 32 ((f.bytes off 32).field 0 4)
  off := .ofNat 32 ((f.bytes off 32).field 4 4)
  vaddr := .ofNat 32 ((f.bytes off 32).field 8 4)
  filesz := .ofNat 32 ((f.bytes off 32).field 16 4)
  memsz := .ofNat 32 ((f.bytes off 32).field 20 4)

end ProgFile

namespace PageDir

/-- The loop of `loaduvm`, at offset `i` of the segment. The flag is false when the file is too
short; what has been read then stays in the page. -/
def loadLoop (d : PageDir) (addr : Word) (f : ProgFile) (offset sz : Word) :
    Nat → Word → Ram → Option (Bool × Ram)
  | 0, _, r => some (true, r)
  | k + 1, i, r =>
    if i < sz then
      match d.walk (pageOf (addr + i)) with
      | none => none
      | some e =>
        let n := if sz - i < .ofNat 32 PGSIZE then sz - i else .ofNat 32 PGSIZE
        match f.readi (offset + i) n with
        | none => some (false, r)
        | some m =>
          let r := r.setPage e.frame
            ((r.page e.frame).write 0 m.toNat fun j => f.data ((offset + i).toNat + j))
          if m ≠ n then some (false, r) else loadLoop d addr f offset sz k (i + .ofNat 32 PGSIZE) r
    else some (true, r)

/-- `loaduvm(pgdir, addr, ip, offset, sz)`; each turn loads a page. -/
def loaduvm (d : PageDir) (addr : Word) (f : ProgFile) (offset sz : Word) (r : Ram) :
    Option (Bool × Ram) :=
  if addr.toNat % PGSIZE ≠ 0 then none else loadLoop d addr f offset sz (pageUp sz.toNat) 0 r

variable (K : Symbols)

/-- The loop of `exec` over `n` program headers, the first one at `off`. It ends with the size, or
with none at a `goto bad`. -/
def loadSegs (f : ProgFile) : Nat → Word → Ram → PageDir → Word →
    Option (Ram × PageDir × Option Word)
  | 0, _, r, d, sz => some (r, d, some sz)
  | n + 1, off, r, d, sz =>
    if f.readi off 32 ≠ some 32 then some (r, d, none)
    else
      let ph := f.proghdr off
      if ph.type ≠ ELF_PROG_LOAD then loadSegs f n (off + 32) r d sz
      else if ph.memsz < ph.filesz then some (r, d, none)
      else if ph.vaddr + ph.memsz < ph.vaddr then some (r, d, none)
      else
        match allocuvm K r d sz (ph.vaddr + ph.memsz) with
        | none => none
        | some (sz, r, d) =>
          if sz = 0 then some (r, d, none)
          else if ph.vaddr.toNat % PGSIZE ≠ 0 then some (r, d, none)
          else
            match loaduvm d ph.vaddr f ph.off ph.filesz r with
            | none => none
            | some (false, r) => some (r, d, none)
            | some (true, r) => loadSegs f n (off + 32) r d sz

end PageDir

/-- The part of a trap frame that a program starts with. -/
structure TrapFrame where
  eip : Word
  esp : Word
  eax : Word

/-- `struct thread`, without its kernel stack. -/
structure UThread where
  state : ProcState := .unused
  tid : Word := 0
  mp : Option ProcPtr := none
  usp : Word := 0
  eax : Word := 0
  deriving DecidableEq

/-- What `exec` works on: the memory of the calling process with its threads, the program's inode
and the log. -/
structure ExecSys where
  mem : UserMem
  thread : ThdPtr → UThread
  tf : ThdPtr → TrapFrame
  /-- `ip->ref` and whether `ip->lock` is held -/
  ref : Nat
  locked : Bool
  /-- `log.outstanding` -/
  outstanding : Nat

namespace ExecSys

def setRam (s : ExecSys) (ram : Ram) : ExecSys := { s with mem := { s.mem with ram } }

def beginOp (s : ExecSys) : ExecSys := { s with outstanding := s.outstanding + 1 }
def endOp (s : ExecSys) : ExecSys := { s with outstanding := s.outstanding - 1 }

/-- `namei(path)` returns a reference. -/
def namei (s : ExecSys) : ExecSys := { s with ref := s.ref + 1 }

def ilock (s : ExecSys) : ExecSys := { s with locked := true }
def iunlockput (s : ExecSys) : ExecSys := { s with locked := false, ref := s.ref - 1 }

variable (K : Symbols)

/-- `if(pgdir) freevm(pgdir)`. -/
def freePgdir (pgdir : Option PageDir) (ram : Ram) : Option Ram :=
  match pgdir with
  | some d => PageDir.freevm K ram d
  | none => some ram

/-- The label `bad`, with the directory if there is one, and `ip` if it is not 0. -/
def bad (s : ExecSys) (pgdir : Option PageDir) (ip : Bool) :
    Option (ExecSys × Option (PageDir × Word)) :=
  (freePgdir K pgdir s.mem.ram).map fun ram =>
    let s := s.setRam ram
    (if ip then s.iunlockput.endOp else s, none)

/-- `exec(path, argv)` up to the arguments: the new directory and its size, or nothing when it
returns -1. `ip` is the file that `namei` finds. -/
def load (ip : Option ProgFile) (s : ExecSys) : Option (ExecSys × Option (PageDir × Word)) :=
  let s := s.beginOp
  match ip with
  | none => some (s.endOp, none)
  | some f =>
    let s := s.namei.ilock
    if f.readi 0 52 ≠ some 52 then s.bad K none true
    else if f.elfhdr.magic ≠ ELF_MAGIC then s.bad K none true
    else
      match PageDir.setupkvm K s.mem.ram with
      | none => none
      | some (ram, none) => (s.setRam ram).bad K none true
      | some (ram, some d) =>
        match PageDir.loadSegs K f f.elfhdr.phnum f.elfhdr.phoff ram d 0 with
        | none => none
        | some (ram, d, none) => (s.setRam ram).bad K (some d) true
        | some (ram, d, some sz) =>
          let s := (s.setRam ram).iunlockput.endOp
          -- two pages at the next page boundary
          let sz : Word := .ofNat 32 (pageUp sz.toNat * PGSIZE)
          match PageDir.allocuvm K ram d sz (sz + .ofNat 32 (2 * PGSIZE)) with
          | none => none
          | some (sz, ram, d) =>
            if sz = 0 then (s.setRam ram).bad K (some d) false
            else
              (d.clearpteu (sz - .ofNat 32 (2 * PGSIZE))).map fun d => (s.setRam ram, some (d, sz))

end ExecSys

end Xv6
