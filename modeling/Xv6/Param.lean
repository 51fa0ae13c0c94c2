import Mathlib.Algebra.GroupWithZero.Nat

/-!
# The sizes of the kernel's tables

The constants of `param.h`, `mmu.h` and `memlayout.h` that the models of this development read.
-/

namespace Xv6

/-- Maximum number of processes. -/
def NPROC : Nat := 64
/-- Maximum number of threads. -/
def NTHREAD : Nat := 256
/-- Open files per process. -/
def NOFILE : Nat := 16
/-- Open files per system. -/
def NFILE : Nat := 100
/-- Maximum number of active i-nodes. -/
def NINODE : Nat := 50
/-- Maximum number of `exec` arguments. -/
def MAXARG : Nat := 32
/-- Maximum number of blocks any file system operation writes. -/
def MAXOPBLOCKS : Nat := 10
/-- Maximum number of data blocks in the on-disk log. -/
def LOGSIZE : Nat := MAXOPBLOCKS * 3
/-- Size of the disk block cache. -/
def NBUF : Nat := MAXOPBLOCKS * 3
/-- Size of the file system in blocks. -/
def FSSIZE : Nat := 40000

instance : NeZero NPROC := ⟨by decide⟩
instance : NeZero NTHREAD := ⟨by decide⟩
instance : NeZero NOFILE := ⟨by decide⟩
instance : NeZero NFILE := ⟨by decide⟩
instance : NeZero NINODE := ⟨by decide⟩
instance : NeZero NBUF := ⟨by decide⟩

/-- Bytes mapped by a page. -/
def PGSIZE : Nat := 4096
/-- First kernel virtual address. -/
def KERNBASE : Nat := 0x80000000
/-- Top physical memory. -/
def PHYSTOP : Nat := 0xE000000

/-- A 32-bit register: `uint`, and `int` through `BitVec.toInt`. -/
abbrev Word := BitVec 32
/-- A `uchar`. -/
abbrev Byte := BitVec 8

/-- Pass value at which `reduce` subtracts. -/
def MAXPASS : Word := 100000000#32
def TICKETS : Word := 10000#32

end Xv6
