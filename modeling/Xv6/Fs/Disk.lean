import Xv6.Lib.Bytes
import Xv6.Param

/-!
# Blocks and the layout of the disk

`fs.h`, and the part of `mkfs.c` that lays out the disk. A block is a string of `BSIZE` bytes;
the kernel casts it to an array of `uint`, which is `word`.
-/

namespace Xv6

open Xv6.Lib

/-- Block size. -/
def BSIZE : Nat := 512
/-- Device number of the file system's disk. -/
def ROOTDEV : Nat := 1
/-- Number of inodes that `mkfs` makes. -/
def NINODES : Nat := 200
/-- Inodes per block: a `dinode` has 64 bytes. -/
def IPB : Nat := BSIZE / 64
/-- Bitmap bits per block. -/
def BPB : Nat := BSIZE * 8

abbrev Block := Bytes BSIZE

namespace Block

/-- `((uint*)b)[i]`. -/
def word (b : Block) (i : Nat) : Nat := b.field (4 * i) 4

/-- `((uint*)b)[i] = v`. -/
def setWord (b : Block) (i v : Nat) : Block := b.setField (4 * i) 4 v

theorem word_setWord {b : Block} {i v : Nat} (hi : i < 128) (hv : v < 2 ^ 32) :
    word (setWord b i v) i = v := by
  apply Bytes.field_setField
  · unfold BSIZE
    omega
  · exact hv

theorem word_setWord_ne {b : Block} {i j v : Nat} (h : j ≠ i) :
    word (setWord b i v) j = word b j := by
  apply Bytes.field_setField_ne
  omega

@[simp] theorem word_zero (i : Nat) : word Bytes.zero i = 0 := Bytes.field_zero 4 (4 * i)

end Block

/-- `struct superblock`, without the count of data blocks, which nothing reads. -/
structure Superblock where
  /-- size of the image in blocks -/
  size : Nat
  ninodes : Nat
  /-- number of log blocks, the header among them -/
  nlog : Nat
  logstart : Nat
  inodestart : Nat
  bmapstart : Nat
  deriving DecidableEq, Repr

/-- Boot block, super block, log, inodes, bitmap, data. -/
def mkfs : Superblock where
  size := FSSIZE
  ninodes := NINODES
  nlog := LOGSIZE
  logstart := 2
  inodestart := 2 + LOGSIZE
  bmapstart := 2 + LOGSIZE + (NINODES / IPB + 1)

end Xv6
