import Mathlib.Data.List.FinRange
import Mathlib.Logic.Function.Basic
import Xv6.Fs.Disk

/-!
# Inodes and their blocks

`fs.c` up to `writei`, and `filewrite`: the block allocator, the block map with its four levels,
truncation, reading and writing. The blocks are those that `bread` returns, so the buffer cache and
the log are below this module; `logged` collects the numbers of the blocks that a transaction has
handed to `log_write`. A panic is a result `none`.

The in-memory inode and the one on disk have the same fields, `Dinode`. Where the branches of a
function of the source differ in the level only (the three nested loops of `itrunc`, the steps of
`bmap` from one block to the next) there is one definition for all levels.

The superblock `sb` is that of `mkfs` unless another one is given.

Device inodes are handed to their driver, which is not modelled and touches no block.
-/

namespace Xv6

open Xv6.Lib

def NDIRECT : Nat := 10
def NINDIRECT : Nat := BSIZE / 4
def NDINDIRECT : Nat := NINDIRECT * NINDIRECT
def NTINDIRECT : Nat := NDINDIRECT * NINDIRECT
/-- The length of a file in blocks that `writei` and `mkfs` allow. -/
def MAXFILE : Nat := NDIRECT + NINDIRECT + NDINDIRECT + NTINDIRECT

/-- The blocks before the data blocks: boot, super, log, inodes, bitmap. -/
def nmeta : Nat := 2 + LOGSIZE + (NINODES / IPB + 1) + (FSSIZE / BPB + 1)

def T_DIR : BitVec 16 := 1
def T_FILE : BitVec 16 := 2
def T_DEV : BitVec 16 := 3

/-- The number of an inode of the disk. -/
abbrev Inum := Fin NINODES

instance : NeZero NINODES := ⟨by decide⟩

/-- An index into `addrs`. -/
abbrev Slot := Fin 13

instance neZeroSlots : NeZero 13 := ⟨by decide⟩

/-- `struct dinode`. -/
structure Dinode where
  type : BitVec 16 := 0
  major : BitVec 16 := 0
  minor : BitVec 16 := 0
  nlink : BitVec 16 := 0
  size : Word := 0
  addrs : Slot → Word := fun _ => 0

/-- Byte `j` of a little-endian number. -/
def digit (v j : Nat) : Byte := .ofNat 8 (v / 256 ^ j)

/-- Byte `j` of the record. -/
def Dinode.byte (d : Dinode) (j : Nat) : Byte :=
  if j < 2 then digit d.type.toNat j
  else if j < 4 then digit d.major.toNat (j - 2)
  else if j < 6 then digit d.minor.toNat (j - 4)
  else if j < 8 then digit d.nlink.toNat (j - 6)
  else if j < 12 then digit d.size.toNat (j - 8)
  else if h : (j - 12) / 4 < 13 then digit (d.addrs ⟨(j - 12) / 4, h⟩).toNat ((j - 12) % 4)
  else 0

namespace Block

/-- `((struct dinode*)b)[k]`. -/
def dinode (b : Block) (k : Nat) : Dinode where
  type := .ofNat 16 (b.field (64 * k) 2)
  major := .ofNat 16 (b.field (64 * k + 2) 2)
  minor := .ofNat 16 (b.field (64 * k + 4) 2)
  nlink := .ofNat 16 (b.field (64 * k + 6) 2)
  size := .ofNat 32 (b.field (64 * k + 8) 4)
  addrs i := .ofNat 32 (b.field (64 * k + 12 + 4 * i.val) 4)

/-- `((struct dinode*)b)[k] = d`. -/
def setDinode (b : Block) (k : Nat) (d : Dinode) : Block := b.write (64 * k) 64 d.byte

/-- `b[i/8] & (1 << (i%8))`. -/
def bit (b : Block) (i : Nat) : Bool := (b.byte (i / 8)).getLsbD (i % 8)

/-- `b[i/8] |= 1 << (i%8)`. -/
def setBit (b : Block) (i : Nat) : Block :=
  b.write (i / 8) 1 fun _ => b.byte (i / 8) ||| (1#8 <<< (i % 8))

/-- `b[i/8] &= ~(1 << (i%8))`. -/
def clearBit (b : Block) (i : Nat) : Block :=
  b.write (i / 8) 1 fun _ => b.byte (i / 8) &&& ~~~(1#8 <<< (i % 8))

end Block

/-- The block that inode `i` lies in, and the block of the bitmap that has the bit of block `b`. -/
def IBLOCK (i : Nat) (sb : Superblock := mkfs) : Nat := i / IPB + sb.inodestart
def BBLOCK (b : Nat) (sb : Superblock := mkfs) : Nat := b / BPB + sb.bmapstart

/-- The blocks of the file system, and the blocks logged since `begin_op`. -/
structure FsImage where
  blk : Nat → Block
  logged : List Nat := []

namespace FsImage

/-- Changes the data of block `b` and hands it to `log_write`. -/
def logWrite (s : FsImage) (b : Nat) (v : Block) : FsImage where
  blk := Function.update s.blk b v
  logged := b :: s.logged

def bit (s : FsImage) (b : Nat) (sb : Superblock := mkfs) : Bool :=
  (s.blk (BBLOCK b sb)).bit (b % BPB)

def dinode (s : FsImage) (i : Nat) : Dinode := (s.blk (IBLOCK i)).dinode (i % IPB)

def ptr (s : FsImage) (b j : Nat) : Nat := (s.blk b).word j

/-! ## Blocks -/

/-- `bzero(dev, b)`. -/
def bzero (s : FsImage) (b : Nat) : FsImage := s.logWrite b Bytes.zero

/-- The first block whose bit is clear. -/
def firstFree (s : FsImage) (sb : Superblock := mkfs) : Option Nat :=
  (List.range sb.size).find? fun b => !s.bit b sb

/-- `balloc(dev)`. -/
def balloc (s : FsImage) (sb : Superblock := mkfs) : Option (Nat × FsImage) :=
  (s.firstFree sb).map fun b =>
    (b, (s.logWrite (BBLOCK b sb) ((s.blk (BBLOCK b sb)).setBit (b % BPB))).bzero b)

/-- `bfree(dev, b)`; to free a free block is a panic. -/
def bfree (s : FsImage) (b : Nat) : Option FsImage :=
  if s.bit b then some (s.logWrite (BBLOCK b) ((s.blk (BBLOCK b)).clearBit (b % BPB))) else none

/-! ## Inodes -/

/-- `iupdate(ip)`, for inode number `i`. -/
def iupdate (s : FsImage) (i : Nat) (ip : Dinode) (sb : Superblock := mkfs) : FsImage :=
  s.logWrite (IBLOCK i sb) ((s.blk (IBLOCK i sb)).setDinode (i % IPB) ip)

/-- `ialloc(dev, type)`, up to its `iget`. -/
def ialloc (s : FsImage) (type : BitVec 16) : Option (Nat × FsImage) :=
  ((List.range mkfs.ninodes).find? fun i => i != 0 && (s.dinode i).type == 0).map fun i =>
    (i, s.iupdate i { type })

/-! ## The block map -/

/-- `if((addr = ip->addrs[k]) == 0) ip->addrs[k] = addr = balloc(ip->dev);` -/
def loadAddr (s : FsImage) (ip : Dinode) (k : Slot) (sb : Superblock := mkfs) :
    Option (Nat × FsImage × Dinode) :=
  if ip.addrs k = 0 then
    (s.balloc sb).map fun (b, s) =>
      (b, s, { ip with addrs := Function.update ip.addrs k (.ofNat 32 b) })
  else some ((ip.addrs k).toNat, s, ip)

/-- `if((addr = a[j]) == 0){ a[j] = addr = balloc(ip->dev); log_write(bp); }` in block `a`. -/
def loadEntry (s : FsImage) (a j : Nat) (sb : Superblock := mkfs) : Option (Nat × FsImage) :=
  if s.ptr a j = 0 then (s.balloc sb).map fun (b, s) => (b, s.logWrite a ((s.blk a).setWord j b))
  else some (s.ptr a j, s)

/-- From block `a` down along the indices. -/
def loadPath (s : FsImage) (a : Nat) (js : List Nat) (sb : Superblock := mkfs) :
    Option (Nat × FsImage) :=
  match js with
  | [] => some (a, s)
  | j :: js => (s.loadEntry a j sb).bind fun (b, s) => s.loadPath b js sb

end FsImage

theorem lt_slots {bn : Nat} (h : bn < NDIRECT) : bn < 13 := Nat.lt_of_lt_of_le h (by decide)

/-- The way that `bmap` takes to block `bn` of a file: the entry of `addrs`, and the index in each
index block. The block number is not rebased between the indirect ranges. -/
def bmapPath (bn : Nat) : Option (Slot × List Nat) :=
  if h : bn < NDIRECT then some (⟨bn, lt_slots h⟩, [])
  else
    let bn := bn - NDIRECT
    if bn < NINDIRECT then some (10, [bn])
    else if bn < NDINDIRECT then some (11, [bn / NINDIRECT, bn % NINDIRECT])
    else if bn < NTINDIRECT then
      some (12, [bn / NDINDIRECT, bn % NDINDIRECT / NINDIRECT, bn % NINDIRECT])
    else none

/-- What reading and writing return: -1, what the driver of a device makes of it (-1 if there is no
driver), or the result of the loop. -/
inductive Io (α : Type) where
  | error
  | device
  | done (a : α)

/-- The levels of index blocks below an entry of `addrs`. -/
def slotDepth (k : Slot) : Nat := k.val - 9

namespace FsImage

/-- `bmap(ip, bn)`. -/
def bmap (s : FsImage) (ip : Dinode) (bn : Nat) (sb : Superblock := mkfs) :
    Option (Nat × FsImage × Dinode) :=
  (bmapPath bn).bind fun (k, js) =>
    (s.loadAddr ip k sb).bind fun (a, s, ip) => (s.loadPath a js sb).map fun (b, s) => (b, s, ip)

/-- Calls of `bmap` on one inode, one after another, with what they return. -/
def bmaps (s : FsImage) (ip : Dinode) : List Nat → Option (List Nat × FsImage × Dinode)
  | [] => some ([], s, ip)
  | bn :: bns =>
    (s.bmap ip bn).bind fun (b, s, ip) =>
      (s.bmaps ip bns).map fun (bs, s, ip) => (b :: bs, s, ip)

/-! ## Truncation -/

/-- Frees block `a` and what is below it, index blocks being `depth` levels deep: the loops of
`itrunc`. -/
def freeTree : Nat → FsImage → Nat → Option FsImage
  | 0, s, a => s.bfree a
  | depth + 1, s, a =>
    ((List.range NINDIRECT).foldlM
      (fun s j => if s.ptr a j = 0 then some s else freeTree depth s (s.ptr a j)) s).bind (·.bfree a)

/-- `itrunc(ip)` up to its `iupdate`, entry by entry of `addrs`. -/
def truncSlots (s : FsImage) (ip : Dinode) : List Slot → Option FsImage
  | [] => some s
  | k :: ks =>
    (if ip.addrs k = 0 then some s else freeTree (slotDepth k) s (ip.addrs k).toNat).bind
      fun s => s.truncSlots ip ks

/-- `itrunc(ip)`, for inode number `i`. -/
def itrunc (s : FsImage) (i : Nat) (ip : Dinode) : Option (FsImage × Dinode) :=
  (s.truncSlots ip (List.finRange 13)).map fun s =>
    let ip := { ip with addrs := fun _ => 0, size := 0 }
    (s.iupdate i ip, ip)

/-! ## Reading and writing -/

/-- The loop of `readi`, with `n` bytes left. -/
def readLoop (s : FsImage) (ip : Dinode) :
    Nat → Nat → Nat → Option (List Byte × FsImage × Dinode)
  | 0, _, _ => some ([], s, ip)
  | fuel + 1, off, n =>
    if n = 0 then some ([], s, ip)
    else
      (s.bmap ip (off / BSIZE)).bind fun (b, s, ip) =>
        let m := min n (BSIZE - off % BSIZE)
        let bytes := (List.range m).map fun k => (s.blk b).byte (off % BSIZE + k)
        (s.readLoop ip fuel (off + m) (n - m)).map fun (rest, s, ip) => (bytes ++ rest, s, ip)

/-- `readi(ip, dst, off, n)`. -/
def readi (s : FsImage) (ip : Dinode) (off n : Word) :
    Option (Io (List Byte) × FsImage × Dinode) :=
  if ip.type = T_DEV then some (.device, s, ip)
  else if ip.size < off ∨ off + n < off then some (.error, s, ip)
  else
    let n := if ip.size < off + n then ip.size - off else n
    (s.readLoop ip n.toNat off.toNat n.toNat).map fun (bytes, s, ip) => (.done bytes, s, ip)

/-- The loop of `writei`: `tot` bytes are written, and the file offset is `off`. -/
def writeLoop (src : Nat → Byte) (n : Nat) (s : FsImage) (ip : Dinode) (fuel tot off : Nat)
    (sb : Superblock := mkfs) : Option (FsImage × Dinode × Nat) :=
  match fuel with
  | 0 => some (s, ip, off)
  | fuel + 1 =>
    if tot < n then
      (s.bmap ip (off / BSIZE) sb).bind fun (b, s, ip) =>
        let m := min (n - tot) (BSIZE - off % BSIZE)
        let s := s.logWrite b ((s.blk b).write (off % BSIZE) m fun k => src (tot + k))
        s.writeLoop src n ip fuel (tot + m) (off + m) sb
    else some (s, ip, off)

/-- `writei(ip, src, off, n)`, for inode number `i`. -/
def writei (s : FsImage) (i : Nat) (ip : Dinode) (src : Nat → Byte) (off n : Word)
    (sb : Superblock := mkfs) : Option (Io Nat × FsImage × Dinode) :=
  if ip.type = T_DEV then some (.device, s, ip)
  else if ip.size < off ∨ off + n < off then some (.error, s, ip)
  else if MAXFILE * BSIZE < (off + n).toNat then some (.error, s, ip)
  else
    (s.writeLoop src n.toNat ip n.toNat 0 off.toNat sb).map fun (s, ip, off) =>
      if 0 < n.toNat ∧ ip.size.toNat < off then
        let ip := { ip with size := .ofNat 32 off }
        (.done n.toNat, s.iupdate i ip sb, ip)
      else (.done n.toNat, s, ip)

/-- The bytes of one transaction of `filewrite`. -/
def writeMax : Nat := (MAXOPBLOCKS - 1 - 1 - 2) / 2 * 512

/-- The loop of `filewrite` on an inode, `k` bytes being written: the result with the file offset.
A short write is a panic. -/
def fileLoop (i : Nat) (src : Nat → Byte) (n : Nat) (s : FsImage) (ip : Dinode) :
    Nat → Nat → Word → Option (Io Nat × Word × FsImage × Dinode)
  | 0, _, off => some (.done n, off, s, ip)
  | fuel + 1, k, off =>
    if k < n then
      let n1 := min (n - k) writeMax
      ({ s with logged := [] }.writei i ip (fun j => src (k + j)) off (.ofNat 32 n1)).bind
        fun (r, s, ip) =>
          match r with
          | .error => some (.error, off, s, ip)
          | .device => some (.device, off, s, ip)
          | .done r =>
            if r = n1 then s.fileLoop i src n ip fuel (k + r) (off + BitVec.ofNat 32 r) else none
    else some (.done n, off, s, ip)

/-- `filewrite(f, src, n)` on an inode. -/
def filewrite (s : FsImage) (i : Nat) (ip : Dinode) (src : Nat → Byte) (off : Word) (n : Nat) :
    Option (Io Nat × Word × FsImage × Dinode) :=
  s.fileLoop i src n ip n 0 off

end FsImage

end Xv6
