import Xv6.Fs.Inode

/-!
# `mkfs`

The program that makes a file system out of a list of files of the host. Its state is the image file
and two counters, the next inode and the next block to hand out; the bitmap is written once, at the
end. A result `none` is an `assert` that fails, a sector that cannot be read, or an index outside an
array, after which C promises nothing.

The files of the host enter as their names and what the calls of `read` return, one after another.
The converters `xshort` and `xint` are the identity on the machines that store numbers with the low
byte first, which is the order of `Block.dinode`.
-/

namespace Xv6

open Xv6.Lib

/-- Root i-number. -/
def ROOTINO : Nat := 1
/-- Length of a file name in a directory. -/
def DIRSIZ : Nat := 14

/-- A file of the host: its name, and the results of reading it. -/
structure HostFile where
  name : List Byte
  reads : List (List Byte)

/-- `struct dirent`: the number and the name, cut off or padded with zeros. -/
def dirent (inum : Nat) (name : List Byte) : List Byte :=
  [digit inum 0, digit inum 1] ++ (List.range DIRSIZ).map fun k => name.getD k 0

/-- A block of the bitmap with the first `used` bits set, as `balloc` builds it. -/
def bitmap (used : Nat) : Block := (List.range used).foldl (fun buf i => buf.setBit i) Bytes.zero

structure MkFs where
  blk : Nat → Block
  freeinode : Nat
  freeblock : Nat

namespace MkFs

def rsect (m : MkFs) (sec : Nat) : Option Block := if sec < FSSIZE then some (m.blk sec) else none

def wsect (m : MkFs) (sec : Nat) (buf : Block) : MkFs :=
  { m with blk := Function.update m.blk sec buf }

def winode (m : MkFs) (inum : Nat) (ip : Dinode) : Option MkFs :=
  (m.rsect (IBLOCK inum)).map fun buf => m.wsect (IBLOCK inum) (buf.setDinode (inum % IPB) ip)

def rinode (m : MkFs) (inum : Nat) : Option Dinode :=
  (m.rsect (IBLOCK inum)).map fun buf => buf.dinode (inum % IPB)

def ialloc (m : MkFs) (type : BitVec 16) : Option (Nat × MkFs) :=
  ({ m with freeinode := m.freeinode + 1 }.winode m.freeinode { type, nlink := 1 }).map
    fun m' => (m.freeinode, m')

/-- `balloc(freeblock)`. -/
def balloc (m : MkFs) : Option MkFs :=
  if m.freeblock < BSIZE * 8 then some (m.wsect mkfs.bmapstart (bitmap m.freeblock)) else none

/-- `if(xint(din.addrs[k]) == 0) din.addrs[k] = xint(freeblock++);` -/
def loadAddr (m : MkFs) (din : Dinode) (k : Slot) : Nat × MkFs × Dinode :=
  if din.addrs k = 0 then
    (m.freeblock, { m with freeblock := m.freeblock + 1 },
      { din with addrs := Function.update din.addrs k (.ofNat 32 m.freeblock) })
  else ((din.addrs k).toNat, m, din)

/-- The same in the array `indirect`, the contents of block `a`, which has `NINDIRECT` entries. -/
def loadEntry (m : MkFs) (a j : Nat) : Option (Nat × MkFs) :=
  (m.rsect a).bind fun indirect =>
    if j < NINDIRECT then
      if indirect.word j = 0 then
        some (m.freeblock,
          { m with freeblock := m.freeblock + 1 }.wsect a (indirect.setWord j m.freeblock))
      else some (indirect.word j, m)
    else none

/-- The block `x` of the image for block `fbn` of the file. -/
def fileBlock (m : MkFs) (din : Dinode) (fbn : Nat) : Option (Nat × MkFs × Dinode) :=
  if h : fbn < NDIRECT then some (m.loadAddr din ⟨fbn, lt_slots h⟩)
  else
    let (a, m, din) := m.loadAddr din 10
    (m.loadEntry a (fbn - NDIRECT)).map fun (x, m) => (x, m, din)

/-- The loop of `iappend`, with the bytes that are left. -/
def appendLoop (m : MkFs) (din : Dinode) :
    Nat → Nat → List Byte → Option (MkFs × Dinode × Nat)
  | 0, off, _ => some (m, din, off)
  | fuel + 1, off, bytes =>
    if bytes.length = 0 then some (m, din, off)
    else if MAXFILE ≤ off / BSIZE then none
    else
      (m.fileBlock din (off / BSIZE)).bind fun (x, m, din) =>
        let n1 := min bytes.length ((off / BSIZE + 1) * BSIZE - off)
        (m.rsect x).bind fun buf =>
          (m.wsect x (buf.write (off - off / BSIZE * BSIZE) n1 fun k => bytes.getD k 0)).appendLoop
            din fuel (off + n1) (bytes.drop n1)

/-- `iappend(inum, xp, n)`. -/
def iappend (m : MkFs) (inum : Nat) (bytes : List Byte) : Option MkFs :=
  (m.rinode inum).bind fun din =>
    (m.appendLoop din bytes.length din.size.toNat bytes).bind fun (m, din, off) =>
      m.winode inum { din with size := .ofNat 32 off }

/-- The fields of `struct superblock`, each a `uint`. -/
def superblock : List Nat :=
  [mkfs.size, FSSIZE - nmeta, mkfs.ninodes, mkfs.nlog, mkfs.logstart, mkfs.inodestart,
    mkfs.bmapstart]

/-- The image before the first inode: zeros and the super block. -/
def init : MkFs where
  blk := Function.update (fun _ => Bytes.zero) 1
    (Bytes.write Bytes.zero 0 28 fun k => digit (superblock.getD (k / 4) 0) (k % 4))
  freeinode := 1
  freeblock := nmeta

/-- A name without the underscore that the build puts in front of it. -/
def skipUnderscore : List Byte → List Byte
  | [] => []
  | c :: name => if c = 0x5f then name else c :: name

/-- The body of the loop over the arguments. -/
def addFile (m : MkFs) (file : HostFile) : Option MkFs :=
  if 0x2f ∈ file.name then none
  else
    (m.ialloc T_FILE).bind fun (inum, m) =>
      (m.iappend ROOTINO (dirent inum (skipUnderscore file.name))).bind fun m =>
        file.reads.foldlM (fun m buf => m.iappend inum buf) m

/-- The root directory, with its entries for itself. -/
def makeRoot : Option MkFs :=
  (init.ialloc T_DIR).bind fun (rootino, m) =>
    if rootino = ROOTINO then
      (m.iappend rootino (dirent rootino [0x2e])).bind fun m =>
        m.iappend rootino (dirent rootino [0x2e, 0x2e])
    else none

/-- The size of the root directory is rounded up to whole blocks. -/
def fixRoot (m : MkFs) : Option MkFs :=
  (m.rinode ROOTINO).bind fun din =>
    m.winode ROOTINO { din with size := .ofNat 32 ((din.size.toNat / BSIZE + 1) * BSIZE) }

/-- `main`, for the arguments after the name of the image. -/
def main (files : List HostFile) : Option MkFs :=
  makeRoot.bind fun m => (files.foldlM addFile m).bind fun m => m.fixRoot.bind balloc

/-- The image as the kernel finds it. -/
def image (m : MkFs) : FsImage := { blk := m.blk }

end MkFs

end Xv6
