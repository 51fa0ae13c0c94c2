import Mathlib.Data.Fintype.Card
import Xv6.Fs.Dir

/-!
# The inode cache

`iget`, `ilock`, `iput` and what runs under an inode's lock. The cache is a table from inode
numbers: which of the `NINODE` entries an inode is in plays no part, only how many are in use. A call
that panics, or that would wait for a lock, has no result.
-/

namespace Xv6

open Xv6.Lib

/-- An entry of `icache`. -/
structure IEntry where
  ref : Nat := 0
  /-- the fields that are copied from the disk, while `valid` -/
  copy : Option Dinode := none
  locked : Bool := false

structure ISys where
  img : FsImage
  icache : Inum → IEntry := fun _ => {}

inductive IAct where
  | iget (i : Inum)
  | ilock (i : Inum)
  | iunlock (i : Inum)
  | readi (i : Inum) (off n : Word)
  | writei (i : Inum) (src : Nat → Byte) (off n : Word)
  | dirlink (i : Inum) (name : List Byte) (inum : Nat)
  /-- `sys_unlink` clears the entry at `off` -/
  | clearEntry (i : Inum) (off : Nat)
  /-- `sys_link`, `sys_unlink` and `create` set these fields and call `iupdate` -/
  | relink (i : Inum) (major minor nlink : BitVec 16)
  | ialloc (type : BitVec 16)
  | iput (i : Inum)

namespace ISys

def setEntry (s : ISys) (i : Inum) (e : IEntry) : ISys :=
  { s with icache := Function.update s.icache i e }

/-- The inode that the caller has locked. -/
def held (s : ISys) (i : Inum) : Option Dinode :=
  if (s.icache i).locked then (s.icache i).copy else none

/-- The state after a call under the lock. -/
def store (s : ISys) (i : Inum) (img : FsImage) (ip : Dinode) : ISys :=
  { s.setEntry i { s.icache i with copy := some ip } with img }

/-- How many entries of the cache have references. -/
def inUse (s : ISys) : Nat := (Finset.univ.filter fun i => 0 < (s.icache i).ref).card

/-- `iget(dev, i)`: the entry of an inode without references is as good as empty, and to be without
one is a panic. -/
def iget (s : ISys) (i : Inum) : Option ISys :=
  if 0 < (s.icache i).ref then
    some (s.setEntry i { s.icache i with ref := (s.icache i).ref + 1 })
  else if s.inUse < NINODE then some (s.setEntry i { ref := 1 })
  else none

/-- `ilock(ip)`. -/
def ilock (s : ISys) (i : Inum) : Option ISys :=
  if 0 < (s.icache i).ref ∧ (s.icache i).locked = false then
    match (s.icache i).copy with
    | some _ => some (s.setEntry i { s.icache i with locked := true })
    | none =>
      if (s.img.dinode i).type = 0 then none
      else some (s.setEntry i { s.icache i with locked := true, copy := some (s.img.dinode i) })
  else none

/-- `iput(ip)`: the last reference to an inode without links frees it. -/
def iput (s : ISys) (i : Inum) : Option ISys :=
  if 0 < (s.icache i).ref ∧ (s.icache i).locked = false then
    match (s.icache i).copy with
    | none => some (s.setEntry i { s.icache i with ref := (s.icache i).ref - 1 })
    | some ip =>
      if ip.nlink = 0 ∧ (s.icache i).ref = 1 then
        (s.img.itrunc i ip).map fun (img, ip) =>
          { s.setEntry i { s.icache i with copy := none, ref := 0 } with
            img := img.iupdate i { ip with type := 0 } }
      else some (s.setEntry i { s.icache i with ref := (s.icache i).ref - 1 })
  else none

/-- `iput(iget(dev, inum))`. A number behind the inodes of the disk has an entry, which is never
valid, in between only. -/
def touch (s : ISys) (inum : Nat) : Option ISys :=
  if h : inum < NINODES then (s.iget ⟨inum, h⟩).bind (·.iput ⟨inum, h⟩)
  else if s.inUse < NINODE then some s
  else none

/-- `dirlink(dp, name, inum)`, for a directory that the caller has locked. The reference to an inode
that `dirlookup` finds under the name is dropped at once. -/
def dirlink (s : ISys) (i : Inum) (name : List Byte) (inum : Nat) : Option (Int × ISys) :=
  (s.held i).bind fun dp => (s.img.dirlookup dp name).bind fun (found, img, dp) =>
    match found with
    | some (ip, _) => ((s.store i img dp).touch ip).map fun s => (-1, s)
    | none => (img.addEntry i dp name inum).map fun (img, dp) => (0, s.store i img dp)

def step (s : ISys) : IAct → Option ISys
  | .iget i => s.iget i
  | .ilock i => s.ilock i
  | .iunlock i =>
    (s.held i).map fun _ => s.setEntry i { s.icache i with locked := false }
  | .readi i off n =>
    (s.held i).bind fun ip => (s.img.readi ip off n).map fun (_, img, ip) => s.store i img ip
  | .writei i src off n =>
    (s.held i).bind fun ip => (s.img.writei i ip src off n).map fun (_, img, ip) => s.store i img ip
  | .dirlink i name inum => (s.dirlink i name inum).map Prod.snd
  | .clearEntry i off =>
    (s.held i).bind fun dp => (s.img.writeEntry i dp [] off).map fun (img, dp) => s.store i img dp
  | .relink i major minor nlink =>
    (s.held i).map fun ip =>
      let ip := { ip with major, minor, nlink }
      s.store i (s.img.iupdate i ip) ip
  | .ialloc type =>
    (s.img.ialloc type).bind fun (inum, img) =>
      if h : inum < NINODES then { s with img }.iget ⟨inum, h⟩ else none
  | .iput i => s.iput i

end ISys

end Xv6
