import Xv6.Fs.Mkfs

/-!
# Directories

Directories are read and written entry by entry through `readi` and `writei`. A call that panics has
no result: on a short read, on a write that fails, or when the inode is no directory.

Names are byte strings that zeros follow. `dirlookup` gives the number of the inode here, and the
offset of the entry; the `iget` of that inode, and `dirlink`, which drops its reference again, are
calls on the inode cache (`Xv6.Fs.Icache`).
-/

namespace Xv6

open Xv6.Lib

/-- `strncmp(p, q, n) == 0`, from byte `k` on. -/
def strncmp (p q : List Byte) : Nat → Nat → Bool
  | 0, _ => true
  | n + 1, k =>
    if p.getD k 0 ≠ q.getD k 0 then false
    else if p.getD k 0 = 0 then true
    else strncmp p q n (k + 1)

/-- The bytes that `strncpy(s, t, n)` writes, from byte `k` on. -/
def strncpy (t : List Byte) : Nat → Nat → List Byte
  | 0, _ => []
  | n + 1, k =>
    if t.getD k 0 = 0 then List.replicate (n + 1) 0 else t.getD k 0 :: strncpy t n (k + 1)

/-- `namecmp(s, t) == 0`. -/
def namecmp (s t : List Byte) : Bool := strncmp s t DIRSIZ 0

/-- `de.inum`. -/
def direntInum (de : List Byte) : Nat := (de.getD 0 0).toNat + 256 * (de.getD 1 0).toNat

/-- `de.name`. -/
def direntName (de : List Byte) : List Byte := de.drop 2

/-- `strncpy(de.name, name, DIRSIZ); de.inum = inum`. -/
def newDirent (inum : Nat) (name : List Byte) : List Byte :=
  [digit inum 0, digit inum 1] ++ strncpy name DIRSIZ 0

namespace FsImage

/-- Looks through a directory from `off` on for an entry that `p` accepts: the entry, if there is
one, and the offset at which the loop ends. A short read is a panic. -/
def dirScan (p : List Byte → Bool) (s : FsImage) (dp : Dinode) :
    Nat → Nat → Option (Option (List Byte) × Nat × FsImage × Dinode)
  | 0, off => some (none, off, s, dp)
  | fuel + 1, off =>
    if off < dp.size.toNat then
      (s.readi dp (.ofNat 32 off) 16).bind fun (r, s, dp) =>
        match r with
        | .done de =>
          if de.length = 16 then
            if p de then some (some de, off, s, dp) else s.dirScan p dp fuel (off + 16)
          else none
        | .error => none
        | .device => none
    else some (none, off, s, dp)

/-- `dirlookup(dp, name, poff)`: the number of the inode and `*poff`. -/
def dirlookup (s : FsImage) (dp : Dinode) (name : List Byte) :
    Option (Option (Nat × Nat) × FsImage × Dinode) :=
  if dp.type ≠ T_DIR then none
  else
    (s.dirScan (fun de => direntInum de != 0 && namecmp name (direntName de)) dp
      (dp.size.toNat / 16 + 1) 0).map
        fun (de, off, s, dp) => (de.map fun de => (direntInum de, off), s, dp)

/-- `writei(dp, de, off, sizeof(*de))`, where anything but a full write is a panic. -/
def writeEntry (s : FsImage) (i : Nat) (dp : Dinode) (de : List Byte) (off : Nat) :
    Option (FsImage × Dinode) :=
  (s.writei i dp (fun k => de.getD k 0) (.ofNat 32 off) 16).bind fun (r, s, dp) =>
    match r with
    | .done n => if n = 16 then some (s, dp) else none
    | .error => none
    | .device => none

/-- `dirlink(dp, name, inum)` from its search for an empty dirent on, for the directory with inode
number `i`. -/
def addEntry (s : FsImage) (i : Nat) (dp : Dinode) (name : List Byte) (inum : Nat) :
    Option (FsImage × Dinode) :=
  (s.dirScan (fun de => direntInum de == 0) dp (dp.size.toNat / 16 + 1) 0).bind
    fun (_, off, s, dp) => s.writeEntry i dp (newDirent inum name) off

end FsImage

end Xv6
