import Xv6.Fs.Icache

/-!
# Path names

`skipelem`, `namex`, `namei` and `nameiparent`. A path is read up to its first zero, or to the end
of the list, and `name` is the caller's buffer of `DIRSIZ` bytes: what `skipelem` does not write
stays in it. The calls on the inode cache are those of `ISys`; a call that waits for an inode that
someone else has locked has no result, nor has one that comes to an entry whose number is that of no
inode on the disk.
-/

namespace Xv6

/-- `'/'` -/
def slash : Byte := 0x2f

/-- `*path == '/'` -/
def isSlash (c : Byte) : Bool := c == slash

/-- `*path != '/' && *path != 0` -/
def inElem (c : Byte) : Bool := c != slash && c != 0

/-- `skipelem(path, name)`: the rest of the path and the buffer. -/
def skipelem (path name : List Byte) : Option (List Byte × List Byte) :=
  let path := path.dropWhile isSlash
  if path.headD 0 = 0 then none
  else
    let len := (path.takeWhile inElem).length
    some ((path.drop len).dropWhile isSlash,
      if DIRSIZ ≤ len then path.take DIRSIZ ++ name.drop DIRSIZ
      else path.take len ++ 0 :: name.drop (len + 1))

namespace ISys

theorem rootino_lt : ROOTINO < NINODES := by decide

def rootInum : Inum := ⟨ROOTINO, rootino_lt⟩

/-- `idup(ip)`. -/
def idup (s : ISys) (i : Inum) : ISys :=
  s.setEntry i { s.icache i with ref := (s.icache i).ref + 1 }

/-- `iunlock(ip)`. -/
def iunlock (s : ISys) (i : Inum) : Option ISys := s.step (.iunlock i)

/-- `iunlockput(ip)`. -/
def iunlockput (s : ISys) (i : Inum) : Option ISys := (s.iunlock i).bind (·.iput i)

/-- `dirlookup(dp, name, 0)`, with a reference to the inode that is found. -/
def dirlookup (s : ISys) (i : Inum) (name : List Byte) : Option (Option Inum × ISys) :=
  (s.held i).bind fun dp => (s.img.dirlookup dp name).bind fun (found, img, dp) =>
    match found with
    | none => some (none, s.store i img dp)
    | some (inum, _) =>
      if h : inum < NINODES then
        ((s.store i img dp).iget ⟨inum, h⟩).map fun s => (some ⟨inum, h⟩, s)
      else none

/-- The loop of `namex`, at inode `ip`. -/
def namexLoop (parent : Bool) : Nat → ISys → Inum → List Byte → List Byte →
    Option (Option Inum × List Byte × ISys)
  | 0, _, _, _, _ => none
  | fuel + 1, s, ip, path, name =>
    match skipelem path name with
    | none =>
      if parent then (s.iput ip).map fun s => (none, name, s) else some (some ip, name, s)
    | some (path, name) =>
      (s.ilock ip).bind fun s => (s.held ip).bind fun dp =>
        if dp.type ≠ T_DIR then (s.iunlockput ip).map fun s => (none, name, s)
        else if parent = true ∧ path.headD 0 = 0 then
          -- stop one level early
          (s.iunlock ip).map fun s => (some ip, name, s)
        else
          (s.dirlookup ip name).bind fun (next, s) =>
            match next with
            | none => (s.iunlockput ip).map fun s => (none, name, s)
            | some next => (s.iunlockput ip).bind fun s => namexLoop parent fuel s next path name

/-- `namex(path, nameiparent, name)` of a process with the current directory `cwd`. -/
def namex (s : ISys) (cwd : Inum) (path : List Byte) (parent : Bool)
    (name : List Byte) : Option (Option Inum × List Byte × ISys) :=
  if path.headD 0 = slash then
    (s.iget rootInum).bind fun s => namexLoop parent (path.length + 1) s rootInum path name
  else namexLoop parent (path.length + 1) (s.idup cwd) cwd path name

/-- `namei(path)`; the buffer is not initialized. -/
def namei (s : ISys) (cwd : Inum) (path name : List Byte) : Option (Option Inum × ISys) :=
  (s.namex cwd path false name).map fun (ip, _, s) => (ip, s)

/-- `nameiparent(path, name)`. -/
def nameiparent (s : ISys) (cwd : Inum) (path name : List Byte) :
    Option (Option Inum × List Byte × ISys) :=
  s.namex cwd path true name

end ISys

end Xv6
