import Xv6.Param
import Xv6.Fs.Disk

/-!
# System call arguments

`syscall.c`, and those functions of `sysfile.c` and `sysproc.c` that store through a pointer from the
user's stack. A call is followed from the fetch of its arguments to every store that the kernel makes
through them; a store is an address and a length. What the rest of the kernel contributes (what is in
a file, whether a slot is free) is a parameter, `World`, so a statement about every world is about every
state of the kernel.
-/

namespace Xv6

/-- What a system call sees of its caller: its memory, the saved stack pointer and `sz`. -/
structure Caller where
  mem : Word → Byte
  esp : Word
  sz : Word

/-- The first address of a store, and the number of bytes. -/
abbrev Store := Word × Nat

namespace Caller

variable (u : Caller)

/-- `*(int*)a`. -/
def word (a : Word) : Word := u.mem (a + 3) ++ u.mem (a + 2) ++ u.mem (a + 1) ++ u.mem a

/-- `fetchint(addr, ip)`. -/
def fetchint (addr : Word) : Option Word :=
  if u.sz ≤ addr ∨ u.sz < addr + 4 then none else some (u.word addr)

/-- `argint(n, ip)`. -/
def argint (n : Nat) : Option Word := u.fetchint (u.esp + 4 + 4 * .ofNat 32 n)

/-- `argptr(n, pp, size)`. Both comparisons with `sz` are unsigned. -/
def argptr (n : Nat) (size : Word) : Option Word :=
  (u.argint n).bind fun i =>
    if size.toInt < 0 ∨ u.sz ≤ i ∨ u.sz < i + size then none else some i

end Caller

/-- What `fileread` finds in an open file. -/
inductive Source where
  /-- a pipe: the process was killed while it waited, or `avail` bytes are there -/
  | pipe (killed : Bool) (avail : Nat)
  /-- a device: it has a `read`, which stops behind `chars` characters, possibly because the process
  was killed -/
  | dev (hasRead : Bool) (chars : Nat) (killed : Bool)
  /-- a file or directory -/
  | inode (size off : Word)

/-- An open file. -/
structure Opened where
  readable : Bool
  source : Source

/-- The rest of the kernel, as far as it decides what a call does. -/
structure World where
  ofile : Fin NOFILE → Option Opened
  /-- the descriptors that `sys_pipe` gets, unless it fails -/
  pipe : Option (Word × Word)
  /-- `allocthd`, `ualloc` and `copyout` of `thread_create` succeed -/
  create : Bool
  /-- `thread_join` finds a ZOMBIE -/
  join : Bool
  /-- what the calls reply that store nothing -/
  rest : Word → Word

/-! ## Stores -/

/-- `dst[i] = ...` for `i < k`. -/
def storeBytes (dst : Word) (k : Nat) : List Store :=
  (List.range k).map fun i => (dst + .ofNat 32 i, 1)

/-- The `memmove`s of `readi`'s loop: `n` bytes in pieces that end with a block of the file. -/
def storeBlocks : Nat → Word → Nat → Nat → Nat → List Store
  | 0, _, _, _, _ => []
  | fuel + 1, dst, off, tot, n =>
    if tot < n then
      let m := min (n - tot) (BSIZE - off % BSIZE)
      (dst, m) :: storeBlocks fuel (dst + .ofNat 32 m) (off + m) (tot + m) n
    else []

/-- `fileread(f, addr, n)`. -/
def fileread (f : Opened) (addr n : Word) : Word × List Store :=
  if f.readable = false then (-1, [])
  else match f.source with
    | .pipe killed avail =>
      if killed then (-1, [])
      else
        let k := min n.toInt.toNat avail
        (.ofNat 32 k, storeBytes addr k)
    | .dev hasRead chars killed =>
      if hasRead = false then (-1, [])
      else
        let k := min n.toInt.toNat chars
        (if killed ∧ chars < n.toInt.toNat then -1 else .ofNat 32 k, storeBytes addr k)
    | .inode size off =>
      if size < off ∨ off + n < off then (-1, [])
      else
        let n := if size < off + n then size - off else n
        (n, storeBlocks n.toNat addr off.toNat 0 n.toNat)

/-- `stati(ip, st)`: `dev`, `ino`, `type`, `nlink` and `size` of `struct stat`. -/
def stati (st : Word) : List Store := [(st + 4, 4), (st + 8, 4), (st, 2), (st + 12, 2), (st + 16, 4)]

/-- `filestat(f, st)`. -/
def filestat (f : Opened) (st : Word) : Word × List Store :=
  match f.source with
  | .pipe _ _ => (-1, [])
  | .dev _ _ _ | .inode _ _ => (0, stati st)

/-! ## The calls -/

section Calls

variable (w : World) (u : Caller)

/-- `argfd(n, 0, pf)`. -/
def argfd (n : Nat) : Option Opened :=
  (u.argint n).bind fun fd => if h : fd.toNat < NOFILE then w.ofile ⟨fd.toNat, h⟩ else none

def sysRead : Word × List Store :=
  match argfd w u 0, u.argint 2 with
  | some f, some n =>
    match u.argptr 1 n with
    | some p => fileread f p n
    | none => (-1, [])
  | _, _ => (-1, [])

def sysFstat : Word × List Store :=
  match argfd w u 0, u.argptr 1 20 with
  | some f, some st => filestat f st
  | _, _ => (-1, [])

def sysPipe : Word × List Store :=
  match u.argptr 0 8 with
  | some fd => if w.pipe.isSome then (0, [(fd, 4), (fd + 4, 4)]) else (-1, [])
  | none => (-1, [])

/-- `*thread = nth->tid` is behind the last failure of `thread_create`. -/
def sysThreadCreate : Word × List Store :=
  match u.argint 0, u.argint 1, u.argint 2 with
  | some thread, some _, some _ => if w.create then (0, [(thread, 4)]) else (-1, [])
  | _, _, _ => (-1, [])

/-- `*retval = t->tf->eax` for the ZOMBIE that `thread_join` finds. -/
def sysThreadJoin : Word × List Store :=
  match u.argint 0, u.argint 1 with
  | some _, some retval => if w.join then (0, [(retval, 4)]) else (-1, [])
  | _, _ => (-1, [])

def SYS_pipe : Word := 4
def SYS_read : Word := 5
def SYS_fstat : Word := 8
def SYS_thread_create : Word := 25
def SYS_thread_join : Word := 27

/-- `syscall()`: the reply and the stores. The table has an entry for each number from 1 to 27. -/
def syscall (num : Word) : Word × List Store :=
  if 0 < num.toInt ∧ num.toInt < 28 then
    if num = SYS_pipe then sysPipe w u
    else if num = SYS_read then sysRead w u
    else if num = SYS_fstat then sysFstat w u
    else if num = SYS_thread_create then sysThreadCreate w u
    else if num = SYS_thread_join then sysThreadJoin w u
    else (w.rest num, [])
  else (-1, [])

end Calls

end Xv6
