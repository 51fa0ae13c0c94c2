import Xv6.Proc.Table
import Xv6.Vm.Table

/-!
# `sbrk` by the threads of one process

`sys_sbrk` and `growproc`, cut where a sibling can run in between: `sys_sbrk` reads `sz` for its
result, `growproc` reads it again, `allocuvm` maps one page after the other, and `growproc` stores
the new size. Nothing is locked on the way.
-/

namespace Xv6

open Xv6.Lib

/-- How far a thread has come in `sbrk(n)`. `addr` is what the call will return. -/
inductive SbrkOp
  | idle
  /-- `sys_sbrk` behind `argint`. -/
  | entered (n : Word)
  /-- `growproc(n)` before its read of `sz`. -/
  | grow (addr n : Word)
  /-- `allocuvm(pgdir, oldsz, newsz)` at page `i`. -/
  | map (addr n oldsz newsz : Word) (i : Nat)
  /-- `deallocuvm(pgdir, oldsz, newsz)`. -/
  | unmap (addr n oldsz newsz : Word)
  /-- `growproc` before it stores `sz`. -/
  | store (addr n sz : Word)
  deriving DecidableEq

/-- The memory of a process, and its threads. -/
structure Brk where
  ram : Ram
  dir : PageDir
  sz : Word
  op : ThdPtr → SbrkOp
  panic : Bool := false

inductive BrkAct
  | call (t : ThdPtr) (n : Word)
  | step (t : ThdPtr)

namespace Brk

def setOp (s : Brk) (t : ThdPtr) (op : SbrkOp) : Brk := { s with op := Function.update s.op t op }

/-- `growproc` has read `sz`. `allocuvm` refuses a size that reaches the kernel. -/
def grown (sz addr n : Word) : SbrkOp :=
  if 0 < n.toInt then
    if KERNBASE ≤ (sz + n).toNat then .idle
    else if sz + n < sz then .store addr n sz
    else .map addr n sz (sz + n) (pageUp sz.toNat)
  else if n.toInt < 0 then .unmap addr n sz (sz + n)
  else .store addr n sz

/-- Thread `t` goes on at `op` with the memory that a function of `vm.c` leaves, if it leaves one. -/
def withMem (s : Brk) (t : ThdPtr) (op : SbrkOp) : Option (Ram × PageDir) → Brk
  | none => { s with panic := true }
  | some (ram, dir) => { s with ram, dir }.setOp t op

variable (K : Symbols)

/-- The next step of thread `t`. -/
def next (s : Brk) (t : ThdPtr) : SbrkOp → Option Brk
  | .idle => none
  | .entered n => some (s.setOp t (.grow s.sz n))
  | .grow addr n => some (s.setOp t (grown s.sz addr n))
  | .map addr n oldsz newsz i =>
    if i * PGSIZE < newsz.toNat then
      match PageDir.mapFresh (PTE_W ||| PTE_U) Bytes.zero s.ram s.dir i with
      | none => some (s.withMem t .idle none)
      | some (.mapped ram dir) => some (s.withMem t (.map addr n oldsz newsz (i + 1)) (some (ram, dir)))
      | some .noPage =>
        some (s.withMem t .idle ((PageDir.deallocuvm K s.ram s.dir newsz oldsz).map Prod.snd))
      | some (.noTable mem ram dir) =>
        some (s.withMem t .idle ((PageDir.deallocuvm K ram dir newsz oldsz).bind fun (_, ram, dir) =>
          (ram.kfreePage K mem).map fun ram => (ram, dir)))
    else some (s.setOp t (.store addr n newsz))
  | .unmap addr n oldsz newsz =>
    let r := PageDir.deallocuvm K s.ram s.dir oldsz newsz
    let sz := (r.map Prod.fst).getD 0
    some (s.withMem t (if sz = 0 then .idle else .store addr n sz) (r.map Prod.snd))
  | .store _ _ sz => some ({ s with sz }.setOp t .idle)

def step (s : Brk) (a : BrkAct) : Option Brk :=
  if s.panic then none else
  match a with
  | .call t n => if s.op t = .idle then some (s.setOp t (.entered n)) else none
  | .step t => s.next K t (s.op t)

end Brk

/-- What the calls have returned: the address and the length asked for. -/
def logBrk (s : Brk) (a : BrkAct) (_ : Brk) (l : List (Word × Word)) : List (Word × Word) :=
  match a with
  | .step t =>
    match s.op t with
    | .store addr n _ => (addr, n) :: l
    | _ => l
  | .call _ _ => l

end Xv6
