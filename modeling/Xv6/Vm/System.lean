import Xv6.Proc.Step
import Xv6.Vm.Exec

/-!
# fork and thread_create, with the memory they take

The stretches of the two calls, as the process model has them, over physical memory: `copyuvm`,
`kalloc`, `ualloc` and `copyout` decide here what that model leaves open. A thread of process `p`
runs on the page table of `p`. Null page tables and stacks are written as in `struct proc` and
`struct thread`; the contents of kernel stacks are left out.
-/

namespace Xv6

open Function Xv6.Lib

/-- The process table, and `pgdir`, `sz`, `fslist` and `usp` of its processes and threads. -/
structure System where
  kernel : Kernel
  ram : Ram
  dir : ProcPtr → Option PageDir := fun _ => none
  sz : ProcPtr → Word := fun _ => 0
  fslist : ProcPtr → Word := fun _ => 0
  usp : ThdPtr → Word := fun _ => 0

namespace System

/-- The memory of process `p`, whose directory is `d`. -/
def mem (s : System) (p : ProcPtr) (d : PageDir) : UserMem where
  ram := s.ram
  dir := d
  sz := s.sz p
  fslist := s.fslist p

def setMem (s : System) (p : ProcPtr) (m : UserMem) : System :=
  { s with ram := m.ram
           dir := update s.dir p (some m.dir)
           sz := update s.sz p m.sz
           fslist := update s.fslist p m.fslist }

/-- The stretch of the process model that thread `t` is at. -/
def goOn (s : System) (c : CpuId) (p : ProcPtr) (t : ThdPtr) (ok : Bool) (page : Option Nat) :
    Option System := (s.kernel.kstep c p t ok page).map fun kernel => { s with kernel }

/-- `kfree(nth->kstack)`. -/
def kfreeStack (K : Symbols) (s : System) (n : ThdPtr) : Option System :=
  (s.kernel.thread n).kstack.bind fun f => (s.ram.kfreePage K f).map fun ram => { s with ram }

/-- `for(l = curproc->fslist; l != 0; l = l->next) ufree(np, l->usp)`, for the memory `m` of `np`. -/
def copyList (cur : Pgdir) : Nat → Word → UserMem → Option UserMem
  | 0, _, _ => none
  | n + 1, l, m =>
    if l = 0 then some m
    else
      (m.ram.kread cur l).bind fun usp => (m.ufree cur usp).bind fun m =>
        (m.ram.kread cur (l + 4)).bind fun next => copyList cur n next m

/-- `ufree(np, t->usp)` for every other slot of the process. -/
def copyThds (s : System) (p : ProcPtr) (t : ThdPtr) (cur : Pgdir) (m : UserMem) : Option UserMem :=
  (List.finRange NTHREAD).foldlM
    (fun m u => if (s.kernel.thread u).mp = some p ∧ u ≠ t then m.ufree cur (s.usp u) else some m) m

/-- The next stretch of the `fork()` or `thread_create(thread, start_routine, arg)` that thread `t` is
in. Nothing on panic or fault, and while the lock is not free. -/
def step (K : Symbols) (thread arg : Word) (c : CpuId) (p : ProcPtr) (t : ThdPtr) (s : System) :
    Option System :=
  if s.kernel.panic.isSome then none
  else match s.kernel.pc t with
  | .fork | .allocthd _ | .allocOwner _ _ | .forkFile _ _ _ | .forkCwd _ _ | .forkRun _ _
  | .createRun _ => s.goOn c p t true none
  | .forkCopy np =>
    (s.dir p).bind fun d => (PageDir.copyuvm K s.ram d (s.sz p)).bind fun (ram, o) =>
      { s with ram, dir := update s.dir np o }.goOn c p t o.isSome none
  | .allocStack _ _ =>
    match s.ram.kalloc with
    | none => s.goOn c p t true none
    | some (f, ram) => { s with ram }.goOn c p t true (some f)
  | .forkInit np n =>
    (s.dir p).bind fun cur => (s.dir np).bind fun d =>
      (copyList cur.flat (NUPAGE + 1) (s.fslist p) { s.mem np d with sz := s.sz p }).bind fun m =>
        (s.copyThds p t cur.flat m).bind fun m =>
          { s.setMem np m with usp := update s.usp n (s.usp t) }.goOn c p t true none
  | .createStack n =>
    (s.dir p).bind fun d => ((s.mem p d).ualloc K).bind fun (sp, m) =>
      if sp = 0 then ((s.setMem p m).kfreeStack K n).bind fun s => s.goOn c p t false none
      else { s.setMem p m with usp := update s.usp n sp }.goOn c p t true none
  | .createArgs n =>
    (s.dir p).bind fun d =>
      (PageDir.copyout s.ram d (s.usp n - 8) (Word.bytes 0xffffffff ++ arg.bytes)).bind fun (ok, ram) =>
        if ok then
          (ram.kstore d.flat thread (s.kernel.thread n).tid).bind fun ram =>
            { s with ram }.goOn c p t true none
        else
          ({ s with ram }.kfreeStack K n).bind fun s =>
            ((s.mem p d).ufree d.flat (s.usp n)).bind fun m =>
              { s.setMem p m with usp := update s.usp n 0 }.goOn c p t false none
  | _ => none

/-- The states of one call, up to its return. -/
def Runs (K : Symbols) (thread arg : Word) (c : CpuId) (p : ProcPtr) (t : ThdPtr) : System → System → Prop :=
  Reaches (fun s (_ : Unit) => s.step K thread arg c p t) fun s _ => s.kernel.pc t ≠ .sysret

end System

end Xv6
