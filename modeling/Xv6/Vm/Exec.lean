import Xv6.Vm.Table

/-!
# The stack that exec builds

`exec` copies the argument strings and then the array of pointers to them below the end of the new
memory. `sp` goes down by the length of each string, in the arithmetic of `uint`. A string is its
bytes without the final zero; no result is a read of an entry that has no page table.
-/

namespace Xv6

open Xv6.Lib

/-- The bytes of a word in memory. -/
def Word.bytes (w : Word) : List Byte :=
  (List.range 4).map fun j => .ofNat 8 (w.toNat / 256 ^ j)

namespace PageDir

/-- `(sp - (strlen(s) + 1)) & ~3`. -/
def argSp (sp : Word) (s : List Byte) : Word := (sp - .ofNat 32 (s.length + 1)) &&& ~~~3#32

/-- The loop of `exec` over `argv`, which gives `sp` and the addresses of the strings. It goes to `bad`
at argument number `MAXARG`, or when `copyout` fails. -/
def pushArgs (d : PageDir) : List (List Byte) → Nat → Ram → Word →
    Option (Option (Ram × Word × List Word))
  | [], _, r, sp => some (some (r, sp, []))
  | s :: argv, argc, r, sp =>
    if MAXARG ≤ argc then some none
    else
      match copyout r d (argSp sp s) (s ++ [0]) with
      | none => none
      | some (false, _) => some none
      | some (true, r) => (pushArgs d argv (argc + 1) r (argSp sp s)).map fun o =>
          o.map fun (r, sp', ustack) => (r, sp', argSp sp s :: ustack)

/-- The stack below `sz`, and its `sp`. -/
def execStack (d : PageDir) (r : Ram) (sz : Word) (argv : List (List Byte)) :
    Option (Option (Ram × Word)) :=
  match pushArgs d argv 0 r sz with
  | none => none
  | some none => some none
  | some (some (r, sp, args)) =>
    let argc := argv.length
    let ustack := [0xffffffff, .ofNat 32 argc, sp - .ofNat 32 ((argc + 1) * 4)] ++ args ++ [0]
    let sp := sp - .ofNat 32 ((3 + argc + 1) * 4)
    match copyout r d sp (ustack.flatMap Word.bytes) with
    | none => none
    | some (false, _) => some none
    | some (true, r) => some (some (r, sp))

end PageDir

end Xv6
