import Xv6.Lib.Bytes
import Xv6.Param

/-!
# The console's input

`consoleintr` and `consoleread` of `console.c`. Both run with `cons.lock` held, and `consoleread` gives
it up only where it sleeps. So a step is one character in `consoleintr`, or a stretch of a
`consoleread` up to its next sleep or its return. A character that `getc` delivers is a byte. The
echo on the screen, the process listing of `C('P')` and the test of `killed`, which leaves `input`
as it is, are not part of the model.
-/

namespace Xv6

open Xv6.Lib

def INPUT_BUF : Nat := 128

/-- The end of a line, and `C('D')`. -/
def NL : Byte := 10#8
def EOF : Byte := 4#8

/-- `input`. -/
structure Input where
  buf : Bytes INPUT_BUF := Bytes.zero
  r : Word := 0
  w : Word := 0
  e : Word := 0

namespace Input

/-- `input.buf[i % INPUT_BUF]`. -/
def char (x : Input) (i : Word) : Byte := x.buf.byte (i.toNat % INPUT_BUF)

/-- The loop of `C('U')`. It takes a character off the line in each turn, of `INPUT_BUF` at most. -/
def killLine : Nat → Input → Input
  | 0, x => x
  | n + 1, x =>
    if x.e ≠ x.w ∧ x.char (x.e - 1) ≠ NL then killLine n { x with e := x.e - 1 } else x

/-- `input.buf[input.e++ % INPUT_BUF] = c`, and the end of a line. -/
def put (x : Input) (c : Byte) : Input :=
  let y := { x with
    buf := fun k => if k.val = x.e.toNat % INPUT_BUF then c else x.buf k
    e := x.e + 1 }
  if c = NL ∨ c = EOF ∨ y.e = y.r + .ofNat 32 INPUT_BUF then { y with w := y.e } else y

/-- One turn of the loop of `consoleintr`. -/
def consoleintr (x : Input) (c : Byte) : Input :=
  if c = 0x10#8 then x
  else if c = 0x15#8 then killLine INPUT_BUF x
  else if c = 0x08#8 ∨ c = 0x7f#8 then if x.e ≠ x.w then { x with e := x.e - 1 } else x
  else if c ≠ 0 ∧ x.e - x.r < .ofNat 32 INPUT_BUF then x.put (if c = 0x0d#8 then NL else c)
  else x

/-- The loop of `consoleread(ip, dst, target)` with `n` bytes to go: what it stores in `dst`. -/
def consoleread (target : Nat) : Nat → Input → List Byte × Input
  | 0, x => ([], x)
  | n + 1, x =>
    if x.r = x.w then ([], x)
    else
      let c := x.char x.r
      let y := { x with r := x.r + 1 }
      if c = EOF then ([], if n + 1 < target then { y with r := y.r - 1 } else y)
      else if c = NL then ([c], y)
      else (consoleread target n y).map (c :: ·) id

end Input

/-- What happens to the console next. -/
inductive ConsAct where
  | key (c : Byte)
  | read (target n : Nat)
  deriving DecidableEq, Repr

/-- The console, with all that was stored in a `dst` so far. -/
def Input.step (x : Input × List Byte) : ConsAct → Input × List Byte
  | .key c => (x.1.consoleintr c, x.2)
  | .read target n =>
    let z := x.1.consoleread target n
    (z.2, x.2 ++ z.1)

end Xv6
