import Mathlib.Algebra.Group.Nat.Defs
import Xv6.Lib.Bytes
import Xv6.Lib.Monitor
import Xv6.Lib.Ring

/-!
# Dev/Console — console input

`consoleintr` puts the characters typed into a ring, where they can be edited until the line is
complete; `consoleread` takes complete lines out.  A step is one turn of a loop under `cons.lock`,
or one `killed` check.

What has been typed and read is recorded on the side (`Hist`).
-/

namespace Xv6.Console

/-- The size of the buffer. -/
def INPUT_BUF_SIZE : Nat := 128

/-- `x - y` for `uint`s. -/
def sub (x y : Nat) : Nat := (UINT - y + x) % UINT

/-- What `consputc` is given for an erased character. -/
def BACKSPACE : Nat := 0x100

/-- `C(x)`: control-x. -/
def C (x : Char) : UInt8 := x.toUInt8 - '@'.toUInt8

/-- `'\n'`. -/
def newline : UInt8 := '\n'.toUInt8

/-- Readers sleep on `&cons.r`. -/
inductive Chan
  | r
  deriving DecidableEq

/-- `read` and `killed` are the loops of `consoleread`, for the `id`-th read, of which `n` of
`target` bytes are still missing; `intr` is the `switch` of `consoleintr`. -/
inductive Point
  | read (id : Nat) (target n : Int)
  | killed (id : Nat) (target n : Int)
  | intr (c : UInt8)
  deriving DecidableEq

/-- The functions, with their arguments. -/
inductive Func
  | consoleread (n : Int)
  | consoleintr (c : UInt8)

/-- How a read has ended: what it was asked for, what it returns, and how many bytes had been taken
by all readers together by then. -/
structure Result where
  id : Nat
  target : Int
  ret : Int
  upto : Nat

/-- What has happened so far: how many reads have begun, the bytes of complete lines, those that
readers have taken with the number of the read, those that have been copied out, and how reads have
ended. -/
structure Hist where
  begun : Nat
  committed : List UInt8
  consumed : List (Nat × UInt8)
  delivered : List UInt8
  results : List Result

/-- `cons`, what `consputc` has been given, and the history. -/
structure State where
  buf : Nat → UInt8
  r : Nat
  w : Nat
  e : Nat
  echo : List Nat
  hist : Hist

/-- `cons` is in the BSS. -/
def consoleinit : State where
  buf _ := 0
  r := 0
  w := 0
  e := 0
  echo := []
  hist := ⟨0, [], [], [], []⟩

namespace State

/-- The bytes from index `lo` up to `hi`. -/
def slots (x : State) (lo hi : Nat) : List UInt8 :=
  (List.range (sub hi lo)).map fun k => x.buf ((lo + k) % UINT % INPUT_BUF_SIZE)

/-- What has been committed and not been read yet. -/
def pending (x : State) : List UInt8 := x.slots x.r x.w

/-- What can still be edited. -/
def edited (x : State) : List UInt8 := x.slots x.w x.e

/-- `cons.e--; consputc(BACKSPACE)`. -/
def erase (x : State) : State := { x with e := sub x.e 1, echo := x.echo ++ [BACKSPACE] }

/-- The loop for control-U.  The first argument is how far `e` is ahead of `w`, so that it is 0 when
`e` is `w`. -/
def killLine : Nat → State → State
  | 0, x => x
  | d + 1, x =>
    if x.buf (sub x.e 1 % INPUT_BUF_SIZE) = newline then x else killLine d x.erase

/-- `consputc(c); cons.buf[cons.e++ % INPUT_BUF_SIZE] = c`. -/
def store (x : State) (c : UInt8) : State :=
  { x with
    buf := Function.update x.buf (x.e % INPUT_BUF_SIZE) c
    e := (x.e + 1) % UINT
    echo := x.echo ++ [c.toNat] }

/-- `cons.w = cons.e`. -/
def commit (x : State) : State :=
  { x with w := x.e, hist := { x.hist with committed := x.hist.committed ++ x.edited } }

/-- `c = cons.buf[cons.r++ % INPUT_BUF_SIZE]`, by read `id`. -/
def take (x : State) (id : Nat) : State :=
  { x with
    r := (x.r + 1) % UINT
    hist := { x.hist with consumed := x.hist.consumed ++ [(id, x.buf (x.r % INPUT_BUF_SIZE))] } }

/-- `either_copyout` of a byte. -/
def copyout (x : State) (c : UInt8) : State :=
  { x with hist := { x.hist with delivered := x.hist.delivered ++ [c] } }

/-- A read leaves its loop. -/
def finish (x : State) (id : Nat) (target n : Int) : State × Code Point Chan :=
  ({ x with
    hist := { x.hist with
      results := x.hist.results ++ [⟨id, target, target - n, x.hist.consumed.length⟩] } },
    .release (target - n))

/-- A read begins, and gets a number. -/
def begin (x : State) : State := { x with hist := { x.hist with begun := x.hist.begun + 1 } }

end State

/-- The carriage return key ends a line. -/
def unifyNewline (c : UInt8) : UInt8 := if c = '\r'.toUInt8 then newline else c

/-- The `switch` of `consoleintr`, and what is left to do after it. -/
def consoleintr (x : State) (c : UInt8) : State × Code Point Chan :=
  if c = C 'P' then (x, .release 0)
  else if c = C 'U' then (x.killLine (sub x.e x.w), .release 0)
  else if c = C 'H' ∨ c = 0x7f then (if x.e = x.w then x else x.erase, .release 0)
  else if c ≠ 0 ∧ sub x.e x.r < INPUT_BUF_SIZE then
    let c := unifyNewline c
    let x := x.store c
    if c = newline ∨ c = C 'D' ∨ sub x.e x.r = INPUT_BUF_SIZE then
      (x.commit, .wakeup .r 0 (.release 0))
    else (x, .release 0)
  else (x, .release 0)

/-- One turn of the loop of `consoleread`; `ok` says whether the copy to the user succeeds. -/
def consoleread (x : State) (ok : Bool) (id : Nat) (target n : Int) : State × Code Point Chan :=
  if 0 < n then
    if x.r = x.w then (x, .body (.killed id target n))
    else
      let c := x.buf (x.r % INPUT_BUF_SIZE)
      if c = C 'D' then
        -- a ^D behind other bytes stays for the next read
        if n < target then x.finish id target n else (x.take id).finish id target n
      else if ok then
        let x := (x.take id).copyout c
        if c = newline then x.finish id target (n - 1) else (x, .body (.read id target (n - 1)))
      else (x.take id).finish id target n
  else x.finish id target n

/-- **The code of `console.c`**, point by point. -/
def body (x : State) (killed ok : Bool) : Point → State × Code Point Chan
  | .read id target n => consoleread x ok id target n
  | .killed id target n => (x, if killed then .release (-1) else .sleep .r (.read id target n))
  | .intr c => consoleintr x c

/-- The console behind `cons.lock`. -/
def monitor : Monitor State Bool Point Chan Func where
  body := body
  start x
    | .consoleread n => (x.begin, .read x.hist.begun n n)
    | .consoleintr c => (x, .intr c)
  handler
    | .consoleread _ => false
    | .consoleintr _ => true

abbrev Sys := Monitor.Sys State Point Chan

abbrev Label := Monitor.Label Bool Func

/-- The console of a system with `N` processes. -/
def system (N : Nat) : LTS Sys Label := monitor.system N (· = consoleinit)

end Xv6.Console
