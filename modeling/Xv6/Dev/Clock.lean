import Xv6.Lib.Monitor

/-!
# Dev/Clock — the clock, and `sys_sleep`

`clockintr` counts ticks, and wakes whoever sleeps for them.  `sys_sleep` compares what has passed
since it took `tickslock` with what it was asked for, in `uint` arithmetic.
-/

namespace Xv6.Clock

/-- Sleepers wait on `&ticks`. -/
inductive Chan
  | ticks
  deriving DecidableEq

/-- The points of `sys_sleep`, with the number of ticks to sleep and `ticks0`, and the body of
`clockintr`. -/
inductive Point
  | start (n : Int)
  | loop (n : Int) (ticks0 : UInt32)
  | killed (n : Int) (ticks0 : UInt32)
  | tick

/-- The functions, with their arguments. -/
inductive Func
  | sysSleep (n : Int)
  | clockintr

/-- **The code of `sys_sleep` and `clockintr`**, point by point; the state is `ticks`. -/
def body (ticks : UInt32) (killed : Bool) : Point → UInt32 × Code Point Chan
  | .start n => (ticks, .body (.loop n ticks))
  | .loop n ticks0 =>
    (ticks, if ((ticks - ticks0).toNat : Int) < n then .body (.killed n ticks0) else .release 0)
  | .killed n ticks0 => (ticks, if killed then .release (-1) else .sleep .ticks (.loop n ticks0))
  | .tick => (ticks + 1, .wakeup .ticks 0 (.release 0))

/-- The clock behind `tickslock`. -/
def monitor : Monitor UInt32 Unit Point Chan Func where
  body ticks killed _ := body ticks killed
  start ticks
    | .sysSleep n => (ticks, .start (if n < 0 then 0 else n))
    | .clockintr => (ticks, .tick)
  handler
    | .sysSleep _ => false
    | .clockintr => true

abbrev Sys := Monitor.Sys UInt32 Point Chan

abbrev Label := Monitor.Label Unit Func

/-- The clock of a system with `N` processes. -/
def system (N : Nat) : LTS Sys Label := monitor.system N (· = 0)

end Xv6.Clock
