import Mathlib.Algebra.Group.Nat.Defs
import Xv6.Lib.LTS
import Xv6.Lib.Spin

/-!
# Proc/Threads — processes, processors and their locks: `proc.c`

Every process has a kernel thread, and so has every processor, which runs `scheduler` on it.  A
processor executes one of these threads at a time, and `swtch` changes which.  A thread is a stack
of `Frame`s, the program points inside the functions of `proc.c`; an empty stack stands for any
other code of the process, which may use locks of its own, and call those functions.  An interrupt
handler may come on top of any frame while the processor holds no lock.

A step executes the code around one lock operation (`Frame.move`).  Memory that only other modules
use is left out: whether page tables, files and user memory can be had is a parameter of the step.
-/

namespace Xv6.Sched

open Function

/-! ## Memory -/

def NPROC : Nat := 64

/-- `enum procstate`. -/
inductive PState
  | unused | used | sleeping | runnable | running | zombie
  deriving DecidableEq, Repr

/-- What processes sleep on: the address of a process, or of anything else. -/
inductive Chan
  | null
  | proc (i : Nat)
  | obj (n : Nat)
  deriving DecidableEq

/-- The locks of `proc.c`, and the spinlocks of the rest of the kernel. -/
inductive Lk
  | proc (i : Nat)
  | wait
  | pid
  | obj (n : Nat)
  deriving DecidableEq

/-- `struct proc`.  Nothing reads the last two: `sn` numbers the processes in the order in which
they are allocated, and `asleep` is the channel and the lock of the `sleep` the process is in, from
the release of the lock until it is woken. -/
structure Proc where
  state : PState := .unused
  chan : Chan := .null
  killed : Bool := false
  xstate : Int := 0
  pid : Int := 0
  parent : Option Nat := none
  sn : Nat := 0
  asleep : Option (Chan × Lk) := none

/-- Threads: those of processes and those of processors. -/
inductive Tid
  | proc (p : Nat)
  | cpu (c : Nat)
  deriving DecidableEq

/-- A child that was reaped: by which process, and with which status. -/
structure Reap where
  sn : Nat
  pid : Int
  status : Int
  parent : Nat
  deriving DecidableEq

/-- Shared memory.  `proc` is `c->proc`, and `cur` the thread whose kernel stack a processor
executes on. Nothing reads the last four: how many processes have been allocated, which forks have
succeeded, which children have been reaped, and with what status each process called `exit`. -/
structure Mem where
  procs : Nat → Proc
  proc : Nat → Option Nat
  cur : Nat → Tid
  initproc : Nat
  nextpid : Int
  count : Nat
  forks : List (Nat × Int)
  reaps : List Reap
  exits : Nat → Option Int

namespace Mem

/-- Store to a process. -/
def upd (m : Mem) (p : Nat) (f : Proc → Proc) : Mem :=
  { m with procs := update m.procs p (f (m.procs p)) }

/-- Store to `p->state`. -/
def setState (m : Mem) (p : Nat) (x : PState) : Mem := m.upd p fun P => { P with state := x }

/-- Store to `c->proc`. -/
def setCpu (m : Mem) (c : Nat) (x : Option Nat) : Mem := { m with proc := update m.proc c x }

/-- `swtch`. -/
def swtch (m : Mem) (c : Nat) (x : Tid) : Mem := { m with cur := update m.cur c x }

/-- `freeproc`, but for memory. -/
def freeproc (m : Mem) (p : Nat) : Mem := m.upd p fun _ => {}

end Mem

/-- The body of the loop of `wakeup`. -/
def Proc.wake (ch : Chan) (P : Proc) : Proc :=
  if P.state = .sleeping ∧ P.chan = ch then { P with state := .runnable, asleep := none } else P

/-- What `kill` does to the process it finds. -/
def Proc.kill (P : Proc) : Proc :=
  if P.state = .sleeping then { P with killed := true, state := .runnable, asleep := none }
  else { P with killed := true }

/-- `int` arithmetic. -/
def wrap32 (n : Int) : Int := n.bmod (2 ^ 32)

/-! ## Program points -/

/-- Who called `sleep`: code outside `proc.c` that holds a lock of its own, or `wait`. -/
inductive Sleeper
  | code (n : Nat)
  | wait (p : Nat) (addr : Bool)
  deriving DecidableEq

/-- The lock it passed. -/
def Sleeper.lk : Sleeper → Lk
  | .code n => .obj n
  | .wait .. => .wait

/-- Program points, with the local variables that are live there.  `p` is what `myproc` returned to
the function; `addr` says whether `wait` was given an address. -/
inductive Frame
  | scheduler (i : Nat)
  | schedulerHeld (i : Nat)
  | schedulerSwtch (i : Nat)
  | schedulerBack (i : Nat)
  | sched (p : Nat)
  | yield (p : Nat)
  | yieldEnd (p : Nat)
  | forkret (p : Nat)
  | sleep (p : Nat) (ch : Chan) (k : Sleeper)
  | sleepRel (p : Nat) (ch : Chan) (k : Sleeper)
  | sleepSet (p : Nat) (ch : Chan) (k : Sleeper)
  | sleepEnd (p : Nat) (ch : Chan) (k : Sleeper)
  | relock (p : Nat) (k : Sleeper)
  | wakeup (ch : Chan) (i : Nat)
  | wakeupHeld (ch : Chan) (i : Nat)
  | kill (pid : Int) (i : Nat)
  | killHeld (pid : Int) (i : Nat) (found : Bool)
  | setkilled (i : Nat)
  | setkilledHeld (i : Nat)
  | alloc (p i : Nat)
  | allocNext (p i : Nat)
  | allocFound (p i : Nat)
  | allocPid (p i : Nat) (pid : Int) (sn : Nat)
  | allocFail (i : Nat)
  | forkRel (p np : Nat)
  | forkParent (p np : Nat)
  | forkParentHeld (p np : Nat)
  | forkRun (p np : Nat)
  | forkRunHeld (np : Nat)
  | exit (p : Nat) (status : Int)
  | reparent (p : Nat) (status : Int) (i : Nat)
  | exitZombie (p : Nat) (status : Int)
  | exitRel (p : Nat)
  | exitEnd (p : Nat)
  | wait (p : Nat) (addr : Bool)
  | waitScan (p : Nat) (addr : Bool) (i : Nat) (havekids : Bool)
  | waitNext (p : Nat) (addr : Bool) (i : Nat)
  | waitFound (p : Nat) (addr : Bool) (i : Nat)
  | waitRelease (i : Nat)
  | waitRet
  | waitKilled (p : Nat) (addr : Bool)
  | waitKilledHeld (p : Nat) (addr killed : Bool)
  | intr
  deriving DecidableEq

/-- Memory, locks and threads. -/
structure Sys where
  mem : Mem
  spin : Spin Lk
  stack : Tid → List Frame

/-- What happens at a program point: a lock operation, the memory after it, and the program points
that take its place.  `spawn` is a process whose context is set up to start at `forkret`. -/
structure Move where
  op : Spin.Op Lk := .skip
  mem : Mem
  frames : List Frame
  spawn : Option Nat := none

/-- The address of a parent. -/
def Chan.ofParent : Option Nat → Chan
  | none => .null
  | some q => .proc q

/-- **The code of `proc.c`**, point by point, on processor `c`.  `ok` says how allocations and
copies to user memory end; no move is a `panic`. -/
def Frame.move (s : Sys) (c : Nat) (ok : Bool) : Frame → Option Move
  -- scheduler()
  | .scheduler i =>
    if i < NPROC then
      if (s.mem.procs i).state = .runnable then some
        { op := .acquire (.proc i), mem := (s.mem.setState i .running).setCpu c (some i)
          frames := [.schedulerSwtch i] }
      else some { op := .acquire (.proc i), mem := s.mem, frames := [.schedulerHeld i] }
    else some { mem := s.mem, frames := [.scheduler 0] }
  | .schedulerHeld i =>
    some { op := .release (.proc i), mem := s.mem, frames := [.scheduler (i + 1)] }
  | .schedulerSwtch i => some { mem := s.mem.swtch c (.proc i), frames := [.schedulerBack i] }
  | .schedulerBack i =>
    some { op := .release (.proc i), mem := s.mem.setCpu c none, frames := [.scheduler (i + 1)] }
  -- sched()
  | .sched p =>
    if s.spin.holder (.proc p) = some c ∧ s.spin.noff c = 1 ∧ (s.mem.procs p).state ≠ .running then
      some { mem := s.mem.swtch c (.cpu c), frames := [] }
    else none
  -- yield()
  | .yield p => some
    { op := .acquire (.proc p), mem := s.mem.setState p .runnable
      frames := [.sched p, .yieldEnd p] }
  | .yieldEnd p => some { op := .release (.proc p), mem := s.mem, frames := [] }
  -- forkret()
  | .forkret _ =>
    (s.mem.proc c).map fun p => { op := .release (.proc p), mem := s.mem, frames := [] }
  -- sleep()
  | .sleep p ch k => some { op := .acquire (.proc p), mem := s.mem, frames := [.sleepRel p ch k] }
  | .sleepRel p ch k => some
    { op := .release k.lk, mem := s.mem.upd p fun P => { P with asleep := some (ch, k.lk) }
      frames := [.sleepSet p ch k] }
  | .sleepSet p ch k => some
    { mem := s.mem.upd p fun P => { P with chan := ch, state := .sleeping }
      frames := [.sched p, .sleepEnd p ch k] }
  | .sleepEnd p _ k => some
    { op := .release (.proc p), mem := s.mem.upd p fun P => { P with chan := .null }
      frames := [.relock p k] }
  | .relock _ k => some
    { op := .acquire k.lk, mem := s.mem
      frames := match k with
        | .code _ => []
        | .wait p addr => [.waitScan p addr 0 false] }
  -- wakeup()
  | .wakeup ch i =>
    if i < NPROC then
      if s.mem.proc c = some i then some { mem := s.mem, frames := [.wakeup ch (i + 1)] }
      else some
        { op := .acquire (.proc i), mem := s.mem.upd i (Proc.wake ch)
          frames := [.wakeupHeld ch i] }
    else some { mem := s.mem, frames := [] }
  | .wakeupHeld ch i =>
    some { op := .release (.proc i), mem := s.mem, frames := [.wakeup ch (i + 1)] }
  -- kill()
  | .kill pid i =>
    if i < NPROC then
      if (s.mem.procs i).pid = pid then some
        { op := .acquire (.proc i), mem := s.mem.upd i Proc.kill, frames := [.killHeld pid i true] }
      else some { op := .acquire (.proc i), mem := s.mem, frames := [.killHeld pid i false] }
    else some { mem := s.mem, frames := [] }
  | .killHeld pid i found => some
    { op := .release (.proc i), mem := s.mem, frames := if found then [] else [.kill pid (i + 1)] }
  -- setkilled()
  | .setkilled i => some
    { op := .acquire (.proc i), mem := s.mem.upd i fun P => { P with killed := true }
      frames := [.setkilledHeld i] }
  | .setkilledHeld i => some { op := .release (.proc i), mem := s.mem, frames := [] }
  -- allocproc() and allocpid()
  | .alloc p i =>
    if i < NPROC then some
      { op := .acquire (.proc i), mem := s.mem
        frames := if (s.mem.procs i).state = .unused then [.allocFound p i] else [.allocNext p i] }
    else some { mem := s.mem, frames := [] }
  | .allocNext p i => some { op := .release (.proc i), mem := s.mem, frames := [.alloc p (i + 1)] }
  | .allocFound p i => some
    { op := .acquire .pid
      mem := { s.mem with nextpid := wrap32 (s.mem.nextpid + 1), count := s.mem.count + 1 }
      frames := [.allocPid p i s.mem.nextpid s.mem.count] }
  | .allocPid p i pid sn =>
    let m := s.mem.upd i fun P => { P with pid := pid, state := .used, sn := sn }
    if ok then some { op := .release .pid, mem := m, frames := [.forkRel p i], spawn := some i }
    else some { op := .release .pid, mem := m.freeproc i, frames := [.allocFail i] }
  | .allocFail i => some { op := .release (.proc i), mem := s.mem, frames := [] }
  -- fork(), once there is a new process
  | .forkRel p np => some { op := .release (.proc np), mem := s.mem, frames := [.forkParent p np] }
  | .forkParent p np => some
    { op := .acquire .wait, mem := s.mem.upd np fun P => { P with parent := some p }
      frames := [.forkParentHeld p np] }
  | .forkParentHeld p np => some { op := .release .wait, mem := s.mem, frames := [.forkRun p np] }
  | .forkRun _ np =>
    let P := s.mem.procs np
    some
      { op := .acquire (.proc np)
        mem := { s.mem.setState np .runnable with forks := (P.sn, P.pid) :: s.mem.forks }
        frames := [.forkRunHeld np] }
  | .forkRunHeld np => some { op := .release (.proc np), mem := s.mem, frames := [] }
  -- exit(), once files are closed, and reparent()
  | .exit p status => some { op := .acquire .wait, mem := s.mem, frames := [.reparent p status 0] }
  | .reparent p status i =>
    if i < NPROC then
      if (s.mem.procs i).parent = some p then some
        { mem := s.mem.upd i fun P => { P with parent := some s.mem.initproc }
          frames := [.wakeup (.proc s.mem.initproc) 0, .reparent p status (i + 1)] }
      else some { mem := s.mem, frames := [.reparent p status (i + 1)] }
    else some
      { mem := s.mem
        frames := [.wakeup (.ofParent (s.mem.procs p).parent) 0, .exitZombie p status] }
  | .exitZombie p status => some
    { op := .acquire (.proc p)
      mem := s.mem.upd p fun P => { P with xstate := status, state := .zombie }
      frames := [.exitRel p] }
  | .exitRel p => some { op := .release .wait, mem := s.mem, frames := [.sched p, .exitEnd p] }
  | .exitEnd _ => none
  -- wait()
  | .wait p addr =>
    some { op := .acquire .wait, mem := s.mem, frames := [.waitScan p addr 0 false] }
  | .waitScan p addr i havekids =>
    if i < NPROC then
      if (s.mem.procs i).parent = some p then some
        { op := .acquire (.proc i), mem := s.mem
          frames := if (s.mem.procs i).state = .zombie then [.waitFound p addr i]
            else [.waitNext p addr i] }
      else some { mem := s.mem, frames := [.waitScan p addr (i + 1) havekids] }
    else some { mem := s.mem, frames := if havekids then [.waitKilled p addr] else [.waitRet] }
  | .waitNext p addr i =>
    some { op := .release (.proc i), mem := s.mem, frames := [.waitScan p addr (i + 1) true] }
  | .waitFound p addr i =>
    let P := s.mem.procs i
    if addr = true ∧ ok = false then some { mem := s.mem, frames := [.waitRelease i] }
    else some
      { mem := { s.mem.freeproc i with
          reaps := ⟨P.sn, P.pid, P.xstate, (s.mem.procs p).sn⟩ :: s.mem.reaps }
        frames := [.waitRelease i] }
  | .waitRelease i => some { op := .release (.proc i), mem := s.mem, frames := [.waitRet] }
  | .waitRet => some { op := .release .wait, mem := s.mem, frames := [] }
  | .waitKilled p addr => some
    { op := .acquire (.proc p), mem := s.mem
      frames := [.waitKilledHeld p addr (s.mem.procs p).killed] }
  | .waitKilledHeld p addr killed => (s.mem.proc c).map fun q =>
    { op := .release (.proc p), mem := s.mem
      frames := if killed then [.waitRet] else [.sleep q (.proc p) (.wait p addr)] }
  | .intr => none

/-- What code outside `proc.c` does. -/
inductive Call
  | acquire (n : Nat)
  | release (n : Nat)
  | sleep (ch : Chan) (n : Nat)
  | wakeup (ch : Chan)
  | yield
  | kill (pid : Int)
  | setkilled (i : Nat)
  | fork
  | exit (status : Int)
  | wait (addr : Bool)
  deriving DecidableEq

/-- A handler calls only these. -/
def Call.handler : Call → Bool
  | .acquire _ | .release _ | .wakeup _ | .yield => true
  | _ => false

/-- How it does that. -/
def Call.move (s : Sys) (c : Nat) : Call → Option Move
  | .acquire n => some { op := .acquire (.obj n), mem := s.mem, frames := [] }
  | .release n => some { op := .release (.obj n), mem := s.mem, frames := [] }
  | .sleep ch n => (s.mem.proc c).map fun p => { mem := s.mem, frames := [.sleep p ch (.code n)] }
  | .wakeup ch => some { mem := s.mem, frames := [.wakeup ch 0] }
  | .yield => (s.mem.proc c).map fun p => { mem := s.mem, frames := [.yield p] }
  | .kill pid => some { mem := s.mem, frames := [.kill pid 0] }
  | .setkilled i => some { mem := s.mem, frames := [.setkilled i] }
  | .fork => (s.mem.proc c).map fun p => { mem := s.mem, frames := [.alloc p 0] }
  | .exit status => (s.mem.proc c).bind fun p =>
    if p = s.mem.initproc then none
    else some
      { mem := { s.mem with
          exits := update s.mem.exits (s.mem.procs p).sn (some status) }
        frames := [.exit p status] }
  | .wait addr => (s.mem.proc c).map fun p => { mem := s.mem, frames := [.wait p addr] }

/-! ## The system -/

/-- A new thread starts at `forkret`. -/
def Move.spawned (mv : Move) (stack : Tid → List Frame) : Tid → List Frame :=
  match mv.spawn with
  | none => stack
  | some np => update stack (.proc np) [.forkret np]

/-- Make a move: thread `x` goes on with other program points on top of `rest`. -/
def Sys.apply (s : Sys) (c : Nat) (x : Tid) (rest : List Frame) (mv : Move) : Option Sys :=
  (s.spin.step c mv.op).map fun k =>
    ⟨mv.mem, k, mv.spawned (update s.stack x (mv.frames ++ rest))⟩

/-- What can happen next on a processor. -/
inductive Label
  | run (c : Nat) (ok : Bool)
  | call (c : Nat) (f : Call)
  | interrupt (c : Nat)
  | iret (c : Nat)
  deriving DecidableEq

/-- …and how. -/
def exec (s : Sys) : Label → Option Sys
  | .run c ok =>
    match s.stack (s.mem.cur c) with
    | [] => none
    | f :: rest => (f.move s c ok).bind (s.apply c (s.mem.cur c) rest)
  | .call c f =>
    match s.stack (s.mem.cur c) with
    | [] => (f.move s c).bind (s.apply c (s.mem.cur c) [])
    | .intr :: rest =>
      if f.handler then (f.move s c).bind (s.apply c (s.mem.cur c) (.intr :: rest)) else none
    | _ => none
  | .interrupt c =>
    if s.spin.noff c = 0 then
      s.apply c (s.mem.cur c) (s.stack (s.mem.cur c)) { mem := s.mem, frames := [.intr] }
    else none
  | .iret c =>
    match s.stack (s.mem.cur c) with
    | .intr :: rest =>
      if s.spin.noff c = 0 then s.apply c (s.mem.cur c) rest { mem := s.mem, frames := [] }
      else none
    | _ => none

/-- Memory once `userinit` has returned: the first process is ready to run. -/
def initMem : Mem where
  procs p := if p = 0 then { state := .runnable, pid := 1, sn := 1 } else {}
  proc _ := none
  cur c := .cpu c
  initproc := 0
  nextpid := 2
  count := 2
  forks := []
  reaps := []
  exits _ := none

/-- The system as the processors enter `scheduler`. -/
def initSys : Sys where
  mem := initMem
  spin := .free
  stack
    | .proc p => if p = 0 then [.forkret 0] else []
    | .cpu _ => [.scheduler 0]

/-- **The scheduler and everything that runs under it**, on any number of processors. -/
def system : LTS Sys Label where
  init s := s = initSys
  step s a s' := exec s a = some s'

end Xv6.Sched
