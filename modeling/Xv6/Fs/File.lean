import Mathlib.Logic.Function.Basic
import Xv6.Lib.LTS

/-!
# Fs/File — the file table and the calls that take and drop references

`open`, `dup`, `pipe`, `close`, `fork` and `exit`, by any number of processes.  A step is a section
under `ftable.lock` or `pi->lock`, or what a process does to its own descriptors and to files that
nobody else has yet.  What the rest of the kernel decides — whether a path is found, a page or a
slot of the process table is free, a copy to user memory succeeds — is an outcome of the step.

`allocs` and `frees` count how often a page has been taken for a pipe and freed by `pipeclose`; no
code reads them.
-/

namespace Xv6.Files

open Function

/-- Open files per process. -/
def NOFILE : Nat := 16

/-- Open files per system. -/
def NFILE : Nat := 100

/-- Device numbers. -/
def NDEV : Int := 10

def O_WRONLY : Nat := 1
def O_RDWR : Nat := 2

/-- The `type` of a `struct file`. -/
inductive FileType
  | FD_NONE
  | FD_PIPE
  | FD_INODE
  | FD_DEVICE
  deriving DecidableEq

/-- `struct file`. -/
structure File where
  type : FileType := .FD_NONE
  ref : Nat := 0
  readable : Bool := false
  writable : Bool := false
  pipe : Nat := 0
  ip : Nat := 0
  off : Nat := 0
  major : Int := 0
  deriving DecidableEq

/-- The ends of a `struct pipe` that are open. -/
structure Ends where
  readopen : Bool
  writeopen : Bool
  deriving DecidableEq

/-- What is left to do when `fileclose` returns. -/
inductive Cont
  | ret
  | close (f : Nat)
  | exitClear (fd : Nat)
  deriving DecidableEq

/-- The points of the calls, with the local variables that are live there. -/
inductive Point
  | idle
  | openLookup (omode : Nat)
  | openAlloc (omode ip : Nat) (dev : Option Int)
  | openFd (f omode ip : Nat) (dev : Option Int)
  | openSet (f omode ip : Nat) (dev : Option Int)
  | dup (fd : Nat)
  | dupInc (fd f : Nat)
  | pipe0
  | pipe1 (f0 : Nat)
  | pipe2 (f0 f1 : Nat)
  | pipeFd0 (rf wf : Nat)
  | pipeFd1 (rf wf fd0 : Nat)
  | pipeOut (rf wf fd0 fd1 : Nat)
  | close (fd : Nat)
  | fileclose (f : Nat) (k : Cont)
  | pipeclose (pi : Nat) (writable : Bool) (k : Cont)
  | kfree (pi : Nat) (k : Cont)
  | iput (k : Cont)
  | fork
  | forkCopy (np : Nat)
  | forkLoop (np i : Nat)
  | exitLoop (fd : Nat)
  | exitClear (fd : Nat)
  deriving DecidableEq

/-- Where `fileclose` returns to. -/
def Cont.resume : Cont → Point
  | .ret => .idle
  | .close f => .fileclose f .ret
  | .exitClear fd => .exitClear fd

/-- `enum procstate`, as far as it matters here. -/
inductive ProcState
  | unused
  | used
  | live
  | zombie
  deriving DecidableEq

structure Proc where
  state : ProcState := .unused
  ofile : Nat → Option Nat := fun _ => none
  pc : Point := .idle

inductive Panic
  | filedup
  | fileclose
  deriving DecidableEq

structure Sys where
  ftable : Nat → File
  pages : Nat → Option Ends
  procs : Nat → Proc
  panicked : Option Panic
  allocs : Nat → Nat
  frees : Nat → Nat

/-- The system calls, with their arguments. -/
inductive Syscall
  | open (omode : Nat)
  | dup (fd : Nat)
  | pipe
  | close (fd : Nat)
  | fork
  | exit

/-- What a step learns from the rest of the kernel. -/
inductive Outcome
  | fail
  | ok
  | found (ip : Nat) (dev : Option Int)
  | page (pi : Nat)
  | slot (np : Nat)

inductive Label
  | call (p : Nat) (c : Syscall)
  | run (p : Nat) (o : Outcome)
  | reap (p : Nat)

def Syscall.start : Syscall → Point
  | .open omode => .openLookup omode
  | .dup fd => .dup fd
  | .pipe => .pipe0
  | .close fd => .close fd
  | .fork => .fork
  | .exit => .exitLoop 0

/-! ## The functions -/

/-- The first entry with no references. -/
def filealloc (t : Nat → File) : Option Nat := (List.range NFILE).find? fun f => (t f).ref = 0

/-- The first free descriptor. -/
def fdalloc (ofile : Nat → Option Nat) : Option Nat :=
  (List.range NOFILE).find? fun fd => ofile fd = none

/-- The file of a descriptor. -/
def argfd (ofile : Nat → Option Nat) (fd : Nat) : Option Nat :=
  if fd < NOFILE then ofile fd else none

/-- What `sys_open` stores in the file. -/
def opened (F : File) (omode ip : Nat) (dev : Option Int) : File :=
  let F := match dev with
    | some major => { F with type := .FD_DEVICE, major := major }
    | none => { F with type := .FD_INODE, off := 0 }
  { F with
    ip := ip
    readable := omode &&& O_WRONLY == 0
    writable := omode &&& O_WRONLY != 0 || omode &&& O_RDWR != 0 }

/-- What `pipealloc` stores in the two files. -/
def pipeEnd (F : File) (pi : Nat) (writable : Bool) : File :=
  { F with type := .FD_PIPE, readable := !writable, writable := writable, pipe := pi }

/-- `pipeclose` under `pi->lock`. -/
def Ends.shut (e : Ends) (writable : Bool) : Ends :=
  if writable then { e with writeopen := false } else { e with readopen := false }

namespace Sys

variable (s : Sys) (p : Nat)

def goto (pc : Point) : Sys := { s with procs := update s.procs p { s.procs p with pc := pc } }

def setFile (f : Nat) (F : File) : Sys := { s with ftable := update s.ftable f F }

def setFd (fd : Nat) (o : Option Nat) : Sys :=
  { s with procs := update s.procs p { s.procs p with ofile := update (s.procs p).ofile fd o } }

def setState (st : ProcState) : Sys :=
  { s with procs := update s.procs p { s.procs p with state := st } }

/-- `filedup`. -/
def filedup (f : Nat) : Sys :=
  if (s.ftable f).ref < 1 then { s with panicked := some .filedup }
  else s.setFile f { s.ftable f with ref := (s.ftable f).ref + 1 }

/-- `fileclose` up to the release of `ftable.lock`, and where it goes on: with a copy of the
file. -/
def fileclose (f : Nat) (k : Cont) : Sys :=
  if (s.ftable f).ref < 1 then { s with panicked := some .fileclose }
  else if 1 < (s.ftable f).ref then
    (s.setFile f { s.ftable f with ref := (s.ftable f).ref - 1 }).goto p k.resume
  else
    (s.setFile f { s.ftable f with ref := 0, type := .FD_NONE }).goto p <|
      match (s.ftable f).type with
      | .FD_PIPE => .pipeclose (s.ftable f).pipe (s.ftable f).writable k
      | .FD_INODE | .FD_DEVICE => .iput k
      | .FD_NONE => k.resume

/-- `pipeclose` up to the release of `pi->lock`. -/
def pipeclose (pi : Nat) (writable : Bool) (k : Cont) : Option Sys :=
  (s.pages pi).map fun e =>
    { s with pages := update s.pages pi (some (e.shut writable)) }.goto p <|
      if e.shut writable = (⟨false, false⟩ : Ends) then .kfree pi k else k.resume

/-- `pipealloc` from `kalloc` on. -/
def pipealloc (f0 f1 pi : Nat) : Sys :=
  { (s.setFile f0 (pipeEnd (s.ftable f0) pi false)).setFile f1 (pipeEnd (s.ftable f1) pi true) with
    pages := update s.pages pi (some ⟨true, true⟩)
    allocs := update s.allocs pi (s.allocs pi + 1) }

end Sys

/-- **A step of a process in a call.** -/
def run (N : Nat) (s : Sys) (p : Nat) (o : Outcome) : Option Sys :=
  let P := s.procs p
  match P.pc with
  | .idle => none
  | .openLookup omode =>
    match o with
    | .fail => some (s.goto p .idle)
    | .found ip dev =>
      if dev.any fun major => major < 0 ∨ NDEV ≤ major then some (s.goto p .idle)
      else some (s.goto p (.openAlloc omode ip dev))
    | _ => none
  | .openAlloc omode ip dev =>
    match filealloc s.ftable with
    | none => some (s.goto p .idle)
    | some f => some ((s.setFile f { s.ftable f with ref := 1 }).goto p (.openFd f omode ip dev))
  | .openFd f omode ip dev =>
    match fdalloc P.ofile with
    | none => some (s.goto p (.fileclose f .ret))
    | some fd => some ((s.setFd p fd (some f)).goto p (.openSet f omode ip dev))
  | .openSet f omode ip dev => some ((s.setFile f (opened (s.ftable f) omode ip dev)).goto p .idle)
  | .dup fd =>
    match argfd P.ofile fd with
    | none => some (s.goto p .idle)
    | some f =>
      match fdalloc P.ofile with
      | none => some (s.goto p .idle)
      | some fd' => some ((s.setFd p fd' (some f)).goto p (.dupInc fd' f))
  | .dupInc _ f => some ((s.filedup f).goto p .idle)
  | .pipe0 =>
    match filealloc s.ftable with
    | none => some (s.goto p .idle)
    | some f0 => some ((s.setFile f0 { s.ftable f0 with ref := 1 }).goto p (.pipe1 f0))
  | .pipe1 f0 =>
    match filealloc s.ftable with
    | none => some (s.goto p (.fileclose f0 .ret))
    | some f1 => some ((s.setFile f1 { s.ftable f1 with ref := 1 }).goto p (.pipe2 f0 f1))
  | .pipe2 f0 f1 =>
    match o with
    | .fail => some (s.goto p (.fileclose f0 (.close f1)))
    | .page pi =>
      -- `kalloc` returns a page that no pipe is in
      if s.pages pi = none then some ((s.pipealloc f0 f1 pi).goto p (.pipeFd0 f0 f1)) else none
    | _ => none
  | .pipeFd0 rf wf =>
    match fdalloc P.ofile with
    | none => some (s.goto p (.fileclose rf (.close wf)))
    | some fd0 => some ((s.setFd p fd0 (some rf)).goto p (.pipeFd1 rf wf fd0))
  | .pipeFd1 rf wf fd0 =>
    match fdalloc P.ofile with
    | none => some ((s.setFd p fd0 none).goto p (.fileclose rf (.close wf)))
    | some fd1 => some ((s.setFd p fd1 (some wf)).goto p (.pipeOut rf wf fd0 fd1))
  | .pipeOut rf wf fd0 fd1 =>
    match o with
    | .ok => some (s.goto p .idle)
    | .fail => some (((s.setFd p fd0 none).setFd p fd1 none).goto p (.fileclose rf (.close wf)))
    | _ => none
  | .close fd =>
    match argfd P.ofile fd with
    | none => some (s.goto p .idle)
    | some f => some ((s.setFd p fd none).goto p (.fileclose f .ret))
  | .fileclose f k => some (s.fileclose p f k)
  | .pipeclose pi writable k => s.pipeclose p pi writable k
  | .kfree pi k =>
    some ({ s with
      pages := update s.pages pi none
      frees := update s.frees pi (s.frees pi + 1) }.goto p k.resume)
  | .iput k => some (s.goto p k.resume)
  | .fork =>
    match o with
    | .fail => some (s.goto p .idle)
    | .slot np =>
      if np < N ∧ (s.procs np).state = .unused then some ((s.setState np .used).goto p
        (.forkCopy np)) else none
    | _ => none
  | .forkCopy np =>
    match o with
    | .fail => some ((s.setState np .unused).goto p .idle)
    | .ok => some (s.goto p (.forkLoop np 0))
    | _ => none
  | .forkLoop np i =>
    if i < NOFILE then
      match P.ofile i with
      | none => some (s.goto p (.forkLoop np (i + 1)))
      | some f => some (((s.filedup f).setFd np i (some f)).goto p (.forkLoop np (i + 1)))
    else some ((s.setState np .live).goto p .idle)
  | .exitLoop fd =>
    if fd < NOFILE then
      match P.ofile fd with
      | none => some (s.goto p (.exitLoop (fd + 1)))
      | some f => some (s.goto p (.fileclose f (.exitClear fd)))
    else some ((s.setState p .zombie).goto p .idle)
  | .exitClear fd => some ((s.setFd p fd none).goto p (.exitLoop (fd + 1)))

/-- A step.  After a panic there is none. -/
def exec (N : Nat) (s : Sys) : Label → Option Sys
  | .call p c =>
    if s.panicked = none ∧ p < N ∧ (s.procs p).state = .live ∧ (s.procs p).pc = .idle then some
      (s.goto p c.start)
    else none
  | .run p o => if s.panicked = none ∧ p < N then run N s p o else none
  | .reap p =>
    if s.panicked = none ∧ p < N ∧ (s.procs p).state = .zombie then some (s.setState p .unused) else
      none

/-- No files, and the first process. -/
def initSys : Sys where
  ftable _ := {}
  pages _ := none
  procs p := if p = 0 then { state := .live } else {}
  panicked := none
  allocs _ := 0
  frees _ := 0

def system (N : Nat) : LTS Sys Label where
  init s := s = initSys
  step s a s' := exec N s a = some s'

end Xv6.Files
