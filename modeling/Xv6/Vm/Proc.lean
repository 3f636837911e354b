import Xv6.Vm.Cow

/-!
# Vm/Proc — processes: `proc.c` and the store-fault branch of `usertrap`

Process slots are indices below `NPROC`.  Open files, the current directory, scheduling and the
process locks play no part in the memory code and are left out.
-/

namespace Xv6

open Act Bytes

/-- Read a process. -/
def getProc (p : Nat) : Kern Proc := gets fun s => s.procs p

theorem getProc_bind {α : Type} (p : Nat) (f : Proc → Kern α) (s : KState) :
    (getProc p >>= f) s = f (s.procs p) s := rfl

/-- Update a process. -/
def setProc (p : Nat) (f : Proc → Proc) : Kern Unit :=
  modify fun s => { s with procs := Function.update s.procs p (f (s.procs p)) }

/-- Store a 64-bit field of a trapframe. -/
def setTrapframe (tf off v : Nat) : Kern Unit :=
  modify fun s => { s with mem := setLE s.mem (tf + off) 8 v }

/-- `safestrcpy`: up to the NUL, at most `n - 1` characters. -/
def safestrcpy (t : List UInt8) (n : Nat) : List UInt8 := (t.takeWhile (· ≠ 0)).take (n - 1)

/-! ## Page tables of processes -/

variable [Layout]

/-- A page table with only the trampoline and the trapframe, `0` if out of memory. -/
def procPagetable (p : Nat) : Kern Nat := do
  let pagetable ← uvmcreate
  if pagetable = 0 then pure 0
  else do
    let r ← mappages pagetable TRAMPOLINE PGSIZE trampoline (PTE_R ||| PTE_X)
    if r < 0 then do
      uvmfree pagetable 0
      pure 0
    else do
      let pr ← getProc p
      let r ← mappages pagetable TRAPFRAME PGSIZE pr.trapframe (PTE_R ||| PTE_W)
      if r < 0 then do
        uvmunmap pagetable TRAMPOLINE 1 false
        uvmfree pagetable 0
        pure 0
      else pure pagetable

def procFreepagetable (pagetable sz : Nat) : Kern Unit := do
  uvmunmap pagetable TRAMPOLINE 1 false
  uvmunmap pagetable TRAPFRAME 1 false
  uvmfree pagetable sz

/-! ## Slots -/

/-- Free a slot and everything hanging from it. -/
def freeproc (p : Nat) : Kern Unit := do
  let pr ← getProc p
  (if pr.trapframe ≠ 0 then kfree pr.trapframe else pure ())
  setProc p fun q => { q with trapframe := 0 }
  (if pr.pagetable ≠ 0 then procFreepagetable pr.pagetable pr.sz else pure ())
  setProc p fun q => { q with
    pagetable := 0, sz := 0, pid := 0, parent := none, name := [], killed := false, xstate := 0
    state := .unused }

/-- The first free slot at or after `p`, of `k` slots. -/
def findUnused (s : KState) : Nat → Nat → Option Nat
  | 0, _ => none
  | k + 1, p => if (s.procs p).state = .unused then some p else findUnused s k (p + 1)

/-- Take a free slot and give it a pid, a trapframe and an empty page table. -/
def allocproc : Kern (Option Nat) := do
  match ← gets fun s => findUnused s NPROC 0 with
  | none => pure none
  | some p => do
    let pid ← gets fun s => s.nextpid
    modify fun s => { s with nextpid := s.nextpid + 1 }
    setProc p fun q => { q with pid := pid, state := .used }
    match ← kalloc with
    | none => do
      setProc p fun q => { q with trapframe := 0 }
      freeproc p
      pure none
    | some tf => do
      setProc p fun q => { q with trapframe := tf }
      let pagetable ← procPagetable p
      setProc p fun q => { q with pagetable := pagetable }
      if pagetable = 0 then do
        freeproc p
        pure none
      else pure (some p)

/-- `initcode`, the program of the first process. -/
def initcode : List UInt8 :=
  [0x17, 0x05, 0x00, 0x00, 0x13, 0x05, 0x45, 0x02,
   0x97, 0x05, 0x00, 0x00, 0x93, 0x85, 0x35, 0x02,
   0x93, 0x08, 0x70, 0x00, 0x73, 0x00, 0x00, 0x00,
   0x93, 0x08, 0x20, 0x00, 0x73, 0x00, 0x00, 0x00,
   0xef, 0xf0, 0x9f, 0xff, 0x2f, 0x69, 0x6e, 0x69,
   0x74, 0x00, 0x00, 0x24, 0x00, 0x00, 0x00, 0x00,
   0x00, 0x00, 0x00, 0x00]

/-- Set up the first user process. -/
def userinit : Kern Unit := do
  match ← allocproc with
  | none => stop .kerneltrap
  | some p => do
    modify fun s => { s with initproc := p }
    let pr ← getProc p
    uvmfirst pr.pagetable initcode
    setProc p fun q => { q with sz := PGSIZE }
    setTrapframe pr.trapframe 24 0
    setTrapframe pr.trapframe 48 PGSIZE
    setProc p fun q => { q with name := "initcode".toUTF8.data.toList, state := .runnable }

/-! ## System calls on processes -/

/-- Grow or shrink the memory of `p` by `n` bytes. -/
def growproc (p : Nat) (n : Int) : Kern Int := do
  let pr ← getProc p
  let newsz := ((pr.sz + n) % 2 ^ 64).toNat
  if n > 0 then do
    let sz ← uvmalloc pr.pagetable pr.sz newsz PTE_W
    if sz = 0 then pure (-1)
    else do
      setProc p fun q => { q with sz := sz }
      pure 0
  else if n < 0 then do
    let sz ← uvmdealloc pr.pagetable pr.sz newsz
    setProc p fun q => { q with sz := sz }
    pure 0
  else do
    setProc p fun q => { q with sz := pr.sz }
    pure 0

/-- The child's slot and pid, or nothing. -/
def fork (p : Nat) : Kern (Option (Nat × Nat)) := do
  match ← allocproc with
  | none => pure none
  | some np => do
    let pr ← getProc p
    let nr ← getProc np
    let r ← uvmcopy pr.pagetable nr.pagetable pr.sz
    if r < 0 then do
      freeproc np
      pure none
    else do
      setProc np fun q => { q with sz := pr.sz }
      -- `*(np->trapframe) = *(p->trapframe)`, then `a0 = 0`
      memmove nr.trapframe pr.trapframe 288
      setTrapframe nr.trapframe 112 0
      setProc np fun q => { q with
        name := safestrcpy pr.name 16, parent := some p, state := .runnable }
      pure (some (np, nr.pid))

/-- The process table with the children of `p` given to `init`. -/
def reparented (s : KState) (p q : Nat) : Proc :=
  if q < NPROC ∧ (s.procs q).parent = some p then { s.procs q with parent := some s.initproc }
  else s.procs q

/-- Give the children of `p` to `init`. -/
def reparent (p : Nat) : Kern Unit := modify fun s => { s with procs := reparented s p }

def exit (p : Nat) (status : Int) : Kern Unit := do
  let init ← gets fun s => s.initproc
  if p = init then stop .initExiting
  else do
    reparent p
    setProc p fun q => { q with xstate := status, state := .zombie }

/-- The first zombie child of `p` at or after slot `q`, of `k` slots. -/
def findZombie (s : KState) (p : Nat) : Nat → Nat → Option Nat
  | 0, _ => none
  | k + 1, q =>
    if (s.procs q).parent = some p ∧ (s.procs q).state = .zombie then some q
    else findZombie s p k (q + 1)

/-- Has `p` a child among the `k` slots from `q`? -/
def haveKids (s : KState) (p : Nat) : Nat → Nat → Bool
  | 0, _ => false
  | k + 1, q => (s.procs q).parent = some p || haveKids s p k (q + 1)

/-- The four bytes of an `int`. -/
def intBytes (x : Int) : List UInt8 :=
  (List.range 4).map fun i => UInt8.ofNat ((x % 2 ^ 32).toNat / 256 ^ i)

/-- One scan of `wait`: the value it returns, or nothing when it sleeps. -/
def wait (p addr : Nat) : Kern (Option Int) := do
  match ← gets fun s => findZombie s p NPROC 0 with
  | some pp => do
    let pr ← getProc p
    let child ← getProc pp
    let r ← (if addr ≠ 0 then copyout pr.pagetable addr (intBytes child.xstate) else pure 0)
    if r < 0 then pure (some (-1))
    else do
      freeproc pp
      pure (some child.pid)
  | none => do
    let kids ← gets fun s => haveKids s p NPROC 0
    let pr ← getProc p
    if ¬ kids ∨ pr.killed then pure (some (-1)) else pure none

def setkilled (p : Nat) : Kern Unit := setProc p fun q => { q with killed := true }

/-- The `scause == 15` branch of `usertrap` for a store at `fault_va`, up to the test of
`killed`. -/
def storeFault (p faultVa : Nat) : Kern Unit := do
  let pr ← getProc p
  if faultVa > pr.sz then setkilled p
  else if ← isCowpage pr.pagetable faultVa then do
    let mem ← cowAlloc pr.pagetable (PGROUNDDOWN faultVa)
    if mem = 0 then setkilled p else pure ()
  else setkilled p

/-- A killed process leaves the trap through `exit`. -/
def exitIfKilled (p : Nat) : Kern Unit := do
  let pr ← getProc p
  if pr.killed then exit p (-1) else pure ()

end Xv6
