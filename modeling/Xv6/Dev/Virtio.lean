import Mathlib.Algebra.Group.Nat.Defs
import Mathlib.Logic.Function.Basic
import Xv6.Lib.Act
import Xv6.Lib.Bytes
import Xv6.Lib.LTS

/-!
# Dev/Virtio — the disk driver: `virtio_disk.c`

The driver's memory (`struct disk`, the three parts of the queue and the `disk` flags of buffers),
its functions, and the system they are part of: processes inside `virtio_disk_rw`, interrupt
handlers inside `virtio_disk_intr`, and the device, which reads and writes the queue at any time.

`wakeup` has no effect here: a process that sleeps may wake at any time, and both loops test their
condition again under the lock.  Contents of blocks are left out.
-/

namespace Xv6.Virtio

open Act Function

/-! ## Memory -/

def NUM : Nat := 8
def VRING_DESC_F_NEXT : Nat := 1
def VRING_DESC_F_WRITE : Nat := 2
def VIRTIO_BLK_T_IN : Nat := 0
def VIRTIO_BLK_T_OUT : Nat := 1
def BSIZE : Nat := 1024

/-- The addresses the driver puts into descriptors: `&disk.ops[i]`, `b->data` and
`&disk.info[i].status`. -/
inductive Addr
  | null
  | op (i : Nat)
  | data (b : Nat)
  | status (i : Nat)
  deriving DecidableEq

/-- `struct virtq_desc`. -/
structure Desc where
  addr : Addr := .null
  len : Nat := 0
  flags : Nat := 0
  next : Nat := 0
  deriving DecidableEq

/-- `struct virtio_blk_req`. -/
structure Req where
  type : Nat := 0
  reserved : Nat := 0
  sector : Nat := 0
  deriving DecidableEq

/-- An element of `disk.info`; a null `b` is `none`. -/
structure Info where
  b : Option Nat := none
  status : Nat := 0
  deriving DecidableEq

/-- `struct disk` with its queue, and the fields `blockno` and `disk` of buffers.  The indices
`availIdx`, `usedIdx` (of the used ring) and `seen` (`disk.used_idx`) are 16 bits wide. -/
structure Disk where
  desc : Nat → Desc
  free : Nat → Bool
  seen : Nat
  info : Nat → Info
  ops : Nat → Req
  availIdx : Nat
  availRing : Nat → Nat
  usedIdx : Nat
  usedRing : Nat → Nat
  blockno : Nat → Nat
  busy : Nat → Bool

/-- Where the driver stops: its `panic` calls, a null buffer, and a chain without end. -/
inductive Fault
  | freeDesc1 | freeDesc2 | status | null | endless
  deriving DecidableEq, Repr

/-- Driver code. -/
abbrev Drv := Act Disk Fault

/-! ## Descriptors -/

/-- The first free descriptor of the `k` from `i`, marked non-free. -/
def allocDescFrom : Nat → Nat → Drv (Option Nat)
  | 0, _ => pure none
  | k + 1, i => do
    if ← gets fun d => d.free i then do
      modify fun d => { d with free := update d.free i false }
      pure (some i)
    else allocDescFrom k (i + 1)

def allocDesc : Drv (Option Nat) := allocDescFrom NUM 0

def freeDesc (i : Nat) : Drv Unit := do
  if i ≥ NUM then stop .freeDesc1
  else if ← gets fun d => d.free i then stop .freeDesc2
  else modify fun d => { d with
    desc := update d.desc i {}
    free := update d.free i true }

/-- Free a chain, at most `k` descriptors of it. -/
def freeChainFrom : Nat → Nat → Drv Unit
  | 0, _ => stop .endless
  | k + 1, i => do
    let flag ← gets fun d => (d.desc i).flags
    let nxt ← gets fun d => (d.desc i).next
    freeDesc i
    if flag &&& VRING_DESC_F_NEXT ≠ 0 then freeChainFrom k nxt else pure ()

/-- A chain of more than `NUM` descriptors meets one it has already freed. -/
def freeChain (i : Nat) : Drv Unit := freeChainFrom (NUM + 1) i

/-- Three descriptors, or none. -/
def alloc3Desc : Drv (Option (Nat × Nat × Nat)) := do
  match ← allocDesc with
  | none => pure none
  | some i0 => do
    match ← allocDesc with
    | none => do
      freeDesc i0
      pure none
    | some i1 => do
      match ← allocDesc with
      | none => do
        freeDesc i0
        freeDesc i1
        pure none
      | some i2 => pure (some (i0, i1, i2))

/-! ## The pieces of `virtio_disk_rw` and `virtio_disk_intr` -/

/-- Store to `disk.desc[i]`. -/
def setDesc (i : Nat) (x : Desc) : Drv Unit :=
  modify fun d => { d with desc := update d.desc i x }

/-- Store to `disk.ops[i]`. -/
def setOp (i : Nat) (x : Req) : Drv Unit :=
  modify fun d => { d with ops := update d.ops i x }

/-- Store to a field of `disk.info[i]`. -/
def setInfo (i : Nat) (f : Info → Info) : Drv Unit :=
  modify fun d => { d with info := update d.info i (f (d.info i)) }

/-- Store to `b->disk`. -/
def setBusy (b : Nat) (x : Bool) : Drv Unit :=
  modify fun d => { d with busy := update d.busy b x }

/-- Format the three descriptors for buffer `b` and record it. -/
def format (b : Nat) (write : Bool) (i0 i1 i2 : Nat) : Drv Unit := do
  let sector ← gets fun d => d.blockno b * (BSIZE / 512) % UINT
  setOp i0 ⟨if write then VIRTIO_BLK_T_OUT else VIRTIO_BLK_T_IN, 0, sector⟩
  setDesc i0 ⟨.op i0, 16, VRING_DESC_F_NEXT, i1⟩
  setDesc i1 ⟨.data b, BSIZE, (if write then 0 else VRING_DESC_F_WRITE) ||| VRING_DESC_F_NEXT, i2⟩
  setInfo i0 fun x => { x with status := 0xff }
  setDesc i2 ⟨.status i0, 1, VRING_DESC_F_WRITE, 0⟩
  setBusy b true
  setInfo i0 fun x => { x with b := some b }

/-- `disk.avail->ring[disk.avail->idx % NUM] = idx[0]`. -/
def putAvail (i0 : Nat) : Drv Unit :=
  modify fun d => { d with availRing := update d.availRing (d.availIdx % NUM) i0 }

/-- `disk.avail->idx += 1`. -/
def bumpAvail : Drv Unit := modify fun d => { d with availIdx := (d.availIdx + 1) % 2 ^ 16 }

/-- The request is over: forget the buffer and free the chain. -/
def finish (i0 : Nat) : Drv Unit := do
  setInfo i0 fun x => { x with b := none }
  freeChain i0

/-- The body of the loop of `virtio_disk_intr`. -/
def intrBody : Drv Unit := do
  let id ← gets fun d => d.usedRing (d.seen % NUM)
  let info ← gets fun d => d.info id
  if info.status ≠ 0 then stop .status
  else match info.b with
    | none => stop .null
    | some b => do
      setBusy b false
      modify fun d => { d with seen := (d.seen + 1) % 2 ^ 16 }

/-! ## The system -/

/-- The descriptors of a request. -/
structure Chain where
  i0 : Nat
  i1 : Nat
  i2 : Nat
  deriving DecidableEq

/-- Where a process is in `virtio_disk_rw`.  From `alloc` to `finish` it holds `vdisk_lock`, but for
`asleep`, where it sleeps on its buffer. -/
inductive Pc
  | out
  | enter (b : Nat) (write : Bool)
  | alloc (b : Nat) (write : Bool)
  | format (b : Nat) (write : Bool) (c : Chain)
  | ring (b : Nat) (c : Chain)
  | bump (b : Nat) (c : Chain)
  | check (b : Nat) (c : Chain)
  | asleep (b : Nat) (c : Chain)
  | finish (b : Nat) (c : Chain)
  deriving DecidableEq

/-- The lock is held here. -/
def Pc.holds : Pc → Bool
  | .out | .enter .. | .asleep .. => false
  | _ => true

/-- Where an interrupt handler is in `virtio_disk_intr`. -/
inductive IntrPc
  | idle | test | body
  deriving DecidableEq

/-- Who can hold `vdisk_lock`. -/
inductive Agent
  | proc (p : Nat)
  | intr (c : Nat)
  deriving DecidableEq

/-- The driver, the device and everyone around them.  `owner` is the sleep-lock of each buffer.  The
device has consumed the available ring up to `lastAvail`, works on the chains in `work`, and has put
`posting` into the used ring without having moved its index yet.  `subs` and `comps` count how often
each head has been submitted and completed; nothing reads them. -/
structure Sys where
  disk : Disk
  pc : Nat → Pc
  intr : Nat → IntrPc
  lock : Option Agent
  owner : Nat → Option Nat
  lastAvail : Nat
  work : List Nat
  posting : Option Nat
  subs : Nat → Nat
  comps : Nat → Nat

namespace Sys

def setPc (s : Sys) (p : Nat) (x : Pc) : Sys := { s with pc := update s.pc p x }
def setIntr (s : Sys) (c : Nat) (x : IntrPc) : Sys := { s with intr := update s.intr c x }

end Sys

/-- Run driver code on the memory and go on. -/
def onDisk {α : Type} (s : Sys) (m : Drv α) (k : α → Sys → Sys) : Except Fault Sys :=
  match m s.disk with
  | .ok (a, d) => .ok (k a { s with disk := d })
  | .error e => .error e

/-- What a process inside `virtio_disk_rw` does next while it holds the lock. -/
def runProc (s : Sys) (p : Nat) : Except Fault Sys :=
  match s.pc p with
  | .alloc b write => onDisk s alloc3Desc fun r s =>
    match r with
    -- `sleep(&disk.free[0], &disk.vdisk_lock)`, then the loop again
    | none => { s.setPc p (.enter b write) with lock := none }
    | some (i0, i1, i2) => s.setPc p (.format b write ⟨i0, i1, i2⟩)
  | .format b write c =>
    onDisk s (Virtio.format b write c.i0 c.i1 c.i2) fun _ s => s.setPc p (.ring b c)
  | .ring b c => onDisk s (putAvail c.i0) fun _ s => s.setPc p (.bump b c)
  | .bump b c => onDisk s bumpAvail fun _ s =>
    { s.setPc p (.check b c) with subs := update s.subs c.i0 (s.subs c.i0 + 1) }
  | .check b c =>
    if s.disk.busy b then .ok { s.setPc p (.asleep b c) with lock := none }
    else .ok (s.setPc p (.finish b c))
  | .finish _ c => onDisk s (Virtio.finish c.i0) fun _ s => { s.setPc p .out with lock := none }
  | _ => .ok s

/-- What an interrupt handler does next while it holds the lock. -/
def runIntr (s : Sys) (c : Nat) : Except Fault Sys :=
  match s.intr c with
  | .idle => .ok s
  | .test =>
    if s.disk.seen ≠ s.disk.usedIdx then .ok (s.setIntr c .body)
    else .ok { s.setIntr c .idle with lock := none }
  | .body => onDisk s intrBody fun _ s => s.setIntr c .test

/-- The device writes the status byte at the end of a chain. -/
def writeStatus (d : Disk) (id : Nat) : Disk :=
  match (d.desc (d.desc (d.desc id).next).next).addr with
  | .status i => { d with info := update d.info i { d.info i with status := 0 } }
  | _ => d

/-- What can happen next. -/
inductive Label
  | lockBuf (p b blockno : Nat)
  | unlockBuf (p b : Nat)
  | call (p b : Nat) (write : Bool)
  | acquire (p : Nat)
  | run (p : Nat)
  | interrupt (c : Nat)
  | runIntr (c : Nat)
  | fetch
  | complete (id : Nat)
  | publish
  deriving DecidableEq

/-- The pc a process has once it holds the lock again. -/
def Pc.locked : Pc → Option Pc
  | .enter b write => some (.alloc b write)
  | .asleep b c => some (.check b c)
  | _ => none

/-- When it can. -/
def Enabled (s : Sys) : Label → Prop
  | .lockBuf p b _ => s.pc p = .out ∧ s.owner b = none
  | .unlockBuf p b => s.pc p = .out ∧ s.owner b = some p
  | .call p b _ => s.pc p = .out ∧ s.owner b = some p
  | .acquire p => s.lock = none ∧ ((s.pc p).locked).isSome
  | .run p => (s.pc p).holds = true
  | .interrupt c => s.lock = none ∧ s.intr c = .idle
  | .runIntr c => s.intr c ≠ .idle
  | .fetch => s.lastAvail ≠ s.disk.availIdx
  | .complete id => s.posting = none ∧ id ∈ s.work
  | .publish => s.posting.isSome

instance : (s : Sys) → (a : Label) → Decidable (Enabled s a)
  | s, .lockBuf p b _ => inferInstanceAs (Decidable (s.pc p = .out ∧ s.owner b = none))
  | s, .unlockBuf p b => inferInstanceAs (Decidable (s.pc p = .out ∧ s.owner b = some p))
  | s, .call p b _ => inferInstanceAs (Decidable (s.pc p = .out ∧ s.owner b = some p))
  | s, .acquire p => inferInstanceAs (Decidable (s.lock = none ∧ ((s.pc p).locked).isSome))
  | s, .run p => inferInstanceAs (Decidable ((s.pc p).holds = true))
  | s, .interrupt c => inferInstanceAs (Decidable (s.lock = none ∧ s.intr c = .idle))
  | s, .runIntr c => inferInstanceAs (Decidable (s.intr c ≠ .idle))
  | s, .fetch => inferInstanceAs (Decidable (s.lastAvail ≠ s.disk.availIdx))
  | s, .complete id => inferInstanceAs (Decidable (s.posting = none ∧ id ∈ s.work))
  | s, .publish => inferInstanceAs (Decidable (s.posting.isSome = true))

/-- What it does. -/
def exec (s : Sys) : Label → Except Fault Sys
  | .lockBuf p b blockno => .ok { s with
      disk := { s.disk with blockno := update s.disk.blockno b blockno }
      owner := update s.owner b (some p) }
  | .unlockBuf _ b => .ok { s with owner := update s.owner b none }
  | .call p b write => .ok (s.setPc p (.enter b write))
  | .acquire p => .ok { s.setPc p (((s.pc p).locked).getD .out) with lock := some (.proc p) }
  | .run p => runProc s p
  | .interrupt c => .ok { s.setIntr c .test with lock := some (.intr c) }
  | .runIntr c => Virtio.runIntr s c
  | .fetch => .ok { s with
      lastAvail := (s.lastAvail + 1) % 2 ^ 16
      work := s.disk.availRing (s.lastAvail % NUM) :: s.work }
  | .complete id =>
    let d := writeStatus s.disk id
    .ok { s with
      disk := { d with usedRing := update d.usedRing (d.usedIdx % NUM) id }
      work := s.work.erase id
      posting := some id
      comps := update s.comps id (s.comps id + 1) }
  | .publish => .ok { s with
      disk := { s.disk with usedIdx := (s.disk.usedIdx + 1) % 2 ^ 16 }
      posting := none }

/-- The memory `virtio_disk_init` leaves. -/
def initDisk (blockno : Nat → Nat) : Disk where
  desc _ := {}
  free i := i < NUM
  seen := 0
  info _ := {}
  ops _ := {}
  availIdx := 0
  availRing _ := 0
  usedIdx := 0
  usedRing _ := 0
  blockno := blockno
  busy _ := false

/-- The state the driver starts in. -/
def initSys (blockno : Nat → Nat) : Sys where
  disk := initDisk blockno
  pc _ := .out
  intr _ := .idle
  lock := none
  owner _ := none
  lastAvail := 0
  work := []
  posting := none
  subs _ := 0
  comps _ := 0

/-- **The driver and its device**: any calls, completions and interrupts, in any order. -/
def system : LTS Sys Label where
  init s := ∃ blockno, s = initSys blockno
  step s a s' := Enabled s a ∧ exec s a = .ok s'

/-- Its steps as a function. -/
def step (s : Sys) (a : Label) : Option Sys := if Enabled s a then (exec s a).toOption else none

theorem system_step {s s' : Sys} {a : Label} (h : step s a = some s') : system.step s a s' := by
  unfold step at h
  split at h
  next ha =>
    refine ⟨ha, ?_⟩
    cases e : exec s a with
    | ok t =>
      rw [e] at h
      exact congrArg _ (Option.some.inj h)
    | error _ =>
      rw [e] at h
      cases h
  next => cases h

end Xv6.Virtio
