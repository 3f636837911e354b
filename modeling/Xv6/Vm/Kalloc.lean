import Mathlib.Logic.Function.Basic
import Xv6.Lib.Act
import Xv6.Lib.Bytes
import Xv6.Vm.Riscv

/-!
# Vm/Kalloc — kernel state and the page allocator

The state every kernel function of the virtual-memory side runs on, and `kalloc.c`.  Physical
memory is one byte store: page tables, trapframes and user pages all live in it.  The free list is
kept as the list of page addresses its `struct run` links chain together.
-/

namespace Xv6

/-- What the linker script fixes: `end`, the first address after the kernel image, and the page of
the trampoline, which lies inside the image. -/
class Layout where
  kend : Nat
  trampoline : Nat
  kend_ge : KERNBASE ≤ kend
  kend_le : kend ≤ PHYSTOP
  trampoline_mod : trampoline % PGSIZE = 0
  trampoline_ge : KERNBASE ≤ trampoline
  trampoline_le : trampoline + PGSIZE ≤ kend

export Layout (kend trampoline)

/-- A layout as the linker produces it, on the machine's 128 MiB. -/
@[reducible] def sampleLayout : Layout where
  kend := 0x80022000
  trampoline := 0x80007000
  kend_ge := by decide
  kend_le := by decide
  trampoline_mod := by decide
  trampoline_ge := by decide
  trampoline_le := by decide

/-- `enum procstate`. -/
inductive ProcState
  | unused | used | sleeping | runnable | running | zombie
  deriving DecidableEq, Repr

/-- The fields of `struct proc` the memory code reads.  A null pointer is `0`. -/
structure Proc where
  state : ProcState := .unused
  killed : Bool := false
  xstate : Int := 0
  pid : Nat := 0
  parent : Option Nat := none
  sz : Nat := 0
  pagetable : Nat := 0
  trapframe : Nat := 0
  name : List UInt8 := []

/-- Where the kernel stops: the `panic` calls of the code, `kerneltrap` for a fault taken in the
kernel (a null pointer), and a `freewalk` recursion deeper than the hardware's page tables. -/
inductive Panic
  | kfree | increaseRefer | getRefcount
  | walk | mappagesSize | mappagesRemap
  | uvmunmapAligned | uvmunmapWalk | uvmunmapMapped | uvmunmapLeaf
  | freewalkLeaf | freewalkDepth | uvmcopyPte | uvmcopyPresent | uvmclear | uvmfirst
  | loadseg | initExiting | kerneltrap
  deriving DecidableEq, Repr

/-- The kernel state.  `kheld` lists the pages other kernel code holds pointers to (kernel stacks,
the kernel page table, pipes, the virtio rings); `wrapped` records that some 8-bit reference count
was decremented at 0 or incremented at 255. -/
structure KState where
  mem : Nat → UInt8
  freelist : List Nat
  referCount : Nat → Nat
  wrapped : Bool
  procs : Nat → Proc
  initproc : Nat
  nextpid : Nat
  kheld : List Nat

/-- Kernel code. -/
abbrev Kern := Act KState Panic

open Act Bytes

/-! ## Memory -/

/-- The entry stored at an address. -/
def pteAt (m : Nat → UInt8) (a : Nat) : Pte := BitVec.ofNat 64 (getLE m a 8)

/-- Memory with an entry stored. -/
def setPte (m : Nat → UInt8) (a : Nat) (v : Pte) : Nat → UInt8 := setLE m a 8 v.toNat

/-- `*pte`. -/
def readPte (a : Nat) : Kern Pte := gets fun s => pteAt s.mem a

theorem readPte_bind {α : Type} (a : Nat) (f : Pte → Kern α) (s : KState) :
    (readPte a >>= f) s = f (pteAt s.mem a) s := rfl

/-- `*pte = v`. -/
def writePte (a : Nat) (v : Pte) : Kern Unit := modify fun s => { s with mem := setPte s.mem a v }

def memset (a : Nat) (c : UInt8) (n : Nat) : Kern Unit :=
  modify fun s => { s with mem := fill s.mem a n c }

def memmove (dst src n : Nat) : Kern Unit :=
  modify fun s => { s with mem := copy s.mem dst src n }

/-- `memmove` from a kernel buffer outside the modelled memory. -/
def memput (dst : Nat) (src : List UInt8) : Kern Unit :=
  modify fun s => { s with mem := put s.mem dst src }

/-! ## `kalloc.c` -/

section Kalloc

variable [Layout]

/-- The slot of a page in `refer_count`. -/
def refIdx (pa : Nat) : Nat := (pa - KERNBASE) / PGSIZE

/-- The address test of `kfree`, `increase_refer` and `get_refcount`. -/
def badPage (pa : Nat) : Prop := pa % PGSIZE ≠ 0 ∨ pa < kend ∨ pa ≥ PHYSTOP

instance (pa : Nat) : Decidable (badPage pa) := inferInstanceAs (Decidable (_ ∨ _))

/-- `--refer_count[i]`, in 8 bits. -/
def decRef (pa : Nat) (s : KState) : KState :=
  { s with
    referCount := Function.update s.referCount (refIdx pa) ((s.referCount (refIdx pa) + 255) % 256)
    wrapped := s.wrapped || s.referCount (refIdx pa) == 0 }

/-- `refer_count[i]++`, in 8 bits. -/
def incRef (pa : Nat) (s : KState) : KState :=
  { s with
    referCount := Function.update s.referCount (refIdx pa) ((s.referCount (refIdx pa) + 1) % 256)
    wrapped := s.wrapped || s.referCount (refIdx pa) == 255 }

/-- Drop one reference to a page; the last one puts it back on the free list. -/
def kfree (pa : Nat) : Kern Unit :=
  if badPage pa then stop .kfree
  else do
    modify (decRef pa)
    let c ← gets fun s => s.referCount (refIdx pa)
    if c > 0 then pure ()
    else do
      memset pa 1 PGSIZE
      modify fun s => { s with freelist := pa :: s.freelist }

/-- Take a page off the free list, with one reference. -/
def kalloc : Kern (Option Nat) := do
  let l ← gets fun s => s.freelist
  match l with
  | [] => pure none
  | r :: rest => do
    modify fun s => { s with
      freelist := rest
      referCount := Function.update s.referCount (refIdx r) 1 }
    memset r 5 PGSIZE
    pure (some r)

def increaseRefer (pa : Nat) : Kern Unit :=
  if badPage pa then stop .increaseRefer else modify (incRef pa)

def getRefcount (pa : Nat) : Kern Nat :=
  if badPage pa then stop .getRefcount else gets fun s => s.referCount (refIdx pa)

/-- The loop of `freerange`, with the pages left to free. -/
def freerangeLoop : Nat → Nat → Kern Unit
  | 0, _ => pure ()
  | k + 1, p => do
    -- counteracts the decrement of `kfree`
    modify fun s => { s with referCount := Function.update s.referCount (refIdx p) 1 }
    kfree p
    freerangeLoop k (p + PGSIZE)

def freerange (paStart paEnd : Nat) : Kern Unit :=
  freerangeLoop ((paEnd - PGROUNDUP paStart) / PGSIZE) (PGROUNDUP paStart)

def kinit : Kern Unit := freerange kend PHYSTOP

end Kalloc

end Xv6
