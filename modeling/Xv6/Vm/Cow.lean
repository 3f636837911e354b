import Xv6.Vm.PageTable

/-!
# Vm/Cow — resolving copy-on-write pages, and copying to and from user memory

`is_cowpage` and `cow_alloc` of `trap.c`, and the `copyout`/`copyin` family of `vm.c`, which calls
them.  `cow_alloc` is cut at the points where another CPU can run: after it has read the reference
count (`cowShare`), after `kalloc`, after the copy, and after the new mapping (`cowRemap`).
-/

namespace Xv6

open Act Bytes

variable [Layout]

/-! ## `is_cowpage`, `cow_alloc` -/

/-- The C code dereferences the result of `walk` without a test. -/
def isCowpage (pagetable va : Nat) : Kern Bool := do
  match ← walk pagetable va false with
  | none => stop .kerneltrap
  | some a => do
    let pte ← readPte a
    pure (pte.has PTE_RSW_COW)

/-- How far `cow_alloc` gets before it needs a page: `sole pa` when the page has one reference and
was made writable in place, `shared` with the address of the entry, the page and the flags of the
new mapping otherwise.  In the second case the entry already has `PTE_W`. -/
inductive CowStart
  | sole (pa : Nat)
  | shared (pte pa : Nat) (flags : Pte)

/-- `cow_alloc` up to `kalloc`. -/
def cowShare (pagetable va : Nat) : Kern CowStart := do
  match ← walk pagetable va false with
  | none => stop .kerneltrap
  | some a => do
    let pte ← readPte a
    let c ← getRefcount (PTE2PA pte)
    if c = 1 then do
      writePte a ((pte ||| PTE_W) &&& ~~~PTE_RSW_COW)
      pure (.sole (PTE2PA pte))
    else do
      writePte a (pte ||| PTE_W)
      pure (.shared a (PTE2PA (pte ||| PTE_W)) (PTE_FLAGS (pte ||| PTE_W)))

/-- `cow_alloc` between the copy and the last `kfree`: clear `PTE_V`, so that `mappages` does not
see a remap, and map the new page. -/
def cowRemap (pagetable va a new : Nat) (flags : Pte) : Kern Int := do
  let pte ← readPte a
  writePte a (pte &&& ~~~PTE_V)
  mappages pagetable va PGSIZE new flags

/-- `cow_alloc`: the page to write to, `0` if there is no memory for a copy. -/
def cowAlloc (pagetable va : Nat) : Kern Nat := do
  match ← cowShare pagetable va with
  | .sole pa => pure pa
  | .shared a pa flags => do
    match ← kalloc with
    | none => pure 0
    | some new => do
      memmove new pa PGSIZE
      let r ← cowRemap pagetable va a new flags
      if r ≠ 0 then do
        let pte ← readPte a
        writePte a (pte ||| PTE_V)
        kfree new
        pure 0
      else do
        kfree pa
        pure new

/-! ## `copyout`, `copyin`, `copyinstr` -/

/-- The physical address `copyout` writes a page of user memory at, `0` if it may not. -/
def copyoutPage (pagetable va0 : Nat) : Kern Nat := do
  let pa0 ← walkaddr pagetable va0
  if pa0 = 0 then pure 0
  else if ← isCowpage pagetable va0 then cowAlloc pagetable va0
  else pure pa0

/-- The loop of `copyout`; every iteration takes at least one byte of `src`. -/
def copyoutLoop (pagetable : Nat) : Nat → Nat → List UInt8 → Kern Int
  | 0, _, _ => pure 0
  | k + 1, dstva, src =>
    if src = [] then pure 0
    else do
      let va0 := PGROUNDDOWN dstva
      let pa0 ← copyoutPage pagetable va0
      if pa0 = 0 then pure (-1)
      else do
        let n := min (PGSIZE - (dstva - va0)) src.length
        memput (pa0 + (dstva - va0)) (src.take n)
        copyoutLoop pagetable k (va0 + PGSIZE) (src.drop n)

def copyout (pagetable dstva : Nat) (src : List UInt8) : Kern Int :=
  copyoutLoop pagetable src.length dstva src

/-- The loop of `copyin`, with what has been copied so far. -/
def copyinLoop (pagetable : Nat) : Nat → Nat → Nat → List UInt8 → Kern (Option (List UInt8))
  | 0, _, _, dst => pure (some dst)
  | k + 1, srcva, len, dst =>
    if len = 0 then pure (some dst)
    else do
      let va0 := PGROUNDDOWN srcva
      let pa0 ← walkaddr pagetable va0
      if pa0 = 0 then pure none
      else do
        let n := min (PGSIZE - (srcva - va0)) len
        let bytes ← gets fun s => take s.mem (pa0 + (srcva - va0)) n
        copyinLoop pagetable k (va0 + PGSIZE) (len - n) (dst ++ bytes)

/-- The `len` bytes at `srcva`, or nothing. -/
def copyin (pagetable srcva len : Nat) : Kern (Option (List UInt8)) :=
  copyinLoop pagetable len srcva len []

/-- The loop of `copyinstr`: what was stored at `dst`, and whether a NUL ended it. -/
def copyinstrLoop (pagetable : Nat) : Nat → Nat → Nat → List UInt8 → Kern (Int × List UInt8)
  | 0, _, _, dst => pure (-1, dst)
  | k + 1, srcva, max, dst =>
    if max = 0 then pure (-1, dst)
    else do
      let va0 := PGROUNDDOWN srcva
      let pa0 ← walkaddr pagetable va0
      if pa0 = 0 then pure (-1, dst)
      else do
        let n := min (PGSIZE - (srcva - va0)) max
        let bytes ← gets fun s => take s.mem (pa0 + (srcva - va0)) n
        if 0 ∈ bytes then pure (0, dst ++ bytes.take (bytes.idxOf 0 + 1))
        else copyinstrLoop pagetable k (va0 + PGSIZE) (max - n) (dst ++ bytes)

def copyinstr (pagetable srcva max : Nat) : Kern (Int × List UInt8) :=
  copyinstrLoop pagetable max srcva max []

end Xv6
