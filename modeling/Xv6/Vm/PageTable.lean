import Xv6.Vm.Kalloc

/-!
# Vm/PageTable — `vm.c`: walking, mapping, unmapping and copying address spaces

A page table is a tree of pages in physical memory, named by the address of its root.  Loops carry
the number of iterations left; a `for` loop over addresses runs exactly as many as the C loop.
-/

namespace Xv6

open Act Bytes

variable [Layout]

/-! ## Walking -/

/-- The loop of `walk`, from a table at `level`: the address of the entry for `va`, if its
page-table pages exist or, with `alloc`, can be created. -/
def walkFrom (alloc : Bool) (va : Nat) : Nat → Nat → Kern (Option Nat)
  | 0, pagetable => pure (some (pagetable + 8 * PX 0 va))
  | level + 1, pagetable => do
    let pte ← readPte (pagetable + 8 * PX (level + 1) va)
    if pte.has PTE_V then walkFrom alloc va level (PTE2PA pte)
    else if alloc then do
      match ← kalloc with
      | none => pure none
      | some child => do
        memset child 0 PGSIZE
        writePte (pagetable + 8 * PX (level + 1) va) (PA2PTE child ||| PTE_V)
        walkFrom alloc va level child
    else pure none

def walk (pagetable va : Nat) (alloc : Bool) : Kern (Option Nat) :=
  if va ≥ MAXVA then stop .walk else walkFrom alloc va 2 pagetable

/-- Where the hardware finds the entry of page `v`: the address of the level-0 entry, if the tables
above it are present. -/
def leafAddr (m : Nat → UInt8) (root v : Nat) : Option Nat :=
  let e2 := pteAt m (root + 8 * (v / 2 ^ 18 % 512))
  if e2.has PTE_V then
    let e1 := pteAt m (PTE2PA e2 + 8 * (v / 2 ^ 9 % 512))
    if e1.has PTE_V then some (PTE2PA e1 + 8 * (v % 512)) else none
  else none

/-- The entry of page `v`, zero if there is no table for it. -/
def leaf (m : Nat → UInt8) (root v : Nat) : Pte :=
  match leafAddr m root v with
  | some a => pteAt m a
  | none => 0#64

/-- The physical address a user page is mapped to, `0` if it is not. -/
def walkaddr (pagetable va : Nat) : Kern Nat :=
  if va ≥ MAXVA then pure 0
  else do
    match ← walk pagetable va false with
    | none => pure 0
    | some a => do
      let pte ← readPte a
      if ¬ pte.has PTE_V then pure 0
      else if ¬ pte.has PTE_U then pure 0
      else pure (PTE2PA pte)

/-! ## Mapping and unmapping -/

/-- The loop of `mappages`, with the iterations left after this one. -/
def mappagesLoop (pagetable : Nat) (perm : Pte) : Nat → Nat → Nat → Kern Int
  | k, a, pa => do
    match ← walk pagetable a true with
    | none => pure (-1)
    | some pte => do
      let v ← readPte pte
      if v.has PTE_V then stop .mappagesRemap
      else do
        writePte pte (PA2PTE pa ||| perm ||| PTE_V)
        match k with
        | 0 => pure 0
        | k + 1 => mappagesLoop pagetable perm k ((a + PGSIZE) % 2 ^ 64) (pa + PGSIZE)

def mappages (pagetable va size pa : Nat) (perm : Pte) : Kern Int :=
  if size = 0 then stop .mappagesSize
  else
    let a := PGROUNDDOWN va
    let last := PGROUNDDOWN ((va + size - 1) % 2 ^ 64)
    mappagesLoop pagetable perm ((last + 2 ^ 64 - a) % 2 ^ 64 / PGSIZE) a pa

/-- The loop of `uvmunmap`. -/
def uvmunmapLoop (pagetable : Nat) (doFree : Bool) : Nat → Nat → Kern Unit
  | 0, _ => pure ()
  | k + 1, a => do
    match ← walk pagetable a false with
    | none => stop .uvmunmapWalk
    | some pte => do
      let v ← readPte pte
      if ¬ v.has PTE_V then stop .uvmunmapMapped
      else if PTE_FLAGS v = PTE_V then stop .uvmunmapLeaf
      else do
        if doFree then kfree (PTE2PA v) else pure ()
        writePte pte 0#64
        uvmunmapLoop pagetable doFree k (a + PGSIZE)

def uvmunmap (pagetable va npages : Nat) (doFree : Bool) : Kern Unit :=
  if va % PGSIZE ≠ 0 then stop .uvmunmapAligned
  else uvmunmapLoop pagetable doFree (((va + npages * PGSIZE) % 2 ^ 64 - va) / PGSIZE) va

/-- A page table without mappings, `0` if out of memory. -/
def uvmcreate : Kern Nat := do
  match ← kalloc with
  | none => pure 0
  | some pagetable => do
    memset pagetable 0 PGSIZE
    pure pagetable

/-- Load the first process's code at address 0.  The C code uses the result of `kalloc` without a
test. -/
def uvmfirst (pagetable : Nat) (src : List UInt8) : Kern Unit :=
  if src.length ≥ PGSIZE then stop .uvmfirst
  else do
    match ← kalloc with
    | none => stop .kerneltrap
    | some mem => do
      memset mem 0 PGSIZE
      let _ ← mappages pagetable 0 PGSIZE mem (PTE_W ||| PTE_R ||| PTE_X ||| PTE_U)
      memput mem src

/-! ## Growing and shrinking -/

def uvmdealloc (pagetable oldsz newsz : Nat) : Kern Nat :=
  if newsz ≥ oldsz then pure oldsz
  else do
    if PGROUNDUP newsz < PGROUNDUP oldsz then
      uvmunmap pagetable (PGROUNDUP newsz) ((PGROUNDUP oldsz - PGROUNDUP newsz) / PGSIZE) true
    else pure ()
    pure newsz

/-- The loop of `uvmalloc`: on failure everything mapped since `oldsz` is taken back. -/
def uvmallocLoop (pagetable oldsz newsz : Nat) (xperm : Pte) : Nat → Nat → Kern Nat
  | 0, _ => pure newsz
  | k + 1, a => do
    match ← kalloc with
    | none => do
      let _ ← uvmdealloc pagetable a oldsz
      pure 0
    | some mem => do
      memset mem 0 PGSIZE
      let r ← mappages pagetable a PGSIZE mem (PTE_R ||| PTE_U ||| xperm)
      if r ≠ 0 then do
        kfree mem
        let _ ← uvmdealloc pagetable a oldsz
        pure 0
      else uvmallocLoop pagetable oldsz newsz xperm k (a + PGSIZE)

/-- Grow an address space from `oldsz` to `newsz` bytes; `0` on failure. -/
def uvmalloc (pagetable oldsz newsz : Nat) (xperm : Pte) : Kern Nat :=
  if newsz < oldsz then pure oldsz
  else
    let a := PGROUNDUP oldsz
    uvmallocLoop pagetable a newsz xperm ((newsz - a + (PGSIZE - 1)) / PGSIZE) a

/-! ## Freeing -/

/-- The loop of `freewalk` over one page of entries. -/
def freewalkLoop (child : Nat → Kern Unit) (pagetable : Nat) : Nat → Nat → Kern Unit
  | 0, _ => pure ()
  | k + 1, i => do
    let pte ← readPte (pagetable + 8 * i)
    if pte.has PTE_V && !pte.has (PTE_R ||| PTE_W ||| PTE_X) then do
      child (PTE2PA pte)
      writePte (pagetable + 8 * i) 0#64
    else if pte.has PTE_V then stop .freewalkLeaf
    else pure ()
    freewalkLoop child pagetable k (i + 1)

/-- `freewalk`, with the levels of tables left below this one. -/
def freewalkFrom : Nat → Nat → Kern Unit
  | 0, _ => stop .freewalkDepth
  | level + 1, pagetable => do
    freewalkLoop (freewalkFrom level) pagetable 512 0
    kfree pagetable

/-- Free the page-table pages of a table without leaf mappings. -/
def freewalk (pagetable : Nat) : Kern Unit := freewalkFrom 3 pagetable

def uvmfree (pagetable sz : Nat) : Kern Unit := do
  if sz > 0 then uvmunmap pagetable 0 (PGROUNDUP sz / PGSIZE) true else pure ()
  freewalk pagetable

/-! ## Copying -/

/-- What `uvmcopy` leaves in the parent's entry: a writable page becomes read-only and COW. -/
def cowMark (pte : Pte) : Pte := if pte.has PTE_W then pte &&& ~~~PTE_W ||| PTE_RSW_COW else pte

/-- The loop of `uvmcopy` from page `i / PGSIZE`. -/
def uvmcopyLoop (old new : Nat) : Nat → Nat → Kern Int
  | 0, _ => pure 0
  | k + 1, i => do
    match ← walk old i false with
    | none => stop .uvmcopyPte
    | some a => do
      let pte ← readPte a
      if ¬ pte.has PTE_V then stop .uvmcopyPresent
      else do
        let pa := PTE2PA pte
        writePte a (cowMark pte)
        let flags := PTE_FLAGS (cowMark pte)
        let r ← mappages new i PGSIZE pa flags
        if r ≠ 0 then do
          uvmunmap new 0 (i / PGSIZE) true
          pure (-1)
        else do
          increaseRefer pa
          uvmcopyLoop old new k (i + PGSIZE)

/-- Share the parent's memory with a child, copy-on-write. -/
def uvmcopy (old new sz : Nat) : Kern Int :=
  uvmcopyLoop old new ((sz + (PGSIZE - 1)) / PGSIZE) 0

/-- Take user access away from the stack guard page. -/
def uvmclear (pagetable va : Nat) : Kern Unit := do
  match ← walk pagetable va false with
  | none => stop .uvmclear
  | some a => do
    let pte ← readPte a
    writePte a (pte &&& ~~~PTE_U)

end Xv6
