import Mathlib.Algebra.Group.Nat.Defs
import Mathlib.Logic.Function.Basic
import Xv6.Lib.Act
import Xv6.Lib.Blocks
import Xv6.Lib.Bytes

/-!
# User/Malloc — the user-level allocator

`user/umalloc.c`: a circular list of free blocks in address order, through a static header `base` of
size zero.  Every block begins with a header of one unit, sixteen bytes; a block's size counts units
and includes its header.  `malloc` takes the first block that is large enough, from the tail of it
where it is larger, and asks `sbrk` for more when it has come round; `free` puts a block back
between its neighbours and joins it to those it touches.

Memory is seen as the headers at its addresses.  What `sbrk` answers is not decided here: the
answers are an input, and the regions obtained are recorded.
-/

namespace Xv6.Umalloc

open Function

/-- `union header`. -/
structure Header where
  ptr : Nat
  size : Nat
deriving DecidableEq, Repr

/-- The memory the allocator works on. -/
structure Heap where
  /-- What stands at an address, read as a header. -/
  hdr : Nat → Header
  freep : Nat
  /-- The regions `sbrk` has given: first address and bytes. -/
  obtained : List (Nat × Nat)
  /-- What `sbrk` will answer, `none` for `-1`. -/
  answers : List (Option Nat)

/-- `sizeof(Header)`. -/
def UNIT : Nat := 16

/-- A number as the `int` it is passed as. -/
def toInt (n : Nat) : Int :=
  if n % UINT < 2 ^ 31 then (n % UINT : Nat) else (n % UINT : Nat) - (UINT : Int)

namespace Heap

variable (s : Heap) (p : Nat)

/-- `p->s.ptr`. -/
def ptr : Nat := (s.hdr p).ptr

/-- `p->s.size`. -/
def size : Nat := (s.hdr p).size

/-- `p + p->s.size`, the address after the block. -/
def past : Nat := p + UNIT * s.size p

/-- The bytes of the block at `p`. -/
def tile : Nat × Nat := (p, UNIT * s.size p)

/-- Store a header. -/
def put (h : Header) : Heap := { s with hdr := update s.hdr p h }

end Heap

/-! ## The functions of `umalloc.c` -/

/-- The loop ran out of steps. -/
inductive Fault
  | fuel
deriving DecidableEq, Repr

/-- The two ways out of `free`'s loop at `p`: `bp` lies between `p` and the next block, or `p` is
where the list wraps and `bp` lies beyond one of its ends. -/
def fits (s : Heap) (bp p : Nat) : Bool :=
  (p < bp && bp < s.ptr p) || (s.ptr p ≤ p && (p < bp || bp < s.ptr p))

/-- Join `bp` to the block after it, or link it there. -/
def joinUpper (p bp : Nat) (s : Heap) : Heap :=
  if s.past bp = s.ptr p then s.put bp ⟨s.ptr (s.ptr p), (s.size bp + s.size (s.ptr p)) % UINT⟩
  else s.put bp ⟨s.ptr p, s.size bp⟩

/-- Join `bp` to the block before it, or link it there. -/
def joinLower (p bp : Nat) (s : Heap) : Heap :=
  if s.past p = bp then s.put p ⟨s.ptr bp, (s.size p + s.size bp) % UINT⟩
  else s.put p ⟨bp, s.size p⟩

def free (fuel ap : Nat) : Act Heap Fault Unit := fun s =>
  let bp := ap - UNIT
  match follow s.ptr (fits s bp) fuel s.freep with
  | none => .error .fuel
  | some p => .ok ((), { joinLower p bp (joinUpper p bp s) with freep := p })

/-- `sbrk`, with the kernel's next answer; what it gives is recorded. -/
def sbrk (n : Int) : Act Heap Fault (Option Nat) := fun s =>
  match s.answers with
  | [] => .ok (none, s)
  | none :: rest => .ok (none, { s with answers := rest })
  | some a :: rest =>
    .ok (some a, { s with answers := rest, obtained := (a, n.toNat) :: s.obtained })

/-- The units `morecore` asks for. -/
def coreUnits (nu : Nat) : Nat := if nu < 4096 then 4096 else nu

def morecore (fuel nu : Nat) : Act Heap Fault Nat := do
  let nu := coreUnits nu
  match ← sbrk (toInt (nu * UNIT)) with
  | none => return 0
  | some hp =>
    Act.modify fun s => s.put hp ⟨s.ptr hp, nu⟩
    free fuel (hp + UNIT)
    Act.gets Heap.freep

/-- The units a request of `nbytes` takes, with its header. -/
def units (nbytes : Nat) : Nat := ((nbytes + UNIT - 1) / UNIT + 1) % UINT

/-- Take `nunits` from the block at `p`, the one after `prevp`. -/
def take (nunits prevp p : Nat) : Act Heap Fault Nat := fun s =>
  if s.size p = nunits then
    .ok (p + UNIT, { s.put prevp ⟨s.ptr p, s.size prevp⟩ with freep := prevp })
  else
    let s := s.put p ⟨s.ptr p, s.size p - nunits⟩
    let q := s.past p
    .ok (q + UNIT, { s.put q ⟨s.ptr q, nunits⟩ with freep := prevp })

/-- `malloc`'s loop. -/
def mallocLoop (nunits : Nat) : Nat → Nat → Nat → Act Heap Fault Nat
  | 0, _, _ => Act.stop .fuel
  | fuel + 1, prevp, p => fun s =>
    if nunits ≤ s.size p then take nunits prevp p s
    else if p = s.freep then
      (do let p ← morecore fuel nunits
          if p = 0 then return 0
          else fun s => mallocLoop nunits fuel p (s.ptr p) s : Act Heap Fault Nat) s
    else mallocLoop nunits fuel p (s.ptr p) s

/-- The first call makes `base` the whole list. -/
def initialise (base : Nat) (s : Heap) : Heap :=
  if s.freep = 0 then { s.put base ⟨base, 0⟩ with freep := base } else s

def malloc (base fuel nbytes : Nat) : Act Heap Fault Nat := do
  Act.modify (initialise base)
  fun s => mallocLoop (units nbytes) fuel s.freep (s.ptr s.freep) s

/-! ## Running to the end -/

/-- **The code returns**: with enough steps it gives this result, whatever more it is given. -/
def Returns {α : Type} (m : Nat → Act Heap Fault α) (s : Heap) (a : α) (t : Heap) : Prop :=
  ∃ b, ∀ fuel, b ≤ fuel → m fuel s = .ok (a, t)

/-- There is one result. -/
theorem Returns.unique {α : Type} {m : Nat → Act Heap Fault α} {s t t' : Heap} {a a' : α}
    (h : Returns m s a t) (h' : Returns m s a' t') : a = a' ∧ t = t' := by
  obtain ⟨b, h⟩ := h
  obtain ⟨b', h'⟩ := h'
  have e := (h (max b b') (le_max_left _ _)).symm.trans (h' (max b b') (le_max_right _ _))
  simpa using e

/-! ## Headers after a store -/

section

variable {s : Heap} {p q : Nat} {h : Header}

@[simp] theorem put_ptr_self : (s.put p h).ptr p = h.ptr := by simp [Heap.put, Heap.ptr]

@[simp] theorem put_size_self : (s.put p h).size p = h.size := by simp [Heap.put, Heap.size]

theorem put_hdr_of_ne (hq : q ≠ p) : (s.put p h).hdr q = s.hdr q := update_of_ne hq ..

@[simp] theorem put_obtained : (s.put p h).obtained = s.obtained := rfl

theorem joinUpper_obtained : (joinUpper p q s).obtained = s.obtained := by
  unfold joinUpper; split <;> rfl

theorem joinUpper_answers : (joinUpper p q s).answers = s.answers := by
  unfold joinUpper; split <;> rfl

theorem joinLower_obtained : (joinLower p q s).obtained = s.obtained := by
  unfold joinLower; split <;> rfl

theorem joinLower_answers : (joinLower p q s).answers = s.answers := by
  unfold joinLower; split <;> rfl

theorem ptr_congr {t : Heap} (e : t.hdr p = s.hdr p) :
    t.ptr p = s.ptr p := by rw [Heap.ptr, e, Heap.ptr]

theorem size_congr {t : Heap} (e : t.hdr p = s.hdr p) :
    t.size p = s.size p := by rw [Heap.size, e, Heap.size]

theorem tile_congr {t : Heap} (e : t.size p = s.size p) :
    t.tile p = s.tile p := by rw [Heap.tile, e, Heap.tile]

theorem past_congr {t : Heap} (e : t.size p = s.size p) :
    t.past p = s.past p := by rw [Heap.past, e, Heap.past]

end

/-- **A request takes its bytes and a header**; nothing is lost to the width of the count. -/
theorem units_eq {nbytes : Nat} (h : nbytes < UINT) : units nbytes = (nbytes + 15) / 16 + 1 := by
  unfold units UNIT UINT at *
  omega

/-- **The size `sbrk` is asked for is an `int`**: from `2 ^ 27` units on it is not what is
needed. -/
theorem toInt_eq_iff {nu : Nat} : toInt (nu * UNIT) = (nu * UNIT : Nat) ↔ nu < 2 ^ 27 := by
  unfold toInt UNIT UINT
  split <;> omega

end Xv6.Umalloc
