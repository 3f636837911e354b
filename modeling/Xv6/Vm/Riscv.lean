import Mathlib.Data.Nat.Basic
import Mathlib.Tactic.Common
import Mathlib.Tactic.IntervalCases

/-!
# Vm/Riscv — Sv39 constants and page-table entries

The macros of `riscv.h`, `memlayout.h` and `param.h` that the virtual-memory code uses.  Addresses
are natural numbers, wrapped at `2 ^ 64` where the C code can wrap; a page-table entry is a 64-bit
vector, because the code works on its bits.
-/

namespace Xv6

/-! ## Layout -/

/-- Bytes per page. -/
def PGSIZE : Nat := 4096

/-- Start of RAM. -/
def KERNBASE : Nat := 0x80000000

/-- End of the RAM the kernel uses. -/
def PHYSTOP : Nat := KERNBASE + 128 * 1024 * 1024

/-- One beyond the highest virtual address. -/
def MAXVA : Nat := 2 ^ (9 + 9 + 9 + 12 - 1)

/-- The trampoline page, at the top of every address space. -/
def TRAMPOLINE : Nat := MAXVA - PGSIZE

/-- The trapframe page, just below the trampoline. -/
def TRAPFRAME : Nat := TRAMPOLINE - PGSIZE

/-- Size of the process table. -/
def NPROC : Nat := 64

@[simp] theorem PGSIZE_eq : PGSIZE = 4096 := rfl
@[simp] theorem KERNBASE_eq : KERNBASE = 2147483648 := rfl
@[simp] theorem PHYSTOP_eq : PHYSTOP = 2281701376 := rfl
@[simp] theorem MAXVA_eq : MAXVA = 274877906944 := rfl
@[simp] theorem TRAMPOLINE_eq : TRAMPOLINE = 274877902848 := rfl
@[simp] theorem TRAPFRAME_eq : TRAPFRAME = 274877898752 := rfl

/-- Round up to a page, in 64-bit arithmetic. -/
def PGROUNDUP (sz : Nat) : Nat := (sz + PGSIZE - 1) % 2 ^ 64 / PGSIZE * PGSIZE

/-- Round down to a page. -/
def PGROUNDDOWN (a : Nat) : Nat := a / PGSIZE * PGSIZE

/-- The 9-bit index of `va` at a level of the page table. -/
def PX (level va : Nat) : Nat := va / 2 ^ (12 + 9 * level) % 512

/-! ## Page-table entries -/

/-- A page-table entry. -/
abbrev Pte := BitVec 64

def PTE_V : Pte := 1#64 <<< 0
def PTE_R : Pte := 1#64 <<< 1
def PTE_W : Pte := 1#64 <<< 2
def PTE_X : Pte := 1#64 <<< 3
def PTE_U : Pte := 1#64 <<< 4
def PTE_RSW_COW : Pte := 1#64 <<< 8

/-- The entry that points to a physical page, without flags. -/
def PA2PTE (pa : Nat) : Pte := (BitVec.ofNat 64 pa >>> 12) <<< 10

/-- The physical page an entry points to. -/
def PTE2PA (pte : Pte) : Nat := ((pte >>> 10) <<< 12).toNat

/-- The low ten bits of an entry. -/
def PTE_FLAGS (pte : Pte) : Pte := pte &&& 0x3FF#64

/-- The C test `pte & flag`. -/
def Pte.has (pte flag : Pte) : Bool := pte &&& flag != 0#64

namespace Pte

variable {p q f : Pte}

/-- A single-bit test reads that bit. -/
theorem has_bit (p : Pte) (i : Nat) (hi : i < 64) : p.has (1#64 <<< i) = p.getLsbD i := by
  have h1 : (1#64 <<< i : Pte) = BitVec.twoPow 64 i := BitVec.twoPow_eq 64 i |>.symm
  unfold has
  rw [h1, BitVec.and_twoPow]
  cases h : p.getLsbD i
  · rfl
  · have hne : BitVec.twoPow 64 i ≠ 0#64 := fun h0 => by
      have := congrArg (fun t => BitVec.getLsbD t i) h0
      simp [hi] at this
    simpa using hne

theorem has_V : p.has PTE_V = p.getLsbD 0 := has_bit p 0 (by decide)
theorem has_R : p.has PTE_R = p.getLsbD 1 := has_bit p 1 (by decide)
theorem has_W : p.has PTE_W = p.getLsbD 2 := has_bit p 2 (by decide)
theorem has_X : p.has PTE_X = p.getLsbD 3 := has_bit p 3 (by decide)
theorem has_U : p.has PTE_U = p.getLsbD 4 := has_bit p 4 (by decide)
theorem has_COW : p.has PTE_RSW_COW = p.getLsbD 8 := has_bit p 8 (by decide)

@[simp] theorem has_or (p f b : Pte) : (p ||| f).has b = (p.has b || f.has b) := by
  have h : (p ||| f) &&& b = (p &&& b) ||| (f &&& b) := by
    refine BitVec.eq_of_getLsbD_eq fun i _ => ?_
    simp only [BitVec.getLsbD_and, BitVec.getLsbD_or, Bool.and_or_distrib_right]
  unfold has
  rw [h, Bool.eq_iff_iff]
  simp only [bne_iff_ne, ne_eq, Bool.or_eq_true, BitVec.or_eq_zero_iff]
  tauto

theorem has_flag_or (p f g : Pte) : p.has (f ||| g) = (p.has f || p.has g) := by
  have e : ∀ a b : Pte, a.has b = b.has a := fun a b => by unfold has; rw [BitVec.and_comm]
  rw [e, has_or, e f, e g]

@[simp] theorem has_zero (f : Pte) : Pte.has 0#64 f = false := by simp [has]

theorem ne_zero_of_has {p f : Pte} (h : p.has f = true) : p ≠ 0#64 := by
  rintro rfl
  simp at h

theorem has_andNot_bit (p f : Pte) (i : Nat) (hi : i < 64) :
    (p &&& ~~~f).has (1#64 <<< i) = (p.has (1#64 <<< i) && !f.has (1#64 <<< i)) := by
  rw [has_bit _ i hi, has_bit _ i hi, has_bit _ i hi, BitVec.getLsbD_and, BitVec.getLsbD_not]
  simp [hi]

@[simp] theorem has_V_andNot : (p &&& ~~~f).has PTE_V = (p.has PTE_V && !f.has PTE_V) :=
  has_andNot_bit p f 0 (by decide)
@[simp] theorem has_R_andNot : (p &&& ~~~f).has PTE_R = (p.has PTE_R && !f.has PTE_R) :=
  has_andNot_bit p f 1 (by decide)
@[simp] theorem has_W_andNot : (p &&& ~~~f).has PTE_W = (p.has PTE_W && !f.has PTE_W) :=
  has_andNot_bit p f 2 (by decide)
@[simp] theorem has_X_andNot : (p &&& ~~~f).has PTE_X = (p.has PTE_X && !f.has PTE_X) :=
  has_andNot_bit p f 3 (by decide)
@[simp] theorem has_U_andNot : (p &&& ~~~f).has PTE_U = (p.has PTE_U && !f.has PTE_U) :=
  has_andNot_bit p f 4 (by decide)
@[simp] theorem has_COW_andNot :
    (p &&& ~~~f).has PTE_RSW_COW = (p.has PTE_RSW_COW && !f.has PTE_RSW_COW) :=
  has_andNot_bit p f 8 (by decide)

/-- Flag words: nothing above the ten flag bits. -/
def IsFlags (f : Pte) : Prop := f >>> 10 = 0#64

instance : Decidable (IsFlags f) := inferInstanceAs (Decidable (_ = _))

theorem IsFlags.bit (h : IsFlags f) (i : Nat) : f.getLsbD (10 + i) = false := by
  have := congrArg (fun t => BitVec.getLsbD t i) h
  simpa [BitVec.getLsbD_ushiftRight] using this

theorem isFlags_FLAGS (p : Pte) : IsFlags (PTE_FLAGS p) := by
  unfold IsFlags PTE_FLAGS
  rw [BitVec.ushiftRight_and_distrib, show (0x3FF#64 : Pte) >>> 10 = 0#64 by decide]
  exact BitVec.and_zero

theorem IsFlags.or {f g : Pte} (hf : IsFlags f) (hg : IsFlags g) : IsFlags (f ||| g) := by
  unfold IsFlags at *
  rw [BitVec.ushiftRight_or_distrib, hf, hg, BitVec.or_zero]

theorem isFlags_V : IsFlags PTE_V := by decide
theorem isFlags_R : IsFlags PTE_R := by decide
theorem isFlags_W : IsFlags PTE_W := by decide
theorem isFlags_X : IsFlags PTE_X := by decide
theorem isFlags_U : IsFlags PTE_U := by decide
theorem isFlags_COW : IsFlags PTE_RSW_COW := by decide

/-- **Setting flags keeps the page.** -/
theorem PTE2PA_or (h : IsFlags f) : PTE2PA (p ||| f) = PTE2PA p := by
  unfold PTE2PA
  rw [BitVec.ushiftRight_or_distrib, h, BitVec.or_zero]

/-- **Clearing flags keeps the page.** -/
theorem PTE2PA_andNot (h : IsFlags f) : PTE2PA (p &&& ~~~f) = PTE2PA p := by
  unfold PTE2PA
  have : (p &&& ~~~f) >>> 10 = p >>> 10 := by
    refine BitVec.eq_of_getLsbD_eq fun i hi => ?_
    rw [BitVec.getLsbD_ushiftRight, BitVec.getLsbD_ushiftRight, BitVec.getLsbD_and,
      BitVec.getLsbD_not, h.bit i]
    by_cases hb : 10 + i < 64
    · simp [hb]
    · rw [BitVec.getLsbD_of_ge _ _ (by omega)]
      rfl
  rw [this]

/-- **An entry built from a page points to it.** -/
theorem PTE2PA_PA2PTE {pa : Nat} (ha : pa % PGSIZE = 0) (hb : pa < 2 ^ 64) :
    PTE2PA (PA2PTE pa) = pa := by
  rw [PGSIZE_eq] at ha
  unfold PTE2PA PA2PTE
  rw [BitVec.toNat_shiftLeft, BitVec.toNat_ushiftRight, BitVec.toNat_shiftLeft,
    BitVec.toNat_ushiftRight, BitVec.toNat_ofNat, Nat.mod_eq_of_lt hb, Nat.shiftLeft_eq,
    Nat.shiftLeft_eq, Nat.shiftRight_eq_div_pow, Nat.shiftRight_eq_div_pow]
  omega

theorem PTE2PA_mk {pa : Nat} (ha : pa % PGSIZE = 0) (hb : pa < 2 ^ 64) (hf : IsFlags f) :
    PTE2PA (PA2PTE pa ||| f) = pa := by rw [PTE2PA_or hf, PTE2PA_PA2PTE ha hb]

/-- The bits of an entry built from a page that are flags are clear. -/
theorem getLsbD_PA2PTE {pa i : Nat} (hi : i < 10) : (PA2PTE pa).getLsbD i = false := by
  unfold PA2PTE
  rw [BitVec.getLsbD_shiftLeft]
  simp [hi]

@[simp] theorem has_V_PA2PTE {pa : Nat} : (PA2PTE pa).has PTE_V = false := by
  rw [has_V, getLsbD_PA2PTE (by decide)]
@[simp] theorem has_R_PA2PTE {pa : Nat} : (PA2PTE pa).has PTE_R = false := by
  rw [has_R, getLsbD_PA2PTE (by decide)]
@[simp] theorem has_W_PA2PTE {pa : Nat} : (PA2PTE pa).has PTE_W = false := by
  rw [has_W, getLsbD_PA2PTE (by decide)]
@[simp] theorem has_X_PA2PTE {pa : Nat} : (PA2PTE pa).has PTE_X = false := by
  rw [has_X, getLsbD_PA2PTE (by decide)]
@[simp] theorem has_U_PA2PTE {pa : Nat} : (PA2PTE pa).has PTE_U = false := by
  rw [has_U, getLsbD_PA2PTE (by decide)]
@[simp] theorem has_COW_PA2PTE {pa : Nat} : (PA2PTE pa).has PTE_RSW_COW = false := by
  rw [has_COW, getLsbD_PA2PTE (by decide)]

theorem getLsbD_FLAGS {i : Nat} (hi : i < 10) : (PTE_FLAGS p).getLsbD i = p.getLsbD i := by
  unfold PTE_FLAGS
  rw [BitVec.getLsbD_and]
  have : (0x3FF#64 : Pte).getLsbD i = true := by
    interval_cases i <;> decide
  rw [this, Bool.and_true]

@[simp] theorem has_V_FLAGS : (PTE_FLAGS p).has PTE_V = p.has PTE_V := by
  rw [has_V, has_V, getLsbD_FLAGS (by decide)]
@[simp] theorem has_R_FLAGS : (PTE_FLAGS p).has PTE_R = p.has PTE_R := by
  rw [has_R, has_R, getLsbD_FLAGS (by decide)]
@[simp] theorem has_W_FLAGS : (PTE_FLAGS p).has PTE_W = p.has PTE_W := by
  rw [has_W, has_W, getLsbD_FLAGS (by decide)]
@[simp] theorem has_U_FLAGS : (PTE_FLAGS p).has PTE_U = p.has PTE_U := by
  rw [has_U, has_U, getLsbD_FLAGS (by decide)]
@[simp] theorem has_COW_FLAGS : (PTE_FLAGS p).has PTE_RSW_COW = p.has PTE_RSW_COW := by
  rw [has_COW, has_COW, getLsbD_FLAGS (by decide)]

/-! Tests of the flags themselves. -/

@[simp] theorem has_V_flag :
    PTE_V.has PTE_V = true ∧ PTE_R.has PTE_V = false ∧ PTE_W.has PTE_V = false ∧
      PTE_X.has PTE_V = false ∧ PTE_U.has PTE_V = false ∧ PTE_RSW_COW.has PTE_V = false := by
  decide
@[simp] theorem has_R_flag :
    PTE_V.has PTE_R = false ∧ PTE_R.has PTE_R = true ∧ PTE_W.has PTE_R = false ∧
      PTE_X.has PTE_R = false ∧ PTE_U.has PTE_R = false ∧ PTE_RSW_COW.has PTE_R = false := by
  decide
@[simp] theorem has_W_flag :
    PTE_V.has PTE_W = false ∧ PTE_R.has PTE_W = false ∧ PTE_W.has PTE_W = true ∧
      PTE_X.has PTE_W = false ∧ PTE_U.has PTE_W = false ∧ PTE_RSW_COW.has PTE_W = false := by
  decide
@[simp] theorem has_X_flag :
    PTE_V.has PTE_X = false ∧ PTE_R.has PTE_X = false ∧ PTE_W.has PTE_X = false ∧
      PTE_X.has PTE_X = true ∧ PTE_U.has PTE_X = false ∧ PTE_RSW_COW.has PTE_X = false := by
  decide
@[simp] theorem has_U_flag :
    PTE_V.has PTE_U = false ∧ PTE_R.has PTE_U = false ∧ PTE_W.has PTE_U = false ∧
      PTE_X.has PTE_U = false ∧ PTE_U.has PTE_U = true ∧ PTE_RSW_COW.has PTE_U = false := by
  decide
@[simp] theorem has_COW_flag :
    PTE_V.has PTE_RSW_COW = false ∧ PTE_R.has PTE_RSW_COW = false ∧ PTE_W.has PTE_RSW_COW = false ∧
      PTE_X.has PTE_RSW_COW = false ∧ PTE_U.has PTE_RSW_COW = false ∧
        PTE_RSW_COW.has PTE_RSW_COW = true := by
  decide

end Pte

-- the lemmas above are the interface; unification need not look inside
attribute [irreducible] PTE2PA PA2PTE PTE_FLAGS Pte.has

end Xv6
