import Xv6.Fs.File
import Xv6.Lib.Act
import Xv6.Lib.Bytes

/-!
# Fs/Disk — the disk as the file system sees it

The on-disk format of `fs.h`, in bytes: inodes packed into blocks, the free bitmap, blocks of data.
`blk` is what `bread` gives, the contents of a block through the buffer cache; `home` is what the
log and the disk hold, which a buffer goes back to when it is evicted.  `log_write` makes the two
agree.

Every access is read through one of three views — an inode (`dino`), a bit (`used`), a word of a
block — and each view has two laws: what a store to it does, and that a store elsewhere does
nothing.
-/

namespace Xv6.Fsys

open Act Bytes Function

/-! ## Layout -/

/-- Bytes per block. -/
def BSIZE : Nat := 1024

/-- `sizeof(struct dinode)`. -/
def DSIZE : Nat := 64

/-- Inodes per block. -/
def IPB : Nat := BSIZE / DSIZE

/-- Bitmap bits per block. -/
def BPB : Nat := BSIZE * 8

def NDIRECT : Nat := 12
def NINDIRECT : Nat := BSIZE / 4
def MAXFILE : Nat := NDIRECT + NINDIRECT

/-- The superblock, as `fsinit` has read it. -/
class Super where
  size : Nat
  ninodes : Nat
  inodestart : Nat
  bmapstart : Nat

section

variable [Super]

/-- The block of an inode. -/
def IBLOCK (i : Nat) : Nat := i / IPB + Super.inodestart

/-- The block of a bit of the free map. -/
def BBLOCK (b : Nat) : Nat := b / BPB + Super.bmapstart

/-- The first block after the free map. -/
def dataStart : Nat := Super.bmapstart + Super.size / BPB + 1

/-- **A layout that `mkfs` could have made**: inodes, then the free map, then data. -/
structure Geometry : Prop where
  inodes : ∀ i < Super.ninodes, IBLOCK i < Super.bmapstart
  data : dataStart ≤ Super.size
  uint : Super.size < 2 ^ 32
  root : 1 < Super.ninodes
  ushort : Super.ninodes ≤ 2 ^ 16

end

/-! ## Shorts -/

/-- A number as the `short` it is stored as. -/
def toShort (n : Int) : Int := (n + 2 ^ 15) % 2 ^ 16 - 2 ^ 15

/-- A `short` that is in range is itself. -/
theorem toShort_eq {n : Int} (h : -2 ^ 15 ≤ n ∧ n < 2 ^ 15) : toShort n = n := by
  unfold toShort
  omega

theorem toShort_range (n : Int) : -2 ^ 15 ≤ toShort n ∧ toShort n < 2 ^ 15 := by
  unfold toShort
  omega

def getShort (m : Nat → UInt8) (a : Nat) : Int := toShort (getLE m a 2)

def setShort (m : Nat → UInt8) (a : Nat) (v : Int) : Nat → UInt8 := setLE m a 2 (v % 2 ^ 16).toNat

theorem getShort_setShort {m : Nat → UInt8} {a : Nat} {v : Int} :
    getShort (setShort m a v) a = toShort v := by
  unfold getShort setShort
  rw [getLE_setLE]
  unfold toShort
  omega

theorem getShort_congr {m m' : Nat → UInt8} {a : Nat} (h : ∀ i < 2, m (a + i) = m' (a + i)) :
    getShort m a = getShort m' a := by
  unfold getShort
  rw [getLE_congr 2 h]

/-! ## Inodes -/

/-- `struct dinode`. -/
@[ext]
structure Dinode where
  type : Int := 0
  major : Int := 0
  minor : Int := 0
  nlink : Int := 0
  size : Nat := 0
  addrs : Nat → Nat := fun _ => 0

namespace Dinode

/-- The fields are those of the C types. -/
structure Norm (d : Dinode) : Prop where
  type : toShort d.type = d.type
  major : toShort d.major = d.major
  minor : toShort d.minor = d.minor
  nlink : toShort d.nlink = d.nlink
  size : d.size < 2 ^ 32
  addr : ∀ k, d.addrs k < 2 ^ 32
  beyond : ∀ k, NDIRECT < k → d.addrs k = 0

/-- Read the fields. -/
def get (m : Nat → UInt8) (o : Nat) : Dinode where
  type := getShort m o
  major := getShort m (o + 2)
  minor := getShort m (o + 4)
  nlink := getShort m (o + 6)
  size := getLE m (o + 8) 4
  addrs k := if k ≤ NDIRECT then getLE m (o + 12 + 4 * k) 4 else 0

/-- Store the addresses. -/
def putAddrs (d : Dinode) (m : Nat → UInt8) (o : Nat) : Nat → UInt8 :=
  overlay m o 52 fun j => UInt8.ofNat (d.addrs (j / 4) / 256 ^ (j % 4))

/-- Store the fields. -/
def put (d : Dinode) (m : Nat → UInt8) (o : Nat) : Nat → UInt8 :=
  let m := setShort m o d.type
  let m := setShort m (o + 2) d.major
  let m := setShort m (o + 4) d.minor
  let m := setShort m (o + 6) d.nlink
  let m := setLE m (o + 8) 4 d.size
  d.putAddrs m (o + 12)

variable {d : Dinode} {m m' : Nat → UInt8} {o o' x : Nat}

theorem get_norm : (get m o).Norm where
  type := toShort_eq (toShort_range _)
  major := toShort_eq (toShort_range _)
  minor := toShort_eq (toShort_range _)
  nlink := toShort_eq (toShort_range _)
  size := getLE_lt ..
  addr k := by
    unfold get
    simp only
    split
    · exact getLE_lt ..
    · decide
  beyond k hk := if_neg (Nat.not_le.2 hk)

/-- A store leaves the rest of the block. -/
theorem put_out (h : x < o ∨ o + DSIZE ≤ x) : d.put m o x = m x := by
  unfold DSIZE at h
  unfold put putAddrs setShort setLE
  rw [overlay_out (by omega), overlay_out (by omega), overlay_out (by omega),
    overlay_out (by omega), overlay_out (by omega), overlay_out (by omega)]

/-- The fields depend on their bytes. -/
theorem get_congr (h : ∀ i < DSIZE, m (o + i) = m' (o + i)) : get m o = get m' o := by
  unfold DSIZE at h
  have hs : ∀ a, a + 2 ≤ 64 → getShort m (o + a) = getShort m' (o + a) := fun a ha =>
    getShort_congr fun i hi => by
      rw [Nat.add_assoc]
      exact h (a + i) (by omega)
  have hl : ∀ a, a + 4 ≤ 64 → getLE m (o + a) 4 = getLE m' (o + a) 4 := fun a ha =>
    getLE_congr 4 fun i hi => by
      rw [Nat.add_assoc]
      exact h (a + i) (by omega)
  ext k
  · exact hs 0 (by omega)
  · exact hs 2 (by omega)
  · exact hs 4 (by omega)
  · exact hs 6 (by omega)
  · exact hl 8 (by omega)
  · unfold get
    simp only
    split
    next hk =>
      unfold NDIRECT at hk
      rw [Nat.add_assoc]
      exact hl (12 + 4 * k) (by omega)
    next => rfl

/-- A short beside a store of other bytes. -/
theorem getShort_overlay_out {a b n : Nat} {f : Nat → UInt8} (h : b + 2 ≤ a ∨ a + n ≤ b) :
    getShort (overlay m a n f) b = getShort m b := by
  unfold getShort
  rw [getLE_overlay_out h]

theorem getShort_setShort_ne {a b : Nat} {v : Int} (h : b + 2 ≤ a ∨ a + 2 ≤ b) :
    getShort (setShort m a v) b = getShort m b :=
  getShort_overlay_out h

/-- The shorts come before the size and the addresses. -/
theorem getShort_put {b : Nat} (h : b + 2 ≤ o + 8) : getShort (d.put m o) b =
    getShort (setShort (setShort (setShort (setShort m o d.type) (o + 2) d.major) (o + 4) d.minor)
    (o + 6) d.nlink) b := by
  unfold put putAddrs setLE
  rw [getShort_overlay_out (by omega), getShort_overlay_out (by omega)]

/-- **What is stored is read back.** -/
theorem get_put (h : d.Norm) : get (d.put m o) o = d := by
  ext k
  · show getShort (d.put m o) o = _
    rw [getShort_put (by omega), getShort_setShort_ne (by omega), getShort_setShort_ne (by omega),
      getShort_setShort_ne (by omega), getShort_setShort, h.type]
  · show getShort (d.put m o) (o + 2) = _
    rw [getShort_put (by omega), getShort_setShort_ne (by omega), getShort_setShort_ne (by omega),
      getShort_setShort, h.major]
  · show getShort (d.put m o) (o + 4) = _
    rw [getShort_put (by omega), getShort_setShort_ne (by omega), getShort_setShort, h.minor]
  · show getShort (d.put m o) (o + 6) = _
    rw [getShort_put (by omega), getShort_setShort, h.nlink]
  · unfold get put putAddrs
    simp only
    rw [getLE_overlay_out (by omega), getLE_setLE]
    exact Nat.mod_eq_of_lt h.size
  · unfold get put putAddrs
    simp only
    split
    next hk =>
      unfold NDIRECT at hk
      rw [getLE_digits (o + 12 + 4 * k) 4 (d.addrs k) fun i hi => ?_]
      · exact Nat.mod_eq_of_lt (h.addr k)
      · rw [overlay_in (by omega) (by omega), show o + 12 + 4 * k + i - (o + 12) = 4 * k +
          i by omega, show (4 * k + i) / 4 = k by omega, show (4 * k + i) % 4 = i by omega]
    next hk => exact (h.beyond k (Nat.lt_of_not_le hk)).symm

end Dinode

/-! ## The free map -/

/-- The mask of a bit in its byte. -/
def mask (bi : Nat) : UInt8 := 1 <<< UInt8.ofNat (bi % 8)

/-- A bit of the free map. -/
def bit (m : Nat → UInt8) (bi : Nat) : Bool := m (bi / 8) &&& mask bi != 0

def setBit (m : Nat → UInt8) (bi : Nat) : Nat → UInt8 := update m (bi / 8) (m (bi / 8) ||| mask bi)

section

variable {m : Nat → UInt8} {i j : Nat}

theorem mask_toBitVec : (mask i).toBitVec = 1#8 <<< (i % 8) := by
  unfold mask
  simp

theorem and_shift_ne : ∀ v : BitVec 8, ∀ b : Fin 8, (v &&& (1#8 <<< b.val) != 0) =
    v.getLsbD b.val := by
  decide +kernel

/-- A bit is a bit of its byte. -/
theorem bit_eq : bit m i = (m (i / 8)).toBitVec.getLsbD (i % 8) := by
  have h := and_shift_ne (m (i / 8)).toBitVec ⟨i % 8, Nat.mod_lt _ (by decide)⟩
  unfold bit
  rw [← h, ← mask_toBitVec, ← UInt8.toBitVec_and]
  simp only [bne, beq_eq_decide, ← UInt8.toBitVec_inj]
  rfl

theorem getLsbD_mask : (mask i).toBitVec.getLsbD (j % 8) = decide (i % 8 = j % 8) := by
  have hj : j % 8 < 8 := Nat.mod_lt _ (by decide)
  rw [mask_toBitVec, BitVec.getLsbD_shiftLeft, BitVec.getLsbD_one]
  by_cases h : i % 8 = j % 8
  · simp [h, hj]
  · simp [h, hj]
    omega

theorem same_iff (h : j / 8 = i / 8) : i % 8 = j % 8 ↔ i = j := by omega

/-- **A bit that is set is set**, and the others are what they were. -/
theorem bit_setBit : bit (setBit m i) j = (decide (i = j) || bit m j) := by
  rw [bit_eq, bit_eq, setBit]
  by_cases h : j / 8 = i / 8
  · rw [h, update_self, UInt8.toBitVec_or, BitVec.getLsbD_or, getLsbD_mask, Bool.or_comm]
    simp only [same_iff h]
  · rw [update_of_ne h]
    have hne : i ≠ j := by rintro rfl; exact h rfl
    simp [hne]

end

/-! ## State -/

/-- `struct inode`, the in-memory copy of an inode. -/
structure Inode where
  inum : Nat := 0
  ref : Nat := 0
  locked : Bool := false
  valid : Bool := false
  /-- The copy of the disk inode. -/
  d : Dinode := {}

/-- What the file-system code works on. -/
structure Fs where
  /-- The contents of a block, as `bread` gives them. -/
  blk : Nat → Nat → UInt8
  /-- Its contents in the log or on the disk. -/
  home : Nat → Nat → UInt8
  /-- Between `begin_op` and `end_op`. -/
  inOp : Bool
  /-- The blocks logged in this operation. -/
  logged : List Nat
  /-- Those of the operations before it. -/
  ops : List (List Nat)
  itable : Nat → Inode
  ftable : Nat → Files.File

/-- The panics of `fs.c` and `log_write`, and a process that waits for itself. -/
inductive Panic
  | outsideOfTrans
  | ilock
  | noType
  | iunlock
  | bmapOutOfRange
  | deadlock
  deriving DecidableEq, Repr

namespace Fs

variable (s : Fs)

/-- Change a buffer. -/
def setBlk (b : Nat) (m : Nat → UInt8) : Fs := { s with blk := update s.blk b m }

/-- Change an entry of the inode table. -/
def setIno (k : Nat) (ip : Inode) : Fs := { s with itable := update s.itable k ip }

variable [Super]

/-- The inode on the disk. -/
def dino (i : Nat) : Dinode := .get (s.blk (IBLOCK i)) (DSIZE * (i % IPB))

/-- Store an inode. -/
def setDino (i : Nat) (d : Dinode) : Fs :=
  s.setBlk (IBLOCK i) (d.put (s.blk (IBLOCK i)) (DSIZE * (i % IPB)))

/-- The bit of a block. -/
def used (b : Nat) : Bool := bit (s.blk (BBLOCK b)) (b % BPB)

/-- Mark a block. -/
def mark (b : Nat) : Fs := s.setBlk (BBLOCK b) (setBit (s.blk (BBLOCK b)) (b % BPB))

end Fs

/-- A word of a block of addresses. -/
def word (m : Nat → UInt8) (j : Nat) : Nat := getLE m (4 * j) 4

def setWord (m : Nat → UInt8) (j v : Nat) : Nat → UInt8 := setLE m (4 * j) 4 v

theorem word_setWord {m : Nat → UInt8} {i j v : Nat} (hv : v < 2 ^ 32) :
    word (setWord m i v) j = if j = i then v else word m j := by
  unfold word setWord
  split
  next h =>
    subst h
    rw [getLE_setLE]
    exact Nat.mod_eq_of_lt hv
  next h => exact getLE_setLE_out (by omega)

/-! ## Blocks -/

/-- `begin_op`, when there is room. -/
def beginOp : Act Fs Panic Unit := modify fun s => { s with inOp := true, logged := [] }

/-- `end_op`: the transaction is committed. -/
def endOp : Act Fs Panic Unit :=
  modify fun s => { s with inOp := false, logged := [], ops := s.ops ++ [s.logged] }

/-- `log_write`. -/
def logWrite (b : Nat) : Act Fs Panic Unit := fun s =>
  if s.inOp then .ok ((), { s with home := update s.home b (s.blk b), logged := b :: s.logged })
  else .error .outsideOfTrans

/-- Zero a block. -/
def bzero (b : Nat) : Act Fs Panic Unit := do
  modify fun s => s.setBlk b fun _ => 0
  logWrite b

section

variable [Super]

/-- Allocate a zeroed block: the first whose bit is clear, or `0`. -/
def balloc : Act Fs Panic Nat := do
  match ← gets fun s => (List.range Super.size).find? fun b => !s.used b with
  | none => return 0
  | some b =>
    modify fun s => s.mark b
    logWrite (BBLOCK b)
    bzero b
    return b

end

end Xv6.Fsys
