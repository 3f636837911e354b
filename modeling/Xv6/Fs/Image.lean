import Xv6.Fs.Data

/-!
# Fs/Image — disks that are given

A disk is written down inode by inode: `Fs.setInos` stores a list of inodes, and `dino_setInos`
reads them back. `disk` has the layout that `mkfs` gives to a disk of two thousand blocks, and two
files: the root, and a file of two bytes that an entry of the inode table has open.
-/

namespace Xv6.Fsys

open Act Bytes Option

section

variable [Super] {s : Fs}

/-- Store inodes. -/
def Fs.setInos (s : Fs) (l : List (Nat × Dinode)) : Fs := l.foldl (fun s p => s.setDino p.1 p.2) s

/-- **What is stored is read back**, the last of what is stored for a number. -/
theorem dino_setInos {l : List (Nat × Dinode)} (hn : ∀ p ∈ l, p.2.Norm) (i : Nat) :
    (s.setInos l).dino i = (l.reverse.lookup i).getD (s.dino i) := by
  induction l generalizing s with
  | nil => rfl
  | cons p l ih =>
    have h := @ih (s.setDino p.1 p.2) fun q hq => hn q (List.mem_cons_of_mem _ hq)
    rw [show s.setInos (p :: l) = (s.setDino p.1 p.2).setInos l from rfl, h,
      dino_setDino (hn p List.mem_cons_self), List.reverse_cons, List.lookup_append]
    cases l.reverse.lookup i with
    | some d => rw [some_or, getD_some, getD_some]
    | none =>
      rw [none_or, getD_none]
      by_cases e : i = p.1
      · rw [if_pos e, e, List.lookup_cons_self, getD_some]
      · have hne : (i == p.1) = false := beq_eq_false_iff_ne.2 e
        rw [if_neg e, show [p] = [(p.1, p.2)] from rfl, List.lookup_cons, hne]
        rfl

/-- Blocks without inodes are what they were. -/
theorem setInos_blk {l : List (Nat × Dinode)} {b : Nat} (hb : ∀ p ∈ l, b ≠ IBLOCK p.1) :
    (s.setInos l).blk b = s.blk b := by
  induction l generalizing s with
  | nil => rfl
  | cons p l ih =>
    have h := @ih (s.setDino p.1 p.2) fun q hq => hb q (List.mem_cons_of_mem _ hq)
    exact h.trans (setBlk_of_ne (hb p List.mem_cons_self))

theorem setInos_itable {l : List (Nat × Dinode)} : (s.setInos l).itable = s.itable := by
  induction l generalizing s with
  | nil => rfl
  | cons p l ih => exact ih

/-- An inode of a block of zeros. -/
theorem dino_zero {i : Nat} (h : s.blk (IBLOCK i) = fun _ => 0) : s.dino i = {} := by
  have hz : ∀ a n, getLE (fun _ => 0) a n = 0 := fun a n => getLE_zero fun _ _ => rfl
  unfold Fs.dino
  rw [h]
  ext k
  · unfold Dinode.get getShort
    simp [hz, toShort]
  · unfold Dinode.get getShort
    simp [hz, toShort]
  · unfold Dinode.get getShort
    simp [hz, toShort]
  · unfold Dinode.get getShort
    simp [hz, toShort]
  · unfold Dinode.get
    simp [hz]
  · unfold Dinode.get
    simp [hz]

end

/-- An inode of one block. -/
def oneBlock (type : Int) (nlink : Int) (size b : Nat) : Dinode :=
  { type, nlink, size, addrs := fun k => if k = 0 then b else 0 }

theorem oneBlock_norm {type nlink : Int} {size b : Nat} (ht : toShort type = type)
    (hn : toShort nlink = nlink) (hs : size < 2 ^ 32) (hb : b < 2 ^ 32) :
    (oneBlock type nlink size b).Norm := by
  refine ⟨ht, rfl, rfl, hn, hs, fun k => ?_, fun k hk => if_neg (by omega)⟩
  show (if k = 0 then b else 0) < _
  split
  · exact hb
  · decide

/-- Its pointers. -/
theorem ptr_oneBlock {blk : Nat → Nat → UInt8} {type nlink : Int} {size b k : Nat} :
    ptr blk (oneBlock type nlink size b) k = if k = 0 then b else 0 := by
  unfold ptr oneBlock
  simp only
  by_cases hk : k ≤ NDIRECT
  · rw [if_pos hk]
  · rw [if_neg hk, if_pos (if_neg (by decide)), if_neg (by omega)]

/-! ## The disk -/

/-- The superblock of `mkfs`. -/
@[reducible] def mkfsSuper : Super := ⟨2000, 200, 32, 45⟩

attribute [local instance] mkfsSuper

theorem mkfs_geometry : Geometry := by
  refine ⟨fun i hi => ?_, by decide, by decide, by decide, by decide⟩
  have hi : i < 200 := hi
  show i / 16 + 32 < 45
  omega

/-- The blocks: the free map, the entries of the root (".", ".." and "a"), and the bytes of the
file. -/
def diskBlk : Nat → Nat → UInt8
  | 45, o => if o < 6 then 255 else 0
  | 46, o => if o = 0 ∨ o = 16 then 1 else if o = 2 ∨ o = 18 ∨ o = 19 then 46 else if o = 32 then 2
      else if o = 34 then 97 else 0
  | 47, o => if o < 2 then 5 else 0
  | _, _ => 0

/-- The root and the file. -/
def diskInos : List (Nat × Dinode) := [(1, oneBlock T_DIR 1 48 46), (2, oneBlock T_FILE 1 2 47)]

/-- The memory: an entry for the file, locked and read. -/
def diskFs : Fs where
  blk := diskBlk
  home := diskBlk
  inOp := true
  logged := []
  ops := []
  itable k := if k = 0 then ⟨2, 1, true, true, oneBlock T_FILE 1 2 47⟩ else {}
  ftable _ := {}

/-- **The disk**, in an operation on the file. -/
def disk : Fs := { diskFs.setInos diskInos with home := (diskFs.setInos diskInos).blk }

/-- The owners of its blocks. -/
def diskOwn (b : Nat) : Option (Nat × Nat) := if b = 46 then some (1, 0) else if b =
    47 then some (2, 0) else none

theorem diskInos_norm : ∀ p ∈ diskInos, p.2.Norm := by
  intro p hp
  have hp : p = (1, oneBlock T_DIR 1 48 46) ∨ p = (2, oneBlock T_FILE 1 2 47) := by
    simpa [diskInos] using hp
  rcases hp with rfl | rfl
  · exact oneBlock_norm rfl rfl (by decide) (by decide)
  · exact oneBlock_norm rfl rfl (by decide) (by decide)

theorem disk_dino {i : Nat} (hi : Ino i) :
    disk.dino i = if i = 2 then oneBlock T_FILE 1 2 47 else if i =
      1 then oneBlock T_DIR 1 48 46 else {} := by
  have e : disk.dino i = (diskFs.setInos diskInos).dino i := rfl
  have hz : diskFs.dino i = {} := dino_zero (funext fun o => by
    have h1 : i < 200 := hi.2
    have h2 : i / 16 + 32 < 45 := by omega
    show diskBlk (i / 16 + 32) o = 0
    unfold diskBlk
    split <;> first | omega | rfl)
  rw [e, dino_setInos diskInos_norm, hz]
  by_cases h2 : i = 2
  · subst h2
    rfl
  · by_cases h1 : i = 1
    · subst h1
      rfl
    · have e1 : (i == 1) = false := beq_eq_false_iff_ne.2 h1
      have e2 : (i == 2) = false := beq_eq_false_iff_ne.2 h2
      simp [diskInos, List.lookup_cons, e1, e2, h1, h2]

theorem disk_blk {b : Nat} (hb : b ≠ 32) : disk.blk b = diskBlk b := by
  show (diskFs.setInos diskInos).blk b = diskFs.blk b
  refine setInos_blk fun p hp => ?_
  have hp : p = (1, oneBlock T_DIR 1 48 46) ∨ p = (2, oneBlock T_FILE 1 2 47) := by
    simpa [diskInos] using hp
  rcases hp with rfl | rfl <;> exact hb

theorem disk_itable : disk.itable = diskFs.itable := setInos_itable

/-- The pointers of its inodes. -/
theorem disk_ptr {i j : Nat} (hi : Ino i) :
    ptr disk.blk (disk.dino i) j =
      if j = 0 then (if i = 2 then 47 else if i = 1 then 46 else 0) else 0 := by
  rw [disk_dino hi]
  split
  · rw [ptr_oneBlock]
  · split
    · rw [ptr_oneBlock]
    · unfold ptr
      simp

/-- **The disk is consistent.** -/
theorem disk_good : Good ∅ ∅ ⟨disk.dino, diskOwn, ∅⟩ disk := by
  have hbits : ∀ b : Fin 48, bit (diskBlk 45) b = true := by decide
  have hent : ∀ k, 0 < (disk.itable k).ref → k = 0 := fun k hk => by
    rw [disk_itable] at hk
    by_contra hc
    simp [diskFs, hc] at hk
  refine ⟨fun _ _ _ => rfl, fun _ _ => Dinode.get_norm, fun k _ hr hv => ?_, fun k _ hr => ?_,
    fun k _ k' _ hr hr' _ => ?_, fun i j hl _ _ h0 => ?_, fun b i j ho => ?_, fun b hb hu => ?_,
    fun i hl _ _ => ?_⟩
  · obtain rfl := hent k hr
    rw [disk_itable]
    show oneBlock T_FILE 1 2 47 = disk.dino 2
    rw [disk_dino (by decide), if_pos rfl]
  · obtain rfl := hent k hr
    rw [disk_itable]
    show Ino 2
    decide
  · rw [hent k hr, hent k' hr']
  · show diskOwn (ptr disk.blk (disk.dino i) j) = _
    have h0 : ptr disk.blk (disk.dino i) j ≠ 0 := h0
    rw [disk_ptr hl.1] at h0 ⊢
    by_cases hj : j = 0
    · subst hj
      by_cases h2 : i = 2
      · subst h2
        rfl
      · by_cases h1 : i = 1
        · subst h1
          rfl
        · simp [h1, h2] at h0
    · simp [hj] at h0
  · have ho : diskOwn b = some (i, j) := ho
    have hcase : (b = 46 ∧ i = 1 ∧ j = 0) ∨ (b = 47 ∧ i = 2 ∧ j = 0) := by
      unfold diskOwn at ho
      split at ho
      · simp_all
      · split at ho
        · simp_all
        · cases ho
    rcases hcase with ⟨rfl, rfl, rfl⟩ | ⟨rfl, rfl, rfl⟩
    · refine ⟨⟨by decide, ?_⟩, by decide, (disk_ptr (by decide)).trans rfl, by decide, by decide⟩
      show (disk.dino 1).type ≠ 0
      rw [disk_dino (by decide)]
      decide
    · refine ⟨⟨by decide, ?_⟩, by decide, (disk_ptr (by decide)).trans rfl, by decide, by decide⟩
      show (disk.dino 2).type ≠ 0
      rw [disk_dino (by decide)]
      decide
  · have hlt : b < 48 := by
      rcases hu with hu | hu
      · exact hu.trans (by decide)
      · by_contra hc
        exact hu
          (by show diskOwn b = none; unfold diskOwn; rw [if_neg (by omega), if_neg (by omega)])
    have hb' : BBLOCK b = 45 := by
      show b / 8192 + 45 = 45
      omega
    unfold Fs.used
    rw [hb', disk_blk (by decide), Nat.mod_eq_of_lt (hlt.trans (by decide))]
    exact hbits ⟨b, hlt⟩
  · show (disk.dino i).size ≤ _ ∧ ∀ bn, bn * BSIZE < (disk.dino i).size →
        ptr disk.blk (disk.dino i) (pos bn) ≠ 0
    have ht : (disk.dino i).type ≠ 0 := hl.2
    have hi : i = 2 ∨ i = 1 := by
      by_contra hc
      rw [disk_dino hl.1, if_neg fun h => hc (.inl h), if_neg fun h => hc (.inr h)] at ht
      exact ht rfl
    have hsize : (disk.dino i).size ≤ 48 := by
      rw [disk_dino hl.1]
      rcases hi with rfl | rfl <;> decide
    refine ⟨hsize.trans (by decide), fun bn hbn => ?_⟩
    obtain rfl : bn = 0 := by
      unfold BSIZE at hbn
      omega
    rw [disk_ptr hl.1]
    rcases hi with rfl | rfl <;> decide

/-- The file is open. -/
theorem disk_loaded : Loaded disk 0 2 :=
  ⟨⟨by decide, by rw [disk_itable]; decide, by rw [disk_itable]; rfl⟩, by rw [disk_itable]; rfl⟩

/-- …and allocated. -/
theorem disk_live : (⟨disk.dino, diskOwn, ∅⟩ : Ghost).Live 2 := by
  refine ⟨by decide, ?_⟩
  show (disk.dino 2).type ≠ 0
  rw [disk_dino (by decide)]
  decide

end Xv6.Fsys
