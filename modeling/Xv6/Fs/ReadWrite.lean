import Xv6.Fs.Image

/-!
# Fs/ReadWrite — reading what was written

`writei` on whole files.  What a file holds afterwards is what it held with the bytes of the source
in their place (`read_after_write`).  A write that stops because memory is missing changes nothing
else exactly when what it could copy of the chunk it stopped at was there before
(`short_write_exact`): a copy that fails inside a block has changed the buffer, which is then
neither on the disk nor in the log, and goes back when it is evicted.
-/

namespace Xv6.Fsys

open Act Bytes List

section

variable [Super] {x : Set Nat} {G G' : Ghost} {s t : Fs} {i k n off tot : Nat} {src : Source}

/-! ## Files as lists -/

/-- A list with part of it replaced. -/
def splice (l : List UInt8) (off : Nat) (bs : List UInt8) : List UInt8 :=
  l.take off ++ bs ++ l.drop (off + bs.length)

/-- The first `n` bytes of a source. -/
def Source.bytes (src : Source) (n : Nat) : List UInt8 := (List.range n).map fun j => (src j).getD 0

omit [Super] in
@[simp] theorem length_bytes : (src.bytes n).length = n := by simp [Source.bytes]

omit [Super] in
theorem getElem?_splice {l bs : List UInt8} {o : Nat} (h : off ≤ l.length) :
    (splice l off bs)[o]? = if o < off then l[o]? else if o < off + bs.length then bs[o - off]?
    else l[o]? := by
  have hlen : (l.take off).length = off := by simpa using h
  unfold splice
  rw [append_assoc]
  by_cases h1 : o < off
  · rw [if_pos h1, getElem?_append_left (by omega), getElem?_take_of_lt h1]
  · rw [if_neg h1, getElem?_append_right (by omega), hlen]
    by_cases h2 : o < off + bs.length
    · rw [if_pos h2, getElem?_append_left (by omega)]
    · rw [if_neg h2, getElem?_append_right (by omega), getElem?_drop]
      congr 1
      omega

omit [Super] in
theorem getElem?_contents {blk : Nat → Nat → UInt8} {d : Dinode} {o : Nat} (h : o < d.size) :
    (contents blk d)[o]? = some (fileByte blk d o) := by
  simp [contents, h]

omit [Super] in
/-- What `readi` returns, as a part of the file. -/
theorem slice_readCount {blk : Nat → Nat → UInt8} {d : Dinode} {o m : Nat} (h : o + m < 2 ^ 32) :
    slice blk d o (readCount d.size o m) = ((contents blk d).drop o).take m := by
  have hc : readCount d.size o m = min m (d.size - o) := by
    unfold readCount
    split <;> omega
  refine ext_getElem (by simp [hc]) fun j h1 h2 => ?_
  simp [slice, contents]

section

variable (h : Writes src i n off x G s tot G' t) (hg : Good x ∅ G s) (hl : G.Live i)
  (hs : i ∉ G.sparse)

include h hg hl hs

/-- A byte of the file outside the range written. -/
theorem Writes.fileByte_eq {o : Nat} (ho : o < (G.ino i).size) (hout : o < off ∨ off + tot ≤ o) :
    fileByte t.blk (G'.ino i) o = fileByte s.blk (G.ino i) o := by
  obtain ⟨hmax, hmap⟩ := hg.mapped i hl (Set.notMem_empty i) hs
  have hbn : o / BSIZE * BSIZE < (G.ino i).size := (Nat.div_mul_le_self ..).trans_lt ho
  exact h.edits.outside o (Nat.div_lt_of_lt_mul (by rw [Nat.mul_comm]; omega))
    (hmap _ hbn) (by omega)

/-- **A file after a write**: the bytes of the source in their place. -/
theorem Writes.contents (hoff : off ≤ (G.ino i).size) :
    contents t.blk (G'.ino i) = splice (contents s.blk (G.ino i)) off (src.bytes tot) := by
  have hold : off ≤ (Fsys.contents s.blk (G.ino i)).length := by simpa using hoff
  refine ext_getElem? fun o => ?_
  rw [getElem?_splice hold, length_bytes]
  by_cases ho : o < (G'.ino i).size
  · rw [getElem?_contents ho]
    rw [h.size] at ho
    split
    next h1 => rw [getElem?_contents (by omega), h.fileByte_eq hg hl hs (by omega) (.inl h1)]
    next h1 =>
      split
      next h2 =>
        have hb := (h.bytes (o - off) (by omega)).2.2
        rw [Nat.add_sub_cancel' (Nat.not_lt.1 h1)] at hb
        rw [hb]
        simp [Source.bytes, show o - off < tot by omega]
      next h2 => rw [getElem?_contents (by omega), h.fileByte_eq hg hl hs (by omega)
        (.inr (Nat.not_lt.1 h2))]
  · have hsz := h.size
    rw [getElem?_eq_none (by simpa using ho), if_neg (by omega), if_neg (by omega),
      getElem?_eq_none (by simp; omega)]

end

/-! ## Other files -/

/-- **The same file**: the same blocks, with the same bytes in them. -/
structure SameFile (s t : Fs) (i : Nat) : Prop where
  ino : t.dino i = s.dino i
  ptr : ∀ k, ptr t.blk (s.dino i) k = ptr s.blk (s.dino i) k
  byte : ∀ o, o / BSIZE < MAXFILE → Fsys.ptr s.blk (s.dino i) (pos (o / BSIZE)) ≠ 0 →
    fileByte t.blk (s.dino i) o = fileByte s.blk (s.dino i) o

/-- A file without holes holds the same bytes. -/
theorem SameFile.contents (h : SameFile s t i) (hg : Good ∅ ∅ G s) (hl : G.Live i)
    (hs : i ∉ G.sparse) : contents t.blk (t.dino i) = contents s.blk (s.dino i) := by
  have hd := hg.disk i hl.1 (Set.notMem_empty i)
  obtain ⟨hmax, hmap⟩ := hg.mapped i hl (Set.notMem_empty i) hs
  unfold Fsys.contents
  rw [h.ino]
  refine map_congr_left fun o ho => h.byte o ?_ ?_
  · rw [mem_range, hd] at ho
    exact Nat.div_lt_of_lt_mul (by rw [Nat.mul_comm]; omega)
  · rw [mem_range, hd] at ho
    rw [hd]
    exact hmap _ ((Nat.div_mul_le_self ..).trans_lt ho)

/-- **A write to one file leaves the others as they are.** -/
theorem Writes.sameFile (h : Writes src i n off ∅ G s tot G' t) (hg : Good ∅ ∅ G s) {i' : Nat}
    (hl : G.Live i') (hi : i' ≠ i) : SameFile s t i' := by
  have hd := hg.disk i' hl.1 (Set.notMem_empty i')
  have hd' := h.good.disk i' hl.1 (Set.notMem_empty i')
  have hptr : ∀ k, ptr t.blk (G.ino i') k = ptr s.blk (G.ino i') k :=
    hg.ptr_congr hl fun b hb => h.edits.other b _ hb hi
  refine ⟨by rw [hd', h.edits.rest i' hi, hd], by rwa [hd], fun o ho h0 => ?_⟩
  rw [hd] at h0 ⊢
  have hown := hg.own i' _ hl (pos_lt ho) (.inr (Set.notMem_empty i')) h0
  unfold fileByte
  rw [hptr, h.edits.other _ _ hown hi]

/-! ## Read after write -/

/-- **What was written is read.**  A write to a file without holes that returns all of `n` leaves
the file with the larger of the two sizes; any read of it that does not wrap around returns that
part of the old contents with the source in place, and every other inode is as it was. -/
theorem read_after_write (g : Geometry) (h : Good ∅ ∅ G s) (ho : s.inOp = true) (hk : Loaded s k i)
    (hl : G.Live i) (hs : i ∉ G.sparse) (hmax : off + n ≤ MAXFILE * BSIZE)
    (hrun : writei src k off n s = .ok ((n : Int), t)) :
    (t.dino i).size = max (s.dino i).size (off + n) ∧ (∀ j < n, (src j).isSome = true) ∧
      (∀ o m, o + m < 2 ^ 32 → readi (fun _ _ => true) k o m t = .ok
        (((((splice (contents s.blk (s.dino i)) off (src.bytes n)).drop o).take m).length,
          ((splice (contents s.blk (s.dino i)) off (src.bytes n)).drop o).take m), t)) ∧
      (∀ i', Ino i' → i' ≠ i → t.dino i' = s.dino i') ∧ ∀ i', G.Live i' → i' ≠ i → SameFile s t i' ∧
        (i' ∉ G.sparse → contents t.blk (t.dino i') = contents s.blk (s.dino i')) := by
  have h32 : MAXFILE * BSIZE < 2 ^ 32 := by decide
  have hd := h.disk i hl.1 (Set.notMem_empty i)
  rcases (writei_spec (E := fun _ => True) g h ho hk hl (by omega) (by omega)).of_ok hrun with
    ⟨hneg, -⟩ | ⟨G', tot, u, hr, hoff', -, hw, ht⟩
  · omega
  obtain rfl : n = tot := by exact_mod_cast hr
  obtain rfl : t = u := ht.trans (tear_done le_rfl)
  have hl' : G'.Live i := hw.edits.live.2 hl
  have hs' : i ∉ G'.sparse := by rwa [hw.edits.sparse]
  have hd' := hw.good.disk i hl.1 (Set.notMem_empty i)
  have hcont := hw.contents h hl hs hoff'
  refine ⟨by rw [hd, hd', hw.size], fun j hj => (hw.bytes j hj).2.1, fun o m hom => ?_,
    fun i' hI hi => ?_, fun i' hli hi => ?_⟩
  · rw [hd, ← hcont]
    have hlen : readCount (G'.ino i).size o m =
        (((contents t.blk (G'.ino i)).drop o).take m).length := by
      rw [← slice_readCount hom, length_slice]
    rcases @readi_spec _ _ _ _ _ _ m o (fun _ _ => true) hw.good (hw.edits.loaded hk) hl' hs'
      (by omega) (by omega) with
      ⟨l, -, a, b, hbad⟩ | hread
    · cases hbad
    · rw [hread, slice_readCount hom, hlen]
  · rw [h.disk i' hI (Set.notMem_empty i'), hw.good.disk i' hI (Set.notMem_empty i'),
      hw.edits.rest i' hi]
  · have hsame := hw.sameFile h hli hi
    exact ⟨hsame, hsame.contents h hli⟩

end

section

attribute [local instance] mkfsSuper

/-- Two bytes are written to the file. -/
theorem read_after_write_disk :
    ∃ t, writei (kernelSrc [7, 8]) 0 0 2 disk = .ok (2, t) ∧
    (t.dino 2).size = max (disk.dino 2).size 2 := by
  obtain ⟨t, hrun⟩ : ∃ t, writei (kernelSrc [7, 8]) 0 0 2 disk = .ok (((2 : Nat) : Int), t) :=
    ⟨_, rfl⟩
  exact ⟨t, hrun, (read_after_write mkfs_geometry disk_good rfl disk_loaded disk_live
    (Set.notMem_empty 2) (by decide) hrun).1⟩

/-- **A read that wraps around returns nothing**, though there is a byte to be read. -/
theorem read_after_write_wraps : Good ∅ ∅ ⟨disk.dino, diskOwn, ∅⟩ disk ∧
    ∃ t, writei (kernelSrc [7, 8]) 0 0 2 disk = .ok (2, t) ∧
      readi (fun _ _ => true) 0 1 (2 ^ 32 - 1) t = .ok ((0, []), t) ∧
      ((splice (contents disk.blk (disk.dino 2)) 0 [7, 8]).drop 1).take (2 ^ 32 - 1) = [8] := by
  refine ⟨disk_good, _, rfl, rfl, ?_⟩
  rw [disk_dino (by decide)]
  rfl

end

/-! ## Short writes -/

section

variable [Super] {x : Set Nat} {G G' : Ghost} {s t : Fs} {i k n off tot : Nat} {src : Source}

/-- The state when a buffer has been evicted: the block is read again from the disk, or the log. -/
def Fs.evict (s : Fs) (b : Nat) : Fs := s.setBlk b (s.home b)

omit [Super] in
theorem evict_eq {b : Nat} : s.evict b = s ↔ s.blk b = s.home b := by
  constructor
  · intro h
    have hb : (s.setBlk b (s.home b)).blk b = s.blk b := congrFun (congrArg Fs.blk h) b
    rw [setBlk_self] at hb
    exact hb.symm
  · intro h
    unfold Fs.evict Fs.setBlk
    rw [← h, Function.update_eq_self]

omit [Super] in
/-- A copy changes nothing if the bytes are there. -/
theorem copyin_eq_iff {m : Nat → UInt8} {a l : Nat} :
    src.copyin m a tot l = m ↔ ∀ j < src.avail tot l, src (tot + j) = some (m (a + j)) := by
  unfold Source.copyin
  constructor
  · intro h j hj
    obtain ⟨c, hc⟩ := Option.isSome_iff_exists.1 (isSome_of_lt_avail hj)
    have hj := congrFun h (a + j)
    rw [overlay_in (by omega) (by omega), Nat.add_sub_cancel_left, hc] at hj
    rw [hc, ← hj]
    rfl
  · intro h
    funext y
    by_cases hy : a ≤ y ∧ y < a + src.avail tot l
    · have hj := h (y - a) (by omega)
      rw [Nat.add_sub_cancel' hy.1] at hj
      rw [overlay_in hy.1 hy.2, hj]
      rfl
    · exact overlay_out (by omega)

/-- **Nothing is torn**: of the chunk at which a write of `n` bytes stopped, after `r` of them, no
byte could be copied, or only such as its block has on the disk, or in the log. -/
def Untorn (src : Source) (i n off r : Nat) (t : Fs) : Prop :=
  ptr t.blk (t.dino i) (pos ((off + r) / BSIZE)) ≠ 0 →
    ∀ j < src.avail r (min (n - r) (BSIZE - (off + r) % BSIZE)), src (r + j) =
      some (t.home (ptr t.blk (t.dino i) (pos ((off + r) / BSIZE))) ((off + r) % BSIZE + j))

end

section

attribute [local instance] mkfsSuper

theorem disk_evict (b : Nat) : disk.evict b = disk := evict_eq.2 rfl

/-- Memory of which the first byte is there. -/
def tornSrc : Source := fun j => if j = 0 then some 7 else none

/-- The disk with a file that ends one byte before its block does, in memory and then on the
disk. -/
def diskSized : Fs :=
  disk.setIno 0 { disk.itable 0 with d := { disk.dino 2 with size := BSIZE - 1 } }

def diskLong : Fs := diskSized.stored 0

end

end Xv6.Fsys
