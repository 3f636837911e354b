import Mathlib.Data.Set.Basic
import Xv6.Fs.Inode

/-!
# Fs/Store — whose each block is

`Good x y G s` is the invariant of the disk.  The ghost state `G` says what every inode is — in
memory, where it may be ahead of the disk (the inodes in `x`) — and which pointer owns each block.
A pointer of an inode is a position: twelve direct addresses, the address of the indirect block, and
its words.  The owner of a block is one position, so no block is in two places; what is owned is
marked in the free map, as are the blocks before the data.  The blocks below a file's size are all
there, unless the file is one that may have holes (`G.sparse`; the kernel makes none).

While an inode is being truncated (the inodes in `y`) its size is not yet zero and the words of its
indirect block still name blocks that are free.
-/

namespace Xv6.Fsys

open Act Bytes Function

/-! ## Pointers and contents -/

/-- The positions of an inode's pointers. -/
def NPOS : Nat := NDIRECT + 1 + NINDIRECT

/-- The block that a pointer of the inode names, or `0`. -/
def ptr (blk : Nat → Nat → UInt8) (d : Dinode) (k : Nat) : Nat :=
  if k ≤ NDIRECT then d.addrs k
  else if d.addrs NDIRECT = 0 then 0
  else word (blk (d.addrs NDIRECT)) (k - NDIRECT - 1)

/-- The position of a block of the file. -/
def pos (bn : Nat) : Nat := if bn < NDIRECT then bn else bn + 1

/-- A byte of the file. -/
def fileByte (blk : Nat → Nat → UInt8) (d : Dinode) (o : Nat) : UInt8 :=
  blk (ptr blk d (pos (o / BSIZE))) (o % BSIZE)

/-- The file. -/
def contents (blk : Nat → Nat → UInt8) (d : Dinode) : List UInt8 :=
  (List.range d.size).map (fileByte blk d)

@[simp] theorem length_contents {blk : Nat → Nat → UInt8} {d : Dinode} :
    (contents blk d).length = d.size := by
  simp [contents]

theorem ptr_direct {blk : Nat → Nat → UInt8} {d : Dinode} {k : Nat} (h : k ≤ NDIRECT) :
    ptr blk d k = d.addrs k :=
  if_pos h

theorem pos_ne {bn : Nat} : pos bn ≠ NDIRECT := by
  unfold pos
  split <;> omega

theorem pos_lt {bn : Nat} (h : bn < MAXFILE) : pos bn < NPOS := by
  unfold pos NPOS MAXFILE at *
  split <;> omega

theorem pos_inj {bn bn' : Nat} (h : pos bn = pos bn') : bn = bn' := by
  unfold pos at h
  split at h <;> split at h <;> omega

/-! ## Buffers -/

section

variable {s : Fs} {b c : Nat} {m : Nat → UInt8}

theorem setBlk_self : (s.setBlk b m).blk b = m := update_self ..

theorem setBlk_of_ne (h : c ≠ b) : (s.setBlk b m).blk c = s.blk c := update_of_ne h ..

end

variable [Super]

/-! ## The three views -/

section

variable {s : Fs} {b c i j : Nat} {d : Dinode}

theorem dino_congr {t : Fs} (h : t.blk (IBLOCK i) = s.blk (IBLOCK i)) : t.dino i = s.dino i := by
  rw [Fs.dino, h, Fs.dino]

theorem used_congr {t : Fs} (h : t.blk (BBLOCK b) = s.blk (BBLOCK b)) : t.used b = s.used b := by
  rw [Fs.used, h, Fs.used]

/-- **What `iupdate` stores is what is read.** -/
theorem dino_setDino (hd : d.Norm) : (s.setDino i d).dino j = if j = i then d else s.dino j := by
  have hi : i % IPB < 16 := Nat.mod_lt _ (by decide)
  unfold Fs.setDino
  by_cases hb : IBLOCK j = IBLOCK i
  · have hdiv : j / IPB = i / IPB := Nat.add_right_cancel hb
    rw [Fs.dino, hb, setBlk_self]
    split
    next h =>
      subst h
      exact Dinode.get_put hd
    next h =>
      have hmod : j % IPB ≠ i % IPB := fun e => h (by
        rw [← Nat.div_add_mod j IPB, ← Nat.div_add_mod i IPB, hdiv, e])
      rw [Fs.dino, hb]
      refine Dinode.get_congr fun x hx => Dinode.put_out ?_
      unfold DSIZE at *
      omega
  · rw [if_neg (by rintro rfl; exact hb rfl), dino_congr (setBlk_of_ne hb)]

theorem used_mark : (s.mark b).used c = (decide (b = c) || s.used c) := by
  unfold Fs.mark
  by_cases hb : BBLOCK c = BBLOCK b
  · have hdiv : c / BPB = b / BPB := Nat.add_right_cancel hb
    have hiff : b % BPB = c % BPB ↔ b = c := ⟨fun e => by
      rw [← Nat.div_add_mod b BPB, ← Nat.div_add_mod c BPB, hdiv, e], fun e => by rw [e]⟩
    rw [Fs.used, hb, setBlk_self, bit_setBit, Fs.used, hb]
    simp only [hiff]
  · have hne : b ≠ c := by rintro rfl; exact hb rfl
    rw [used_congr (setBlk_of_ne hb)]
    simp [hne]

end

/-- An inode number. -/
def Ino (i : Nat) : Prop := 1 ≤ i ∧ i < Super.ninodes

instance {i : Nat} : Decidable (Ino i) := inferInstanceAs (Decidable (_ ∧ _))

namespace Geometry

variable (g : Geometry) {b i : Nat}

include g

/-- Inodes, the free map and data are in different blocks. -/
theorem ino_ne_bit (hi : Ino i) : IBLOCK i ≠ BBLOCK b := by
  have h := g.inodes i hi.2
  have h' : Super.bmapstart ≤ BBLOCK b := Nat.le_add_left ..
  omega

theorem ino_ne_data (hi : Ino i) (hb : dataStart ≤ b) : IBLOCK i ≠ b := by
  have h := g.inodes i hi.2
  have h' : Super.bmapstart ≤ dataStart := (Nat.le_add_right ..).trans (Nat.le_succ _)
  omega

end Geometry

theorem bit_ne_data {b c : Nat} (hc : c < Super.size) (hb : dataStart ≤ b) : BBLOCK c ≠ b := by
  have h : c / BPB ≤ Super.size / BPB := Nat.div_le_div_right hc.le
  unfold dataStart at hb
  unfold BBLOCK
  omega

/-! ## The invariant -/

/-- What the invariant knows of the disk besides its bytes. -/
structure Ghost where
  /-- What each inode is. -/
  ino : Nat → Dinode
  /-- The inode and position that has each block. -/
  own : Nat → Option (Nat × Nat)
  /-- The inodes that may have holes. -/
  sparse : Set Nat := ∅

/-- The inode is allocated. -/
def Ghost.Live (G : Ghost) (i : Nat) : Prop := Ino i ∧ (G.ino i).type ≠ 0

/-- **The disk is consistent.** -/
structure Good (x y : Set Nat) (G : Ghost) (s : Fs) : Prop where
  disk : ∀ i, Ino i → i ∉ x → s.dino i = G.ino i
  norm : ∀ i, Ino i → (G.ino i).Norm
  mem : ∀ k < NINODE, 0 < (s.itable k).ref → (s.itable k).valid = true → (s.itable k).d = G.ino
    (s.itable k).inum
  range : ∀ k < NINODE, 0 < (s.itable k).ref → Ino (s.itable k).inum
  uniq : ∀ k < NINODE, ∀ k' < NINODE, 0 < (s.itable k).ref → 0 < (s.itable k').ref →
    (s.itable k).inum = (s.itable k').inum → k = k'
  own : ∀ i k, G.Live i → k < NPOS → (k ≤ NDIRECT ∨ i ∉ y) → ptr s.blk (G.ino i) k ≠ 0 →
    G.own (ptr s.blk (G.ino i) k) = some (i, k)
  owned : ∀ b i k, G.own b = some (i, k) →
    G.Live i ∧ k < NPOS ∧ ptr s.blk (G.ino i) k = b ∧ dataStart ≤ b ∧ b < Super.size
  bits : ∀ b < Super.size, b < dataStart ∨ G.own b ≠ none → s.used b = true
  mapped : ∀ i, G.Live i → i ∉ y → i ∉ G.sparse → (G.ino i).size ≤ MAXFILE * BSIZE ∧
    ∀ bn, bn * BSIZE < (G.ino i).size → ptr s.blk (G.ino i) (pos bn) ≠ 0

/-- An entry of the inode table that is in use for an inode. -/
structure Held (s : Fs) (k i : Nat) : Prop where
  lt : k < NINODE
  ref : 0 < (s.itable k).ref
  inum : (s.itable k).inum = i

/-- …and has been read. -/
structure Loaded (s : Fs) (k i : Nat) : Prop extends Held s k i where
  valid : (s.itable k).valid = true

section

variable {x y : Set Nat} {G : Ghost} {s t : Fs} {b i j k n : Nat} {m : Nat → UInt8}

namespace Good

section

variable (h : Good x y G s)

include h

/-- More inodes may be ahead of the disk. -/
theorem mono {x' y' : Set Nat} (hx : x ⊆ x') (hy : y ⊆ y') : Good x' y' G s :=
  { h with
    disk := fun i hi hn => h.disk i hi fun hm => hn (hx hm)
    own := fun i k hl hk hn => h.own i k hl hk (hn.imp_right fun hn hm => hn (hy hm))
    mapped := fun i hl hn => h.mapped i hl fun hm => hn (hy hm) }

theorem loaded (hk : Loaded s k i) : (s.itable k).d = G.ino i := by
  rw [h.mem k hk.lt hk.ref hk.valid, hk.inum]

theorem ino (hk : Held s k i) : Ino i := hk.inum ▸ h.range k hk.lt hk.ref

/-- The indirect block of a live inode is its own. -/
theorem indirect (hl : G.Live i) (h0 : (G.ino i).addrs NDIRECT ≠ 0) :
    G.own ((G.ino i).addrs NDIRECT) = some (i, NDIRECT) := by
  have hp : ptr s.blk (G.ino i) NDIRECT = (G.ino i).addrs NDIRECT := ptr_direct le_rfl
  rw [← hp] at h0 ⊢
  exact h.own i NDIRECT hl (by decide) (.inl le_rfl) h0

/-- Pointers are read off the inode and its indirect block. -/
theorem ptr_congr (hl : G.Live i) (hb : ∀ b, G.own b = some (i, NDIRECT) → t.blk b = s.blk b)
    (k : Nat) : ptr t.blk (G.ino i) k = ptr s.blk (G.ino i) k := by
  unfold ptr
  split
  · rfl
  · split
    · rfl
    next h0 => rw [hb _ (h.indirect hl h0)]

/-- **What the blocks hold of the invariant**: the inodes, the indirect blocks and the bits of the
blocks in use. -/
theorem of_blocks (hi : t.itable = s.itable) (hd : ∀ i, Ino i → t.blk (IBLOCK i) = s.blk (IBLOCK i))
    (hind : ∀ b i, G.own b = some (i, NDIRECT) → t.blk b = s.blk b)
    (hbits : ∀ b < Super.size, b < dataStart ∨ G.own b ≠ none → t.used b = true) :
    Good x y G t := by
  have hptr : ∀ i k, G.Live i → ptr t.blk (G.ino i) k = ptr s.blk (G.ino i) k := fun i k hl =>
    h.ptr_congr hl (fun b hb => hind b i hb) k
  refine ⟨fun i hi hx => ?_, h.norm, ?_, ?_, ?_, fun i k hl hk hn h0 => ?_, fun b i k ho => ?_,
    hbits, fun i hl hy hs => ⟨(h.mapped i hl hy hs).1, fun bn hbn => ?_⟩⟩
  · rw [dino_congr (hd i hi)]
    exact h.disk i hi hx
  · rw [hi]; exact h.mem
  · rw [hi]; exact h.range
  · rw [hi]; exact h.uniq
  · rw [hptr i k hl] at h0 ⊢
    exact h.own i k hl hk hn h0
  · obtain ⟨h1, h2, h3, h4⟩ := h.owned b i k ho
    exact ⟨h1, h2, by rw [hptr i k h1, h3], h4⟩
  · rw [hptr i _ hl]
    exact (h.mapped i hl hy hs).2 bn hbn

theorem congr (hb : t.blk = s.blk) (hi : t.itable = s.itable) : Good x y G t :=
  h.of_blocks hi (fun _ _ => congrFun hb _) (fun _ _ _ => congrFun hb _) fun b hs hu =>
    (used_congr (congrFun hb _)).trans (h.bits b hs hu)

/-- **Blocks of data hold no part of the invariant.** -/
theorem of_data (g : Geometry) (hi : t.itable = s.itable)
    (hlow : ∀ b < dataStart, t.blk b = s.blk b)
    (hind : ∀ b i, G.own b = some (i, NDIRECT) → t.blk b = s.blk b) : Good x y G t := by
  refine h.of_blocks hi (fun i hi => hlow _ ?_) hind fun b hb hu => ?_
  · by_contra hc
    exact g.ino_ne_data hi (Nat.not_lt.1 hc) rfl
  · rw [used_congr (hlow _ ?_)]
    · exact h.bits b hb hu
    · by_contra hc
      exact bit_ne_data hb (Nat.not_lt.1 hc) rfl

/-- **A change of bits that keeps those of the blocks in use.** -/
theorem of_bits (g : Geometry) (hi : t.itable = s.itable) {c : Nat} (hc : c < Super.size)
    (hblk : ∀ b, b ≠ BBLOCK c → t.blk b = s.blk b)
    (hbits : ∀ b < Super.size, b < dataStart ∨ G.own b ≠ none → t.used b = true) : Good x y G t :=
  h.of_blocks hi (fun _ hi => hblk _ (g.ino_ne_bit hi))
    (fun b i hb => hblk b (bit_ne_data hc (h.owned b i _ hb).2.2.2.1).symm) hbits

end

end Good

/-! ## Allocation -/

/-- A block is logged. -/
def Fs.note (s : Fs) (b : Nat) : Fs :=
  { s with home := update s.home b (s.blk b), logged := b :: s.logged }

omit [Super] in
theorem wp_logWrite {Q : Unit → Fs → Prop} {E : Panic → Prop} (ho : s.inOp = true) :
    wp (logWrite b) Q E s ↔ Q () (s.note b) := by
  unfold wp logWrite
  rw [if_pos ho]
  rfl

/-- The disk after `balloc` has found `b`. -/
def Fs.alloced (s : Fs) (b : Nat) : Fs := (((s.mark b).note (BBLOCK b)).setBlk b fun _ => 0).note b

/-- The block that `balloc` finds. -/
def Fs.spare (s : Fs) : Option Nat := (List.range Super.size).find? fun b => !s.used b

theorem balloc_spec {Q : Nat → Fs → Prop} {E : Panic → Prop} (ho : s.inOp = true)
    (h0 : s.spare = none → Q 0 s) (h1 : ∀ b, s.spare = some b → Q b (s.alloced b)) :
    wp balloc Q E s := by
  unfold balloc
  rw [wp_bind, wp_gets]
  split
  next hs => exact h0 hs
  next b hs =>
    simp only [wp_bind, wp_modify, bzero]
    have hm : (s.mark b).inOp = true := ho
    have hz : (((s.mark b).note (BBLOCK b)).setBlk b fun _ => 0).inOp = true := ho
    rw [wp_logWrite hm, wp_logWrite hz]
    exact h1 b hs

theorem spare_spec (h : s.spare = some b) : b < Super.size ∧ s.used b = false := by
  unfold Fs.spare at h
  have h1 := List.mem_range.1 (List.mem_of_find?_eq_some h)
  have h2 := List.find?_some h
  exact ⟨h1, by simpa using h2⟩

theorem alloced_blk {c : Nat} (h1 : c ≠ b) (h2 : c ≠ BBLOCK b) : (s.alloced b).blk c = s.blk c :=
  (setBlk_of_ne h1).trans (setBlk_of_ne h2)

theorem alloced_blk_self : (s.alloced b).blk b = fun _ => 0 := setBlk_self

theorem alloced_used {c : Nat} (hb : dataStart ≤ b) (hc : c < Super.size) :
    (s.alloced b).used c = (decide (b = c) || s.used c) := by
  have e : (s.alloced b).used c = (s.mark b).used c := used_congr (setBlk_of_ne (bit_ne_data hc hb))
  rw [e, used_mark]

/-- A block that `balloc` finds is nobody's, and lies in the data. -/
theorem Good.spare (h : Good x y G s) (hs : s.spare = some b) :
    dataStart ≤ b ∧ b < Super.size ∧ G.own b = none := by
  obtain ⟨h1, h2⟩ := spare_spec hs
  refine ⟨?_, h1, ?_⟩
  · by_contra hc
    rw [h.bits b h1 (.inl (Nat.not_le.1 hc))] at h2
    exact absurd h2 (by decide)
  · by_contra hc
    rw [h.bits b h1 (.inr hc)] at h2
    exact absurd h2 (by decide)

/-- **`balloc` keeps the disk consistent.** -/
theorem Good.alloced (g : Geometry) (h : Good x y G s) (hs : s.spare = some b) :
    Good x y G (s.alloced b) := by
  obtain ⟨h1, h2, h3⟩ := h.spare hs
  have hm : Good x y G (s.mark b) :=
    h.of_bits g rfl h2 (fun c hc => setBlk_of_ne hc) fun c hc hu => by
    rw [used_mark, h.bits c hc hu, Bool.or_true]
  have hz : Good x y G ((s.mark b).setBlk b fun _ => 0) := hm.of_data g rfl
    (fun c hc => setBlk_of_ne (by omega)) fun c i ho => setBlk_of_ne
    (by rintro rfl; rw [h3] at ho; cases ho)
  exact hz.congr rfl rfl

/-! ## An inode changes in memory -/

/-- The ghost state with another inode, and other owners. -/
def Ghost.set (G : Ghost) (i : Nat) (d : Dinode) (own : Nat → Option (Nat × Nat)) : Ghost :=
  ⟨update G.ino i d, own, G.sparse⟩

section

variable {d : Dinode} {own : Nat → Option (Nat × Nat)} {i' : Nat}

omit [Super] in
@[simp] theorem set_ino_self : (G.set i d own).ino i = d := update_self ..

omit [Super] in
theorem set_ino_of_ne (h : i' ≠ i) : (G.set i d own).ino i' = G.ino i' := update_of_ne h ..

end

/-- **The rule for a change of an inode in memory**: what is said of it is shown again, and its
blocks may change hands. -/
theorem Good.put (h : Good x y G s) (hk : Loaded s k i) {ip : Inode} {d : Dinode}
    {own : Nat → Option (Nat × Nat)} (hb : t.blk = s.blk) (ht : t.itable = update s.itable k ip)
    (hip : ip.inum = i ∧ ip.d = d) (hn : d.Norm)
    (hown : ∀ j, d.type ≠ 0 → j < NPOS → (j ≤ NDIRECT ∨ i ∉ y) → ptr s.blk d j ≠ 0 →
      own (ptr s.blk d j) = some (i, j))
    (hother : ∀ b i' j, i' ≠ i → (own b = some (i', j) ↔ G.own b = some (i', j)))
    (howned : ∀ b j, own b = some (i, j) →
      d.type ≠ 0 ∧ j < NPOS ∧ ptr s.blk d j = b ∧ dataStart ≤ b ∧ b < Super.size)
    (hbits : ∀ b < Super.size, own b ≠ none → s.used b = true)
    (hmapped : d.type ≠ 0 → i ∉ y → i ∉ G.sparse → d.size ≤ MAXFILE * BSIZE ∧
      ∀ bn, bn * BSIZE < d.size → ptr s.blk d (pos bn) ≠ 0) :
    Good (insert i x) y (G.set i d own) t := by
  have hino : (G.set i d own).ino i = d := set_ino_self
  have hne : ∀ i', i' ≠ i → (G.set i d own).ino i' = G.ino i' := fun i' hi => set_ino_of_ne hi
  have hI : Ino i := h.ino hk.toHeld
  -- entries other than `k` are for other inodes
  have hinum : ∀ k', (t.itable k').inum = if k' = k then i else (s.itable k').inum := fun k' => by
    rw [ht]
    by_cases e : k' = k
    · subst e
      rw [update_self, if_pos rfl, hip.1]
    · rw [update_of_ne e, if_neg e]
  have hsame : ∀ k', k' ≠ k → t.itable k' = s.itable k' := fun k' e => by rw [ht, update_of_ne e]
  have hdiff : ∀ k' < NINODE, k' ≠ k → 0 < (s.itable k').ref → (s.itable k').inum ≠ i :=
    fun k' hl e hr he =>
    e (h.uniq k' hl k hk.lt hr hk.ref (he.trans hk.inum.symm))
  refine ⟨fun i' hi hx => ?_, fun i' hi => ?_, fun k' hl hr hv => ?_, fun k' hl hr => ?_,
    fun k₁ h1 k₂ h2 r1 r2 he => ?_, fun i' j hl hj hy h0 => ?_, fun b i' j ho => ?_,
    fun b hs hu => ?_, fun i' hl hy hs => ?_⟩
  · have hx' : i' ≠ i ∧ i' ∉ x := by simpa using hx
    rw [dino_congr (congrFun hb _), hne i' hx'.1]
    exact h.disk i' hi hx'.2
  · by_cases e : i' = i
    · subst e
      rwa [hino]
    · rw [hne i' e]
      exact h.norm i' hi
  · by_cases e : k' = k
    · subst e
      rw [hinum, if_pos rfl, hino, ht, update_self, hip.2]
    · rw [hsame k' e] at hr hv ⊢
      rw [hne _ (hdiff k' hl e hr)]
      exact h.mem k' hl hr hv
  · rw [hinum]
    split
    next => exact hI
    next e =>
      rw [hsame k' e] at hr
      exact h.range k' hl hr
  · by_cases e1 : k₁ = k
    · by_cases e2 : k₂ = k
      · rw [e1, e2]
      · rw [hsame k₂ e2] at r2 he
        rw [hinum, if_pos e1] at he
        exact absurd he.symm (hdiff k₂ h2 e2 r2)
    · rw [hsame k₁ e1] at r1 he
      by_cases e2 : k₂ = k
      · rw [hinum, if_pos e2] at he
        exact absurd he (hdiff k₁ h1 e1 r1)
      · rw [hsame k₂ e2] at r2 he
        exact h.uniq k₁ h1 k₂ h2 r1 r2 he
  · by_cases e : i' = i
    · subst e
      have hd : d.type ≠ 0 := by have := hl.2; rwa [hino] at this
      rw [hino, hb] at h0 ⊢
      exact hown j hd hj hy h0
    · have hl' : G.Live i' := ⟨hl.1, by have := hl.2; rwa [hne i' e] at this⟩
      rw [hne i' e, hb] at h0 ⊢
      exact (hother _ i' j e).2 (h.own i' j hl' hj hy h0)
  · by_cases e : i' = i
    · subst e
      obtain ⟨h1, h2, h3, h4⟩ := howned b j ho
      rw [hb]
      exact ⟨⟨hI, by rwa [hino]⟩, h2, by rwa [hino], h4⟩
    · obtain ⟨h1, h2, h3, h4⟩ := h.owned b i' j ((hother b i' j e).1 ho)
      rw [hb]
      exact ⟨⟨h1.1, by rw [hne i' e]; exact h1.2⟩, h2, by rwa [hne i' e], h4⟩
  · rw [used_congr (congrFun hb _)]
    exact hu.elim (fun hu => h.bits b hs (.inl hu)) (hbits b hs)
  · by_cases e : i' = i
    · subst e
      have hd : d.type ≠ 0 := by have := hl.2; rwa [hino] at this
      rw [hino, hb]
      exact hmapped hd hy hs
    · have hl' : G.Live i' := ⟨hl.1, by have := hl.2; rwa [hne i' e] at this⟩
      rw [hne i' e, hb]
      exact h.mapped i' hl' hy hs

end

end Xv6.Fsys
