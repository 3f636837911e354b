import Xv6.Fs.Store

/-!
# Fs/Bmap — blocks of files

`bmap` finds the block of the disk that holds a block of the file, and allocates what is missing.  A
file may gain blocks without a change to what is in those it has: `Grows` is that relation, and
`bmap_spec` says that `bmap` does no more than that.
-/

namespace Xv6.Fsys

open Act Bytes Function

/-! ## What does not change -/

/-- The entries of the inode table, and the open files are as they were, but for the copies of
inodes. -/
structure Stays (s t : Fs) : Prop where
  inOp : t.inOp = s.inOp
  ftable : t.ftable = s.ftable
  ops : t.ops = s.ops
  inum : ∀ k, (t.itable k).inum = (s.itable k).inum
  ref : ∀ k, (t.itable k).ref = (s.itable k).ref
  locked : ∀ k, (t.itable k).locked = (s.itable k).locked
  valid : ∀ k, (t.itable k).valid = (s.itable k).valid

/-- No buffer differs from its block that did not before. -/
def Clean (s t : Fs) : Prop := ∀ b, s.blk b = s.home b → t.blk b = t.home b

section

variable {s t u : Fs} {b i k : Nat}

theorem Stays.refl (s : Fs) : Stays s s :=
  ⟨rfl, rfl, rfl, fun _ => rfl, fun _ => rfl, fun _ => rfl, fun _ => rfl⟩

theorem Stays.trans (h : Stays s t) (h' : Stays t u) : Stays s u :=
  ⟨h'.inOp.trans h.inOp, h'.ftable.trans h.ftable, h'.ops.trans h.ops,
    fun k => (h'.inum k).trans (h.inum k), fun k => (h'.ref k).trans (h.ref k),
    fun k => (h'.locked k).trans (h.locked k), fun k => (h'.valid k).trans (h.valid k)⟩

theorem Stays.held (h : Stays s t) (hk : Held s k i) : Held t k i :=
  ⟨hk.lt, by rw [h.ref]; exact hk.ref, by rw [h.inum]; exact hk.inum⟩

theorem Stays.loaded (h : Stays s t) (hk : Loaded s k i) : Loaded t k i :=
  ⟨h.held hk.toHeld, by rw [h.valid]; exact hk.valid⟩

theorem Clean.refl (s : Fs) : Clean s s := fun _ h => h

theorem Clean.trans (h : Clean s t) (h' : Clean t u) : Clean s u := fun b hb => h' b (h b hb)

/-- A buffer that is changed and then logged. -/
theorem clean_setBlk_note {m : Nat → UInt8} : Clean s ((s.setBlk b m).note b) := fun c hc => by
  by_cases e : c = b
  · subst e
    show (s.setBlk c m).blk c = update s.home c ((s.setBlk c m).blk c) c
    rw [update_self]
  · show (s.setBlk b m).blk c = update s.home b ((s.setBlk b m).blk b) c
    rw [update_of_ne e, setBlk_of_ne e, hc]

theorem stays_note : Stays s (s.note b) := { Stays.refl s with }

theorem stays_setBlk {m : Nat → UInt8} : Stays s (s.setBlk b m) := { Stays.refl s with }

/-- A copy of an inode changes. -/
theorem stays_setD {d : Dinode} : Stays s (s.setIno k { s.itable k with d := d }) := by
  have h : ∀ j, (s.setIno k { s.itable k with d := d }).itable j =
      if j = k then { s.itable k with d := d } else s.itable j := fun j => by
    show update s.itable k _ j = _
    by_cases e : j = k
    · subst e
      rw [update_self, if_pos rfl]
    · rw [update_of_ne e, if_neg e]
  refine ⟨rfl, rfl, rfl, fun j => ?_, fun j => ?_, fun j => ?_, fun j => ?_⟩ <;>
  · rw [h]
    split
    next e => rw [e]
    next => rfl

end

variable [Super]

section

variable {x y : Set Nat} {G G' G'' : Ghost} {s t u : Fs} {b i j k bn : Nat}

theorem stays_alloced : Stays s (s.alloced b) := { Stays.refl s with }

theorem clean_alloced : Clean s (s.alloced b) :=
  (clean_setBlk_note (s := s)).trans clean_setBlk_note

/-- **A file gains blocks, and nothing else happens.** -/
structure Grows (i : Nat) (G : Ghost) (s : Fs) (G' : Ghost) (t : Fs) : Prop extends Stays s t where
  clean : Clean s t
  sparse : G'.sparse = G.sparse
  same : G'.ino i = { G.ino i with addrs := (G'.ino i).addrs }
  rest : ∀ i', i' ≠ i → G'.ino i' = G.ino i'
  ptr : ∀ k, G.Live i → ptr s.blk (G.ino i) k ≠ 0 → ptr t.blk (G'.ino i) k = ptr s.blk (G.ino i) k
  data : ∀ b p, G.own b = some p → p ≠ (i, NDIRECT) → t.blk b = s.blk b
  own : ∀ b p, G.own b = some p → G'.own b = some p

namespace Grows

theorem refl (G : Ghost) (s : Fs) : Grows i G s G s :=
  ⟨.refl s, .refl s, rfl, rfl, fun _ _ => rfl, fun _ _ _ => rfl, fun _ _ _ _ => rfl, fun _ _ h => h⟩

section

variable (h : Grows i G s G' t)

include h

theorem type (i' : Nat) : (G'.ino i').type = (G.ino i').type := by
  by_cases e : i' = i
  · rw [e, h.same]
  · rw [h.rest i' e]

theorem size : (G'.ino i).size = (G.ino i).size := by rw [h.same]

theorem live {i' : Nat} : G'.Live i' ↔ G.Live i' := by
  unfold Ghost.Live
  rw [h.type]

theorem trans (h' : Grows i G' t G'' u) : Grows i G s G'' u := by
  refine ⟨h.toStays.trans h'.toStays, h.clean.trans h'.clean, h'.sparse.trans h.sparse, ?_,
    fun i' hi => (h'.rest i' hi).trans (h.rest i' hi), fun k hl h0 => ?_,
    fun b p ho hp => (h'.data b p (h.own b p ho) hp).trans (h.data b p ho hp),
    fun b p ho => h'.own b p (h.own b p ho)⟩
  · rw [h'.same, h.same]
  · have e := h.ptr k hl h0
    rw [h'.ptr k (h.live.2 hl) (by rw [e]; exact h0), e]

end

end Grows

omit [Super] in
/-- The words of a zero block. -/
theorem word_zero {m : Nat → UInt8} (h : m = fun _ => 0) : word m j = 0 := by
  unfold word
  exact getLE_zero fun i _ => by rw [h]

omit [Super] in
theorem setAddr_norm {d : Dinode} (h : d.Norm) (hj : j ≤ NDIRECT) (hb : b < 2 ^ 32) :
    (d.setAddr j b).Norm :=
  ⟨h.type, h.major, h.minor, h.nlink, h.size, fun k => by
    show update d.addrs j b k < _
    by_cases e : k = j
    · subst e
      rwa [update_self]
    · rw [update_of_ne e]
      exact h.addr k, fun k hk => by
    show update d.addrs j b k = 0
    rw [update_of_ne (by omega)]
    exact h.beyond k hk⟩

omit [Super] in
/-- The pointers after a slot that was empty has been filled. -/
theorem ptr_setAddr {blk : Nat → Nat → UInt8} {d : Dinode} (hj : j ≤ NDIRECT) (h0 : d.addrs j = 0)
    (hz : j = NDIRECT → blk b = fun _ => 0) (k : Nat) :
    ptr blk (d.setAddr j b) k = if k = j then b else ptr blk d k := by
  by_cases hk : k ≤ NDIRECT
  · rw [ptr_direct hk, ptr_direct hk]
    show update d.addrs j b k = _
    by_cases e : k = j
    · subst e
      rw [update_self, if_pos rfl]
    · rw [update_of_ne e, if_neg e]
  · rw [if_neg (by omega)]
    unfold Fsys.ptr
    rw [if_neg hk, if_neg hk]
    show (if update d.addrs j b NDIRECT = 0 then 0 else
      word (blk (update d.addrs j b NDIRECT)) _) = _
    by_cases e : NDIRECT = j
    · subst e
      rw [update_self, h0, if_pos rfl, word_zero (hz rfl), ite_self]
    · rw [update_of_ne e]

/-- **A block that was just allocated is put into an empty slot.** -/
theorem Good.claimSlot (g : Geometry) (h : Good x ∅ G s) (hk : Loaded s k i) (hl : G.Live i)
    (hj : j ≤ NDIRECT) (h0 : (G.ino i).addrs j = 0) (hlo : dataStart ≤ b) (hhi : b < Super.size)
    (hfree : G.own b = none) (hu : s.used b = true) (hz : j = NDIRECT → s.blk b = fun _ => 0) :
    Good (insert i x) ∅ (G.set i ((G.ino i).setAddr j b) (update G.own b (some (i, j))))
      (s.setIno k { s.itable k with d := (G.ino i).setAddr j b }) := by
  have hb : b < 2 ^ 32 := hhi.trans g.uint
  have hptr : ∀ k, ptr s.blk ((G.ino i).setAddr j b) k =
      if k = j then b else ptr s.blk (G.ino i) k :=
    ptr_setAddr hj h0 hz
  have hjp : ptr s.blk (G.ino i) j = 0 := by rw [ptr_direct hj, h0]
  have hne : ∀ c p, G.own c = some p → c ≠ b := fun c p hc e => by
    rw [e, hfree] at hc
    cases hc
  refine h.put hk rfl rfl ⟨hk.inum, rfl⟩ (setAddr_norm (h.norm i hl.1) hj hb)
    (fun j' _ hj' _ hn => ?_) (fun c i' j' hi => ?_) (fun c j' hc => ?_)
    (fun c hc hn => ?_) fun _ _ hs => ?_
  · rw [hptr] at hn ⊢
    split
    next e => rw [update_self, e]
    next e =>
      rw [if_neg e] at hn
      have ho := h.own i j' hl hj' (.inr (Set.notMem_empty i)) hn
      rw [update_of_ne (hne _ _ ho), ho]
  · by_cases e : c = b
    · subst e
      rw [update_self, hfree]
      simp [hi.symm]
    · rw [update_of_ne e]
  · rw [hptr]
    by_cases e : c = b
    · subst e
      rw [update_self] at hc
      obtain rfl : j = j' := by simpa using hc
      exact ⟨hl.2, by unfold NPOS; omega, if_pos rfl, hlo, hhi⟩
    · rw [update_of_ne e] at hc
      obtain ⟨h1, h2, h3, h4⟩ := h.owned c i j' hc
      refine ⟨h1.2, h2, ?_, h4⟩
      rw [if_neg, h3]
      rintro rfl
      rw [hjp] at h3
      have : 0 < dataStart := Nat.succ_pos _
      omega
  · by_cases e : c = b
    · rw [e, hu]
    · rw [update_of_ne e] at hn
      exact h.bits c hc (.inr hn)
  · obtain ⟨h1, h2⟩ := h.mapped i hl (Set.notMem_empty i) hs
    refine ⟨h1, fun bn hbn => ?_⟩
    rw [hptr]
    split
    · have : 0 < dataStart := Nat.succ_pos _
      omega
    · exact h2 bn hbn

/-- …which only adds to the file. -/
theorem grows_slot (hj : j ≤ NDIRECT) (h0 : (G.ino i).addrs j = 0) (hfree : G.own b = none)
    (hz : j = NDIRECT → s.blk b = fun _ => 0) {own : Nat → Option (Nat × Nat)}
    (hown : own = update G.own b (some (i, j))) :
    Grows i G s (G.set i ((G.ino i).setAddr j b) own)
    (s.setIno k { s.itable k with d := (G.ino i).setAddr j b }) := by
  have hptr : ∀ k, ptr s.blk ((G.ino i).setAddr j b) k =
      if k = j then b else ptr s.blk (G.ino i) k :=
    ptr_setAddr hj h0 hz
  refine ⟨stays_setD, fun c hc => hc, rfl, ?_, fun i' hi => set_ino_of_ne hi, fun k' hl hn => ?_,
    fun _ _ _ _ => rfl, fun c p hc => ?_⟩
  · rw [set_ino_self]
    rfl
  · rw [set_ino_self]
    refine (hptr k').trans (if_neg ?_)
    rintro rfl
    rw [ptr_direct hj] at hn
    exact hn h0
  · show own c = some p
    rw [hown, update_of_ne, hc]
    rintro rfl
    rw [hfree] at hc
    cases hc

/-- What is owned is not what is allocated. -/
theorem Good.alloced_owned (h : Good x y G s) (hs : s.spare = some b) {c : Nat} {p : Nat × Nat}
    (hc : G.own c = some p) : (s.alloced b).blk c = s.blk c := by
  obtain ⟨-, hhi, hfree⟩ := h.spare hs
  refine alloced_blk (by rintro rfl; rw [hfree] at hc; cases hc) (bit_ne_data hhi ?_).symm
  exact (h.owned c p.1 p.2 hc).2.2.2.1

/-- An allocation alone does nothing to any file. -/
theorem Good.grows_alloced (h : Good x y G s) (hs : s.spare = some b) :
    Grows i G s G (s.alloced b) :=
  ⟨stays_alloced, clean_alloced, rfl, rfl, fun _ _ => rfl,
    fun k hl _ => h.ptr_congr hl (fun _ hc => h.alloced_owned hs hc) k,
    fun _ _ hc _ => h.alloced_owned hs hc, fun _ _ hc => hc⟩

/-- What `bmap` does: the file grows, and `r` is the block at position `p` of the inode. -/
structure Mapped (x : Set Nat) (G : Ghost) (s : Fs) (i p r : Nat) (G' : Ghost) (t : Fs) : Prop where
  good : Good (insert i x) ∅ G' t
  grows : Grows i G s G' t
  at_pos : ptr t.blk (G'.ino i) p = r
  /-- A block that is there is found. -/
  found : ptr s.blk (G.ino i) p ≠ 0 → r = ptr s.blk (G.ino i) p
  full : r = 0 → t.spare = none

/-- Nothing is done where the block is there. -/
theorem Mapped.of_ptr {p r : Nat} (h : Good x ∅ G s) (hr : ptr s.blk (G.ino i) p = r)
    (hfull : r = 0 → s.spare = none) : Mapped x G s i p r G s :=
  ⟨h.mono (Set.subset_insert i x) subset_rfl, .refl G s, hr, fun _ => hr.symm, hfull⟩

/-- A slot of the inode. -/
theorem bmapSlot_spec (g : Geometry) {E : Panic → Prop} (h : Good x ∅ G s) (ho : s.inOp = true)
    (hk : Loaded s k i) (hl : G.Live i) (hj : j ≤ NDIRECT) :
    wp (bmapSlot k j) (fun r t => ∃ G', Mapped x G s i j r G' t) E s := by
  have hd := h.loaded hk
  unfold bmapSlot
  rw [wp_bind, wp_gets, hd, wp_ite]
  refine ⟨fun h0 => ?_, fun h0 => ⟨G, .of_ptr h (ptr_direct hj) (absurd · h0)⟩⟩
  have hp : ptr s.blk (G.ino i) j = 0 := by rw [ptr_direct hj, h0]
  rw [wp_bind]
  refine balloc_spec ho (fun hs => ?_) fun b hs => ?_
  · rw [wp_ite]
    exact ⟨fun _ => ⟨G, .of_ptr h hp fun _ => hs⟩, fun hn => absurd rfl hn⟩
  · obtain ⟨hlo, hhi, hfree⟩ := h.spare hs
    have hb0 : b ≠ 0 := by
      have : 0 < dataStart := Nat.succ_pos _
      omega
    have ha := h.alloced g hs
    have hk' : Loaded (s.alloced b) k i := stays_alloced.loaded hk
    have hu : (s.alloced b).used b = true := by
      rw [alloced_used hlo hhi]
      simp
    rw [wp_ite]
    refine ⟨fun e => absurd e hb0, fun _ => ?_⟩
    rw [wp_bind, setD, wp_modify, wp_pure]
    have hd' : ((s.alloced b).itable k).d = G.ino i := ha.loaded hk'
    rw [hd']
    have hgrow : Grows i G s G _ := h.grows_alloced hs
    refine ⟨_, ha.claimSlot g hk' hl hj h0 hlo hhi hfree hu (fun _ => alloced_blk_self),
      hgrow.trans (grows_slot hj h0 hfree (fun _ => alloced_blk_self) rfl), ?_,
      fun hn => absurd hp hn, (absurd · hb0)⟩
    rw [set_ino_self]
    exact (ptr_setAddr hj h0 (fun _ => alloced_blk_self) j).trans (if_pos rfl)

/-! ## The indirect block -/

/-- The position of a word of the indirect block. -/
def wordPos (w : Nat) : Nat := NDIRECT + 1 + w

omit [Super] in
theorem ptr_word {blk : Nat → Nat → UInt8} {d : Dinode} {w : Nat} (h0 : d.addrs NDIRECT ≠ 0) :
    ptr blk d (wordPos w) = word (blk (d.addrs NDIRECT)) w := by
  unfold Fsys.ptr wordPos
  rw [if_neg (by omega), if_neg h0, show NDIRECT + 1 + w - NDIRECT - 1 = w by omega]

omit [Super] in
theorem ptr_word_zero {blk : Nat → Nat → UInt8} {d : Dinode} {w : Nat} (h0 : d.addrs NDIRECT = 0) :
    ptr blk d (wordPos w) = 0 := by
  unfold Fsys.ptr wordPos
  rw [if_neg (by omega), if_pos h0]

omit [Super] in
/-- The pointers after a word has been stored. -/
theorem ptr_setWord {d : Dinode} {w : Nat} (h0 : d.addrs NDIRECT ≠ 0) (hb : b < 2 ^ 32) (k : Nat) :
    ptr (s.setBlk (d.addrs NDIRECT) (setWord (s.blk (d.addrs NDIRECT)) w b)).blk d k =
      if k = wordPos w then b else ptr s.blk d k := by
  by_cases hk : k ≤ NDIRECT
  · rw [ptr_direct hk, ptr_direct hk, if_neg (by unfold wordPos; omega)]
  · obtain ⟨v, rfl⟩ : ∃ v, k = wordPos v := ⟨k - NDIRECT - 1, by unfold wordPos; omega⟩
    rw [ptr_word h0, ptr_word h0, setBlk_self, word_setWord hb]
    have hiff : wordPos v = wordPos w ↔ v = w := by unfold wordPos; omega
    simp only [hiff]

/-- **A block that was just allocated is put into an empty word.** -/
theorem Good.claimWord (g : Geometry) (h : Good x ∅ G s) (hl : G.Live i) {w : Nat}
    (hw : w < NINDIRECT) (h0 : (G.ino i).addrs NDIRECT ≠ 0)
    (hz : ptr s.blk (G.ino i) (wordPos w) = 0) (hlo : dataStart ≤ b) (hhi : b < Super.size)
    (hfree : G.own b = none) (hu : s.used b = true) :
    Good x ∅ ⟨G.ino, update G.own b (some (i, wordPos w)), G.sparse⟩
        (s.setBlk ((G.ino i).addrs NDIRECT) (setWord (s.blk ((G.ino i).addrs NDIRECT)) w b)) ∧
      Grows i G s ⟨G.ino, update G.own b (some (i, wordPos w)), G.sparse⟩
        ((s.setBlk ((G.ino i).addrs NDIRECT) (setWord (s.blk ((G.ino i).addrs NDIRECT)) w b)).note
          ((G.ino i).addrs NDIRECT)) := by
  have hb : b < 2 ^ 32 := hhi.trans g.uint
  have hptr := ptr_setWord (s := s) (d := G.ino i) (w := w) h0 hb
  have hown := h.indirect hl h0
  have hind := h.owned _ _ _ hown
  have hpos : 0 < dataStart := Nat.succ_pos _
  -- every other block, and with it every other inode, is as it was
  have hblk : ∀ c, c ≠ (G.ino i).addrs NDIRECT →
      (s.setBlk ((G.ino i).addrs NDIRECT) (setWord (s.blk ((G.ino i).addrs NDIRECT)) w b)).blk c =
        s.blk c :=
    fun c hc => setBlk_of_ne hc
  generalize ht : s.setBlk ((G.ino i).addrs NDIRECT)
    (setWord (s.blk ((G.ino i).addrs NDIRECT)) w b) = t at *
  have hother : ∀ i' k', G.Live i' → i' ≠ i → ptr t.blk (G.ino i') k' = ptr s.blk (G.ino i') k' :=
    fun i' k' hl' hi =>
    h.ptr_congr hl'
      (fun c hc => hblk c (by rintro rfl; rw [hown] at hc; exact hi (by simpa using hc.symm))) k'
  have hptr' : ∀ i' k', G.Live i' → ptr t.blk (G.ino i') k' =
        if i' = i ∧ k' = wordPos w then b else ptr s.blk (G.ino i') k' := fun i' k' hl' => by
    by_cases e : i' = i
    · subst e
      rw [hptr]
      simp
    · rw [hother i' k' hl' e, if_neg fun hc => e hc.1]
  have hne : ∀ c p, G.own c = some p → c ≠ b := fun c p hc e => by
    rw [e, hfree] at hc
    cases hc
  have hit : t.itable = s.itable := by rw [← ht]; rfl
  constructor
  · refine ⟨fun i' hi hx => ?_, h.norm, ?_, ?_, ?_, fun i' k' hl' hk' _ hn => ?_,
      fun c i' k' hc => ?_, fun c hc hu' => ?_, fun i' hl' hy hsp => ⟨(h.mapped i' hl' hy hsp).1,
      fun bn hbn => ?_⟩⟩
    · rw [dino_congr (hblk _ (g.ino_ne_data hi hind.2.2.2.1))]
      exact h.disk i' hi hx
    · rw [hit]; exact h.mem
    · rw [hit]; exact h.range
    · rw [hit]; exact h.uniq
    · show update G.own b _ _ = _
      rw [hptr' i' k' hl'] at hn ⊢
      split
      next e => rw [update_self, e.1, e.2]
      next e =>
        rw [if_neg e] at hn
        have ho := h.own i' k' hl' hk' (.inr (Set.notMem_empty i')) hn
        rw [update_of_ne (hne _ _ ho), ho]
    · have hc : update G.own b (some (i, wordPos w)) c = some (i', k') := hc
      by_cases e : c = b
      · subst e
        rw [update_self] at hc
        obtain ⟨rfl, rfl⟩ : i = i' ∧ wordPos w = k' := by simpa using hc
        exact ⟨hl, by unfold wordPos NPOS; omega, by rw [hptr' i _ hl, if_pos ⟨rfl, rfl⟩], hlo, hhi⟩
      · rw [update_of_ne e] at hc
        obtain ⟨h1, h2, h3, h4⟩ := h.owned c i' k' hc
        refine ⟨h1, h2, ?_, h4⟩
        rw [hptr' i' k' h1, if_neg, h3]
        rintro ⟨rfl, rfl⟩
        rw [hz] at h3
        omega
    · rw [used_congr (hblk _ (bit_ne_data hc hind.2.2.2.1))]
      have hu' : c < dataStart ∨ update G.own b (some (i, wordPos w)) c ≠ none := hu'
      by_cases e : c = b
      · rw [e, hu]
      · rw [update_of_ne e] at hu'
        exact h.bits c hc hu'
    · rw [hptr' i' _ hl']
      split
      · omega
      · exact (h.mapped i' hl' hy hsp).2 bn hbn
  · refine ⟨?_, ?_, rfl, rfl, fun _ _ => rfl, fun k' _ hn => ?_, fun c p hc hp => hblk c ?_,
      fun c p hc => ?_⟩
    · rw [← ht]
      exact stays_setBlk.trans stays_note
    · rw [← ht]
      exact clean_setBlk_note
    · refine (hptr k').trans (if_neg ?_)
      rintro rfl
      exact hn hz
    · rintro rfl
      rw [hown] at hc
      exact hp (by simpa using hc.symm)
    · show update G.own b _ c = some p
      rw [update_of_ne (hne c p hc), hc]

/-- **`bmap`**: the block that holds block `bn` of the file, or `0` when the disk is full. -/
theorem bmap_spec (g : Geometry) {E : Panic → Prop} (h : Good x ∅ G s) (ho : s.inOp = true)
    (hk : Loaded s k i) (hl : G.Live i) (hbn : bn < MAXFILE) :
    wp (bmap k bn) (fun r t => ∃ G', Mapped x G s i (pos bn) r G' t) E s := by
  unfold bmap
  by_cases hd : bn < NDIRECT
  · rw [if_pos hd]
    have hp : pos bn = bn := if_pos hd
    rw [hp]
    exact bmapSlot_spec g h ho hk hl hd.le
  · have hw : bn - NDIRECT < NINDIRECT := by unfold MAXFILE at hbn; omega
    have hp : pos bn = wordPos (bn - NDIRECT) := by unfold pos wordPos; rw [if_neg hd]; omega
    rw [if_neg hd, if_pos hw, wp_bind, hp]
    refine (bmapSlot_spec g h ho hk hl le_rfl).imp fun ind t hm => ?_
    obtain ⟨G', hm⟩ := hm
    generalize bn - NDIRECT = w at *
    have hl' : G'.Live i := hm.grows.live.2 hl
    have hk' : Loaded t k i := hm.grows.loaded hk
    have ho' : t.inOp = true := hm.grows.inOp.trans ho
    -- a word that was there is still there
    have hkeep : ptr s.blk (G.ino i) (wordPos w) ≠ 0 →
        ptr t.blk (G'.ino i) (wordPos w) = ptr s.blk (G.ino i) (wordPos w) := hm.grows.ptr _ hl
    rw [wp_ite]
    have h12 : (G'.ino i).addrs NDIRECT = ind := by
      rw [← hm.at_pos, ptr_direct le_rfl]
    refine ⟨fun hz => ⟨G', hm.good, hm.grows, ptr_word_zero (h12.trans hz), fun hn => ?_,
      fun _ => hm.full hz⟩, fun hind => ?_⟩
    · rw [← hkeep hn, ptr_word_zero (h12.trans hz)]
    · subst h12
      rw [wp_bind, wp_gets, ← ptr_word hind, wp_ite]
      refine ⟨fun hz => ?_, fun hn => ⟨G', hm.good, hm.grows, rfl, hkeep, (absurd · hn)⟩⟩
      have hs0 : ptr s.blk (G.ino i) (wordPos w) = 0 := by
        by_contra hn
        exact hn (by rw [← hkeep hn, hz])
      rw [wp_bind]
      refine balloc_spec ho' (fun hs => ?_) fun b hs => ?_
      · rw [wp_ite]
        exact ⟨fun _ => ⟨G', hm.good, hm.grows, hz, fun hn => absurd hs0 hn, fun _ => hs⟩,
          fun hn => absurd rfl hn⟩
      · obtain ⟨hlo, hhi, hfree⟩ := hm.good.spare hs
        have hb0 : b ≠ 0 := by
          have : 0 < dataStart := Nat.succ_pos _
          omega
        have ha := hm.good.alloced g hs
        have hga : Grows i G' t G' _ := hm.good.grows_alloced hs
        have hu : (t.alloced b).used b = true := by
          rw [alloced_used hlo hhi]
          simp
        have hz' : ptr (t.alloced b).blk (G'.ino i) (wordPos w) = 0 := by
          rw [hm.good.ptr_congr hl' fun c hc => hm.good.alloced_owned hs hc]
          exact hz
        obtain ⟨hgood, hgrow⟩ := ha.claimWord g hl' hw hind hz' hlo hhi hfree hu
        rw [wp_ite]
        refine ⟨fun e => absurd e hb0, fun _ => ?_⟩
        rw [wp_bind, wp_modify, wp_bind, wp_logWrite (show (Fs.setBlk (t.alloced b) _ _).inOp =
          true from ho'), wp_pure]
        refine ⟨_, hgood.congr rfl rfl, hm.grows.trans (hga.trans hgrow), ?_,
          fun hn => absurd hs0 hn, (absurd · hb0)⟩
        exact (ptr_setWord hind (hhi.trans g.uint) _).trans (if_pos rfl)

end

end Xv6.Fsys
