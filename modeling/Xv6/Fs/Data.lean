import Mathlib.Data.List.TakeWhile
import Xv6.Fs.Bmap

/-!
# Fs/Data — reading and writing files

`readi` returns what the file holds (`readi_spec`).  `writei` changes the bytes it is asked to
change: `Edits` says that nothing outside an interval of one file has changed, and `writei_spec`
that the bytes before the place where it stopped are those of the source.  Only a copy that fails in
the middle of a block leaves more than it reports: the bytes copied so far.
-/

namespace Xv6.Fsys

open Act Bytes Set

variable [Super] {x : Set Nat} {G G' G'' : Ghost} {s t u : Fs} {b i k n off tot bn : Nat}

/-! ## Reading -/

omit [Super] in
theorem ptr_pos_direct {d : Dinode} (hd : bn < NDIRECT) : ptr s.blk d (pos bn) = d.addrs bn := by
  rw [pos, if_pos hd, ptr_direct hd.le]

/-- **A block that is there is found**, and nothing is done. -/
theorem bmap_found {d : Dinode} (hd : (s.itable k).d = d) (hbn : bn < MAXFILE)
    (h0 : ptr s.blk d (pos bn) ≠ 0) : bmap k bn s = .ok (ptr s.blk d (pos bn), s) := by
  have hslot : ∀ j, d.addrs j ≠ 0 → bmapSlot k j s = .ok (d.addrs j, s) := fun j hj => by
    unfold bmapSlot
    rw [bind_ok (gets_apply ..), hd, if_neg hj]
    rfl
  unfold bmap
  by_cases hdir : bn < NDIRECT
  · rw [if_pos hdir, ptr_pos_direct hdir] at *
    exact hslot bn h0
  · have hw : bn - NDIRECT < NINDIRECT := by unfold MAXFILE at hbn; omega
    have hp : pos bn = wordPos (bn - NDIRECT) := by unfold pos wordPos; rw [if_neg hdir]; omega
    have h12 : d.addrs NDIRECT ≠ 0 := fun e => h0 (by
      rw [hp]
      unfold ptr wordPos
      rw [if_neg (by omega), if_pos e])
    rw [hp, ptr_word h12] at h0 ⊢
    rw [if_neg hdir, if_pos hw, bind_ok (hslot NDIRECT h12), if_neg h12,
      bind_ok (gets_apply ..), if_neg h0]
    rfl

/-- Bytes of a file. -/
def slice (blk : Nat → Nat → UInt8) (d : Dinode) (off n : Nat) : List UInt8 :=
  (List.range n).map fun j => fileByte blk d (off + j)

omit [Super] in
@[simp] theorem length_slice {blk : Nat → Nat → UInt8} {d : Dinode} :
    (slice blk d off n).length = n := by
  simp [slice]

omit [Super] in
theorem slice_append {blk : Nat → Nat → UInt8} {d : Dinode} {m : Nat} :
    slice blk d off (m + n) = slice blk d off m ++ slice blk d (off + m) n := by
  unfold slice
  rw [List.range_add, List.map_append, List.map_map]
  congr 1
  exact List.map_congr_left fun j _ => by rw [Function.comp_apply, Nat.add_assoc]

omit [Super] in
/-- Bytes of one block. -/
theorem take_block {blk : Nat → Nat → UInt8} {d : Dinode} {m : Nat} (hm : m ≤ BSIZE - off % BSIZE) :
    take (blk (ptr blk d (pos (off / BSIZE)))) (off % BSIZE) m = slice blk d off m := by
  unfold take slice fileByte
  refine List.map_congr_left fun j hj => ?_
  have hj := List.mem_range.1 hj
  have hlt : off % BSIZE < BSIZE := Nat.mod_lt _ (by decide)
  unfold BSIZE at *
  rw [show (off + j) / 1024 = off / 1024 by omega, show (off + j) % 1024 = off % 1024 + j by omega]

omit [Super] in
/-- The bytes left, and those that a turn of the loop takes. -/
theorem step_le {m : Nat} (hm : m = min (n - tot) (BSIZE - off % BSIZE)) (ht : tot < n) :
    0 < m ∧ m ≤ n - tot ∧ m ≤ BSIZE - off % BSIZE := by
  have hlt : off % BSIZE < BSIZE := Nat.mod_lt _ (by decide)
  omega

/-- **The loop of `readi`** copies out what the file holds, or stops at a copy that fails. -/
theorem readLoop_spec {ok : Nat → Nat → Bool} (h : Good x ∅ G s) (hk : Loaded s k i) (hl : G.Live i)
    (hs : i ∉ G.sparse) {fuel : Nat} {out : List UInt8} (hf : n - tot ≤ fuel) (ht : tot ≤ n)
    (hoff : off + (n - tot) ≤ (G.ino i).size) :
    (∃ l, readLoop ok k n fuel off tot out s = .ok ((-1, l), s) ∧ ∃ a m, ok a m = false) ∨
      readLoop ok k n fuel off tot out s =
        .ok ((n, out ++ slice s.blk (G.ino i) off (n - tot)), s) := by
  have hend : ∀ {tot off : Nat} {out : List UInt8}, tot = n →
      (pure ((tot : Int), out) : Act Fs Panic _) s =
        .ok ((n, out ++ slice s.blk (G.ino i) off (n - tot)), s) := by
    rintro _ _ out rfl
    simp [slice]
  induction fuel generalizing off tot out with
  | zero => exact .inr (hend (by omega))
  | succ fuel ih =>
    unfold readLoop
    by_cases hlt : tot < n
    · rw [if_pos hlt]
      generalize hm : min (n - tot) (BSIZE - off % BSIZE) = m
      obtain ⟨h1, h2, h3⟩ := step_le hm.symm hlt
      obtain ⟨hsize, hmap⟩ := h.mapped i hl (notMem_empty i) hs
      have hbn : off / BSIZE * BSIZE < (G.ino i).size :=
        (Nat.div_mul_le_self ..).trans_lt (by omega)
      have hmax : off / BSIZE < MAXFILE := Nat.div_lt_of_lt_mul (by rw [Nat.mul_comm]; omega)
      have hp := hmap _ hbn
      rw [bind_ok (bmap_found (h.loaded hk) hmax hp), if_neg hp, bind_ok (gets_apply ..)]
      by_cases hok : ok tot m = true
      · rw [if_pos hok]
        rcases @ih (off + m) (tot + m)
          (out ++ take (s.blk (ptr s.blk (G.ino i) (pos (off / BSIZE)))) (off % BSIZE) m) (by omega)
          (by omega) (by omega) with hfail | hdone
        · exact .inl hfail
        · refine .inr (hdone.trans ?_)
          rw [take_block h3, List.append_assoc, ← slice_append, show m + (n - (tot + m)) =
            n - tot by omega]
      · rw [if_neg hok]
        exact .inl ⟨out, rfl, tot, m, by simpa using hok⟩
    · rw [if_neg hlt]
      exact .inr (hend (by omega))

/-- The number of bytes `readi` is to read. -/
def readCount (size off n : Nat) : Nat :=
  if size < off ∨ 2 ^ 32 ≤ off + n then 0 else min n (size - off)

/-- **`readi`** returns what the file holds there, and changes nothing. -/
theorem readi_spec {ok : Nat → Nat → Bool} (h : Good x ∅ G s) (hk : Loaded s k i) (hl : G.Live i)
    (hs : i ∉ G.sparse) (hn : n < 2 ^ 32) (hoff : off < 2 ^ 32) :
    (∃ l, readi ok k off n s = .ok ((-1, l), s) ∧ ∃ a m, ok a m = false) ∨
      readi ok k off n s = .ok ((readCount (G.ino i).size off n,
        slice s.blk (G.ino i) off (readCount (G.ino i).size off n)), s) := by
  unfold readi
  rw [bind_ok (gets_apply ..), h.loaded hk]
  have hwrap : (off + n) % 2 ^ 32 < off ↔ 2 ^ 32 ≤ off + n := by omega
  unfold readCount
  by_cases hc : (G.ino i).size < off ∨ 2 ^ 32 ≤ off + n
  · rw [if_pos hc, if_pos (hc.imp_right hwrap.2)]
    exact .inr rfl
  · rw [if_neg hc, if_neg fun h => hc (h.imp_right hwrap.1)]
    have hm : (if (G.ino i).size < off + n then (G.ino i).size - off else n) =
        min n ((G.ino i).size - off) := by
      split <;> omega
    rw [hm]
    exact readLoop_spec h hk hl hs (by omega) (Nat.zero_le _) (by omega)

/-! ## Writing -/

/-- **Only bytes of one file have changed**, those from `lo` up to `hi`; it may have gained
blocks, and its size may have changed. -/
structure Edits (i lo hi : Nat) (G : Ghost) (s : Fs) (G' : Ghost) (t : Fs) :
    Prop extends Stays s t where
  sparse : G'.sparse = G.sparse
  same : G'.ino i = { G.ino i with size := (G'.ino i).size, addrs := (G'.ino i).addrs }
  rest : ∀ i', i' ≠ i → G'.ino i' = G.ino i'
  ptr : ∀ k, G.Live i → ptr s.blk (G.ino i) k ≠ 0 → ptr t.blk (G'.ino i) k = ptr s.blk (G.ino i) k
  own : ∀ b p, G.own b = some p → G'.own b = some p
  other : ∀ b p, G.own b = some p → p.1 ≠ i → t.blk b = s.blk b
  outside : ∀ o, o / BSIZE < MAXFILE → Fsys.ptr s.blk (G.ino i) (pos (o / BSIZE)) ≠ 0 → o < lo ∨
    hi ≤ o → fileByte t.blk (G'.ino i) o = fileByte s.blk (G.ino i) o

namespace Edits

variable {lo hi lo' hi' : Nat}

theorem refl (G : Ghost) (s : Fs) : Edits i lo hi G s G s :=
  ⟨.refl s, rfl, rfl, fun _ _ => rfl, fun _ _ _ => rfl, fun _ _ h => h, fun _ _ _ _ => rfl,
    fun _ _ _ _ => rfl⟩

theorem type (h : Edits i lo hi G s G' t) (i' : Nat) : (G'.ino i').type = (G.ino i').type := by
  by_cases e : i' = i
  · rw [e, h.same]
  · rw [h.rest i' e]

theorem live (h : Edits i lo hi G s G' t) {i' : Nat} : G'.Live i' ↔ G.Live i' := by
  unfold Ghost.Live
  rw [h.type]

/-- A file that gains blocks is not edited. -/
theorem of_grows (h : Grows i G s G' t) (hg : Good x ∅ G s) (hl : G.Live i) :
    Edits i lo hi G s G' t := by
  refine ⟨h.toStays, h.sparse, by rw [h.size]; exact h.same, h.rest, h.ptr, h.own,
    fun b p ho hp => h.data b p ho ?_, fun o hmax h0 _ => ?_⟩
  · rintro rfl
    exact hp rfl
  · have hown := hg.own i _ hl (pos_lt hmax) (.inr (notMem_empty i)) h0
    unfold fileByte
    rw [h.ptr _ hl h0, h.data _ _ hown fun e => pos_ne (congrArg Prod.snd e)]

theorem mono (h : Edits i lo hi G s G' t) (h1 : lo' ≤ lo) (h2 : hi ≤ hi') :
    Edits i lo' hi' G s G' t :=
  { h with outside := fun o hmax h0 ho => h.outside o hmax h0 (by omega) }

theorem trans (h : Edits i lo hi G s G' t) (h' : Edits i lo hi G' t G'' u) (hl : G.Live i) :
    Edits i lo hi G s G'' u := by
  refine ⟨h.toStays.trans h'.toStays, h'.sparse.trans h.sparse, ?_,
    fun i' hi => (h'.rest i' hi).trans (h.rest i' hi), fun k _ h0 => ?_, fun b p ho => h'.own b p
    (h.own b p ho), fun b p ho hp => (h'.other b p (h.own b p ho) hp).trans (h.other b p ho hp),
    fun o hmax h0 ho => ?_⟩
  · rw [h'.same, h.same]
  · have e := h.ptr k hl h0
    rw [h'.ptr k (h.live.2 hl) (by rw [e]; exact h0), e]
  · have e := h.ptr _ hl h0
    rw [h'.outside o hmax (by rw [e]; exact h0) ho, h.outside o hmax h0 ho]

end Edits

omit [Super] in
/-- How much of a chunk can be copied. -/
theorem avail_le {src : Source} {m : Nat} : src.avail tot m ≤ m :=
  (List.takeWhile_prefix _).length_le.trans_eq (List.length_range)

omit [Super] in
/-- All of it, where nothing is missing. -/
theorem avail_eq {src : Source} {m : Nat} (h : ∀ j < m, (src (tot + j)).isSome = true) :
    src.avail tot m = m := by
  unfold Source.avail
  rw [List.takeWhile_eq_self_iff.2 fun j hj => h j (List.mem_range.1 hj), List.length_range]

omit [Super] in
/-- The bytes that are copied are there. -/
theorem isSome_of_lt_avail {src : Source} {m j : Nat} (hj : j < src.avail tot m) :
    (src (tot + j)).isSome = true := by
  unfold Source.avail at hj
  have hmem := List.getElem_mem hj
  have hget : ((List.range m).takeWhile fun i => (src (tot + i)).isSome)[j] = j := by
    rw [(List.takeWhile_prefix _).getElem hj, List.getElem_range]
  have hp := List.mem_takeWhile_imp hmem
  rwa [hget] at hp

/-- **A copy into a block of the file** changes bytes of that block. -/
theorem Good.copyin (g : Geometry) (h : Good x ∅ G s) (hl : G.Live i) {src : Source} {m : Nat}
    (hmax : off / BSIZE < MAXFILE) (hp : ptr s.blk (G.ino i) (pos (off / BSIZE)) ≠ 0)
    (hm : m ≤ BSIZE - off % BSIZE) (ht : t = s.setBlk (ptr s.blk (G.ino i) (pos (off / BSIZE)))
      (src.copyin (s.blk (ptr s.blk (G.ino i) (pos (off / BSIZE)))) (off % BSIZE) tot m)) :
    Good x ∅ G t ∧ Edits i off (off + src.avail tot m) G s G t ∧
      ∀ j < src.avail tot m, fileByte t.blk (G.ino i) (off + j) = (src (tot + j)).getD 0 := by
  generalize ha : ptr s.blk (G.ino i) (pos (off / BSIZE)) = a at *
  have hown : G.own a = some (i, pos (off / BSIZE)) :=
    ha ▸ h.own i _ hl (pos_lt hmax) (.inr (Set.notMem_empty i)) (ha ▸ hp)
  have hin := h.owned _ _ _ hown
  have hblk : ∀ c, c ≠ a → t.blk c = s.blk c := fun c hc => by rw [ht]; exact setBlk_of_ne hc
  have hself : t.blk a = src.copyin (s.blk a) (off % BSIZE) tot m := by rw [ht]; exact setBlk_self
  have hind : ∀ c i', G.own c = some (i', NDIRECT) → t.blk c = s.blk c := fun c i' hc =>
    hblk c (by
      rintro rfl
      rw [hown] at hc
      exact pos_ne (by simpa using (congrArg (Option.map Prod.snd) hc)))
  have hptr : ∀ i' k, G.Live i' → ptr t.blk (G.ino i') k = ptr s.blk (G.ino i') k := fun i' k hl' =>
    h.ptr_congr hl' (fun c hc => hind c i' hc) k
  have hle : src.avail tot m ≤ m := avail_le
  have hlt : off % BSIZE < BSIZE := Nat.mod_lt _ (by decide)
  have hst : Stays s t := by rw [ht]; exact stays_setBlk
  refine ⟨h.of_data g (by rw [ht]; rfl) (fun c hc => hblk c (by omega)) hind,
    ⟨hst, rfl, rfl, fun _ _ => rfl, fun k _ _ => hptr i k hl, fun _ _ hc => hc,
      fun c p hc hp => hblk c ?_, fun o ho h0 hout => ?_⟩, fun j hj => ?_⟩
  · rintro rfl
    rw [hown] at hc
    obtain rfl := Option.some.inj hc
    exact hp rfl
  · unfold fileByte
    rw [hptr i _ hl]
    by_cases e : o / BSIZE = off / BSIZE
    · rw [e, ha, hself]
      refine overlay_out ?_
      unfold BSIZE at *
      omega
    · -- another block of the file
      have hoth := h.own i _ hl (pos_lt ho) (.inr (Set.notMem_empty i)) h0
      rw [hblk _ fun e' => e (pos_inj ?_)]
      rw [e', hown] at hoth
      simpa using (congrArg (Option.map Prod.snd) hoth).symm
  · unfold fileByte
    rw [hptr i _ hl]
    unfold BSIZE at *
    rw [show (off + j) / 1024 = off / 1024 by omega, show (off + j) % 1024 = off % 1024 +
      j by omega, ha, hself]
    unfold Source.copyin
    rw [overlay_in (by omega) (by omega), Nat.add_sub_cancel_left]

omit [Super] in
/-- A copy of nothing. -/
theorem copyin_zero {src : Source} {m : Nat → UInt8} {a l : Nat} (h : src.avail tot l = 0) :
    src.copyin m a tot l = m := by
  unfold Source.copyin
  rw [h]
  exact funext fun y => overlay_out (by omega)

/-- A copy of `n` bytes to `off`, of which `tot` have been written, has stopped: what was copied of
the next chunk is in the buffer of its block, and not in the log. -/
def Fs.tear (u : Fs) (src : Source) (d : Dinode) (n off tot : Nat) : Fs :=
  if ptr u.blk d (pos (off / BSIZE)) = 0 then u
  else u.setBlk (ptr u.blk d (pos (off / BSIZE)))
    (src.copyin (u.blk (ptr u.blk d (pos (off / BSIZE)))) (off % BSIZE) tot
      (min (n - tot) (BSIZE - off % BSIZE)))

omit [Super] in
theorem tear_done {src : Source} {d : Dinode} (h : n ≤ tot) : s.tear src d n off tot = s := by
  unfold Fs.tear
  rw [copyin_zero (Nat.le_zero.1 (avail_le.trans (by omega))), Fs.setBlk,
    Function.update_eq_self, ite_self]

omit [Super] in
theorem stays_tear {src : Source} {d : Dinode} : Stays s (s.tear src d n off tot) := by
  unfold Fs.tear
  split
  · exact .refl s
  · exact stays_setBlk

/-- How the loop of `writei` ends, having begun at `off` with `tot` bytes written, but for what is
torn. -/
structure Wrote (src : Source) (i n off tot : Nat) (x : Set Nat) (G : Ghost) (s : Fs)
    (off' tot' : Nat) (G' : Ghost) (t : Fs) : Prop where
  good : Good (insert i x) ∅ G' t
  edits : Edits i off off' G s G' t
  size : (G'.ino i).size = (G.ino i).size
  ge : tot ≤ tot'
  le : tot' ≤ n
  off_eq : off' = off + (tot' - tot)
  /-- The bytes up to there are those of the source. -/
  bytes : ∀ j < tot' - tot, ptr t.blk (G'.ino i) (pos ((off + j) / BSIZE)) ≠ 0 ∧
    (src (tot + j)).isSome = true ∧ fileByte t.blk (G'.ino i) (off + j) = (src (tot + j)).getD 0
  clean : Clean s t
  /-- It stopped early because a byte was missing or the disk was full. -/
  stop : tot' < n → src.avail tot' (min (n - tot') (BSIZE - off' % BSIZE)) < min (n - tot')
    (BSIZE - off' % BSIZE) ∨ t.spare = none

/-- **The loop of `writei`.** -/
theorem writeLoop_spec (g : Geometry) {E : Panic → Prop} {src : Source} {fuel : Nat}
    (h : Good x ∅ G s) (ho : s.inOp = true) (hk : Loaded s k i) (hl : G.Live i)
    (hf : n - tot ≤ fuel) (ht : tot ≤ n) (hoff : off + (n - tot) ≤ MAXFILE * BSIZE) :
    wp (writeLoop src k n fuel off tot) (fun r t =>
      ∃ G' u, Wrote src i n off tot x G s r.1 r.2 G' u ∧ t = u.tear src (G'.ino i) n r.1 r.2) E
        s := by
  have hend : ∀ {x : Set Nat} {G : Ghost} {s : Fs} {off tot : Nat}, Good x ∅ G s → tot = n →
      ∃ G' u, Wrote src i n off tot x G s off tot G' u ∧ s = u.tear src (G'.ino i) n off tot := by
    rintro x G s off _ h rfl
    exact ⟨G, s, ⟨h.mono (subset_insert i x) subset_rfl, .refl G s, rfl, le_rfl, le_rfl, by omega,
      fun j hj => by omega, .refl s, fun hn => by omega⟩, (tear_done le_rfl).symm⟩
  induction fuel generalizing x G s off tot with
  | zero => exact hend h (by omega)
  | succ fuel ih =>
    unfold writeLoop
    by_cases hlt : tot < n
    · rw [if_pos hlt, wp_bind]
      generalize hm : min (n - tot) (BSIZE - off % BSIZE) = m
      obtain ⟨h1, h2, h3⟩ := step_le hm.symm hlt
      have hmax : off / BSIZE < MAXFILE := Nat.div_lt_of_lt_mul (by rw [Nat.mul_comm]; omega)
      refine (bmap_spec g h ho hk hl hmax).imp fun r t1 ⟨G1, hmap⟩ => ?_
      have hl1 : G1.Live i := hmap.grows.live.2 hl
      have he1 : ∀ lo hi, Edits i lo hi G s G1 t1 := fun _ _ => .of_grows hmap.grows h hl
      obtain rfl := hmap.at_pos
      -- where it stops
      have hstop : (src.avail tot m < m ∨ t1.spare = none) →
          Wrote src i n off tot x G s off tot G1 t1 := fun hc =>
        ⟨hmap.good, he1 _ _, hmap.grows.size, le_rfl, ht, by omega, fun j hj => by omega,
          hmap.grows.clean, fun _ => by rwa [hm]⟩
      rw [wp_ite]
      refine ⟨fun hr => ⟨G1, t1, hstop (.inr (hmap.full hr)), (if_pos hr).symm⟩, fun hp0 => ?_⟩
      rw [wp_bind, wp_modify]
      generalize ht2 : t1.setBlk _ _ = t2
      obtain ⟨hg2, he2, hb2⟩ := hmap.good.copyin g hl1 hmax hp0 h3 ht2.symm
      rw [wp_ite]
      refine ⟨fun hcut => ?_, fun hfull => ?_⟩
      · -- the copy failed
        refine ⟨G1, t1, hstop (.inl hcut), ?_⟩
        rw [← ht2, Fs.tear, if_neg hp0, hm]
      · have hav : src.avail tot m = m := le_antisymm avail_le (Nat.not_lt.1 hfull)
        rw [hav] at he2 hb2
        have ho2 : t2.inOp = true := he2.inOp.trans (hmap.grows.inOp.trans ho)
        rw [wp_bind, wp_logWrite ho2]
        have hk3 := he2.loaded (hmap.grows.loaded hk)
        refine (ih (hg2.congr rfl rfl : Good (insert i x) ∅ G1 (t2.note _)) ho2
          (stays_note.loaded hk3) hl1 (by omega) (by omega) (by omega)).imp
          fun r' t ⟨G', u, hw, ht⟩ => ⟨G', u, ?_, ht⟩
        have hge := hw.ge
        have hoe := hw.off_eq
        have he3 : Edits i off r'.1 G1 t2 G' u :=
          have := hw.edits.mono (Nat.le_add_right off m) le_rfl
          { this with toStays := stays_note.trans this.toStays }
        have hclean : Clean s (t2.note (ptr t1.blk (G1.ino i) (pos (off / BSIZE)))) := by
          rw [← ht2]
          exact hmap.grows.clean.trans clean_setBlk_note
        refine ⟨by simpa using hw.good, (he1 _ _).trans ((he2.mono le_rfl (by omega)).trans he3 hl1)
          hl, hw.size.trans hmap.grows.size, by omega, hw.le, by omega, fun j hj => ?_,
          hclean.trans hw.clean, hw.stop⟩
        by_cases hjm : j < m
        · -- a byte of this block, which the rest of the loop leaves alone
          have hdiv : (off + j) / BSIZE = off / BSIZE := by
            have hlt : off % BSIZE < BSIZE := Nat.mod_lt _ (by decide)
            unfold BSIZE at *
            omega
          have hp2 : ptr t2.blk (G1.ino i) (pos ((off + j) / BSIZE)) ≠ 0 := by
            rw [hdiv, he2.ptr _ hl1 hp0]
            exact hp0
          have hp3 : ptr u.blk (G'.ino i) (pos ((off + j) / BSIZE)) = _ := hw.edits.ptr _ hl1 hp2
          have hb3 : fileByte u.blk (G'.ino i) (off + j) = fileByte t2.blk (G1.ino i) (off + j) :=
            hw.edits.outside _ (by rw [hdiv]; exact hmax) hp2 (.inl (by omega))
          refine ⟨by rw [hp3]; exact hp2, @isSome_of_lt_avail _ _ m _ (by omega), ?_⟩
          rw [hb3, hb2 j hjm]
        · have hlast := hw.bytes (j - m) (by omega)
          rw [show off + m + (j - m) = off + j by omega, show tot + m + (j - m) = tot +
            j by omega] at hlast
          exact hlast
    · rw [if_neg hlt]
      exact hend h (by omega)

/-! ## The inode goes to the disk -/

/-- The disk after `iupdate`. -/
def Fs.stored (s : Fs) (k : Nat) : Fs :=
  (s.setDino (s.itable k).inum (s.itable k).d).note (IBLOCK (s.itable k).inum)

theorem wp_iupdate {Q : Unit → Fs → Prop} {E : Panic → Prop} (ho : s.inOp = true) :
    wp (iupdate k) Q E s ↔ Q () (s.stored k) := by
  unfold iupdate
  rw [wp_bind, wp_gets, wp_bind, wp_modify]
  exact wp_logWrite ho

theorem stays_stored : Stays s (s.stored k) := { Stays.refl s with }

theorem clean_stored : Clean s (s.stored k) := clean_setBlk_note

theorem stored_blk (h : b ≠ IBLOCK (s.itable k).inum) :
    (s.stored k).blk b = s.blk b := setBlk_of_ne h

/-- **`iupdate`** makes the disk agree with the memory. -/
theorem Good.stored (g : Geometry) {y : Set Nat} (h : Good (insert i x) y G s) (hk : Loaded s k i) :
    Good x y G (s.stored k) := by
  have hI := h.ino hk.toHeld
  have hd : (s.itable k).d = G.ino i := h.loaded hk
  have hdata : ∀ c, dataStart ≤ c → (s.stored k).blk c = s.blk c := fun c hc =>
    stored_blk (by rw [hk.inum]; exact (g.ino_ne_data hI hc).symm)
  have hptr : ∀ i' j, G.Live i' → ptr (s.stored k).blk (G.ino i') j = ptr s.blk (G.ino i') j :=
    fun i' j hl =>
    h.ptr_congr hl (fun c hc => hdata c (h.owned c i' _ hc).2.2.2.1) j
  refine ⟨fun i' hi hx => ?_, h.norm, h.mem, h.range, h.uniq, fun i' j hl hj hn h0 => ?_,
    fun c i' j hc => ?_, fun c hc hu => ?_, fun i' hl hy hs => ⟨(h.mapped i' hl hy hs).1,
    fun bn hbn => ?_⟩⟩
  · have e : (s.stored k).dino i' = (s.setDino i (G.ino i)).dino i' := by
      unfold Fs.stored
      rw [hk.inum, hd]
      rfl
    rw [e, dino_setDino (h.norm i hI)]
    split
    next e => rw [e]
    next hne => exact h.disk i' hi (by simp [hne, hx])
  · rw [hptr i' j hl] at h0 ⊢
    exact h.own i' j hl hj hn h0
  · obtain ⟨h1, h2, h3, h4⟩ := h.owned c i' j hc
    exact ⟨h1, h2, by rw [hptr i' j h1, h3], h4⟩
  · rw [used_congr (stored_blk (by rw [hk.inum]; exact (g.ino_ne_bit hI).symm))]
    exact h.bits c hc hu
  · rw [hptr i' _ hl]
    exact (h.mapped i' hl hy hs).2 bn hbn

/-- …and does nothing to the blocks of the files, -/
theorem Good.stored_data (g : Geometry) (h : Good x ∅ G s) (hk : Loaded s k i) (hl : G.Live i) :
    (∀ c, dataStart ≤ c → (s.stored k).blk c = s.blk c) ∧
      ∀ j, ptr (s.stored k).blk (G.ino i) j = ptr s.blk (G.ino i) j := by
  have hdata : ∀ c, dataStart ≤ c → (s.stored k).blk c = s.blk c := fun c hc =>
    stored_blk (by rw [hk.inum]; exact (g.ino_ne_data hl.1 hc).symm)
  exact ⟨hdata, h.ptr_congr hl fun c hc => hdata c (h.owned c i _ hc).2.2.2.1⟩

/-- …nor to what is in them. -/
theorem Good.edits_stored (g : Geometry) (h : Good x ∅ G s) (hk : Loaded s k i) (hl : G.Live i)
    {lo hi : Nat} : Edits i lo hi G s G (s.stored k) := by
  obtain ⟨hdata, hptr⟩ := h.stored_data g hk hl
  refine ⟨stays_stored, rfl, rfl, fun _ _ => rfl, fun j _ _ => hptr j, fun _ _ hc => hc,
    fun c p hc _ => hdata c (h.owned c p.1 p.2 hc).2.2.2.1, fun o hmax h0 _ => ?_⟩
  have hown := h.own i _ hl (pos_lt hmax) (.inr (notMem_empty i)) h0
  unfold fileByte
  rw [hptr, hdata _ (h.owned _ _ _ hown).2.2.2.1]

theorem setBlk_stored {a : Nat} {m : Nat → UInt8} (h : a ≠ IBLOCK (s.itable k).inum) :
    (s.setBlk a m).stored k = (s.stored k).setBlk a m := by
  unfold Fs.stored Fs.setDino Fs.note Fs.setBlk
  simp only [Function.update_of_ne h.symm, Function.update_self, Function.update_comm h]

/-- What is torn stays as it is. -/
theorem Good.tear_stored (g : Geometry) (h : Good x ∅ G s) (hk : Loaded s k i) (hl : G.Live i)
    {src : Source} (hmax : off / BSIZE < MAXFILE) :
    (s.tear src (G.ino i) n off tot).stored k = (s.stored k).tear src (G.ino i) n off tot := by
  obtain ⟨hdata, hptr⟩ := h.stored_data g hk hl
  unfold Fs.tear
  rw [hptr]
  by_cases h0 : ptr s.blk (G.ino i) (pos (off / BSIZE)) = 0
  · rw [if_pos h0, if_pos h0]
  · have hlo := (h.owned _ _ _ (h.own i _ hl (pos_lt hmax) (.inr (notMem_empty i)) h0)).2.2.2.1
    rw [if_neg h0, if_neg h0, setBlk_stored (by rw [hk.inum]; exact (g.ino_ne_data hl.1 hlo).symm),
      hdata _ hlo]

/-- **The size of the file changes**, to what its blocks reach. -/
theorem Good.resize (h : Good x ∅ G s) (hk : Loaded s k i) (hl : G.Live i) {size : Nat}
    (hmax : size < 2 ^ 32) (hmap : i ∉ G.sparse → size ≤ MAXFILE * BSIZE ∧ ∀ bn, bn * BSIZE < size →
    ptr s.blk (G.ino i) (pos bn) ≠ 0) : Good (insert i x) ∅ (G.set i { G.ino i with size } G.own)
      (s.setIno k { s.itable k with d := { G.ino i with size } }) := by
  have hn := h.norm i hl.1
  refine h.put hk rfl rfl ⟨hk.inum, rfl⟩ ⟨hn.type, hn.major, hn.minor, hn.nlink, hmax, hn.addr,
    hn.beyond⟩ (fun j _ hj hy h0 => h.own i j hl hj hy h0) (fun _ _ _ _ => Iff.rfl)
    (fun c j hc => ?_) (fun c hc hu => h.bits c hc (.inr hu)) fun _ _ hs => hmap hs
  obtain ⟨h1, h2, h3, h4⟩ := h.owned c i j hc
  exact ⟨h1.2, h2, h3, h4⟩

theorem edits_resize {size lo hi : Nat} :
    Edits i lo hi G s (G.set i { G.ino i with size } G.own)
      (s.setIno k { s.itable k with d := { G.ino i with size } }) := by
  refine ⟨stays_setD, rfl, ?_, fun i' hi => set_ino_of_ne hi, fun j _ _ => ?_, fun _ _ hc => hc,
    fun _ _ _ _ => rfl, fun o _ _ _ => ?_⟩
  · rw [set_ino_self]
  · rw [set_ino_self]
    rfl
  · rw [set_ino_self]
    rfl

theorem spare_congr (h : ∀ c < Super.size, t.used c = s.used c) : t.spare = s.spare := by
  unfold Fs.spare
  rw [← List.head?_filter, ← List.head?_filter,
    List.filter_congr fun c hc => by rw [h c (List.mem_range.1 hc)]]

/-! ## `writei` -/

/-- What `writei` does when it writes `tot` of `n` bytes, but for what is torn. -/
structure Writes (src : Source) (i n off : Nat) (x : Set Nat) (G : Ghost) (s : Fs) (tot : Nat)
    (G' : Ghost) (t : Fs) : Prop where
  good : Good x ∅ G' t
  edits : Edits i off (off + tot) G s G' t
  size : (G'.ino i).size = max (G.ino i).size (off + tot)
  le : tot ≤ n
  bytes : ∀ j < tot, ptr t.blk (G'.ino i) (pos ((off + j) / BSIZE)) ≠ 0 ∧ (src j).isSome = true ∧
    fileByte t.blk (G'.ino i) (off + j) = (src j).getD 0
  clean : Clean s t
  stop : tot < n → src.avail tot (min (n - tot) (BSIZE - (off + tot) % BSIZE)) <
    min (n - tot) (BSIZE - (off + tot) % BSIZE) ∨ t.spare = none

/-- **`writei`**: a range it refuses, or as much as can be written. -/
theorem writei_spec (g : Geometry) {E : Panic → Prop} {src : Source} (h : Good x ∅ G s)
    (ho : s.inOp = true) (hk : Loaded s k i) (hl : G.Live i) (hn : n < 2 ^ 32)
    (hoff : off < 2 ^ 32) : wp (writei src k off n) (fun r t =>
      (r = -1 ∧ t = s ∧ ((G.ino i).size < off ∨ MAXFILE * BSIZE < off + n)) ∨
      ∃ G' tot u, r = (tot : Nat) ∧ off ≤ (G.ino i).size ∧ off + n ≤ MAXFILE * BSIZE ∧
        Writes src i n off x G s tot G' u ∧ t = u.tear src (G'.ino i) n (off + tot) tot) E s := by
  have h32 : MAXFILE * BSIZE < 2 ^ 32 := by decide
  unfold writei
  rw [wp_bind, wp_gets, h.loaded hk, wp_ite]
  refine ⟨fun hc => .inl ⟨rfl, rfl, hc.imp_right fun hc => by omega⟩, fun hc => ?_⟩
  have hsize : off ≤ (G.ino i).size := by omega
  have hsum : (off + n) % 2 ^ 32 = off + n := by omega
  rw [hsum, wp_ite]
  refine ⟨fun hc => .inl ⟨rfl, rfl, .inr hc⟩, fun hc => ?_⟩
  have hmax : off + n ≤ MAXFILE * BSIZE := by omega
  rw [wp_bind]
  refine (writeLoop_spec g h ho hk hl (Nat.sub_le ..) (Nat.zero_le n) (by omega)).imp
    fun r _ ⟨G1, t1, hw, ht⟩ => ?_
  subst ht
  obtain ⟨off', tot⟩ := r
  have hle := hw.le
  obtain rfl : off' = off + tot := by simpa using hw.off_eq
  have hk1 := hw.edits.loaded hk
  have hl1 : G1.Live i := hw.edits.live.2 hl
  have ho1 : t1.inOp = true := hw.edits.inOp.trans ho
  -- the new size is reached by the blocks of the file and by those just written
  have hnew : (if (G1.ino i).size < off + tot then { G1.ino i with size := off + tot } else G1.ino
      i) = { G1.ino i with size := max (G.ino i).size (off + tot) } := by
    rw [hw.size]
    split
    next hlt => rw [max_eq_right hlt.le]
    next hge => rw [max_eq_left (Nat.not_lt.1 hge), ← hw.size]
  have hreach : i ∉ G1.sparse → max (G.ino i).size (off + tot) ≤ MAXFILE * BSIZE ∧
      ∀ bn, bn * BSIZE < max (G.ino i).size (off + tot) → ptr t1.blk (G1.ino i) (pos bn) ≠ 0 :=
      fun hs => by
    obtain ⟨hold, hmap⟩ := hw.good.mapped i hl1 (notMem_empty i) hs
    rw [hw.size] at hold hmap
    refine ⟨by omega, fun bn hbn => ?_⟩
    by_cases hlt : bn * BSIZE < (G.ino i).size
    · exact hmap bn hlt
    · have hj := (hw.bytes (bn * BSIZE - off) (by omega)).1
      rwa [show off + (bn * BSIZE - off) = bn * BSIZE by omega,
        Nat.mul_div_cancel _ (by decide)] at hj
  have hlt32 : max (G.ino i).size (off + tot) < 2 ^ 32 := max_lt (h.norm i hl.1).size (by omega)
  simp only [setD, wp_bind, wp_modify]
  have hset (y : Inode) : (t1.tear src (G1.ino i) n (off + tot) tot).setIno k y =
      (t1.setIno k y).tear src (G1.ino i) n (off + tot) tot := apply_ite (Fs.setIno · k y) _ _ _
  have hit : (t1.tear src (G1.ino i) n (off + tot) tot).itable = t1.itable := by
    unfold Fs.tear
    split <;> rfl
  rw [hset, hit, hw.good.loaded hk1, hnew]
  generalize ht2 : t1.setIno k _ = t2
  generalize hG2 : G1.set i { G1.ino i with size := max (G.ino i).size (off + tot) } G1.own = G2
  have hg2 : Good (insert i x) ∅ G2 t2 := by
    rw [← ht2, ← hG2, ← insert_idem i x]
    exact hw.good.resize hk1 hl1 hlt32 hreach
  have he2 : ∀ lo hi, Edits i lo hi G1 t1 G2 t2 := fun lo hi => by
    rw [← ht2, ← hG2]
    exact edits_resize
  have hk2 := (he2 0 0).loaded hk1
  have hl2 := (he2 0 0).live.2 hl1
  rw [wp_iupdate (stays_tear.inOp.trans ((he2 0 0).inOp.trans ho1)), wp_pure]
  have htear : (t2.tear src (G1.ino i) n (off + tot) tot).stored k =
      (t2.stored k).tear src (G2.ino i) n (off + tot) tot := by
    have hd : ∀ u : Fs, u.tear src (G1.ino i) n (off + tot) tot = u.tear src (G2.ino i) n
        (off + tot) tot := fun u => by
      rw [← hG2, set_ino_self]
      rfl
    rw [hd]
    rcases hle.lt_or_eq with hlt | rfl
    · exact hg2.tear_stored g hk2 hl2 (Nat.div_lt_of_lt_mul (by rw [Nat.mul_comm]; omega))
    · rw [tear_done le_rfl, tear_done le_rfl]
  have he3 : ∀ lo hi, Edits i lo hi G1 t1 G2 (t2.stored k) := fun lo hi =>
    (he2 lo hi).trans (hg2.edits_stored g hk2 hl2) hl1
  refine .inr ⟨G2, tot, t2.stored k, rfl, hsize, hmax,
    ⟨hg2.stored g hk2, hw.edits.trans (he3 _ _) hl, by rw [← hG2, set_ino_self], hle,
      fun j hj => ?_, ?_, fun hlt => (hw.stop hlt).imp_right fun hs => ?_⟩, htear⟩
  · obtain ⟨hp, hsome, hb⟩ := hw.bytes j hj
    rw [Nat.zero_add] at hsome hb
    have hbn : (off + j) / BSIZE < MAXFILE := Nat.div_lt_of_lt_mul (by rw [Nat.mul_comm]; omega)
    rw [(he3 0 0).ptr _ hl1 hp, (he3 0 0).outside _ hbn hp (.inr (Nat.zero_le _))]
    exact ⟨hp, hsome, hb⟩
  · refine (hw.clean.trans fun c hc => ?_).trans clean_stored
    rw [← ht2]
    exact hc
  · rw [← hs]
    refine spare_congr fun c _ => ?_
    rw [used_congr (stored_blk (by rw [hk2.inum]; exact (g.ino_ne_bit hl.1).symm)), ← ht2]
    rfl

/-- **With what is torn**, the file has changed nowhere but in the range to be written. -/
theorem Writes.torn (g : Geometry) {src : Source} (h : Writes src i n off x G s tot G' u)
    (hl : G.Live i) (hmax : off + n ≤ MAXFILE * BSIZE)
    (ht : t = u.tear src (G'.ino i) n (off + tot) tot) :
    Good x ∅ G' t ∧ Edits i off (off + n) G s G' t ∧ t.spare = u.spare ∧ ∀ j < tot,
      ptr t.blk (G'.ino i) (pos ((off + j) / BSIZE)) ≠ 0 ∧ fileByte t.blk (G'.ino i)
      (off + j) = (src j).getD 0 := by
  have hle := h.le
  have hl' := h.edits.live.2 hl
  have hin : ∀ o, o < off + n → o / BSIZE < MAXFILE :=
    fun o ho => Nat.div_lt_of_lt_mul (by rw [Nat.mul_comm]; omega)
  obtain ⟨hg, he, hsp⟩ : Good x ∅ G' t ∧ Edits i (off + tot) (off + n) G' u G' t ∧
    t.spare = u.spare := by
    unfold Fs.tear at ht
    by_cases hc : ptr u.blk (G'.ino i) (pos ((off + tot) / BSIZE)) = 0 ∨ tot = n
    · obtain rfl : t = u := hc.elim (fun h0 => ht.trans (if_pos h0)) fun hn => ht.trans
        (tear_done hn.ge)
      exact ⟨h.good, .refl G' t, rfl⟩
    · rw [if_neg fun h0 => hc (.inl h0)] at ht
      obtain ⟨hg, he, -⟩ := h.good.copyin g hl' (hin _ (by omega)) (fun h0 => hc (.inl h0))
        (min_le_right ..) ht
      have := @avail_le tot src (min (n - tot) (BSIZE - (off + tot) % BSIZE))
      have hown := h.good.own i _ hl' (pos_lt (hin (off + tot) (by omega)))
        (.inr (notMem_empty i)) (hc <| .inl ·)
      refine ⟨hg, he.mono le_rfl (by omega), spare_congr fun c hlt => used_congr ?_⟩
      rw [ht, setBlk_of_ne (bit_ne_data hlt (h.good.owned _ _ _ hown).2.2.2.1)]
  refine ⟨hg, (h.edits.mono le_rfl (by omega)).trans (he.mono (by omega) le_rfl) hl,
    hsp, fun j hj => ?_⟩
  obtain ⟨h0, -, hb⟩ := h.bytes j hj
  exact ⟨by rwa [he.ptr _ hl' h0], (he.outside _ (hin _ (by omega)) h0 (.inl (by omega))).trans hb⟩

end Xv6.Fsys
