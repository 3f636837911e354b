import Mathlib.Data.Finset.Card
import Mathlib.Data.List.Basic
import Mathlib.Data.Finset.Dedup
import Xv6.Fs.Image
import Xv6.Fs.Itable

/-!
# Fs/Chunks — a chunk of `filewrite` fits the log

A chunk is at most three blocks long, so it touches four when it is not aligned; each may have to be
allocated, in a block of the free map of its own, and so may the indirect block.  That this makes
ten blocks and not twelve is because the block in which an unaligned chunk begins is there already,
and because the indirect block is allocated once.

`Fs.charge` counts the blocks logged so far together with what an indirect block will cost.  A turn
of the loop adds two to it, one if its block is there (`writeLoop_charge`,
`writeLoop_charge_first`), whatever is on the disk.
-/

namespace Xv6.Fsys

open Act Bytes Function List

section

variable [Super] {x : Set Nat} {G : Ghost} {s t : Fs} {b i k n off tot bn j : Nat} {src : Source}
  {E : Panic → Prop}

/-! ## What is paid for -/

/-- The blocks logged and the indirect block, or the two blocks that making one will log. -/
def Fs.charge (s : Fs) (k : Nat) : Nat :=
  if (s.itable k).d.addrs NDIRECT = 0 then s.logged.toFinset.card + 2
  else (insert ((s.itable k).d.addrs NDIRECT) s.logged.toFinset).card

omit [Super] in
theorem card_le_charge : s.logged.toFinset.card ≤ s.charge k := by
  unfold Fs.charge
  split
  · omega
  · exact Finset.card_le_card (Finset.subset_insert ..)

omit [Super] in
theorem charge_congr (h1 : t.logged = s.logged)
    (h2 : (t.itable k).d.addrs NDIRECT = (s.itable k).d.addrs NDIRECT) :
    t.charge k = s.charge k := by
  unfold Fs.charge
  rw [h1, h2]

omit [Super] in
theorem note_charge : (s.note b).charge k = if (s.itable k).d.addrs NDIRECT = 0
    then (insert b s.logged.toFinset).card + 2
    else (insert ((s.itable k).d.addrs NDIRECT) (insert b s.logged.toFinset)).card := by
  rw [← toFinset_cons]
  rfl

omit [Super] in
/-- **A block is logged.** -/
theorem charge_note : (s.note b).charge k ≤ s.charge k + 1 := by
  rw [note_charge, Fs.charge]
  split
  · have := Finset.card_insert_le b s.logged.toFinset
    omega
  · rw [Finset.insert_comm]
    exact Finset.card_insert_le ..

omit [Super] in
/-- …that has been logged before, or is the indirect block. -/
theorem charge_note_eq (h : b ∈ s.logged ∨ b ≠ 0 ∧ b = (s.itable k).d.addrs NDIRECT) :
    (s.note b).charge k ≤ s.charge k := by
  rw [note_charge, Fs.charge]
  rcases h with h | ⟨h0, rfl⟩
  · rw [Finset.insert_eq_of_mem (mem_toFinset.2 h)]
  · rw [if_neg h0, if_neg h0, Finset.insert_idem]

theorem charge_alloced : (s.alloced b).charge k ≤ s.charge k + 2 := by
  have h1 : ((s.mark b).note (BBLOCK b)).charge k ≤ s.charge k + 1 := charge_note
  have h2 : (s.alloced b).charge k ≤ ((s.mark b).note (BBLOCK b)).charge k + 1 := charge_note
  omega

/-- **The indirect block is paid for.** -/
theorem charge_indirect (h0 : (s.itable k).d.addrs NDIRECT = 0) (hb : b ≠ 0) {d : Dinode}
    (hd : d.addrs NDIRECT = b) :
    ((s.alloced b).setIno k { (s.alloced b).itable k with d }).charge k ≤ s.charge k := by
  have hlog : ((s.alloced b).setIno k { (s.alloced b).itable k with d }).logged =
      b :: BBLOCK b :: s.logged := rfl
  unfold Fs.charge
  rw [setIno_self, hlog]
  simp only [hd]
  rw [if_neg hb, if_pos h0, toFinset_cons, toFinset_cons, Finset.insert_idem]
  have h1 := Finset.card_insert_le b (insert (BBLOCK b) s.logged.toFinset)
  have h2 := Finset.card_insert_le (BBLOCK b) s.logged.toFinset
  omega

/-! ## One block -/

/-- What a call may add: nothing, or two blocks of which one is the result. -/
structure Charged (s : Fs) (k r : Nat) (t : Fs) : Prop where
  inOp : t.inOp = s.inOp
  le : t.charge k ≤ s.charge k + 2
  new : r ≠ 0 → t.charge k ≤ s.charge k ∨ r ∈ t.logged

/-- A slot of the inode; the indirect block costs nothing. -/
theorem bmapSlot_charge (ho : s.inOp = true) (hj : j ≤ NDIRECT) :
    wp (bmapSlot k j) (fun r t => Charged s k r t ∧
      (j = NDIRECT → r ≠ 0 → t.charge k ≤ s.charge k ∧ (t.itable k).d.addrs NDIRECT = r)) E s := by
  unfold bmapSlot
  rw [wp_bind, wp_gets, wp_ite]
  refine ⟨fun h0 => ?_, fun _ => ⟨⟨rfl, Nat.le_add_right .., fun _ => .inl le_rfl⟩,
    fun e _ => ⟨le_rfl, by rw [e]⟩⟩⟩
  rw [wp_bind]
  refine balloc_spec ho (fun _ => ?_) fun b _ => ?_
  · rw [wp_ite]
    exact ⟨fun _ => ⟨⟨rfl, Nat.le_add_right .., fun _ => .inl le_rfl⟩, fun _ hr => absurd rfl hr⟩,
      fun hn => absurd rfl hn⟩
  · rw [wp_ite]
    refine ⟨fun hb => ⟨⟨rfl, charge_alloced, fun hr => absurd rfl hr⟩, fun _ hr => absurd rfl hr⟩,
      fun hb => ?_⟩
    rw [wp_bind, setD, wp_modify, wp_pure]
    generalize hd : Dinode.setAddr _ j b = d
    have hat : d.addrs j = b := by rw [← hd]; exact update_self ..
    by_cases hjn : j = NDIRECT
    · subst hjn
      have hle := charge_indirect (k := k) h0 hb hat
      refine ⟨⟨rfl, hle.trans (Nat.le_add_right ..), fun _ => .inl hle⟩, fun _ _ => ⟨hle, ?_⟩⟩
      rw [setIno_self]
      exact hat
    · have hsame : d.addrs NDIRECT = (s.itable k).d.addrs NDIRECT := by
        rw [← hd]
        exact update_of_ne (Ne.symm hjn) ..
      have hc : ((s.alloced b).setIno k { (s.alloced b).itable k with d }).charge k =
          (s.alloced b).charge k :=
        charge_congr rfl (by rw [setIno_self]; exact hsame)
      exact ⟨⟨rfl, by rw [hc]; exact charge_alloced, fun _ => .inr mem_cons_self⟩,
        fun e => absurd e hjn⟩

/-- **A block of the file.** -/
theorem bmap_charge (ho : s.inOp = true) : wp (bmap k bn) (fun r t => Charged s k r t)
    (fun _ => True) s := by
  unfold bmap
  by_cases hd : bn < NDIRECT
  · rw [if_pos hd]
    exact (bmapSlot_charge ho hd.le).imp fun _ _ h => h.1
  · rw [if_neg hd, wp_ite]
    refine ⟨fun _ => ?_, fun _ => trivial⟩
    rw [wp_bind]
    refine (bmapSlot_charge ho le_rfl).imp fun ind t ⟨hc, hind⟩ => ?_
    have ho' : t.inOp = true := hc.inOp.trans ho
    rw [wp_ite]
    refine ⟨fun _ => ⟨hc.inOp, hc.le, fun hr => absurd rfl hr⟩, fun hn => ?_⟩
    obtain ⟨hle, haddr⟩ := hind rfl hn
    rw [wp_bind, wp_gets, wp_ite]
    refine ⟨fun _ => ?_, fun _ => ⟨hc.inOp, hle.trans (Nat.le_add_right ..), fun _ => .inl hle⟩⟩
    rw [wp_bind]
    refine balloc_spec ho' (fun _ => ?_) fun b _ => ?_
    · rw [wp_ite]
      exact ⟨fun _ => ⟨hc.inOp, hle.trans (Nat.le_add_right ..), fun hr => absurd rfl hr⟩,
        fun hn => absurd rfl hn⟩
    · have h2 : (t.alloced b).charge k ≤ t.charge k + 2 := charge_alloced
      rw [wp_ite]
      refine ⟨fun _ => ⟨hc.inOp, by omega, fun hr => absurd rfl hr⟩, fun hb => ?_⟩
      rw [wp_bind, wp_modify, wp_bind, wp_logWrite (show (Fs.setBlk (t.alloced b) _ _).inOp =
        true from ho'), wp_pure]
      generalize hu : (t.alloced b).setBlk ind _ = u
      have h3 : u.charge k = (t.alloced b).charge k := by rw [← hu]; exact charge_congr rfl rfl
      have h4 : (u.note ind).charge k ≤ u.charge k :=
        charge_note_eq (.inr ⟨hn, by rw [← hu]; exact haddr.symm⟩)
      have hmem : b ∈ u.logged := by rw [← hu]; exact mem_cons_self
      exact ⟨by rw [← hu]; exact hc.inOp, by omega, fun _ => .inr (mem_cons_of_mem _ hmem)⟩

/-! ## The loop -/

/-- The blocks that `n` bytes at `off` lie in. -/
def turns (off n : Nat) : Nat := if n = 0 then 0 else (off % BSIZE + n - 1) / BSIZE + 1

omit [Super] in
/-- A turn of the loop is done with one of them. -/
theorem turns_step {m : Nat} (hm : m = min n (BSIZE - off % BSIZE)) (hn : 0 < n) :
    turns (off + m) (n - m) + 1 ≤ turns off n := by
  have hlt : off % BSIZE < BSIZE := Nat.mod_lt _ (by decide)
  unfold turns
  by_cases hz : n - m = 0
  · rw [if_pos hz, if_neg hn.ne']
    exact Nat.succ_le_succ (Nat.zero_le _)
  · rw [if_neg hz, if_neg hn.ne']
    have hmod : (off + m) % BSIZE = 0 := by
      unfold BSIZE at *
      omega
    rw [hmod]
    unfold BSIZE at *
    omega

/-- The rest of a turn, once its block is known: a block is logged that may be in the log
already. -/
theorem charge_turn {r m c q : Nat} (ho : t.inOp = true)
    (hr : r ≠ 0 → t.charge k + 1 ≤ c ∨ t.charge k ≤ c ∧ r ∈ t.logged)
    (hz : t.charge k ≤ c) {fuel : Nat}
    (hrest : ∀ u : Fs, u.inOp = true → u.charge k ≤ c →
      wp (writeLoop src k n fuel (off + m) (tot + m))
      (fun _ u => u.inOp = true ∧ u.charge k ≤ c + 2 * q) (fun _ => True) u) :
    wp (if r = 0 then pure (off, tot) else do
      modify fun s => s.setBlk r (src.copyin (s.blk r) (off % BSIZE) tot m)
      if src.avail tot m < m then return (off, tot)
      logWrite r
      writeLoop src k n fuel (off + m) (tot + m))
        (fun _ u => u.inOp = true ∧ u.charge k ≤ c + 2 * q)
      (fun _ => True) t := by
  rw [wp_ite]
  refine ⟨fun _ => ⟨ho, by omega⟩, fun h0 => ?_⟩
  rw [wp_bind, wp_modify]
  generalize hu : t.setBlk r _ = u
  have hou : u.inOp = true := by rw [← hu]; exact ho
  have hcu : u.charge k = t.charge k := by rw [← hu]; exact charge_congr rfl rfl
  rw [wp_ite]
  refine ⟨fun _ => ⟨hou, by omega⟩, fun _ => ?_⟩
  rw [wp_bind, wp_logWrite hou]
  refine hrest _ hou ?_
  rcases hr h0 with hnew | ⟨hle, hmem⟩
  · have h1 : (u.note r).charge k ≤ u.charge k + 1 := charge_note
    omega
  · have h1 : (u.note r).charge k ≤ u.charge k := charge_note_eq (.inl (by rw [← hu]; exact hmem))
    omega

/-- **The loop adds two blocks for each of the file's.** -/
theorem writeLoop_charge {fuel : Nat} (ho : s.inOp = true) :
    wp (writeLoop src k n fuel off tot)
      (fun _ t => t.inOp = true ∧ t.charge k ≤ s.charge k + 2 * turns off (n - tot))
      (fun _ => True) s := by
  induction fuel generalizing s off tot with
  | zero => exact ⟨ho, Nat.le_add_right ..⟩
  | succ fuel ih =>
    unfold writeLoop
    by_cases hlt : tot < n
    · rw [if_pos hlt, wp_bind]
      generalize hm : min (n - tot) (BSIZE - off % BSIZE) = m
      have hstep := turns_step hm.symm (by omega)
      refine (bmap_charge ho).imp fun r t hc => ?_
      refine (charge_turn (c := s.charge k + 2) (q := turns (off + m) (n - tot - m))
        (hc.inOp.trans ho) (fun h0 => ?_) hc.le fun u hou hu => ?_).imp fun _ u hu =>
          ⟨hu.1, by omega⟩
      · exact (hc.new h0).imp (fun h => by omega) fun h => ⟨hc.le, h⟩
      · refine (ih hou).imp fun _ v hv => ⟨hv.1, ?_⟩
        rw [Nat.sub_add_eq] at hv
        omega
    · rw [if_neg hlt]
      exact ⟨ho, Nat.le_add_right ..⟩

/-- …but one for the first, if it is there. -/
theorem writeLoop_charge_first {fuel : Nat} (ho : s.inOp = true) (hlt : tot < n)
    (hmax : off / BSIZE < MAXFILE) (h0 : ptr s.blk (s.itable k).d (pos (off / BSIZE)) ≠ 0) :
    wp (writeLoop src k n (fuel + 1) off tot)
      (fun _ t => t.inOp = true ∧ t.charge k + 1 ≤ s.charge k + 2 * turns off (n - tot))
      (fun _ => True) s := by
  unfold writeLoop
  rw [if_pos hlt, wp_bind]
  generalize hm : min (n - tot) (BSIZE - off % BSIZE) = m
  have hstep := turns_step hm.symm (by omega)
  refine wp_of_ok (bmap_found rfl hmax h0) ?_
  refine (charge_turn (c := s.charge k + 1) (q := turns (off + m) (n - tot - m)) ho
    (fun _ => .inl le_rfl) (Nat.le_add_right ..) fun u hou hu => ?_).imp fun _ u hu =>
      ⟨hu.1, by omega⟩
  refine (writeLoop_charge hou).imp fun _ v hv => ⟨hv.1, ?_⟩
  rw [Nat.sub_add_eq] at hv
  omega

/-! ## A chunk -/

omit [Super] in
theorem charge_start (h : s.logged = []) : s.charge k ≤ 2 := by
  unfold Fs.charge
  rw [h]
  split
  · exact le_rfl
  · exact (Finset.card_insert_le ..).trans (by decide)

omit [Super] in
theorem turns_le (hn : n ≤ maxWrite) : turns off n ≤ 4 ∧ (off % BSIZE = 0 → turns off n ≤ 3) := by
  have hlt : off % BSIZE < BSIZE := Nat.mod_lt _ (by decide)
  have hmax : maxWrite = 3072 := rfl
  unfold turns BSIZE at *
  constructor
  · split <;> omega
  · intro h
    split <;> omega

/-- **One chunk**: a write of no more than `maxWrite` bytes, the first of which is not in a hole,
logs no more blocks than an operation may. -/
theorem writei_logged (ho : s.inOp = true) (hlog : s.logged = []) (hn : n ≤ maxWrite)
    (hfirst : off ≤ (s.itable k).d.size → off % BSIZE ≠ 0 →
      ptr s.blk (s.itable k).d (pos (off / BSIZE)) ≠ 0)
    (hoff : off < 2 ^ 32) :
    wp (writei src k off n) (fun _ t => t.logged.toFinset.card ≤ Xv6.Fs.MAXOPBLOCKS)
    (fun _ => True) s := by
  have hstart := charge_start (k := k) hlog
  obtain ⟨h4, h3⟩ : turns off n ≤ 4 ∧ (off % BSIZE = 0 → turns off n ≤ 3) := turns_le hn
  have h32 : maxWrite < 2 ^ 32 := by decide
  unfold writei
  rw [wp_bind, wp_gets, wp_ite]
  refine ⟨fun _ => ?_, fun hc => ?_⟩
  · rw [wp_pure, hlog]
    decide
  rw [wp_ite]
  refine ⟨fun _ => ?_, fun hmax => ?_⟩
  · rw [wp_pure, hlog]
    decide
  rw [wp_bind]
  have hloop : wp (writeLoop src k n n off 0) (fun _ t => t.inOp = true ∧ t.charge k ≤ 9)
      (fun _ => True) s := by
    by_cases hal : off % BSIZE = 0 ∨ n = 0
    · refine (writeLoop_charge ho).imp fun _ t ht => ⟨ht.1, ?_⟩
      have h3' : turns off n ≤ 3 := by
        rcases hal with hal | rfl
        · exact h3 hal
        · exact Nat.zero_le _
      rw [Nat.sub_zero] at ht
      omega
    · obtain ⟨fuel, rfl⟩ : ∃ fuel, n = fuel + 1 :=
        Nat.exists_eq_succ_of_ne_zero fun e => hal (.inr e)
      have hbn : off / BSIZE < MAXFILE := Nat.div_lt_of_lt_mul (by rw [Nat.mul_comm]; omega)
      refine (writeLoop_charge_first ho (show 0 < fuel + 1 by omega) hbn
        (hfirst (by omega) fun e => hal (.inl e))).imp fun _ t ht => ⟨ht.1, ?_⟩
      rw [Nat.sub_zero] at ht
      omega
  refine hloop.imp fun r t ⟨hot, hct⟩ => ?_
  simp only [setD, wp_bind, wp_modify]
  generalize hd : (if (t.itable k).d.size < r.1 then { (t.itable k).d with size := r.1 } else
    (t.itable k).d) = d
  have hdir : d.addrs NDIRECT = (t.itable k).d.addrs NDIRECT := by
    rw [← hd]
    split <;> rfl
  generalize hu : t.setIno k { t.itable k with d } = u
  have hcu : u.charge k = t.charge k := by
    rw [← hu]
    exact charge_congr rfl (by rw [setIno_self]; exact hdir)
  rw [wp_iupdate (by rw [← hu]; exact hot), wp_pure]
  have h1 : (u.stored k).charge k ≤ u.charge k + 1 := charge_note
  have h2 : (u.stored k).logged.toFinset.card ≤ (u.stored k).charge k := card_le_charge
  show _ ≤ 10
  omega

/-! ## `filewrite` -/

/-- A turn of the loop, which writes at most `n1` bytes: one operation. -/
def writeTurn (f : Nat) (src : Source) (n1 : Nat) : Act Fs Panic Int := do
  beginOp
  let F ← gets fun s => s.ftable f
  ilock F.ip
  let r ← writei src F.ip F.off n1
  if 0 < r then modify fun s =>
    { s with ftable := update s.ftable f { s.ftable f with off := (F.off + r.toNat) % 2 ^ 32 } }
  iunlock F.ip
  endOp
  return r

omit [Super] in
theorem ite_bind {α β : Type} (c : Prop) [Decidable c] (m m' : Act Fs Panic α)
    (h : α → Act Fs Panic β) : (if c then m else m') >>= h = if c then m >>= h else m' >>= h := by
  split <;> rfl

/-- **The loop is its turns.** -/
theorem filewriteLoop_turn {f c fuel : Nat} : filewriteLoop f src n (fuel + 1) c =
    if c < n then do
      let r ← writeTurn f (fun j => src (c + j)) (min (n - c) maxWrite)
      if r ≠ (min (n - c) maxWrite : Nat) then return c
      else filewriteLoop f src n fuel (c + min (n - c) maxWrite)
    else return c := by
  simp only [filewriteLoop, writeTurn, bind_assoc, ite_bind, pure_bind]

/-- File `f` is open on inode `i`, in entry `k`, and nobody has it locked. -/
structure Open (f k i : Nat) (G : Ghost) (s : Fs) : Prop where
  good : Good ∅ ∅ G s
  ip : (s.ftable f).ip = k
  held : Held s k i
  unlocked : (s.itable k).locked = false
  live : G.Live i
  off : (s.ftable f).off < 2 ^ 32

/-- A byte of the file, in a block that is there. -/
def Placed (i : Nat) (G : Ghost) (s : Fs) (o : Nat) (c : UInt8) : Prop :=
  ptr s.blk (G.ino i) (pos (o / BSIZE)) ≠ 0 ∧ fileByte s.blk (G.ino i) o = c

/-- **What a turn does**: it puts the first `tot` bytes of the source at the offset, moves the
offset behind them, and leaves what is before it. -/
structure Chunk (f k i n1 : Nat) (src : Source) (G : Ghost) (s : Fs) (r : Int) (tot : Nat)
    (G' : Ghost) (t : Fs) : Prop where
  opened : Open f k i G' t
  ret : r = tot ∨ r = -1 ∧ tot = 0
  le : tot ≤ n1
  off : (t.ftable f).off = (s.ftable f).off + tot
  fits : 0 < tot → (s.ftable f).off + tot ≤ min (G'.ino i).size (MAXFILE * BSIZE)
  grows : (G.ino i).size ≤ (G'.ino i).size
  bytes : ∀ j < tot, Placed i G' t ((s.ftable f).off + j) ((src j).getD 0)
  /-- All is written that can be read and has room. -/
  full : (∀ j < n1, (src j).isSome = true) → (s.ftable f).off ≤ (s.dino i).size →
    (s.ftable f).off + n1 ≤ MAXFILE * BSIZE → t.spare ≠ none → r = n1
  kept : ∀ o c, o < (s.ftable f).off → o / BSIZE < MAXFILE → Placed i G s o c → Placed i G' t o c
  logs : i ∉ G.sparse → i ∉ G'.sparse ∧ ∃ o : List Nat, t.ops = s.ops ++ [o] ∧
    o.toFinset.card ≤ Xv6.Fs.MAXOPBLOCKS

/-- The state at the end of a turn: unlocked, and the operation ended. -/
def Fs.finished (u : Fs) (k : Nat) : Fs :=
  { u.unlock k with inOp := false, logged := [], ops := u.ops ++ [u.logged] }

omit [Super] in
theorem wp_finish {Q : Int → Fs → Prop} {r : Int} (hr : 0 < (t.itable k).ref)
    (hu : (t.itable k).locked = true) (h : Q r (t.finished k)) :
    wp (do iunlock k; endOp; return r) Q E t := by
  rw [wp_bind, wp_iunlock hr hu, wp_bind, endOp, wp_modify, wp_pure]
  exact h

theorem Open.finished {f : Nat} (h : Good ∅ ∅ G t) (hk : Held t k i) (hl : G.Live i)
    (hip : (t.ftable f).ip = k) (hoff : (t.ftable f).off < 2 ^ 32) :
    Open f k i G (t.finished k) := by
  obtain ⟨hg, hk'⟩ := h.unlock hk
  refine ⟨hg.congr rfl rfl, hip, ⟨hk'.lt, hk'.ref, hk'.inum⟩, ?_, hl, hoff⟩
  show ((t.unlock k).itable k).locked = false
  unfold Fs.unlock
  rw [setIno_self]

/-- **A turn of `filewrite`** goes through, and writes a chunk. -/
theorem writeTurn_spec (g : Geometry) {f n1 : Nat} (h : Open f k i G s) (hn : n1 ≤ maxWrite) :
    wp (writeTurn f src n1) (fun r t => ∃ tot G', Chunk f k i n1 src G s r tot G' t)
    (fun _ => False) s := by
  unfold writeTurn
  rw [wp_bind, beginOp, wp_modify, wp_bind, wp_gets]
  generalize hs1 : ({ s with inOp := true, logged := [] } : Fs) = s1
  have hf1 : s1.ftable = s.ftable := by rw [← hs1]
  have hi1 : s1.itable = s.itable := by rw [← hs1]
  have hb1 : s1.blk = s.blk := by rw [← hs1]
  have hg1 : Good ∅ ∅ G s1 := h.good.congr hb1 hi1
  have hk1 : Held s1 k i :=
    ⟨h.held.lt, by rw [hi1]; exact h.held.ref, by rw [hi1]; exact h.held.inum⟩
  have hoff := h.off
  rw [hf1, h.ip]
  generalize hoo : (s.ftable f).off = off at *
  have htype : (s1.dino (s1.itable k).inum).type ≠ 0 := by
    rw [hk1.inum, hg1.disk i h.live.1 (Set.notMem_empty i)]
    exact h.live.2
  rw [wp_bind, wp_ilock hk1.ref (by rw [hi1]; exact h.unlocked) (.inr htype)]
  obtain ⟨hg2, hk2⟩ := hg1.lock hk1 (.inr (Set.notMem_empty i))
  have hlock : ((s1.lock k).itable k).locked = true := by
    unfold Fs.lock
    rw [setIno_self]
  have hin : (s1.lock k).inOp = true := by rw [← hs1]; rfl
  have hlog : (s1.lock k).logged = [] := by rw [← hs1]; rfl
  have hfirst (hs : i ∉ G.sparse) : off ≤ ((s1.lock k).itable k).d.size → off % BSIZE ≠ 0 →
      ptr (s1.lock k).blk ((s1.lock k).itable k).d (pos (off / BSIZE)) ≠ 0 := fun hle hmod => by
    rw [hg2.loaded hk2] at hle ⊢
    refine (hg2.mapped i h.live (Set.notMem_empty i) hs).2 _ ?_
    have := Nat.div_add_mod off BSIZE
    rw [Nat.mul_comm] at this
    omega
  have hd : s.dino i = G.ino i := h.good.disk i h.live.1 (Set.notMem_empty i)
  have hcard : wp (writei src k off n1) (fun _ t => i ∉ G.sparse → t.logged.toFinset.card ≤
      Xv6.Fs.MAXOPBLOCKS) (fun _ => True) (s1.lock k) := by
    by_cases hs : i ∈ G.sparse
    · exact wp_trivial.imp fun _ _ _ hc => absurd hs hc
    · exact (writei_logged hin hlog hn (hfirst hs) hoff).imp fun _ _ hc _ => hc
  rw [wp_bind]
  refine ((writei_spec (E := fun _ => False) g hg2 hin hk2 h.live (hn.trans_lt (by decide))
    hoff).and hcard).mono (fun r t ⟨hw, hcard⟩ => ?_) fun _ he => he.1
  rcases hw with ⟨rfl, rfl, hbad⟩ | ⟨G', tot, u, rfl, hsize, hmax, hw, ht⟩
  · -- the range is refused
    rw [if_neg (by decide)]
    have hip : ((s1.lock k).ftable f).ip = k := by rw [← h.ip, ← hf1]; rfl
    have ho : ((s1.lock k).ftable f).off = off := by rw [← hoo, ← hf1]; rfl
    refine wp_finish hk2.ref hlock ⟨0, G, .finished hg2 hk2.toHeld h.live hip
      (by rw [ho]; exact hoff), .inr ⟨rfl, rfl⟩, Nat.zero_le _, ?_,
      fun hc => absurd hc (lt_irrefl 0), le_rfl, nofun, fun _ h1 h2 _ => ?_, fun o c _ _ hp => ?_,
      fun hs => ⟨hs, _, ?_, hcard hs⟩⟩
    · rw [hoo]
      exact ho
    · rw [hoo, hd] at *
      omega
    · show Placed i G s1 o c
      unfold Placed
      rw [hb1]
      exact hp
    · rw [← hs1]
      rfl
  · have h32 : MAXFILE * BSIZE < 2 ^ 32 := by decide
    have hle := hw.le
    obtain ⟨hgood, hedits, hspare, hbytes⟩ := hw.torn g h.live hmax ht
    have hst := hedits.toStays
    have hk3 := hst.loaded hk2
    have hlk : (t.itable k).locked = true := (hst.locked k).trans hlock
    have hft : t.ftable = s.ftable := hst.ftable.trans hf1
    -- the end of the turn, wherever the offset has been moved
    have hend : ∀ u : Fs, u.blk = t.blk → u.itable = t.itable → u.ops = t.ops →
        u.logged = t.logged → (u.ftable f).ip = k → (u.ftable f).off = off + tot →
        wp (do iunlock k; endOp; return (tot : Int))
        (fun r t => ∃ tot G', Chunk f k i n1 src G s r tot G' t)
          (fun _ => False) u := by
      intro u hb hi hops hlg hip ho
      have hku : Held u k i := ⟨hk3.lt, by rw [hi]; exact hk3.ref, by rw [hi]; exact hk3.inum⟩
      have hP : ∀ o c, Placed i G' t o c → Placed i G' (u.finished k) o c := fun o c hp => by
        unfold Placed at hp ⊢
        rw [← hb] at hp
        exact hp
      refine wp_finish hku.ref (by rw [hi]; exact hlk) ⟨tot, G', .finished (hgood.congr hb hi) hku
        (hedits.live.2 h.live) hip (by omega), .inl rfl, hle, ho.trans (by rw [hoo]), fun _ => ?_,
        ?_, fun j hj => hP _ _ ?_, fun hsome _ _ hsp => ?_, fun o c hlt hbn hp => hP o c ?_,
        fun hs => ⟨?_, t.logged, ?_, hcard hs⟩⟩
      · rw [hw.size, hoo]
        omega
      · rw [hw.size]
        exact le_max_left ..
      · rw [hoo]
        exact hbytes j hj
      · by_contra hne
        have hlt : tot < n1 := by omega
        refine (hw.stop hlt).elim (fun hav => hav.ne (avail_eq fun j hj => hsome _ (by omega)))
          fun hnone => hsp ?_
        rw [← hnone, ← hspare]
        exact spare_congr fun c _ => used_congr (congrFun hb _)
      · obtain ⟨h0, rfl⟩ : Placed i G (s1.lock k) o c := by
          unfold Placed
          rw [show (s1.lock k).blk = s.blk from hb1]
          exact hp
        exact ⟨by rw [hedits.ptr _ h.live h0]; exact h0, hedits.outside o hbn h0 (.inl (hoo ▸ hlt))⟩
      · rw [hedits.sparse]
        exact hs
      · rw [← hlg, show s.ops = u.ops from (hops.trans (hst.ops.trans (by rw [← hs1]; rfl))).symm]
        rfl
    rw [wp_ite]
    refine ⟨fun _ => ?_, fun h0 => hend t rfl rfl rfl rfl (by rw [hft, h.ip])
      (by rw [hft, hoo]; omega)⟩
    rw [wp_bind, wp_modify]
    refine hend _ rfl rfl rfl rfl ?_ ?_
    · show (update t.ftable f _ f).ip = k
      rw [update_self, hft, h.ip]
    · show (update t.ftable f _ f).off = _
      rw [update_self, Int.toNat_natCast, Nat.mod_eq_of_lt (by omega)]

/-- **Every operation of the loop fits.** -/
theorem filewriteLoop_ops (g : Geometry) {f c fuel : Nat} (h : Open f k i G s) (hs : i ∉ G.sparse) :
    wp (filewriteLoop f src n fuel c) (fun _ t => ∃ l, t.ops = s.ops ++ l ∧
      ∀ o ∈ l, o.toFinset.card ≤ Xv6.Fs.MAXOPBLOCKS) (fun _ => False) s := by
  induction fuel generalizing s G c with
  | zero => exact ⟨[], (append_nil _).symm, fun o ho => by cases ho⟩
  | succ fuel ih =>
    rw [filewriteLoop_turn, wp_ite]
    refine ⟨fun _ => ?_, fun _ => ⟨[], (append_nil _).symm, fun o ho => by cases ho⟩⟩
    rw [wp_bind]
    refine (writeTurn_spec g h (min_le_right ..)).imp fun r t ⟨tot, G', hc⟩ => ?_
    obtain ⟨hs', o, ho, hcard⟩ := hc.logs hs
    rw [wp_ite]
    refine ⟨fun _ => ⟨[o], ho, fun o' ho' => mem_singleton.1 ho' ▸ hcard⟩, fun _ => ?_⟩
    refine (ih hc.opened hs').imp fun _ u ⟨l, hl, hall⟩ => ⟨o :: l, ?_, fun o' ho' => ?_⟩
    · rw [hl, ho, append_assoc]
      rfl
    · rcases mem_cons.1 ho' with rfl | ho'
      · exact hcard
      · exact hall o' ho'

/-- **The chunks of `filewrite` respect the limit.**  On a consistent disk of any layout, with any
blocks free, a call for any file open on an inode without holes returns, and each of its operations
logs at most `MAXOPBLOCKS` distinct blocks. -/
theorem filewrite_ops (g : Geometry) {f : Nat} (h : Good ∅ ∅ G s) (hk : Held s (s.ftable f).ip i)
    (hu : (s.itable (s.ftable f).ip).locked = false) (hl : G.Live i) (hs : i ∉ G.sparse)
    (hoff : (s.ftable f).off < 2 ^ 32) (src : Source) (n : Int) :
    ∃ r t l, filewrite f src n s = .ok (r, t) ∧ t.ops = s.ops ++ l ∧
      ∀ o ∈ l, o.toFinset.card ≤ Xv6.Fs.MAXOPBLOCKS := by
  have hwp : wp (filewrite f src n) (fun _ t => ∃ l, t.ops = s.ops ++ l ∧
      ∀ o ∈ l, o.toFinset.card ≤ Xv6.Fs.MAXOPBLOCKS) (fun _ => False) s := by
    unfold filewrite
    rw [wp_bind, wp_gets, wp_ite]
    refine ⟨fun _ => ?_, fun _ => ⟨[], (List.append_nil _).symm, fun o ho => by cases ho⟩⟩
    rw [wp_bind]
    exact filewriteLoop_ops g ⟨h, rfl, hk, hu, hl, hoff⟩ hs
  obtain ⟨r, t, hrun, l, hl⟩ := hwp.total
  exact ⟨r, t, l, hrun, hl⟩

end

section

attribute [local instance] mkfsSuper

/-- The disk between operations, with the file open for writing. -/
def diskOpen : Fs :=
  { disk.unlock 0 with
    inOp := false, ftable := fun _ => { type := .FD_INODE, ref := 1, writable := true, ip := 0 } }

/-- A write of five bytes. -/
theorem filewrite_ops_disk : ∃ r t l, filewrite 0 (kernelSrc [1, 2, 3, 4, 5]) 5 diskOpen =
    .ok (r, t) ∧ t.ops = diskOpen.ops ++ l ∧ ∀ o ∈ l, o.toFinset.card ≤ Xv6.Fs.MAXOPBLOCKS := by
  obtain ⟨hg, hk⟩ := disk_good.unlock disk_loaded.toHeld
  exact filewrite_ops mkfs_geometry (hg.congr rfl rfl : Good ∅ ∅ _ diskOpen) ⟨hk.lt, hk.ref,
    hk.inum⟩ rfl disk_live (Set.notMem_empty 2) (by decide) (kernelSrc [1, 2, 3, 4, 5]) 5

end

end Xv6.Fsys
