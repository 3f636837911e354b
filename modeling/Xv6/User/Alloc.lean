import Xv6.User.Heap
import Xv6.Vm.Machine

/-!
# User/Alloc — taking a block, and whole runs of the allocator

`malloc` walks the ring once and takes the first block that is large enough; where there is none,
`morecore` puts a new one into the ring and the second walk finds it.  So `malloc` returns
(`malloc_spec`), and what a program does with the heap — any sequence of calls, and of stores into
the blocks it has — keeps the ring and the tiling (`heap_integrity`).
-/

namespace Xv6.Umalloc

open List

variable {base : Nat} {N H A B : List Nat} {s t : Heap} {p q n prevp : Nat}

/-! ## Taking a block -/

/-- A header stored with the size it had. -/
theorem put_size_same {c x : Nat} : (s.put p ⟨c, s.size p⟩).size x = s.size x := by
  by_cases hx : x = p
  · subst hx
    exact put_size_self
  · exact size_congr (put_hdr_of_ne hx)

/-- **A block of the right size leaves the ring.** -/
theorem Ring.unlink (h : Ring base (A ++ prevp :: p :: B) H s) (hp : p ≠ base) :
    Ring base (A ++ prevp :: B) (p :: H)
    { s.put prevp ⟨s.ptr p, s.size prevp⟩ with freep := prevp } := by
  have hsub : (A ++ prevp :: B).Sublist (A ++ prevp :: p :: B) :=
    ((sublist_cons_self p B).cons_cons prevp).append_left A
  have hl : Links s.ptr (A ++ prevp :: p :: (B ++ [base])) := by simpa using h.links
  have hnd := nodup_append.1 h.nodup
  have hA : ∀ x ∈ A, x ≠ prevp := fun x hx => hnd.2.2 x hx prevp mem_cons_self
  have hB : ∀ x ∈ B, x ≠ prevp := fun x hx e =>
    (nodup_cons.1 hnd.2.1).1 (e ▸ mem_cons_of_mem p hx)
  -- the sizes are what they were, so every block is where it was
  have hsize : (s.put prevp ⟨s.ptr p, s.size prevp⟩).size = s.size := funext fun x => put_size_same
  have htile : (s.put prevp ⟨s.ptr p, s.size prevp⟩).tile = s.tile :=
    funext fun x => tile_congr put_size_same
  have hpast : (s.put prevp ⟨s.ptr p, s.size prevp⟩).past = s.past :=
    funext fun x => past_congr put_size_same
  have hpN : p ∈ A ++ prevp :: p :: B := by simp
  refine ⟨head_append.trans (head_append.symm.trans h.head), ?_, ?_, ?_, ?_, ?_, ?_, h.once,
    h.within, by simp⟩
  · have hup : Links (s.put prevp ⟨s.ptr p, s.size prevp⟩).ptr (prevp :: (B ++ [base])) :=
      (links_pair.1 (links_split.1 hl).2).2.restart put_ptr_self fun x hx => ptr_congr
        (put_hdr_of_ne (hB x hx))
    have hall : Links (s.put prevp ⟨s.ptr p, s.size prevp⟩).ptr (A ++ prevp :: B ++ [base]) := by
      simpa using hl.splice (fun x hx => ptr_congr (put_hdr_of_ne (hA x hx))) hup
    exact hall
  · show (A ++ prevp :: B).Pairwise fun x y => (s.put prevp ⟨s.ptr p, s.size prevp⟩).past x < y
    rw [hpast]
    exact h.order.sublist hsub
  · exact (congrFun hsize base).trans h.base_size
  · intro x hx hb
    show 0 < (s.put prevp ⟨s.ptr p, s.size prevp⟩).size x ∧ _
    rw [hsize]
    exact h.node x (hsub.subset hx) hb
  · intro x hx
    show 0 < (s.put prevp ⟨s.ptr p, s.size prevp⟩).size x ∧ _
    rw [hsize]
    rcases mem_cons.1 hx with rfl | hx
    · exact h.node x hpN hp
    · exact h.held x hx
  · intro x
    have e := h.tiled x
    show cover ((A ++ prevp :: B).map (s.put prevp ⟨s.ptr p, s.size prevp⟩).tile) x +
      cover ((p :: H).map (s.put prevp ⟨s.ptr p, s.size prevp⟩).tile) x = cover s.obtained x
    rw [htile]
    simp only [map_append, map_cons, cover_append, cover_cons] at e ⊢
    omega

/-- The header of a block's tail is no other block's. -/
theorem Ring.tail_fresh (h : Ring base (A ++ p :: B) H s) (hb : p ≠ base) (hpq : p < q)
    (hq : q < s.past p) : q ∉ A ++ p :: B ∧ q ∉ H := by
  have hpN : p ∈ A ++ p :: B := by simp
  constructor
  · intro hqN
    have hord := pairwise_append.1 h.order
    have hlow : ∀ x ∈ A, x < p := fun x hx => le_past.trans_lt (hord.2.2 x hx p mem_cons_self)
    have hup := (pairwise_cons.1 hord.2.1).1
    rcases mem_append.1 hqN with hqA | hqB
    · exact absurd (hlow q hqA) (by omega)
    · rcases mem_cons.1 hqB with rfl | hqB
      · omega
      · exact absurd (hup q hqB) (by omega)
  · intro hqH
    have ha := h.apart hpN hb hqH
    have h0 := (h.held q hqH).1
    unfold Apart Heap.tile at ha
    unfold Heap.past at hq
    simp only [UNIT_eq] at ha hq
    omega

/-- **A larger block gives its tail.** -/
theorem Ring.split (h : Ring base (A ++ p :: B) H s) (hp : p ≠ base) (hn : 0 < n)
    (hlt : n < s.size p) (hprev : prevp ∈ A ++ p :: B) (hq : q = p + UNIT * (s.size p - n))
    {c : Nat} : Ring base (A ++ p :: B) (q :: H)
      { (s.put p ⟨s.ptr p, s.size p - n⟩).put q ⟨c, n⟩ with freep := prevp } := by
  generalize ht : (s.put p ⟨s.ptr p, s.size p - n⟩).put q ⟨c, n⟩ = t
  have hpN : p ∈ A ++ p :: B := by simp
  have hpq : p < q := by rw [hq, UNIT_eq]; omega
  have hqp : q < s.past p := by rw [hq, Heap.past, UNIT_eq]; omega
  obtain ⟨hqN, hqH⟩ := h.tail_fresh hp hpq hqp
  have hpH : p ∉ H := fun hx => h.notMem_of_held hx hpN
  have hne : ∀ x, x ≠ p → x ≠ q → t.hdr x = s.hdr x := fun x h1 h2 => by
    rw [← ht, put_hdr_of_ne h2, put_hdr_of_ne h1]
  have hN : ∀ x ∈ A ++ p :: B, x ≠ p → t.hdr x = s.hdr x :=
    fun x hx h1 => hne x h1 fun e => hqN (e ▸ hx)
  have hH : ∀ x ∈ H, t.hdr x = s.hdr x :=
    fun x hx => hne x (fun e => hpH (e ▸ hx)) fun e => hqH (e ▸ hx)
  have htp : t.hdr p = ⟨s.ptr p, s.size p - n⟩ := by
    rw [← ht, put_hdr_of_ne hpq.ne]
    exact Function.update_self ..
  have hsp : t.size p = s.size p - n := congrArg Header.size htp
  have hsq : t.size q = n := by rw [← ht, put_size_self]
  have hptr : ∀ x ∈ A ++ p :: B, t.ptr x = s.ptr x := fun x hx => by
    by_cases hxp : x = p
    · subst hxp
      rw [Heap.ptr, htp]
    · exact ptr_congr (hN x hx hxp)
  have hpast : ∀ x ∈ A ++ p :: B, t.past x ≤ s.past x := fun x hx => by
    by_cases hxp : x = p
    · subst hxp
      rw [Heap.past, Heap.past, hsp]
      exact Nat.add_le_add_left (Nat.mul_le_mul_left _ (Nat.sub_le _ _)) _
    · exact (past_congr (size_congr (hN x hx hxp))).le
  have hnd := nodup_append.1 h.nodup
  have hobt : t.obtained = s.obtained := by rw [← ht]; rfl
  have hbase : t.hdr base = s.hdr base := hN base h.base_mem hp.symm
  refine ⟨h.head, h.links.congr hptr, ?_, (size_congr hbase).trans h.base_size, ?_, ?_, ?_,
    fun x => (congrArg (cover · x) hobt).trans_le (h.once x),
    fun u hu => h.within u (hobt ▸ hu), hprev⟩
  · refine List.Pairwise.imp_of_mem (fun {x y} hx _ hxy => ?_) h.order
    exact (hpast x hx).trans_lt hxy
  · intro x hx hb
    show 0 < t.size x ∧ _
    by_cases hxp : x = p
    · subst hxp
      rw [hsp]
      exact ⟨by omega, (h.node x hx hb).2⟩
    · rw [size_congr (hN x hx hxp)]
      exact h.node x hx hb
  · intro x hx
    show 0 < t.size x ∧ _
    rcases mem_cons.1 hx with rfl | hx
    · have hal := (h.node p hpN hp).2
      rw [hsq]
      refine ⟨hn, ?_⟩
      rw [hq, Nat.add_mul_mod_self_left, hal]
    · rw [size_congr (hH x hx)]
      exact h.held x hx
  · intro x
    have e := h.tiled x
    have hA : A.map t.tile = A.map s.tile := map_tile_congr fun y hy =>
      size_congr (hN y (by simp [hy]) (hnd.2.2 y hy p mem_cons_self))
    have hB : B.map t.tile = B.map s.tile := map_tile_congr fun y hy =>
      size_congr (hN y (by simp [hy]) fun e => (nodup_cons.1 hnd.2.1).1 (e ▸ hy))
    have hHt : H.map t.tile = H.map s.tile := map_tile_congr fun y hy => size_congr (hH y hy)
    have hcut : (if InTile x (s.tile p) then 1 else 0) =
        (if InTile x (t.tile p) then 1 else 0) + if InTile x (t.tile q) then 1 else 0 := by
      have e' : s.tile p = (p, UNIT * (s.size p - n) + UNIT * n) := by
        rw [Heap.tile, ← Nat.mul_add, Nat.sub_add_cancel hlt.le]
      rw [e', inTile_cut, Heap.tile, Heap.tile, hsp, hsq, hq]
    show cover ((A ++ p :: B).map t.tile) x + cover ((q :: H).map t.tile) x = cover t.obtained x
    rw [hobt]
    simp only [map_append, map_cons, cover_append, cover_cons] at e ⊢
    rw [hA, hB, hHt]
    omega

/-- **`take` gives a block of the size asked for.** -/
theorem take_spec (h : Ring base N H s) (hprev : prevp ∈ N) (hn : 0 < n)
    (hfit : n ≤ s.size (s.ptr prevp)) : ∃ N' q t, take n prevp (s.ptr prevp) s = .ok (q + UNIT, t) ∧
    Ring base N' (q :: H) t ∧ t.size q = n ∧
      Keeps H s t := by
  obtain ⟨A, B, rfl⟩ := append_of_mem hprev
  have hl :=
    (links_split.1 (show Links s.ptr (A ++ prevp :: (B ++ [base])) by simpa using h.links)).2
  have hpb : s.ptr prevp ≠ base := fun e => by
    rw [e, h.base_size] at hfit
    omega
  -- the block is not `base`, so it stands after `prevp` in the list
  cases B with
  | nil => exact absurd (links_pair.1 hl).1 hpb
  | cons p B =>
    obtain ⟨e, -⟩ := links_pair.1 hl
    rw [e] at hpb hfit ⊢
    have hHp : ∀ x ∈ H, x ≠ p ∧ x ≠ prevp := fun x hx => by
      have := h.notMem_of_held hx
      simp only [mem_append, mem_cons, not_or] at this
      exact ⟨this.2.2.1, this.2.1⟩
    by_cases hs : s.size p = n
    · refine ⟨A ++ prevp :: B, p, { s.put prevp ⟨s.ptr p, s.size prevp⟩ with freep := prevp }, ?_,
        h.unlink hpb, put_size_same.trans hs, fun x hx => put_hdr_of_ne (hHp x hx).2, rfl, rfl⟩
      unfold take
      rw [if_pos hs]
    · have hlt : n < s.size p := hfit.lt_of_ne (Ne.symm hs)
      have h' : Ring base ((A ++ [prevp]) ++ p :: B) H s := by simpa using h
      have hpq : p < p + UNIT * (s.size p - n) := by rw [UNIT_eq]; omega
      have hqp : p + UNIT * (s.size p - n) < s.past p := by rw [Heap.past, UNIT_eq]; omega
      obtain ⟨hqN, hqH⟩ := h'.tail_fresh hpb hpq hqp
      have hr :=
        h'.split (c := s.ptr (p + UNIT * (s.size p - n))) hpb hn hlt (show prevp ∈ _ by simp) rfl
      refine ⟨_, p + UNIT * (s.size p - n), _, ?_, hr, put_size_self, fun x hx => ?_, rfl, rfl⟩
      · unfold take
        have hpast : (s.put p ⟨s.ptr p, s.size p - n⟩).past p = p + UNIT * (s.size p - n) := by
          rw [Heap.past, put_size_self]
        rw [if_neg hs]
        simp only [hpast]
        rw [ptr_congr (put_hdr_of_ne hpq.ne')]
      · have hxq : x ≠ p + UNIT * (s.size p - n) := fun e => hqH (e ▸ hx)
        exact (put_hdr_of_ne hxq).trans (put_hdr_of_ne (hHp x hx).1)

/-! ## More memory -/

/-- What is assumed of `sbrk` when it gives `n` units at `a`: the request was passed as it is meant,
and the memory is aligned, above `base` and all that was obtained before. -/
structure Fresh (base : Nat) (s : Heap) (a n : Nat) : Prop where
  asked : toInt (n * UNIT) = (n * UNIT : Nat)
  aligned : a % UNIT = 0
  above_base : base + UNIT ≤ a
  above : ∀ t ∈ s.obtained, t.1 + t.2 ≤ a
  below : a + UNIT * n ≤ TOP

/-- **No process reaches the top**: its pages are pages of the machine's memory, so what `sbrk`
gives ends far below. -/
theorem size_le_TOP [Layout] {k : KState} {i : Nat} (h : machine.Reach k) (hi : i < NPROC)
    (hl : (k.procs i).state ≠ .unused) : (k.procs i).sz ≤ TOP := by
  obtain ⟨G, hG⟩ := machine_inv h
  have hle := hG.own.spans_le (hG.spans i hi (hG.live i hi (Set.notMem_empty i) hl).1)
  unfold npages at hle
  unfold TOP UNIT UINT
  omega

/-- The heap with a region just obtained, and its header stored. -/
def withCore (s : Heap) (a n : Nat) (rest : List (Option Nat)) : Heap :=
  { s with answers := rest, obtained := (a, UNIT * n) :: s.obtained }.put a ⟨s.ptr a, n⟩

/-- A point of what was obtained before is below what is fresh. -/
theorem Fresh.lt {a x : Nat} (hf : Fresh base s a n) (hx : cover s.obtained x ≠ 0) : x < a := by
  obtain ⟨u, hu, hxu⟩ := exists_of_cover hx
  exact hxu.2.trans_le (hf.above u hu)

/-- **What `sbrk` gives is a block in use**, until `morecore` frees it. -/
theorem Ring.withCore {a : Nat} {rest : List (Option Nat)} (h : Ring base N H s)
    (hf : Fresh base s a n) (hn : 0 < n) : Ring base N (a :: H) (withCore s a n rest) ∧
      ∀ x ∈ H, (Umalloc.withCore s a n rest).hdr x = s.hdr x := by
  generalize ht : Umalloc.withCore s a n rest = t
  have hobt : t.obtained = (a, UNIT * n) :: s.obtained := by rw [← ht]; rfl
  have hsize : t.size a = n := by rw [← ht, Umalloc.withCore, put_size_self]
  -- every block so far begins below `a`
  have hlt : ∀ x, 0 < s.size x → (∀ y, InTile y (s.tile x) → cover s.obtained y ≠ 0) → x < a :=
    fun x h0 hc =>
    hf.lt (hc x ⟨le_rfl, Nat.lt_add_of_pos_right (Nat.mul_pos (by decide) h0)⟩)
  have hneH : ∀ x ∈ H, x ≠ a := fun x hx => by
    refine (hlt x (h.held x hx).1 fun y hy => ?_).ne
    have h1 := cover_pos (mem_map_of_mem hx) hy
    have h2 := h.tiled y
    omega
  have hneN : ∀ x ∈ N, x ≠ a := fun x hx => by
    by_cases hb : x = base
    · have := hf.above_base
      rw [UNIT_eq] at this
      omega
    · refine (hlt x (h.node x hx hb).1 fun y hy => ?_).ne
      have h1 := cover_pos (mem_map_of_mem hx) hy
      have h2 := h.tiled y
      omega
  have hhdr : ∀ x, x ≠ a → t.hdr x = s.hdr x := fun x hx => by
    rw [← ht]
    exact put_hdr_of_ne hx
  have hr : Ring base N H { t with obtained := s.obtained } :=
    h.congr (fun x hx => hhdr x (hx.elim (hneN x) (hneH x))) rfl (by rw [← ht]; rfl)
  refine ⟨⟨hr.head, hr.links, hr.order, hr.base_size, hr.node, ?_, ?_, ?_, ?_, hr.roving⟩,
    fun x hx => hhdr x (hneH x hx)⟩
  · intro x hx
    rcases mem_cons.1 hx with rfl | hx
    · rw [hsize]
      exact ⟨hn, hf.aligned⟩
    · exact hr.held x hx
  · intro x
    have e : cover (N.map t.tile) x + cover (H.map t.tile) x = cover s.obtained x := hr.tiled x
    rw [map_cons, cover_cons, hobt, cover_cons, Heap.tile, hsize]
    omega
  · intro x
    rw [hobt, cover_cons]
    have h1 := h.once x
    by_cases hx : InTile x (a, UNIT * n)
    · have h0 : cover s.obtained x = 0 := by
        by_contra hc
        exact absurd (hf.lt hc) (Nat.not_lt.2 hx.1)
      rw [h0, if_pos hx]
    · rw [if_neg hx]
      exact h1
  · intro u hu
    rw [hobt] at hu
    rcases mem_cons.1 hu with rfl | hu
    · exact ⟨hf.above_base, hf.below⟩
    · exact h.within u hu

theorem le_coreUnits : n ≤ coreUnits n ∧ 0 < coreUnits n := by
  unfold coreUnits
  split <;> omega

/-- **`morecore` puts the new block into the ring**, if it gets one. -/
theorem morecore_spec {a : Nat} {rest : List (Option Nat)} (h : Ring base N H s)
    (ha : s.answers = some a :: rest) (hf : Fresh base s a (coreUnits n)) :
    ∃ N' t, Ring base N' H t ∧ (∀ x ∈ H, t.hdr x = s.hdr x) ∧
      t.obtained = (a, UNIT * coreUnits n) :: s.obtained ∧ HasRoom n N' t ∧ N'.length ≤ N.length +
      1 ∧ ∀ fuel, N.length ≤ fuel → morecore fuel n s = .ok (t.freep, t) := by
  obtain ⟨hr, hH⟩ : Ring base N (a :: H) (withCore s a (coreUnits n) rest) ∧ _ :=
    h.withCore hf le_coreUnits.2
  obtain ⟨N', t, ht, hk, ⟨p, hp, hroom⟩, hlen, hfree⟩ := free_spec hr
  have hsize : (withCore s a (coreUnits n) rest).size a = coreUnits n := put_size_self
  refine ⟨N', t, ht, fun x hx => (hk.hdr x hx).trans (hH x hx), hk.obtained,
    ⟨p, hp, le_coreUnits.1.trans (hsize ▸ hroom)⟩, hlen, fun fuel hfuel => ?_⟩
  have hsbrk : sbrk (toInt (coreUnits n * UNIT)) s =
      .ok (some a,
      { s with answers := rest, obtained := (a, UNIT * coreUnits n) :: s.obtained }) := by
    unfold sbrk
    rw [ha, hf.asked, Int.toNat_natCast, Nat.mul_comm]
  unfold morecore
  rw [Act.bind_ok hsbrk]
  show (Act.modify _ >>= _) _ = _
  rw [Act.bind_ok (Act.modify_apply _ _)]
  show (free fuel (a + UNIT) >>= fun _ => Act.gets Heap.freep) (withCore s a (coreUnits n) rest) = _
  rw [Act.bind_ok (hfree fuel hfuel), Act.gets_apply]

/-- …and otherwise it changes nothing but the answers still to come. -/
theorem morecore_refused (ha : ∀ a, s.answers.head? ≠ some (some a)) (fuel : Nat) :
    morecore fuel n s = .ok (0, { s with answers := s.answers.tail }) := by
  have hsbrk : sbrk (toInt (coreUnits n * UNIT)) s =
      .ok (none, { s with answers := s.answers.tail }) := by
    unfold sbrk
    cases hs : s.answers with
    | nil =>
      obtain ⟨hdr, freep, obtained, answers⟩ := s
      obtain rfl : answers = [] := hs
      rfl
    | cons o rest =>
      cases o with
      | none => rfl
      | some a => exact absurd (by rw [hs]; rfl) (ha a)
  unfold morecore
  rw [Act.bind_ok hsbrk]
  rfl

/-! ## The walk of `malloc` -/

/-- What the loop does when it has come round. -/
def grow (n fuel : Nat) : Act Heap Fault Nat := do
  let p ← morecore fuel n
  if p = 0 then return 0 else fun s => mallocLoop n fuel p (s.ptr p) s

/-- The walk goes on where `morecore` found something. -/
theorem grow_of_core {fuel : Nat} (h : morecore fuel n s = .ok (p, t)) (hp : p ≠ 0) :
    grow n fuel s = mallocLoop n fuel p (t.ptr p) t := by
  obtain ⟨k, rfl⟩ := Nat.exists_eq_succ_of_ne_zero hp
  rw [grow, Act.bind_ok h]
  rfl

/-- **One round**: the first block large enough is taken; or there is none, and more memory is asked
for. -/
theorem mallocLoop_round {l : List Nat} (hl : Links s.ptr (prevp :: (l ++ [s.freep])))
    (hf : s.freep ∉ l) : (∃ q ∈ prevp :: l, n ≤ s.size (s.ptr q) ∧
      ∀ fuel, l.length < fuel → mallocLoop n fuel prevp (s.ptr prevp) s = take n q (s.ptr q) s) ∨
    ((∀ x ∈ l ++ [s.freep], s.size x < n) ∧
      ∀ fuel, mallocLoop n (fuel + l.length + 1) prevp (s.ptr prevp) s = grow n fuel s) := by
  -- induction on the nodes before `freep` that are still to be visited
  induction l generalizing prevp with
  | nil =>
    obtain ⟨e, -⟩ := links_pair.1 hl
    by_cases hs : n ≤ s.size (s.ptr prevp)
    · refine .inl ⟨prevp, mem_cons_self, hs, fun fuel hfuel => ?_⟩
      cases fuel with
      | zero => simp at hfuel
      | succ fuel => exact if_pos hs
    · refine .inr ⟨fun x hx => ?_, fun fuel => ?_⟩
      · obtain rfl := mem_singleton.1 hx
        rw [← e]
        omega
      · exact (if_neg hs).trans (if_pos e)
  | cons y l ih =>
    obtain ⟨e, hl⟩ := links_pair.1 hl
    have hy : s.ptr prevp ≠ s.freep := fun e' => hf (by rw [← e', e]; exact mem_cons_self)
    have hfl : s.freep ∉ l := fun hx => hf (mem_cons_of_mem _ hx)
    by_cases hs : n ≤ s.size (s.ptr prevp)
    · refine .inl ⟨prevp, mem_cons_self, hs, fun fuel hfuel => ?_⟩
      cases fuel with
      | zero => simp at hfuel
      | succ fuel => exact if_pos hs
    · have hstep : ∀ fuel, mallocLoop n (fuel + 1) prevp (s.ptr prevp) s =
          mallocLoop n fuel y (s.ptr y) s :=
        fun fuel => ((if_neg hs).trans (if_neg hy)).trans (by rw [e])
      rcases ih hl hfl with ⟨q, hq, hfit, hrun⟩ | ⟨hall, hrun⟩
      · refine .inl ⟨q, mem_cons_of_mem _ hq, hfit, fun fuel hfuel => ?_⟩
        cases fuel with
        | zero => simp at hfuel
        | succ fuel => exact (hstep fuel).trans (hrun fuel (by simpa using hfuel))
      · refine .inr ⟨fun x hx => ?_, fun fuel => (hstep _).trans (hrun fuel)⟩
        rcases mem_cons.1 hx with rfl | hx
        · rw [← e]
          omega
        · exact hall x hx

/-- The walk from `freep` finds a block if there is one. -/
theorem Ring.walk (h : Ring base N H s) (n : Nat) :
    (∃ q ∈ N, n ≤ s.size (s.ptr q) ∧
      ∀ fuel, N.length ≤ fuel → mallocLoop n fuel s.freep (s.ptr s.freep) s =
        take n q (s.ptr q) s) ∨
    (¬ HasRoom n N s ∧
      ∀ fuel, mallocLoop n (fuel + N.length) s.freep (s.ptr s.freep) s = grow n fuel s) := by
  obtain ⟨L, rfl⟩ : ∃ L, N = base :: L := head?_eq_some_iff.1 h.head
  obtain ⟨m, hm, hperm⟩ := Links.cycle_at h.links h.roving
  have hlen : m.length + 1 = (base :: L).length := by simpa using hperm.length_eq
  have hfm : s.freep ∉ m := (nodup_cons.1 (hperm.nodup_iff.2 h.nodup)).1
  rcases mallocLoop_round (n := n) hm hfm with ⟨q, hq, hfit, hrun⟩ | ⟨hall, hrun⟩
  · exact .inl ⟨q, hperm.mem_iff.1 hq, hfit, fun fuel hfuel => hrun fuel (by omega)⟩
  · refine .inr ⟨?_, fun fuel => ?_⟩
    · rintro ⟨x, hx, hfit⟩
      have hx : x ∈ m ++ [s.freep] := by
        have := hperm.mem_iff.2 hx
        simp only [mem_cons, mem_append, not_mem_nil, or_false] at this ⊢
        tauto
      exact absurd (hall x hx) (by omega)
    · rw [← hlen]
      exact hrun fuel

/-! ## `malloc` -/

/-- The heap before the first call, or a sound one. -/
def Sound (base : Nat) (H : List Nat) (s : Heap) : Prop :=
  (s.freep = 0 ∧ H = [] ∧ s.obtained = []) ∨ ∃ N, Ring base N H s

/-- **After `initialise` there is a ring.** -/
theorem Sound.initialise (h : Sound base H s) (hb : 0 < base) :
    ∃ N, Ring base N H (initialise base s) := by
  rcases h with ⟨h0, rfl, ho⟩ | ⟨N, h⟩
  · refine ⟨[base], ?_⟩
    unfold Umalloc.initialise
    rw [if_pos h0]
    have hsize : (s.put base ⟨base, 0⟩).size base = 0 := put_size_self
    refine ⟨rfl, links_pair.2 ⟨put_ptr_self, links_single⟩, pairwise_singleton .., hsize,
      ?_, by simp, fun x => ?_, fun x => ?_, ?_, by simp⟩
    · intro x hx hne
      exact absurd (mem_singleton.1 hx) hne
    · show cover [(s.put base ⟨base, 0⟩).tile base] x + 0 = cover s.obtained x
      have hz : ¬ InTile x (base, UNIT * 0) := inTile_zero
      rw [ho, cover_cons, Heap.tile, hsize, if_neg hz]
      rfl
    · show cover s.obtained x ≤ 1
      rw [ho]
      exact Nat.zero_le _
    · show ∀ u ∈ s.obtained, _
      rw [ho]
      simp
  · have hf : s.freep ≠ 0 := (hb.trans_le (h.base_le h.roving)).ne'
    unfold Umalloc.initialise
    rw [if_neg hf]
    exact ⟨N, h⟩

theorem initialise_obtained : (initialise base s).obtained = s.obtained := by
  unfold initialise
  split <;> rfl

theorem initialise_answers : (initialise base s).answers = s.answers := by
  unfold initialise
  split <;> rfl

/-- Only an empty heap is initialised. -/
theorem Sound.initialise_hdr (h : Sound base H s) (hb : 0 < base) {x : Nat} (hx : x ∈ H) :
    (Umalloc.initialise base s).hdr x = s.hdr x := by
  rcases h with ⟨-, rfl, -⟩ | ⟨N, h⟩
  · simp at hx
  · have hf : s.freep ≠ 0 := (hb.trans_le (h.base_le h.roving)).ne'
    unfold Umalloc.initialise
    rw [if_neg hf]

theorem units_pos : 0 < (n + 15) / 16 + 1 := Nat.succ_pos _

/-- The outcome of a call: no block, or one of the size asked for; the others are as they were. -/
structure Outcome (base : Nat) (H : List Nat) (n : Nat) (s : Heap) (r : Nat) (t : Heap) : Prop where
  kept : ∀ x ∈ H, t.size x = s.size x
  result : (r = 0 ∧ ∃ N, Ring base N H t) ∨ ∃ q N, r = q + UNIT ∧
    Ring base N (q :: H) t ∧ t.size q = n

/-- What a call adds to what was obtained: nothing, or the units it asked for, at the first
answer. -/
def Obtains (n : Nat) (s t : Heap) : Prop := t.obtained = s.obtained ∨
  ∃ a rest, s.answers = some a :: rest ∧ t.obtained = (a, UNIT * coreUnits n) :: s.obtained

/-- **The walk, and a second one where more memory was needed, return.** -/
theorem Ring.mallocLoop_outcome (h : Ring base N H s) (hb : 0 < base) (hn : 0 < n)
    (hf : ∀ a rest, s.answers = some a :: rest → Fresh base s a (coreUnits n)) :
    ∃ r t, Outcome base H n s r t ∧ Obtains n s t ∧
      ∃ b, ∀ fuel, b ≤ fuel → mallocLoop n fuel s.freep (s.ptr s.freep) s = .ok (r, t) := by
  rcases h.walk n with ⟨q, hq, hfit, hrun⟩ | ⟨-, hrun⟩
  · obtain ⟨N', q', t, htake, hr, hsize, hk⟩ := take_spec h hq hn hfit
    exact ⟨q' + UNIT, t, ⟨fun x hx => size_congr (hk.hdr x hx), .inr ⟨q', N', rfl, hr, hsize⟩⟩,
      .inl hk.obtained, N.length, fun fuel hfuel => (hrun fuel hfuel).trans htake⟩
  · by_cases ha : ∃ a, s.answers.head? = some (some a)
    · obtain ⟨a, ha⟩ := ha
      obtain ⟨rest, ha⟩ := head?_eq_some_iff.1 ha
      obtain ⟨N', t, hr, hH, hobt, hroom, hlen, hcore⟩ := morecore_spec h ha (hf a rest ha)
      have hfreep : t.freep ≠ 0 := (hb.trans_le (hr.base_le hr.roving)).ne'
      -- the second walk finds the new block
      rcases hr.walk n with ⟨q, hq, hfit, hrun'⟩ | ⟨hno, -⟩
      · obtain ⟨N'', q', t', htake, hr', hsize, hk⟩ := take_spec hr hq hn hfit
        refine ⟨q' + UNIT, t', ⟨fun x hx => ?_, .inr ⟨q', N'', rfl, hr', hsize⟩⟩,
          .inr ⟨a, rest, ha, hk.obtained.trans hobt⟩, N.length + 1 + N.length, fun fuel hfuel => ?_⟩
        · rw [size_congr (hk.hdr x hx), size_congr (hH x hx)]
        · obtain ⟨k, rfl⟩ := Nat.exists_eq_add_of_le' (show N.length ≤ fuel by omega)
          rw [hrun k, grow_of_core (hcore k (by omega)) hfreep]
          exact (hrun' k (by omega)).trans htake
      · exact absurd hroom hno
    · refine ⟨0, { s with answers := s.answers.tail },
        ⟨fun _ _ => rfl, .inl ⟨rfl, N, h.congr (fun _ _ => rfl) rfl rfl⟩⟩, .inl rfl, N.length,
        fun fuel hfuel => ?_⟩
      obtain ⟨k, rfl⟩ := Nat.exists_eq_add_of_le' hfuel
      rw [hrun k, grow, Act.bind_ok (morecore_refused (fun a e => ha ⟨a, e⟩) k)]
      rfl

/-- **`malloc` returns.** -/
theorem malloc_spec (h : Sound base H s) (hb : 0 < base) (hn : n < UINT)
    (hf : ∀ a rest, s.answers = some a :: rest → Fresh base s a (coreUnits (units n))) :
    ∃ r t, Outcome base H (units n) s r t ∧ Obtains (units n) s t ∧
    Returns (fun fuel => malloc base fuel n) s r t := by
  obtain ⟨N, hr⟩ := h.initialise hb
  obtain ⟨r, t, ho, hobt, b, hrun⟩ := hr.mallocLoop_outcome hb (n := units n)
    (by rw [units_eq hn]; exact units_pos) fun a rest ha => by
      have hf := hf a rest (initialise_answers.symm.trans ha)
      exact ⟨hf.asked, hf.aligned, hf.above_base, by rw [initialise_obtained]; exact hf.above,
        hf.below⟩
  exact ⟨r, t, ⟨fun x hx => (ho.kept x hx).trans (size_congr (h.initialise_hdr hb hx)), ho.result⟩,
    by rwa [Obtains, initialise_obtained, initialise_answers] at hobt, b,
    fun fuel hfuel => hrun fuel hfuel⟩

/-! ## Whole runs -/

/-- The heap, and the blocks a program has: their pointers, and the bytes it asked for. -/
structure State where
  heap : Heap
  live : List (Nat × Nat)

/-- The header of a block, from its pointer. -/
def headOf (b : Nat × Nat) : Nat := b.1 - UNIT

/-- The block of a pointer, with its header. -/
def State.block (s : State) (b : Nat × Nat) : Nat × Nat := s.heap.tile (headOf b)

/-- What a program does with the heap. -/
inductive Op
  /-- A call with this argument; the kernel will answer `sbrk` so. -/
  | malloc (nbytes : Nat) (answers : List (Option Nat))
  | free (ap : Nat)
  /-- Any value, stored anywhere in a block the program has. -/
  | store (a : Nat) (h : Header)

/-- What is assumed of the kernel's answers: a request that succeeds gives what was asked for. -/
def Assumed (base : Nat) (s : State) (n : Nat) (answers : List (Option Nat)) : Prop :=
  ∀ a rest, answers = some a :: rest → Fresh base s.heap a (coreUnits (units n))

inductive Step (base : Nat) : State → Op → State → Prop
  | malloc {s : State} {n r : Nat} {answers : List (Option Nat)} {t : Heap} (hn : n < UINT)
      (hf : Assumed base s n answers)
      (hr : Returns (fun fuel => malloc base fuel n) { s.heap with answers := answers } r t) :
      Step base s (.malloc n answers) ⟨t, if r = 0 then s.live else (r, n) :: s.live⟩
  | free {s : State} {ap n : Nat} {t : Heap} (hl : (ap, n) ∈ s.live)
      (hr : Returns (fun fuel => free fuel ap) s.heap () t) :
      Step base s (.free ap) ⟨t, s.live.erase (ap, n)⟩
  | store {s : State} {ap n a : Nat} {h : Header} (hl : (ap, n) ∈ s.live) (ha : a % UNIT = 0)
      (hlo : ap ≤ a) (hhi : a + UNIT ≤ s.heap.past (headOf (ap, n))) :
      Step base s (.store a h) ⟨s.heap.put a h, s.live⟩

/-- The allocator and a program that uses it. -/
def allocator (base : Nat) : LTS State Op where
  init s := 0 < base ∧ s.heap.freep = 0 ∧ s.heap.obtained = [] ∧ s.live = []
  step := Step base

/-- What every step keeps. -/
structure Inv (base : Nat) (s : State) : Prop where
  base_pos : 0 < base
  sound : Sound base (s.live.map headOf) s.heap
  size : ∀ b ∈ s.live, b.1 = headOf b + UNIT ∧ b.2 < UINT ∧ s.heap.size (headOf b) = units b.2

/-- A block that is live makes the heap a ring. -/
theorem Inv.ring {s : State} {b : Nat × Nat} (h : Inv base s) (hb : b ∈ s.live) :
    ∃ N, Ring base N (s.live.map headOf) s.heap := by
  rcases h.sound with ⟨-, h0, -⟩ | hr
  · rw [map_eq_nil_iff.1 h0] at hb
    simp at hb
  · exact hr

/-- `free` of a live block returns; the others stay. -/
theorem Inv.free {s : State} {b : Nat × Nat} (h : Inv base s) (hb : b ∈ s.live) :
    ∃ t, Returns (fun fuel => Umalloc.free fuel b.1) s.heap () t ∧
    Inv base ⟨t, s.live.erase b⟩ := by
  obtain ⟨N, hr⟩ := h.ring hb
  have hperm : s.live.Perm (b :: s.live.erase b) := perm_cons_erase hb
  obtain ⟨N', t, ht, hk, -, -, hrun⟩ := free_spec (hr.perm (hperm.map headOf))
  refine ⟨t, ⟨N.length, fun fuel hfuel => ?_⟩, h.base_pos, .inr ⟨N', ht⟩, fun c hc => ?_⟩
  · rw [(h.size b hb).1]
    exact hrun fuel hfuel
  · obtain ⟨h1, h2, h3⟩ := h.size c (mem_of_mem_erase hc)
    exact ⟨h1, h2, (size_congr (hk.hdr _ (mem_map_of_mem hc))).trans h3⟩

/-- `malloc` returns; the block it gives is a new one. -/
theorem Inv.malloc {s : State} {answers : List (Option Nat)} (h : Inv base s) (hn : n < UINT)
    (hf : Assumed base s n answers) :
    ∃ r t, Returns (fun fuel => Umalloc.malloc base fuel n) { s.heap with answers := answers } r t ∧
      Inv base ⟨t, if r = 0 then s.live else (r, n) :: s.live⟩ ∧
      Obtains (units n) { s.heap with answers := answers } t := by
  have hs : Sound base (s.live.map headOf) { s.heap with answers := answers } :=
    h.sound.imp id fun ⟨N, hr⟩ => ⟨N, hr.congr (fun _ _ => rfl) rfl rfl⟩
  obtain ⟨r, t, ho, hobt, hrun⟩ := malloc_spec hs h.base_pos hn fun a rest ha =>
    have hf := hf a rest ha
    ⟨hf.asked, hf.aligned, hf.above_base, hf.above, hf.below⟩
  have hkept : ∀ b ∈ s.live, b.1 = headOf b + UNIT ∧ b.2 < UINT ∧ t.size (headOf b) = units b.2 :=
    fun b hb =>
    ⟨(h.size b hb).1, (h.size b hb).2.1, (ho.kept _ (mem_map_of_mem hb)).trans (h.size b hb).2.2⟩
  refine ⟨r, t, hrun, ?_, hobt⟩
  rcases ho.result with ⟨rfl, hr⟩ | ⟨q, N, rfl, hr, hq⟩
  · rw [if_pos rfl]
    exact ⟨h.base_pos, .inr hr, hkept⟩
  · rw [if_neg (by rw [UNIT_eq]; omega)]
    have hhead : headOf (q + UNIT, n) = q := Nat.add_sub_cancel ..
    refine ⟨h.base_pos, .inr ⟨N, by rw [map_cons, hhead]; exact hr⟩, fun b hb => ?_⟩
    rcases mem_cons.1 hb with rfl | hb
    · rw [hhead]
      exact ⟨rfl, hn, hq⟩
    · exact hkept b hb

/-- A store into a block a program has changes no header. -/
theorem Inv.store {s : State} {a ap m : Nat} {v : Header} (h : Inv base s) (hl : (ap, m) ∈ s.live)
    (hlo : ap ≤ a) (hhi : a + UNIT ≤ s.heap.past (headOf (ap, m))) :
    Inv base ⟨s.heap.put a v, s.live⟩ := by
  obtain ⟨N, hr⟩ := h.ring hl
  have hb : headOf (ap, m) ∈ s.live.map headOf := mem_map_of_mem hl
  have hap : ap = headOf (ap, m) + UNIT := (h.size _ hl).1
  generalize headOf (ap, m) = p at *
  have hin := hr.held_inside hb
  rw [UNIT_eq] at hin hap hhi
  have hne : ∀ x, x ∈ N ∨ x ∈ s.live.map headOf → x ≠ a := by
    rintro x hx rfl
    rcases hx with hx | hx
    · have hap := hr.apart hx (by omega) hb
      have h0 := (hr.node x hx (by omega)).1
      unfold Apart Heap.tile at hap
      unfold Heap.past at hhi
      simp only [UNIT_eq] at hap hhi
      omega
    · have hne : s.heap.tile x ≠ s.heap.tile p := fun e => by
        have := congrArg Prod.fst e
        unfold Heap.tile at this
        simp only at this
        omega
      have hap := hr.held_apart.forall (mem_map_of_mem hx) (mem_map_of_mem hb) hne
      have h0 := (hr.held x hx).1
      unfold Apart Heap.tile at hap
      unfold Heap.past at hhi
      simp only [UNIT_eq] at hap hhi
      omega
  have hsize : ∀ x ∈ s.live.map headOf, (s.heap.put a v).size x = s.heap.size x := fun x hx =>
    size_congr (put_hdr_of_ne (hne x (.inr hx)))
  refine ⟨h.base_pos, .inr ⟨N, hr.congr (fun x hx => put_hdr_of_ne (hne x hx)) rfl rfl⟩,
    fun b hb => ?_⟩
  have := h.size b hb
  exact ⟨this.1, this.2.1, (hsize _ (mem_map_of_mem hb)).trans this.2.2⟩

theorem Inv.step {s s' : State} {o : Op} (h : Inv base s) (hs : Step base s o s') :
    Inv base s' := by
  cases hs with
  | malloc hn hf hr =>
    obtain ⟨r, t, hr', hi, -⟩ := h.malloc hn hf
    obtain ⟨rfl, rfl⟩ := hr.unique hr'
    exact hi
  | free hl hr =>
    obtain ⟨t, hr', hi⟩ := h.free hl
    obtain ⟨-, rfl⟩ := hr.unique hr'
    exact hi
  | store hl ha hlo hhi => exact h.store hl hlo hhi

theorem free_obtained {fuel ap : Nat} {s t : Heap} (e : free fuel ap s = .ok ((), t)) :
    t.obtained = s.obtained := by
  unfold free at e
  simp only at e
  split at e
  next => cases e
  next =>
    obtain ⟨-, rfl⟩ := Act.ok_inj e
    exact joinLower_obtained.trans joinUpper_obtained

/-- Only `malloc` obtains memory. -/
theorem Step.obtained {s s' : State} {o : Op} (hs : Step base s o s')
    (ho : ∀ nbytes as, o ≠ .malloc nbytes as) : s'.heap.obtained = s.heap.obtained := by
  cases hs with
  | malloc => exact absurd rfl (ho _ _)
  | free _ hr =>
    obtain ⟨b, hr⟩ := hr
    exact free_obtained (hr b le_rfl)
  | store => rfl

theorem Inv.of_reach {s : State} (h : (allocator base).Reach s) : Inv base s := by
  refine h.invariant ?_ fun s o s' _ hi hs => hi.step hs
  rintro s ⟨hb, h0, ho, hl⟩
  exact ⟨hb, .inl ⟨h0, by rw [hl]; rfl, ho⟩, by rw [hl]; simp⟩

/-- **What holds of the heap**, with the free blocks `L`. -/
structure Integrity (base : Nat) (s : State) (L : List Nat) : Prop where
  /-- Before the first call there is no list, and no block. -/
  unused : s.heap.freep = 0 → L = [] ∧ s.live = [] ∧ s.heap.obtained = []
  /-- The free list is one cycle through `base`… -/
  cycle : s.heap.freep ≠ 0 → Links s.heap.ptr (base :: L ++ [base]) ∧ s.heap.freep ∈ base :: L
  /-- …in address order. -/
  order : (base :: L).Pairwise (· < ·)
  /-- Free blocks are apart, and no two are adjacent. -/
  gaps : L.Pairwise fun p q => s.heap.past p < q
  live_apart : (s.live.map s.block).Pairwise Apart
  free_apart : ∀ p ∈ L, ∀ b ∈ s.live, Apart (s.heap.tile p) (s.block b)
  aligned : ∀ b ∈ s.live, b.1 % UNIT = 0
  /-- The bytes asked for are in the block, after its header. -/
  large : ∀ b ∈ s.live, b.1 = headOf b + UNIT ∧ b.1 + b.2 ≤ s.heap.past (headOf b)
  /-- The blocks have each byte obtained once, and no other. -/
  partition : ∀ x, cover (L.map s.heap.tile ++ s.live.map s.block) x =
    if ∃ t ∈ s.heap.obtained, InTile x t then 1 else 0

/-- Nothing is in the heap before the first call. -/
theorem Integrity.of_unused {s : State} (h0 : s.heap.freep = 0) (hl : s.live = [])
    (ho : s.heap.obtained = []) : Integrity base s [] := by
  refine ⟨fun _ => ⟨rfl, hl, ho⟩, fun h => absurd h0 h, pairwise_singleton .., .nil,
    ?_, ?_, ?_, ?_, ?_⟩
  all_goals simp [hl, ho]

/-- A ring, read off as what is said of the heap. -/
theorem Inv.integrity {s : State} (h : Inv base s) {N : List Nat}
    (hr : Ring base N (s.live.map headOf) s.heap) : ∃ L, Integrity base s L := by
  obtain ⟨L, rfl⟩ : ∃ L, N = base :: L := head?_eq_some_iff.1 hr.head
  have hsorted := hr.sorted
  have hne : ∀ p ∈ L, p ≠ base := fun p hp => ((pairwise_cons.1 hsorted).1 p hp).ne'
  have hblocks : s.live.map s.block = (s.live.map headOf).map s.heap.tile := by rw [map_map]; rfl
  have hf : s.heap.freep ≠ 0 := (h.base_pos.trans_le (hr.base_le hr.roving)).ne'
  refine ⟨L, fun h0 => absurd h0 hf, fun _ => ⟨hr.links, hr.roving⟩, hsorted,
    (pairwise_cons.1 hr.order).2, ?_, fun p hp b hb => ?_, fun b hb => ?_, fun b hb => ?_,
    fun x => ?_⟩
  · rw [hblocks]
    exact hr.held_apart
  · exact hr.apart (mem_cons_of_mem _ hp) (hne p hp) (mem_map_of_mem hb)
  · have hal := (hr.held _ (mem_map_of_mem hb)).2
    rw [(h.size b hb).1, Nat.add_mod_right, hal]
  · obtain ⟨h1, h2, h3⟩ := h.size b hb
    refine ⟨h1, ?_⟩
    rw [Heap.past, h3, units_eq h2, UNIT_eq]
    rw [UNIT_eq] at h1
    omega
  · have e := hr.tiled x
    have hz : ¬ InTile x (base, UNIT * 0) := inTile_zero
    rw [map_cons, cover_cons, Heap.tile, hr.base_size, if_neg hz, Nat.add_zero] at e
    rw [cover_append, hblocks, e]
    by_cases hx : ∃ t ∈ s.heap.obtained, InTile x t
    · obtain ⟨t, ht, hxt⟩ := hx
      rw [if_pos ⟨t, ht, hxt⟩]
      exact le_antisymm (hr.once x) (cover_pos ht hxt)
    · rw [if_neg hx]
      by_contra hc
      exact hx (exists_of_cover hc)

theorem Inv.exists_integrity {s : State} (h : Inv base s) : ∃ L, Integrity base s L := by
  rcases h.sound with ⟨h0, hl, ho⟩ | ⟨N, hr⟩
  · exact ⟨[], .of_unused h0 (map_eq_nil_iff.1 hl) ho⟩
  · exact h.integrity hr

/-- **The heap of every run is sound, and every call returns.** -/
theorem heap_integrity {s : State} (h : (allocator base).Reach s) :
    (∃ L, Integrity base s L) ∧
    (∀ n answers, n < UINT → Assumed base s n answers →
      ∃ r t, Returns (fun fuel => malloc base fuel n) { s.heap with answers := answers } r t) ∧
    ∀ b ∈ s.live, ∃ t, Returns (fun fuel => free fuel b.1) s.heap () t := by
  have hi := Inv.of_reach h
  refine ⟨hi.exists_integrity, fun n answers hn hf => ?_, fun b hb => ?_⟩
  · obtain ⟨r, t, hr, -⟩ := hi.malloc hn hf
    exact ⟨r, t, hr⟩
  · obtain ⟨t, hr, -⟩ := hi.free hb
    exact ⟨t, hr⟩

/-- The heap after a call for a hundred bytes: eight units at the end of the region obtained. -/
theorem heap_integrity_malloc :
    ∃ s : State, (allocator 0x1000).Reach s ∧ s.live = [(0x13f90, 100)] ∧ ∃ L,
    Integrity 0x1000 s L := by
  have h0 : (allocator 0x1000).Reach ⟨⟨fun _ => ⟨0, 0⟩, 0, [], []⟩, []⟩ :=
    .init ⟨by decide, rfl, rfl, rfl⟩
  have hf : Assumed 0x1000 ⟨⟨fun _ => ⟨0, 0⟩, 0, [], []⟩, []⟩ 100 [some 0x4000] :=
    fun a rest e => by
    obtain ⟨rfl, rfl⟩ : 0x4000 = a ∧ [] = rest := by simpa using e
    exact ⟨by decide, by decide, by decide, by simp, by decide⟩
  obtain ⟨r, t, hr⟩ := (heap_integrity h0).2.1 100 [some 0x4000] (by decide) hf
  obtain rfl : r = 0x13f90 := by
    obtain ⟨b, hb⟩ := hr
    have e : (malloc 0x1000 (b + 3) 100 ⟨fun _ => ⟨0, 0⟩, 0, [], [some 0x4000]⟩).map Prod.fst =
        .ok 0x13f90 := rfl
    have e' := (congrArg (Except.map Prod.fst) (hb (b + 3) (Nat.le_add_right _ _))).symm.trans e
    exact Except.ok.inj e'
  have h1 : (allocator 0x1000).Reach ⟨t, [(0x13f90, 100)]⟩ :=
    h0.step (Step.malloc (by decide) hf hr)
  exact ⟨_, h1, rfl, (heap_integrity h1).1⟩

end Xv6.Umalloc
