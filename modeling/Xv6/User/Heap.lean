import Xv6.Lib.LTS
import Xv6.User.Malloc

/-!
# User/Heap — the free list is a ring and the blocks tile the heap

`Ring base N H s` says what the allocator keeps: the free blocks are the nodes `N` of one cycle
through `base`, in address order with a gap between any two; and with the blocks `H` that are in use
they cover the memory obtained, each byte once.  `free` moves a block from `H` to `N` (`free_spec`),
`malloc` takes one out of `N` (`take_spec`), after `morecore` has added to it where nothing was
large enough.
-/

namespace Xv6.Umalloc

open List

variable {base : Nat} {N H A B C : List Nat} {s t : Heap} {p q bp a n : Nat}

/-- Where addresses end: the units below it are counted by a `uint`. -/
def TOP : Nat := UNIT * UINT

/-- **The heap is sound.** -/
structure Ring (base : Nat) (N H : List Nat) (s : Heap) : Prop where
  head : N.head? = some base
  links : Links s.ptr (N ++ [base])
  order : N.Pairwise fun p q => s.past p < q
  base_size : s.size base = 0
  node : ∀ p ∈ N, p ≠ base → 0 < s.size p ∧ p % UNIT = 0
  held : ∀ p ∈ H, 0 < s.size p ∧ p % UNIT = 0
  tiled : ∀ x, cover (N.map s.tile) x + cover (H.map s.tile) x = cover s.obtained x
  once : ∀ x, cover s.obtained x ≤ 1
  within : ∀ t ∈ s.obtained, base + UNIT ≤ t.1 ∧ t.1 + t.2 ≤ TOP
  roving : s.freep ∈ N

theorem UNIT_eq : UNIT = 16 := rfl

theorem le_past : p ≤ s.past p := Nat.le_add_right _ _

theorem map_tile_congr {l : List Nat} (h : ∀ x ∈ l, t.size x = s.size x) :
    l.map t.tile = l.map s.tile :=
  map_congr_left fun x hx => tile_congr (h x hx)

/-! ## Where the blocks lie -/

/-- A block of the tiling is in the memory obtained. -/
theorem inside_of_cover (hw : ∀ t ∈ s.obtained, base + UNIT ≤ t.1 ∧ t.1 + t.2 ≤ TOP)
    (h0 : 0 < s.size p) (hc : ∀ x, InTile x (s.tile p) → cover s.obtained x ≠ 0) :
    base + UNIT ≤ p ∧ s.past p ≤ TOP := by
  have hpos : 0 < UNIT * s.size p := Nat.mul_pos (by decide) h0
  obtain ⟨u, hu, hx⟩ := exists_of_cover (hc p ⟨le_refl _, Nat.lt_add_of_pos_right hpos⟩)
  obtain ⟨v, hv, hy⟩ :=
    exists_of_cover (hc (s.past p - 1) ⟨by unfold Heap.past Heap.tile; simp only; omega, by
    unfold Heap.past Heap.tile; simp only; omega⟩)
  have h1 := hw u hu
  have h2 := hw v hv
  have hu1 := hx.1
  have hv1 := hy.2
  omega

namespace Ring

variable (h : Ring base N H s)

include h

theorem base_mem : base ∈ N := mem_of_mem_head? (by rw [h.head]; rfl)

/-- A block in use lies above `base`, below the top. -/
theorem held_inside (hp : p ∈ H) : base + UNIT ≤ p ∧ s.past p ≤ TOP := by
  refine inside_of_cover h.within (h.held p hp).1 fun x hx => ?_
  have hc := cover_pos (mem_map_of_mem hp) hx
  have ht := h.tiled x
  omega

/-- …and so does a free one. -/
theorem node_inside (hp : p ∈ N) (hb : p ≠ base) : base + UNIT ≤ p ∧ s.past p ≤ TOP := by
  refine inside_of_cover h.within (h.node p hp hb).1 fun x hx => ?_
  have hc := cover_pos (mem_map_of_mem hp) hx
  have ht := h.tiled x
  omega

theorem base_le (hp : p ∈ N) : base ≤ p := by
  by_cases hb : p = base
  · exact hb.ge
  · have := h.node_inside hp hb
    omega

/-- A free block and one in use do not overlap. -/
theorem apart (hp : p ∈ N) (hb : p ≠ base) (hq : q ∈ H) : Apart (s.tile p) (s.tile q) := by
  refine apart_of_cover (fun x => ?_) (mem_map_of_mem hp) (mem_map_of_mem hq)
    (Nat.mul_pos (by decide) (h.node p hp hb).1) (Nat.mul_pos (by decide) (h.held q hq).1)
  rw [h.tiled]
  exact h.once x

/-- Blocks in use do not overlap. -/
theorem held_apart : (H.map s.tile).Pairwise Apart := by
  refine pairwise_apart (fun x => ?_) fun u hu => ?_
  · have h1 := h.tiled x
    have h2 := h.once x
    omega
  · obtain ⟨q, hq, rfl⟩ := mem_map.1 hu
    exact Nat.mul_pos (by decide) (h.held q hq).1

/-- No address is the header of a free block and of one in use. -/
theorem notMem_of_held (hq : q ∈ H) : q ∉ N := by
  intro hp
  have hin := h.held_inside hq
  have hb : q ≠ base := by rw [UNIT_eq] at hin; omega
  have h0 := (h.held q hq).1
  have := h.apart hp hb hq
  unfold Apart Heap.tile at this
  simp only [UNIT_eq] at this
  omega

/-- …nor of two in use. -/
theorem nodup_held : H.Nodup := by
  have ha := pairwise_map.1 h.held_apart
  refine List.Pairwise.imp_of_mem ?_ ha
  rintro x y hx - hxy rfl
  have h0 := (h.held x hx).1
  unfold Apart Heap.tile at hxy
  simp only [UNIT_eq] at hxy
  omega

theorem sorted : N.Pairwise (· < ·) := h.order.imp fun hlt => le_past.trans_lt hlt

theorem nodup : N.Nodup := h.sorted.imp Nat.ne_of_lt

/-- **The same headers, the same ring.** -/
theorem congr (hh : ∀ x, x ∈ N ∨ x ∈ H → t.hdr x = s.hdr x) (ho : t.obtained = s.obtained)
    (hf : t.freep = s.freep) : Ring base N H t := by
  have hsz : ∀ x, x ∈ N ∨ x ∈ H → t.size x = s.size x := fun x hx => size_congr (hh x hx)
  refine ⟨h.head, h.links.congr fun x hx => ptr_congr (hh x (.inl hx)), ?_, ?_, ?_,
    ?_, ?_, ?_, ?_, ?_⟩
  · refine List.Pairwise.imp_of_mem ?_ h.order
    intro x y hx _ hxy
    rwa [past_congr (hsz x (.inl hx))]
  · rw [hsz base (.inl h.base_mem), h.base_size]
  · intro x hx hb
    rw [hsz x (.inl hx)]
    exact h.node x hx hb
  · intro x hx
    rw [hsz x (.inr hx)]
    exact h.held x hx
  · intro x
    rw [map_tile_congr fun x hx => hsz x (.inl hx), map_tile_congr fun x hx => hsz x (.inr hx), ho]
    exact h.tiled x
  · rw [ho]; exact h.once
  · rw [ho]; exact h.within
  · rw [hf]; exact h.roving

/-- The blocks in use in another order. -/
theorem perm {H' : List Nat} (hp : H.Perm H') : Ring base N H' s :=
  { h with
    held := fun p hq => h.held p (hp.mem_iff.2 hq)
    tiled := fun x => by rw [← h.tiled x, cover_perm (hp.map s.tile)] }

end Ring

/-! ## A block between its neighbours

In the middle of `free` the list is open: up to `p` it is what it was, and from `bp` on it is what
it will be.  The two may touch. -/

/-- The free list, open between `p` and `bp`. -/
structure Seam (base : Nat) (A C H : List Nat) (p bp : Nat) (s : Heap) : Prop where
  head : (A ++ [p]).head? = some base
  below : Links s.ptr (A ++ [p])
  above : Links s.ptr (bp :: (C ++ [base]))
  order : (A ++ p :: C).Pairwise fun x y => s.past x < y
  meet : s.past p ≤ bp
  base_lt : base < bp
  ahead : ∀ q ∈ C, s.past bp < q
  base_size : s.size base = 0
  node : ∀ x ∈ A ++ p :: bp :: C, x ≠ base → 0 < s.size x ∧ x % UNIT = 0
  held : ∀ x ∈ H, 0 < s.size x ∧ x % UNIT = 0
  tiled : ∀ x, cover ((A ++ p :: bp :: C).map s.tile) x + cover (H.map s.tile) x =
    cover s.obtained x
  once : ∀ x, cover s.obtained x ≤ 1
  within : ∀ t ∈ s.obtained, base + UNIT ≤ t.1 ∧ t.1 + t.2 ≤ TOP

theorem head_append : (A ++ p :: B).head? = (A ++ [p]).head? := by cases A <;> rfl

section

variable (h : Ring base (A ++ p :: B) (bp :: H) s)

include h

/-- Where `free` stops, `bp` is above `p` and below what follows. -/
theorem Ring.between (hf : fits s bp p = true) : s.past p ≤ bp ∧ ∀ q ∈ B, s.past bp ≤ q := by
  have hbp : bp ∈ bp :: H := mem_cons_self
  have hin := h.held_inside hbp
  have hp : p ∈ A ++ p :: B := by simp
  have hpB : ∀ q ∈ B, s.past p < q := (pairwise_cons.1 (pairwise_append.1 h.order).2.1).1
  have hsp : p ≤ s.past p := le_past
  have hpos : p < bp ∧ ∀ q ∈ B, bp < q := by
    have hl := (links_split.1 (show Links s.ptr (A ++ p :: (B ++ [base])) by simpa using h.links)).2
    unfold fits at hf
    simp only [Bool.or_eq_true, Bool.and_eq_true, decide_eq_true_eq] at hf
    cases B with
    | nil =>
      have e : s.ptr p = base := (links_pair.1 hl).1
      have hle := h.base_le hp
      rw [e] at hf
      exact ⟨by omega, by simp⟩
    | cons q B =>
      have e : s.ptr p = q := (links_pair.1 hl).1
      have hpq := hpB q mem_cons_self
      have hqB := (pairwise_cons.1 (pairwise_cons.1 (pairwise_append.1 h.order).2.1).2).1
      rw [e] at hf
      have hbq : p < bp ∧ bp < q := by omega
      refine ⟨hbq.1, fun x hx => ?_⟩
      rcases mem_cons.1 hx with rfl | hx
      · exact hbq.2
      · exact hbq.2.trans (le_past.trans_lt (hqB x hx))
  -- the order of the headers is that of the blocks, since blocks do not overlap
  constructor
  · by_cases hb : p = base
    · rw [Heap.past, hb, h.base_size]
      omega
    · have := h.apart hp hb hbp
      unfold Apart Heap.tile at this
      unfold Heap.past
      simp only [UNIT_eq] at this ⊢
      have := (h.held bp hbp).1
      omega
  · intro q hq
    have hqN : q ∈ A ++ p :: B := by simp [hq]
    have hlt := hpos.2 q hq
    have := h.apart hqN (by rw [UNIT_eq] at hin; omega) hbp
    unfold Apart Heap.tile at this
    unfold Heap.past
    simp only [UNIT_eq] at this ⊢
    have := (h.node q hqN (by rw [UNIT_eq] at hin; omega)).1
    omega

/-- A block is linked in above `p`, having taken over the link of `q` and what lay before `C`. -/
theorem Ring.seam (hp : s.past p ≤ bp) (hC : C.Sublist B)
    (hl : Links s.ptr (q :: (C ++ [base]))) (hn : s.size bp ≤ n)
    (hahead : ∀ x ∈ C, bp + UNIT * n < x)
    (hcover : ∀ x, cover (C.map s.tile) x + (if InTile x (bp, UNIT * n) then 1 else 0) =
      cover (B.map s.tile) x + if InTile x (s.tile bp) then 1 else 0) :
    Seam base A C H p bp (s.put bp ⟨s.ptr q, n⟩) ∧ ∀ x ∈ H,
      (s.put bp ⟨s.ptr q, n⟩).hdr x = s.hdr x := by
  have hbp : bp ∈ bp :: H := mem_cons_self
  have hin := h.held_inside hbp
  have hsub : (A ++ p :: C).Sublist (A ++ p :: B) := (hC.cons_cons p).append_left A
  -- only the header of `bp` changes, and no other block has it
  have hN : ∀ x ∈ A ++ p :: C, (s.put bp ⟨s.ptr q, n⟩).hdr x = s.hdr x := fun x hx =>
    put_hdr_of_ne fun e => h.notMem_of_held hbp (e ▸ hsub.subset hx)
  have hH : ∀ x ∈ H, (s.put bp ⟨s.ptr q, n⟩).hdr x = s.hdr x := fun x hx =>
    put_hdr_of_ne fun e => (nodup_cons.1 h.nodup_held).1 (e ▸ hx)
  have hA : ∀ x ∈ A, (s.put bp ⟨s.ptr q, n⟩).hdr x = s.hdr x := fun x hx => hN x (by simp [hx])
  have hCh : ∀ x ∈ C, (s.put bp ⟨s.ptr q, n⟩).hdr x = s.hdr x := fun x hx => hN x (by simp [hx])
  have hph : (s.put bp ⟨s.ptr q, n⟩).hdr p = s.hdr p := hN p (by simp)
  have hbase : (s.put bp ⟨s.ptr q, n⟩).hdr base = s.hdr base :=
    put_hdr_of_ne (by rw [UNIT_eq] at hin; omega)
  have hlinks := links_split.1 (show Links s.ptr (A ++ p :: (B ++ [base])) by simpa using h.links)
  refine ⟨⟨by rw [← h.head]; exact head_append.symm, hlinks.1.congr fun x hx => ptr_congr (hA x hx),
    ?_, ?_, ?_, by rw [UNIT_eq] at hin; omega, ?_, ?_, ?_, ?_, ?_, h.once, h.within⟩, hH⟩
  · exact hl.restart put_ptr_self fun x hx => ptr_congr (hCh x hx)
  · refine List.Pairwise.imp_of_mem ?_ (h.order.sublist hsub)
    intro x y hx _ hxy
    rwa [past_congr (size_congr (hN x hx))]
  · rwa [past_congr (size_congr hph)]
  · intro x hx
    rw [Heap.past, put_size_self]
    exact hahead x hx
  · rw [size_congr hbase, h.base_size]
  · intro x hx hb
    by_cases hxb : x = bp
    · subst hxb
      rw [put_size_self]
      exact ⟨(h.held x hbp).1.trans_le hn, (h.held x hbp).2⟩
    · have hx : x ∈ A ++ p :: C := by
        simp only [mem_append, mem_cons] at hx ⊢
        tauto
      rw [size_congr (hN x hx)]
      exact h.node x (hsub.subset hx) hb
  · intro x hx
    rw [size_congr (hH x hx)]
    exact h.held x (mem_cons_of_mem _ hx)
  · intro x
    have e := h.tiled x
    have ec := hcover x
    simp only [map_append, map_cons, cover_append, cover_cons] at e ⊢
    rw [map_tile_congr fun x hx => size_congr (hA x hx), map_tile_congr fun x hx => size_congr
      (hCh x hx), map_tile_congr fun x hx => size_congr (hH x hx), tile_congr (size_congr hph),
      show (s.put bp ⟨s.ptr q, n⟩).tile bp = (bp, UNIT * n) by rw [Heap.tile, put_size_self],
      put_obtained]
    omega

/-- **The upper neighbour is joined, or linked.** -/
theorem Ring.joinUpper_seam (hp : s.past p ≤ bp) (hB : ∀ q ∈ B, s.past bp ≤ q) :
    ∃ C, Seam base A C H p bp (joinUpper p bp s) ∧ C.length ≤ B.length ∧
      s.size bp ≤ (joinUpper p bp s).size bp ∧ ∀ x ∈ H, (joinUpper p bp s).hdr x = s.hdr x := by
  have hin := h.held_inside mem_cons_self
  have hbp : bp ≤ s.past bp := le_past
  have hl := (links_split.1 (show Links s.ptr (A ++ p :: (B ++ [base])) by simpa using h.links)).2
  have hsorted := (pairwise_cons.1 (pairwise_append.1 h.order).2.1).2
  by_cases hj : s.past bp = s.ptr p
  · cases B with
    | nil =>
      -- the block after `p` would be `base`, which is below every other
      have e : s.ptr p = base := (links_pair.1 hl).1
      rw [UNIT_eq] at hin
      omega
    | cons q B =>
      obtain ⟨e, hl⟩ := links_pair.1 hl
      rw [e] at hj
      have hqN : q ∈ A ++ p :: q :: B := by simp
      have hqin := h.node_inside hqN (by rw [UNIT_eq] at hin; omega)
      have hsize : (s.size bp + s.size q) % UINT = s.size bp + s.size q := by
        refine Nat.mod_eq_of_lt ?_
        unfold Heap.past TOP at *
        rw [UNIT_eq] at *
        omega
      have hju : joinUpper p bp s = s.put bp ⟨s.ptr q, s.size bp + s.size q⟩ := by
        unfold joinUpper
        rw [e, if_pos hj, hsize]
      have hpast : bp + UNIT * (s.size bp + s.size q) = s.past q := by
        unfold Heap.past at *
        rw [Nat.mul_add, ← Nat.add_assoc, hj]
      obtain ⟨hs, hH⟩ := h.seam hp (sublist_cons_self q B) hl (Nat.le_add_right _ (s.size q))
        (fun x hx => hpast ▸ (pairwise_cons.1 hsorted).1 x hx) fun x => by
          have hq : s.tile q = (bp + UNIT * s.size bp, UNIT * s.size q) := by
            rw [Heap.tile, ← hj, Heap.past]
          rw [map_cons, cover_cons, hq, Nat.mul_add, inTile_cut, Heap.tile]
          omega
      rw [hju]
      exact ⟨B, hs, Nat.le_succ _, by rw [put_size_self]; exact Nat.le_add_right _ _, hH⟩
  · have hju : joinUpper p bp s = s.put bp ⟨s.ptr p, s.size bp⟩ := if_neg hj
    have hahead : ∀ x ∈ B, s.past bp < x := by
      cases B with
      | nil => simp
      | cons q B =>
        obtain ⟨e, -⟩ := links_pair.1 hl
        have hq := (hB q mem_cons_self).lt_of_ne (e ▸ hj)
        intro x hx
        rcases mem_cons.1 hx with rfl | hx
        · exact hq
        · exact hq.trans (le_past.trans_lt ((pairwise_cons.1 hsorted).1 x hx))
    obtain ⟨hs, hH⟩ := h.seam hp (List.Sublist.refl B) hl le_rfl hahead fun x => rfl
    rw [hju]
    exact ⟨B, hs, le_rfl, by rw [put_size_self], hH⟩

end

namespace Seam

variable (h : Seam base A C H p bp s)

include h

theorem mem_tiles {x : Nat} (hx : x ∈ A ++ p :: bp :: C) :
    ∀ y, InTile y (s.tile x) → cover s.obtained y ≠ 0 :=
  fun y hy => by
    have hc := cover_pos (mem_map_of_mem hx) hy
    have ht := h.tiled y
    omega

/-- Nothing before `p` reaches it. -/
theorem lt_p {x : Nat} (hx : x ∈ A) : s.past x < p :=
  (pairwise_append.1 h.order).2.2 x hx p mem_cons_self

theorem base_le_p : base ≤ p := by
  have hd := h.head
  cases A with
  | nil => exact (Option.some.inj hd).ge
  | cons x A =>
    obtain rfl : x = base := Option.some.inj hd
    exact (le_past.trans_lt (h.lt_p mem_cons_self)).le

theorem size_pos : 0 < s.size bp := (h.node bp (by simp) h.base_lt.ne').1

/-- The header of `p` is no other block's. -/
theorem ne_p {x : Nat} (hx : x ∈ A ∨ x = bp ∨ x ∈ C ∨ x ∈ H) : x ≠ p := by
  rintro rfl
  have hb := h.size_pos
  have hsx : x ≤ s.past x := le_past
  have hm := h.meet
  rcases hx with hx | rfl | hx | hx
  · exact absurd (h.lt_p hx) (by omega)
  · unfold Heap.past at hm
    rw [UNIT_eq] at hm
    omega
  · have h1 := (pairwise_cons.1 (pairwise_append.1 h.order).2.1).1 x hx
    omega
  · -- a block in use and a free one, at the same place
    by_cases hxb : x = base
    · subst hxb
      have h0 := (h.held x hx).1
      rw [h.base_size] at h0
      omega
    · have hmem : x ∈ A ++ x :: bp :: C := by simp
      have ha : Apart (s.tile x) (s.tile x) :=
        apart_of_cover (fun y => (h.tiled y).trans_le (h.once y)) (mem_map_of_mem hmem)
          (mem_map_of_mem hx) (Nat.mul_pos (by decide) (h.node x hmem hxb).1)
          (Nat.mul_pos (by decide) (h.held x hx).1)
      have h0 := (h.held x hx).1
      unfold Apart Heap.tile at ha
      simp only [UNIT_eq] at ha
      omega

/-- The list is closed again: `p` is followed by `D`, and has taken what lay before it. -/
theorem close {D : List Nat} {c : Nat} (hD : D.Sublist (bp :: C)) (hn : s.size p ≤ n)
    (hbn : p = base → n = 0) (hl : Links (s.put p ⟨c, n⟩).ptr (p :: (D ++ [base])))
    (hahead : ∀ x ∈ D, p + UNIT * n < x)
    (hcover : ∀ x, cover (D.map s.tile) x + (if InTile x (p, UNIT * n) then 1 else 0) =
      cover ((bp :: C).map s.tile) x + if InTile x (s.tile p) then 1 else 0) :
    Ring base (A ++ p :: D) H { s.put p ⟨c, n⟩ with freep := p } ∧ ∀ x ∈ H,
      (s.put p ⟨c, n⟩).hdr x = s.hdr x := by
  have hH : ∀ x ∈ H, (s.put p ⟨c, n⟩).hdr x = s.hdr x :=
    fun x hx => put_hdr_of_ne (h.ne_p (by simp [hx]))
  have hA : ∀ x ∈ A, (s.put p ⟨c, n⟩).hdr x = s.hdr x :=
    fun x hx => put_hdr_of_ne (h.ne_p (by simp [hx]))
  have hDh : ∀ x ∈ D, (s.put p ⟨c, n⟩).hdr x = s.hdr x := fun x hx => put_hdr_of_ne <| h.ne_p <| by
    rcases mem_cons.1 (hD.subset hx) with rfl | hx <;> simp [*]
  have hord := pairwise_append.1 h.order
  have hbC : (bp :: C).Pairwise fun x y => s.past x < y :=
    pairwise_cons.2 ⟨h.ahead, (pairwise_cons.1 hord.2.1).2⟩
  have hsp : p ≤ s.past p := le_past
  have hmeet := h.meet
  suffices hr : Ring base (A ++ p :: D) H { s.put p ⟨c, n⟩ with freep := p } from ⟨hr, hH⟩
  refine ⟨head_append.trans h.head, ?_, ?_, ?_, ?_, ?_, ?_, h.once, h.within, by simp⟩
  · have hlow : Links (s.put p ⟨c, n⟩).ptr (A ++ [p]) :=
      h.below.congr fun x hx => ptr_congr (hA x hx)
    have hall : Links (s.put p ⟨c, n⟩).ptr (A ++ p :: (D ++ [base])) := links_split.2 ⟨hlow, hl⟩
    have hall : Links (s.put p ⟨c, n⟩).ptr (A ++ p :: D ++ [base]) := by simpa using hall
    exact hall
  · refine pairwise_append.2 ⟨?_, pairwise_cons.2 ⟨?_, ?_⟩, ?_⟩
    · refine List.Pairwise.imp_of_mem (fun {x y} hx _ hxy => ?_) hord.1
      have e : (s.put p ⟨c, n⟩).past x = s.past x := past_congr (size_congr (hA x hx))
      exact e.trans_lt hxy
    · intro x hx
      have e : (s.put p ⟨c, n⟩).past p = p + UNIT * n := by rw [Heap.past, put_size_self]
      exact e.trans_lt (hahead x hx)
    · refine List.Pairwise.imp_of_mem (fun {x y} hx _ hxy => ?_) (hbC.sublist hD)
      have e : (s.put p ⟨c, n⟩).past x = s.past x := past_congr (size_congr (hDh x hx))
      exact e.trans_lt hxy
    · intro x hx y hy
      have e : (s.put p ⟨c, n⟩).past x = s.past x := past_congr (size_congr (hA x hx))
      have hxp := h.lt_p hx
      refine e.trans_lt ?_
      rcases mem_cons.1 hy with rfl | hy
      · exact hxp
      · have := hahead y hy
        omega
  · show (s.put p ⟨c, n⟩).size base = 0
    by_cases hb : base = p
    · subst hb
      rw [put_size_self, hbn rfl]
    · rw [size_congr (put_hdr_of_ne hb), h.base_size]
  · intro x hx hb
    show 0 < (s.put p ⟨c, n⟩).size x ∧ _
    by_cases hxp : x = p
    · subst hxp
      have := h.node x (by simp) hb
      rw [put_size_self]
      exact ⟨this.1.trans_le hn, this.2⟩
    · rw [size_congr (put_hdr_of_ne hxp)]
      refine h.node x ?_ hb
      rcases mem_append.1 hx with hx | hx
      · exact mem_append_left _ hx
      · exact mem_append_right _ (mem_cons_of_mem _ (hD.subset ((mem_cons.1 hx).resolve_left hxp)))
  · intro x hx
    show 0 < (s.put p ⟨c, n⟩).size x ∧ _
    rw [size_congr (hH x hx)]
    exact h.held x hx
  · intro x
    have e := h.tiled x
    have ec := hcover x
    show cover ((A ++ p :: D).map (s.put p ⟨c, n⟩).tile) x +
        cover (H.map (s.put p ⟨c, n⟩).tile) x = _
    simp only [map_append, map_cons, cover_append, cover_cons] at e ec ⊢
    rw [map_tile_congr fun x hx => size_congr (hA x hx), map_tile_congr fun x hx => size_congr
      (hDh x hx), map_tile_congr fun x hx => size_congr (hH x hx),
      show (s.put p ⟨c, n⟩).tile p = (p, UNIT * n) by rw [Heap.tile, put_size_self], put_obtained]
    omega

/-- **The lower neighbour is joined, or linked.** -/
theorem joinLower_ring : ∃ D, Ring base (A ++ p :: D) H { joinLower p bp s with freep := p } ∧
    D.length ≤ C.length + 1 ∧ (∃ x ∈ p :: D, s.size bp ≤ (joinLower p bp s).size x) ∧
    ∀ x ∈ H, (joinLower p bp s).hdr x = s.hdr x := by
  have hb := h.size_pos
  have hbin := inside_of_cover h.within hb (h.mem_tiles (by simp))
  by_cases hj : s.past p = bp
  · have hpb : p ≠ base := by
      rintro rfl
      have := h.base_lt
      rw [Heap.past, h.base_size] at hj
      omega
    have hsize : (s.size p + s.size bp) % UINT = s.size p + s.size bp := by
      refine Nat.mod_eq_of_lt ?_
      have := h.base_le_p
      unfold Heap.past TOP at *
      rw [UNIT_eq] at *
      omega
    have hjl : joinLower p bp s = s.put p ⟨s.ptr bp, s.size p + s.size bp⟩ := by
      unfold joinLower
      rw [if_pos hj, hsize]
    have hpast : p + UNIT * (s.size p + s.size bp) = s.past bp := by
      unfold Heap.past at *
      rw [Nat.mul_add, ← Nat.add_assoc, hj]
    obtain ⟨hr, hH⟩ := h.close (sublist_cons_self bp C) (Nat.le_add_right _ (s.size bp))
      (absurd · hpb) (h.above.restart put_ptr_self fun x hx => ptr_congr
      (put_hdr_of_ne (h.ne_p (by simp [hx])))) (fun x hx => hpast ▸ h.ahead x hx) fun x => by
        have e : s.tile bp = (p + UNIT * s.size p, UNIT * s.size bp) := by
          rw [Heap.tile, ← Heap.past, hj]
        rw [map_cons, cover_cons, e, Nat.mul_add, inTile_cut, Heap.tile]
        omega
    rw [hjl]
    exact ⟨C, hr, Nat.le_succ _,
      ⟨p, mem_cons_self, by rw [put_size_self]; exact Nat.le_add_left _ _⟩, hH⟩
  · have hjl : joinLower p bp s = s.put p ⟨bp, s.size p⟩ := if_neg hj
    have hlt : s.past p < bp := h.meet.lt_of_ne hj
    have hbh : (s.put p ⟨bp, s.size p⟩).hdr bp = s.hdr bp := put_hdr_of_ne (h.ne_p (by simp))
    obtain ⟨hr, hH⟩ :=
      h.close (List.Sublist.refl (bp :: C)) le_rfl (fun e => by rw [e, h.base_size])
        (links_pair.2 ⟨put_ptr_self, h.above.restart (ptr_congr hbh) fun x hx =>
        ptr_congr (put_hdr_of_ne (h.ne_p (by simp [hx])))⟩)
      (fun x hx => by
        rcases mem_cons.1 hx with rfl | hx
        · exact hlt
        · exact hlt.trans (le_past.trans_lt (h.ahead x hx))) fun x => rfl
    rw [hjl]
    exact ⟨bp :: C, hr, le_rfl, ⟨bp, by simp, (size_congr hbh).ge⟩, hH⟩

end Seam

/-! ## `free` -/

/-- The list has a place for `bp`. -/
theorem Ring.exists_fits (h : Ring base N (bp :: H) s) : ∃ p ∈ N, fits s bp p = true := by
  have hbp : bp ∈ bp :: H := mem_cons_self
  have hin := h.held_inside hbp
  have hN := h.notMem_of_held hbp
  obtain ⟨L, rfl⟩ : ∃ L, N = base :: L := head?_eq_some_iff.1 h.head
  obtain ⟨A, p, B, e, hp, hB⟩ := exists_last (P := (· < bp)) (a := base)
    (by rw [UNIT_eq] at hin; omega) L
  have hl := h.links
  rw [e] at hl hN ⊢
  have hl := (links_split.1 (show Links s.ptr (A ++ p :: (B ++ [base])) by simpa using hl)).2
  refine ⟨p, by simp, ?_⟩
  unfold fits
  simp only [Bool.or_eq_true, Bool.and_eq_true, decide_eq_true_eq]
  cases B with
  | nil =>
    have e' : s.ptr p = base := (links_pair.1 hl).1
    have hle := h.base_le (p := p) (by rw [e]; simp)
    exact .inr ⟨by omega, .inl hp⟩
  | cons q B =>
    have e' : s.ptr p = q := (links_pair.1 hl).1
    have hq : ¬ q < bp := hB q rfl
    have hne : q ≠ bp := by
      rintro rfl
      simp at hN
    exact .inl ⟨hp, by omega⟩

/-- A block of at least `n` units among those listed. -/
def HasRoom (n : Nat) (N : List Nat) (s : Heap) : Prop := ∃ p ∈ N, n ≤ s.size p

/-- What a call leaves alone: the blocks `H`, and what was obtained. -/
structure Keeps (H : List Nat) (s t : Heap) : Prop where
  hdr : ∀ x ∈ H, t.hdr x = s.hdr x
  obtained : t.obtained = s.obtained
  answers : t.answers = s.answers

/-- **`free` returns, and the block is in the ring.** -/
theorem free_spec (h : Ring base N (bp :: H) s) : ∃ N' t, Ring base N' H t ∧ Keeps H s t ∧
    HasRoom (s.size bp) N' t ∧ N'.length ≤ N.length + 1 ∧
    ∀ fuel, N.length ≤ fuel → free fuel (bp + UNIT) s = .ok ((), t) := by
  obtain ⟨L, rfl⟩ : ∃ L, N = base :: L := head?_eq_some_iff.1 h.head
  obtain ⟨m, hm, hperm⟩ := Links.cycle_at h.links h.roving
  obtain ⟨p, hpm, hfit, hwalk⟩ : ∃ p ∈ s.freep :: m, fits s bp p = true ∧
      ∀ fuel, m.length < fuel → follow s.ptr (fits s bp) fuel s.freep = some p := by
    have hm : Links s.ptr (s.freep :: m) := List.IsChain.left_of_append hm
    obtain ⟨p, hp, hfit⟩ := h.exists_fits
    exact hm.exists_follow ⟨p, hperm.mem_iff.2 hp, hfit⟩
  obtain ⟨A, B, e⟩ := append_of_mem (hperm.mem_iff.1 hpm)
  rw [e] at h
  obtain ⟨hbelow, habove⟩ := h.between hfit
  obtain ⟨C, hseam, hCB, hsize, hH⟩ := h.joinUpper_seam hbelow habove
  obtain ⟨D, hring, hDC, ⟨x, hx, hxs⟩, hH'⟩ := hseam.joinLower_ring
  refine ⟨A ++ p :: D, { joinLower p bp (joinUpper p bp s) with freep := p }, hring,
    ⟨fun y hy => (hH' y hy).trans (hH y hy), ?_, ?_⟩,
    ⟨x, mem_append_right _ hx, hsize.trans hxs⟩, ?_, ?_⟩
  · show (joinLower p bp (joinUpper p bp s)).obtained = _
    rw [joinLower_obtained, joinUpper_obtained]
  · show (joinLower p bp (joinUpper p bp s)).answers = _
    rw [joinLower_answers, joinUpper_answers]
  · have := congrArg List.length e
    simp only [length_append, length_cons] at this ⊢
    omega
  · intro fuel hfuel
    have hlen := hperm.length_eq
    simp only [length_cons] at hlen hfuel
    unfold free
    simp only [Nat.add_sub_cancel, hwalk fuel (by omega)]

end Xv6.Umalloc
