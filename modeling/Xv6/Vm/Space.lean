import Xv6.Vm.Walk

/-!
# Vm/Space — growing and shrinking an address space

`Spans G r n`: the user mappings of table `r` are the pages below `n`.  `uvmunmap`, `uvmdealloc` and
`uvmalloc` move `n`; on every failure path `uvmalloc` comes back to where it started.
-/

namespace Xv6

open Act Bytes Set Ghost

variable [Layout] {G G' : Ghost} {s s' : KState} {c r v w p a n k pa : Nat} {x : Pte}
  {X : Set (Nat × Nat)} {Y : Set Nat}

/-- The user mappings of `r` are exactly the pages below `n`. -/
def Spans (G : Ghost) (r n : Nat) : Prop := ∀ v, (r, v) ∈ G.maps ↔ v < n

/-- Pages `lo, …, hi - 1` of table `r`. -/
def pagesOf (r lo hi : Nat) : Set (Nat × Nat) := {y | y.1 = r ∧ lo ≤ y.2 ∧ y.2 < hi}

omit [Layout] in
@[simp] theorem mem_pagesOf {lo hi r' : Nat} :
    (r', v) ∈ pagesOf r lo hi ↔ r' = r ∧ lo ≤ v ∧ v < hi := Iff.rfl

/-- The user pages of table `r` from `lo` on: everything below the trapframe. -/
def userOf (r lo : Nat) : Set (Nat × Nat) := pagesOf r lo (2 ^ 26 - 2)

/-- Every mapping of one table. -/
def allOf (r : Nat) : Set (Nat × Nat) := {y | y.1 = r}

/-- The number of pages of `sz` bytes. -/
def npages (sz : Nat) : Nat := (sz + 4095) / 4096

omit [Layout] in
theorem npages_one : npages PGSIZE = 1 := rfl

omit [Layout] in
theorem PGROUNDUP_npages {sz : Nat} (h : sz + 4095 < 2 ^ 64) : PGROUNDUP sz = 4096 * npages sz := by
  simp only [PGROUNDUP, npages, PGSIZE_eq]
  omega

theorem Own.spans_le (h : Own G s) (hs : Spans G r n) : n ≤ 32768 :=
  h.size_le fun v hv => (hs v).2 hv

/-! ## Unmapping a page -/

/-- A present leaf has an address. -/
theorem Own.addr_of_map (h : Own G s) (hm : (r, v) ∈ G.maps) :
    ∃ a, leafAddr s.mem r v = some a := by
  have hV := h.leaves.map_V r v hm
  unfold leaf at hV
  split at hV
  · exact ⟨_, by assumption⟩
  · simp at hV

/-- Clearing an entry before or after freeing the page it led to is the same. -/
theorem kfree_writePte (hp : IsPage pa) (ha : a + 8 ≤ pa ∨ pa + 4096 ≤ a) :
    (kfree pa >>= fun _ => writePte a x) s = (writePte a x >>= fun _ => kfree pa) s := by
  have hcomm : setPte (fill s.mem pa PGSIZE 1) a x = fill (setPte s.mem a x) pa PGSIZE 1 := by
    unfold setPte setLE fill
    exact overlay_comm (by simpa using ha.symm)
  have hk : ∀ m, kfree pa { s with mem := m } = .ok ((),
      if (s.referCount (refIdx pa) + 255) % 256 > 0 then { decRef pa s with mem := m }
      else { decRef pa s with mem := fill m pa PGSIZE 1, freelist := pa :: s.freelist }) := by
    intro m
    unfold kfree
    rw [if_neg hp, bind_ok (modify_apply _ _), bind_ok (gets_apply _ _)]
    simp only [decRef, Function.update_self]
    split <;> rfl
  rw [bind_ok (hk s.mem), bind_ok (show writePte a x s = .ok ((), _) from rfl), hk]
  split
  · rfl
  · rw [← hcomm]
    rfl

theorem Own.entry_disjoint (h : Own G s) (hr : G.use r = .root) (hv : v < 2 ^ 27)
    (ha : leafAddr s.mem r v = some a) {q : Nat} (hq : IsPage q) (hu : ¬ (G.use q).IsTable) :
    a + 8 ≤ q ∨ q + 4096 ≤ a := by
  obtain ⟨p, hp, rfl⟩ := h.low_of_addr hr hv ha
  have hp' : IsPage p := h.isPage (by simp [hp])
  have hne : p ≠ q := fun e => hu (by rw [← e, hp]; trivial)
  have h1 := hp'.bounds
  have h2 := hq.bounds
  have h3 : v % 512 < 512 := Nat.mod_lt _ (by decide)
  omega

/-- **One round of `uvmunmap`**: the page is freed or stays with its other owners. -/
theorem unmap_page (h : Own G s) (hm : (r, v) ∈ G.maps) (ha : leafAddr s.mem r v = some a) :
    ∃ s' G', (kfree (PTE2PA (leaf s.mem r v)) >>= fun _ => writePte a 0#64) s = .ok ((), s') ∧
      Own G' s' ∧ Frame {(r, v)} Y G G' s s' ∧ Growth ∅ G G' ∧ G'.maps = G.maps.erase (r, v) ∧
      s.freelist.length ≤ s'.freelist.length := by
  have hu := h.leaves.map_user r v hm
  have hpa := h.mapped hm
  have hf : (r, PTE2PA (leaf s.mem r v)) ∉ G.flight := fun hc => h.leaves.flight_ne r _ v hc hm rfl
  have hX : (r, v) ∈ ({(r, v)} : Set (Nat × Nat)) := rfl
  have hY : PTE2PA (leaf s.mem r v) ∈ insert (PTE2PA (leaf s.mem r v)) Y := mem_insert _ _
  have h1 := h.unmap (x := 0#64) hm ha rfl
  have hF1 := Frame.unmap (x := 0#64) h hm ha hX hY
  obtain ⟨s', e, h2, hF2, hfl⟩ := kfree_flight (X := {(r, v)}) h1 (Finset.mem_insert_self _ _)
  rw [kfree_writePte hpa (h.entry_disjoint (h.leaves.map_root r v hm) (h.leaves.lt hm) ha hpa
    (by simp [hu, Use.IsTable]))]
  refine ⟨s', _, e, h2, (hF1.trans h.leaves
    (hF2.mono subset_rfl (singleton_subset_iff.2 hY))).drop ?_ ?_ fun r' => ?_, ?_, by simp, hfl⟩
  · simp [hu, Use.Stays]
  · unfold Ghost.dropRef
    split
    · simp [Use.Stays]
    · simp [hu, Use.Stays]
  · rw [dropRef_flight, addFlight_flight, delMap_flight, Finset.erase_insert hf]
  · exact Growth.dropRef (G := (G.delMap r v).addFlight r (PTE2PA (leaf s.mem r v))) hu

/-- The loop of `uvmunmap`, over mapped pages. -/
theorem uvmunmapLoop_spec (h : Own G s) (hm : ∀ w, v ≤ w → w < v + k → (r, w) ∈ G.maps) :
    ∃ s' G', uvmunmapLoop r true k (4096 * v) s = .ok ((), s') ∧ Own G' s' ∧
      Frame (pagesOf r v (v + k)) Y G G' s s' ∧ Growth ∅ G G' ∧
      (∀ w, (r, w) ∈ G'.maps ↔ (r, w) ∈ G.maps ∧ ¬ (v ≤ w ∧ w < v + k)) ∧
      s.freelist.length ≤ s'.freelist.length := by
  induction k generalizing G s v with
  | zero =>
    exact ⟨s, G, rfl, h, Frame.refl .., Growth.refl _ _, fun w => ⟨fun hw => ⟨hw, by omega⟩,
      And.left⟩, le_rfl⟩
  | succ k ih =>
    have hm0 := hm v le_rfl (by omega)
    have hlt := h.leaves.map_lt r v hm0
    obtain ⟨a, ha⟩ := h.addr_of_map hm0
    obtain ⟨s1, G1, e1, h1, hF1, hT1, hmaps, hfl1⟩ := unmap_page (Y := Y) h hm0 ha
    obtain ⟨s2, G2, e2, h2, hF2, hT2, hm2, hfl2⟩ := ih (v := v + 1) h1 fun w h3 h4 => by
      rw [hmaps]
      exact Finset.mem_erase.2 ⟨fun e => by have := (Prod.mk.inj e).2; omega,
        hm w (by omega) (by omega)⟩
    have hstep : uvmunmapLoop r true (k + 1) (4096 * v) s =
        uvmunmapLoop r true k (4096 * (v + 1)) s1 := by
      have hw := walk_page (show v < 2 ^ 26 by omega) ha false
      have hV := h.leaves.map_V r v hm0
      have hR := h.leaves.map_R r v hm0
      rw [uvmunmapLoop, bind_ok hw]
      simp only
      rw [readPte_bind, leaf_of_addr ha,
        if_neg (by simp [hV]), if_neg fun e => ?_]
      · rw [if_pos trivial]
        exact bind_bind_ok e1
      · -- a leaf has `R`, which `PTE_V` alone has not
        have := Pte.has_R_FLAGS (p := leaf s.mem r v)
        rw [e, hR] at this
        simp at this
    refine ⟨s2, G2, hstep.trans e2, h2, (hF1.mono ?_ subset_rfl).trans h.leaves
      (hF2.mono ?_ subset_rfl), hT1.trans hT2, fun w => ?_, hfl1.trans hfl2⟩
    · rintro ⟨r', w⟩ hx
      obtain ⟨rfl, rfl⟩ := Prod.mk.inj hx
      exact ⟨rfl, le_rfl, by omega⟩
    · rintro ⟨r', w⟩ ⟨h3, h4, h5⟩
      exact ⟨h3, by omega, by omega⟩
    · rw [hm2, hmaps, Finset.mem_erase]
      constructor
      · rintro ⟨⟨h3, h4⟩, h5⟩
        refine ⟨h4, fun h6 => ?_⟩
        have : w ≠ v := fun e => h3 (by rw [e])
        omega
      · rintro ⟨h3, h4⟩
        refine ⟨⟨fun e => ?_, h3⟩, by omega⟩
        have := (Prod.mk.inj e).2
        omega

/-- **`uvmunmap` of mapped pages.** -/
theorem uvmunmap_spec (h : Own G s) (hm : ∀ w, v ≤ w → w < v + k → (r, w) ∈ G.maps)
    (hk : v + k < 2 ^ 27) :
    ∃ s' G', uvmunmap r (4096 * v) k true s = .ok ((), s') ∧ Own G' s' ∧
      Frame (pagesOf r v (v + k)) Y G G' s s' ∧ Growth ∅ G G' ∧
      (∀ w, (r, w) ∈ G'.maps ↔ (r, w) ∈ G.maps ∧ ¬ (v ≤ w ∧ w < v + k)) ∧
      s.freelist.length ≤ s'.freelist.length := by
  have e : uvmunmap r (4096 * v) k true = uvmunmapLoop r true k (4096 * v) := by
    have h2 : ((4096 * v + k * PGSIZE) % 2 ^ 64 - 4096 * v) / PGSIZE = k := by
      rw [PGSIZE_eq]; omega
    rw [uvmunmap, if_neg (by simp), h2]
  rw [e]
  exact uvmunmapLoop_spec h hm

/-! ## `uvmdealloc` -/

/-- **`uvmdealloc`** keeps the pages below the smaller size. -/
theorem uvmdealloc_spec {oldsz : Nat} (h : Own G s) (hs : Spans G r (npages oldsz)) (newsz : Nat) :
    ∃ s' G', uvmdealloc r oldsz newsz s = .ok (min oldsz newsz, s') ∧ Own G' s' ∧
      Frame (pagesOf r (npages newsz) (npages oldsz)) Y G G' s s' ∧ Growth ∅ G G' ∧
      Spans G' r (npages (min oldsz newsz)) ∧ s.freelist.length ≤ s'.freelist.length := by
  have hle := h.spans_le hs
  unfold uvmdealloc
  by_cases hge : newsz ≥ oldsz
  · rw [if_pos hge, min_eq_left hge]
    exact ⟨s, G, rfl, h, Frame.refl .., Growth.refl _ _, hs, le_rfl⟩
  · have hmin : min oldsz newsz = newsz := by omega
    have hold : oldsz ≤ 4096 * 32768 := by unfold npages at hle; omega
    have hn : npages newsz ≤ npages oldsz := by unfold npages; omega
    rw [if_neg hge, hmin, PGROUNDUP_npages (by omega), PGROUNDUP_npages (by omega)]
    by_cases hlt : 4096 * npages newsz < 4096 * npages oldsz
    · have hcount : (4096 * npages oldsz - 4096 * npages newsz) / PGSIZE =
          npages oldsz - npages newsz := by rw [PGSIZE_eq]; omega
      have hsum : npages newsz + (npages oldsz - npages newsz) = npages oldsz := by omega
      obtain ⟨s1, G1, e1, h1, hF, hT, hm, hfl⟩ := uvmunmap_spec (Y := Y) (v := npages newsz)
        (k := npages oldsz - npages newsz) h (fun w _ hw => (hs w).2 (by omega)) (by omega)
      rw [hsum] at hF
      refine ⟨s1, G1, ?_, h1, hF, hT, fun w => ?_, hfl⟩
      · rw [if_pos hlt, hcount, bind_ok e1]
        rfl
      · rw [hm, hs]
        omega
    · refine ⟨s, G, ?_, h, Frame.refl .., Growth.refl _ _, fun w => ?_, le_rfl⟩
      · rw [if_neg hlt]
        rfl
      · rw [hs]
        omega

/-! ## `uvmalloc` -/

/-- The level-0 pages for the page numbers from `a` to `b` in the tree at `r`. -/
def lowsOf (r a b : Nat) : Set (Nat × Nat) := {y | y.1 = r ∧ ∃ w, a ≤ w ∧ w < b ∧ w / 512 = y.2}

omit [Layout] in
theorem lowsOf_mono {a b a' b' : Nat} (ha : a' ≤ a) (hb : b ≤ b') :
    lowsOf r a b ⊆ lowsOf r a' b' := by
  rintro y ⟨hy, w, h1, h2, e⟩
  exact ⟨hy, w, ha.trans h1, h2.trans_le hb, e⟩

omit [Layout] in
theorem singleton_lowsOf {a b : Nat} (ha : a ≤ v) (hb : v < b) : {(r, v / 512)} ⊆ lowsOf r a b := by
  rintro y rfl
  exact ⟨rfl, v, ha, hb, rfl⟩

/-- A page just mapped by `uvmalloc`: its flags, zeros, and no other mapping. -/
structure Fresh (G : Ghost) (s : KState) (r v : Nat) (x : Pte) : Prop where
  entry : ∃ pa, leaf s.mem r v = PA2PTE pa ||| (PTE_R ||| PTE_U ||| x) ||| PTE_V
  zero : ∀ o < 4096, s.mem (PTE2PA (leaf s.mem r v) + o) = 0
  sole : ∀ r' w, (r', w) ∈ G.maps → PTE2PA (leaf s.mem r' w) = PTE2PA (leaf s.mem r v) →
    r' = r ∧ w = v

/-- A fresh page stays so while other pages are mapped. -/
theorem Fresh.frame (h : Fresh G s r v x) (ho : Own G s) (hm : (r, v) ∈ G.maps)
    (hF : Frame X Y G G' s s') (hx : (r, v) ∉ X)
    (hnew : ∀ r' w, (r', w) ∈ X → (r', w) ∈ G'.maps →
      PTE2PA (leaf s'.mem r' w) ≠ PTE2PA (leaf s.mem r v)) : Fresh G' s' r v x := by
  have e : leaf s'.mem r v = leaf s.mem r v := hF.leaf_map ho hm hx
  refine ⟨by rw [e]; exact h.entry, fun o hlt => ?_, fun r' w hw he => ?_⟩
  · rw [e, hF.bytes r v hx hm o hlt]
    exact h.zero o hlt
  · rw [e] at he
    by_cases hx' : (r', w) ∈ X
    · exact absurd he (hnew r' w hx' hw)
    · have hw0 := (hF.maps r' w hx').1 hw
      rw [hF.leaf_map ho hw0 hx'] at he
      exact h.sole r' w hw0 he

/-- Flags that `uvmalloc` is called with. -/
theorem alloc_entry {pa : Nat} (hp : IsPage pa) (hx : Pte.IsFlags x) :
    PTE2PA (PA2PTE pa ||| (PTE_R ||| PTE_U ||| x) ||| PTE_V) = pa := by
  have hb := hp.bounds
  rw [Pte.PTE2PA_or Pte.isFlags_V]
  exact Pte.PTE2PA_mk (by rw [PGSIZE_eq]; omega) (by omega)
    ((Pte.isFlags_R.or Pte.isFlags_U).or hx)

/-- **Mapping one zeroed page**, the body of the loop of `uvmalloc` once it has a page. -/
theorem alloc_page (h : Own G s) (hs : Spans G r v) (hr : G.use r = .root) (hu : G.use c = .held)
    (hz : ∀ o < 4096, s.mem (c + o) = 0) (hx : Pte.IsFlags x) :
    (∃ s1 G1, mappages r (4096 * v) PGSIZE c (PTE_R ||| PTE_U ||| x) s = .ok (-1, s1) ∧ Own G1 s1 ∧
      Frame ∅ ∅ G G1 s s1 ∧ Growth {(r, v / 512)} G G1 ∧ s.freelist.length ≤ 1) ∨
    ∃ s1 G1, mappages r (4096 * v) PGSIZE c (PTE_R ||| PTE_U ||| x) s = .ok (0, s1) ∧ Own G1 s1 ∧
      Frame {(r, v)} {c} G G1 s s1 ∧ Growth {(r, v / 512)} G G1 ∧ Spans G1 r (v + 1) ∧
      G1.use c = .user ∧ (∀ r', (r', c) ∉ G1.flight) ∧ PTE2PA (leaf s1.mem r v) = c ∧
      Fresh G1 s1 r v x ∧ s.freelist.length ≤ s1.freelist.length + 2 := by
  have hle := h.spans_le hs
  have hpa : IsPage c := h.isPage (by simp [hu])
  have hdiv : 4096 * v / 4096 = v := Nat.mul_div_cancel_left v (by decide)
  have hm : (r, v) ∉ G.maps := fun hc => absurd ((hs v).1 hc) (lt_irrefl v)
  have hsp : (r, v) ∉ G.spec := fun hc => by have := h.leaves.spec_lt r v hc; omega
  rcases mappages_page (X := ∅) (Y := ∅) (x := PTE_R ||| PTE_U ||| x) h hr
    (Nat.mul_mod_right 4096 v) (by rw [MAXVA_eq]; omega) (by rwa [hdiv]) (by rwa [hdiv]) c with
    ⟨s1, G1, e1, h1, hF, hT, hf⟩ | ⟨a, s1, G1, e1, h1, hF, hT, ha, hf⟩
  · rw [hdiv] at hT
    exact .inl ⟨s1, G1, e1, h1, hF, hT, hf⟩
  · right
    rw [hdiv] at ha hT
    obtain ⟨hu1, hb1⟩ := hF.keep c (notMem_empty _) (.inl hu)
    rw [hu] at hu1
    have hpte := alloc_entry hpa hx
    have hr1 : G1.use r = .root := (hF.root r 0 (notMem_empty _)).2 hr
    have hm1 : (r, v) ∉ G1.maps := fun hc => hm ((hF.maps r v (notMem_empty _)).1 hc)
    have h2 := h1.mapHeld (x := PA2PTE c ||| (PTE_R ||| PTE_U ||| x) ||| PTE_V) hr1 (by omega) ha
      hm1 (by rw [hpte]; exact hu1) (by simp) (by simp)
    have hF2 := Frame.mapHeld (x := PA2PTE c ||| (PTE_R ||| PTE_U ||| x) ||| PTE_V) h1 hr1
      (by omega) ha (by rw [hpte]; exact hu1) (mem_singleton (r, v))
      (show PTE2PA _ ∈ {c} by rw [hpte]; rfl)
    have hlf : leaf (setPte s1.mem a (PA2PTE c ||| (PTE_R ||| PTE_U ||| x) ||| PTE_V)) r v =
        PA2PTE c ||| (PTE_R ||| PTE_U ||| x) ||| PTE_V := by
      rw [h1.leaf_store hr1 (by omega) ha hr1 (by omega), setLeaf_self]
    have hpage : PTE2PA
        (leaf (setPte s1.mem a (PA2PTE c ||| (PTE_R ||| PTE_U ||| x) ||| PTE_V)) r v) = c := by
      rw [hlf, hpte]
    rw [hpte] at h2 hF2
    refine ⟨_, _, e1, h2, (hF.mono (empty_subset _) (empty_subset _)).trans h.leaves hF2,
      hT.trans (Growth.setUse (by rw [hu1]; trivial) trivial), fun w => ?_, setUse_self,
      fun r' => h1.leaves.not_flight (by simp [hu1]), hpage,
      ⟨⟨c, hlf⟩, fun o ho => ?_, fun r' w hw he => ?_⟩, hf⟩
    · rw [addMap_maps, Finset.mem_insert, setUse_maps, hF.maps r w (notMem_empty _),
        hs, Prod.mk.injEq]
      omega
    · rw [hpage]
      exact (h1.store_out hr1 (by omega) ha hpa (by simp [hu1, Use.IsTable])
        (Nat.le_add_right c o) (by omega)).trans ((hb1 o ho).trans (hz o ho))
    · by_cases heq : (r', w) = (r, v)
      · exact Prod.mk.inj heq
      · have hw1 : (r', w) ∈ G1.maps := Finset.mem_of_mem_insert_of_ne hw heq
        rw [hpage, h1.leaf_store hr1 (by omega) ha (h1.leaves.map_root r' w hw1) (h1.leaves.lt hw1),
          setLeaf_ne heq] at he
        exact absurd he (h1.leaves.not_mapped (by simp [hu1]) hw1)

omit [Layout] in
/-- Sizes that are whole pages. -/
theorem npages_mul (n : Nat) : npages (4096 * n) = n := by
  unfold npages
  omega

/-- How `uvmalloc` ends, which has to map `k` pages from page `v` on and has mapped those from
`v₀`. -/
def AllocEnd (r v₀ v k newsz : Nat) (x : Pte) (G : Ghost) (s : KState) (ret : Nat) (G' : Ghost)
    (s' : KState) : Prop :=
  Own G' s' ∧ Frame (userOf r v₀) ∅ G G' s s' ∧ Growth (lowsOf r v (v + k)) G G' ∧
    ((ret = 0 ∧ Spans G' r v₀ ∧ s.freelist.length ≤ 3 * k) ∨
      (ret = newsz ∧ Spans G' r (v + k) ∧ (∀ w, v₀ ≤ w → w < v + k → Fresh G' s' r w x) ∧
        s.freelist.length ≤ s'.freelist.length + 3 * k))

/-- **The loop of `uvmalloc`**: from page `v`, with the pages from `v₀` on fresh, it maps `k` more
or takes everything from `v₀` back. -/
theorem uvmallocLoop_spec {v₀ : Nat} (newsz : Nat) (h : Own G s) (hr : G.use r = .root)
    (hs : Spans G r v) (hv : v₀ ≤ v) (hx : Pte.IsFlags x)
    (hfresh : ∀ w, v₀ ≤ w → w < v → Fresh G s r w x) :
    ∃ ret s' G', uvmallocLoop r (4096 * v₀) newsz x k (4096 * v) s = .ok (ret, s') ∧
      AllocEnd r v₀ v k newsz x G s ret G' s' := by
  induction k generalizing G s v with
  | zero =>
    exact ⟨newsz, s, G, rfl, h, Frame.refl .., Growth.refl _ _, .inr ⟨rfl, hs, hfresh, le_rfl⟩⟩
  | succ k ih =>
    -- taking back what was mapped
    have hback : ∀ {G1 : Ghost} {s1 : KState}, Own G1 s1 → Spans G1 r v →
        Frame (userOf r v₀) ∅ G G1 s s1 → Growth (lowsOf r v (v + (k + 1))) G G1 →
        s.freelist.length ≤ 3 * (k + 1) →
        ∃ ret s' G', (uvmdealloc r (4096 * v) (4096 * v₀) >>= fun _ => pure 0) s1 = .ok (ret, s') ∧
          AllocEnd r v₀ v (k + 1) newsz x G s ret G' s' := by
      intro G1 s1 h1 hs1 hF hT hf
      obtain ⟨s2, G2, e2, h2, hF2, hT2, hs2, -⟩ := uvmdealloc_spec (Y := ∅) h1
        ((npages_mul v).symm ▸ hs1) (4096 * v₀)
      rw [min_eq_right (by omega), npages_mul] at hs2
      refine ⟨0, s2, G2, by rw [bind_ok e2]; rfl, h2, hF.trans h.leaves (hF2.mono ?_ subset_rfl),
        hT.trans (hT2.mono (empty_subset _)), .inl ⟨rfl, hs2, hf⟩⟩
      have hle := h1.spans_le hs1
      rintro ⟨r', w⟩ ⟨h3, h4, h5⟩
      rw [npages_mul] at h4 h5
      exact ⟨h3, h4, by omega⟩
    rw [uvmallocLoop]
    rcases zalloc_spec (X := ∅) h (e := uvmdealloc r (4096 * v) (4096 * v₀) >>= fun _ => pure 0)
      (f := fun mem => mappages r (4096 * v) PGSIZE mem (PTE_R ||| PTE_U ||| x) >>= fun ret =>
        if ret ≠ 0 then kfree mem >>= fun _ =>
          uvmdealloc r (4096 * v) (4096 * v₀) >>= fun _ => pure 0
        else uvmallocLoop r (4096 * v₀) newsz x k (4096 * v + PGSIZE)) with
      ⟨hnil, e⟩ | ⟨c, s1, e, hpa, hfree, h1, hF1, hz, hfl, -⟩
    · obtain ⟨ret, s', G', e', hend⟩ := hback h hs (Frame.refl ..) (Growth.refl _ _)
        (by simp [hnil])
      exact ⟨ret, s', G', e.trans e', hend⟩
    · have hrc : r ≠ c := by rintro rfl; simp [hr] at hfree
      have hY : ({c} : Set Nat) ⊆ insert c ∅ := by simp
      have hfl' : s.freelist.length = s1.freelist.length + 1 := by rw [hfl, List.length_cons]
      have hsub : {(r, v / 512)} ⊆ lowsOf r v (v + (k + 1)) := singleton_lowsOf le_rfl (by omega)
      have hT1 : Growth (lowsOf r v (v + (k + 1))) G (G.setUse c .held) :=
        Growth.setUse (by rw [hfree]; trivial) trivial
      rcases alloc_page (c := c) h1 (show Spans (G.setUse c .held) r v from hs)
        (by rw [setUse_ne hrc]; exact hr) setUse_self hz hx with
        ⟨s2, G2, e2, h2, hF2, hT2, hf2⟩ | ⟨s2, G2, e2, h2, hF2, hT2, hs2, hu2, hno2, hpc, hfr, hf2⟩
      · -- no memory for a table: give the page back first
        obtain ⟨hu2, -⟩ := hF2.keep c (notMem_empty _) (.inl setUse_self)
        rw [setUse_self] at hu2
        obtain ⟨s3, e3, h3, hF3, -⟩ := kfree_held (X := ∅) h2 hu2
        have hF : Frame ∅ ∅ G (G2.setUse c .free) s s3 :=
          (((hF1.mono subset_rfl hY).trans h.leaves
            (hF2.mono subset_rfl (empty_subset _))).trans h.leaves
            (hF3.mono subset_rfl hY)).drop (by simp [hfree, Use.Stays]) (by simp [Use.Stays])
            fun r' => ⟨fun hc => absurd hc (h2.leaves.not_flight (by simp [hu2])),
              fun hc => absurd hc (h.leaves.not_flight (by simp [hfree]))⟩
        obtain ⟨ret, s', G', e', hend⟩ := hback h3
          (fun w => by rw [setUse_maps, hF2.maps r w (notMem_empty _)]; exact hs w)
          (hF.mono (empty_subset _) subset_rfl)
          ((hT1.trans (hT2.mono hsub)).trans (Growth.setUse (by rw [hu2]; trivial) trivial))
          (by omega)
        refine ⟨ret, s', G', e.trans ?_, hend⟩
        rw [bind_ok e2, if_pos (by decide), bind_ok e3]
        exact e'
      · have hF : Frame {(r, v)} ∅ G G2 s s2 :=
          ((hF1.mono (empty_subset _) hY).trans h.leaves (hF2.mono subset_rfl hY)).drop
            (by simp [hfree, Use.Stays]) (by simp [hu2, Use.Stays])
            fun r' => ⟨fun hc => absurd hc (hno2 r'),
              fun hc => absurd hc (h.leaves.not_flight (by simp [hfree]))⟩
        obtain ⟨ret, s', G', e', h', hF', hT', hor⟩ := ih (v := v + 1) h2
          ((hF.root r (v + 1) (by simp)).2 hr) hs2 (by omega) fun w h3 h4 => by
            rcases Nat.lt_succ_iff_lt_or_eq.1 h4 with h5 | rfl
            · refine (hfresh w h3 h5).frame h ((hs w).2 h5) hF
                (fun e => by have := (Prod.mk.inj e).2; omega) fun r' w' hx' _ => ?_
              obtain ⟨rfl, rfl⟩ := Prod.mk.inj hx'
              rw [hpc]
              exact (h.leaves.not_mapped (by simp [hfree]) ((hs w).2 h5)).symm
            · exact hfr
        refine ⟨ret, s', G', ?_, h', (hF.mono ?_ subset_rfl).trans h.leaves hF',
          (hT1.trans (hT2.mono hsub)).trans (hT'.mono (lowsOf_mono (by omega) (by omega))), ?_⟩
        · refine e.trans ?_
          rw [bind_ok e2, if_neg (by decide)]
          exact e'
        · have hle := h.spans_le hs
          rintro ⟨r', w⟩ hx'
          obtain ⟨rfl, rfl⟩ := Prod.mk.inj hx'
          exact ⟨rfl, hv, by omega⟩
        · rw [show v + (k + 1) = v + 1 + k by omega]
          rcases hor with ⟨h5, h6, h7⟩ | ⟨h5, h6, h7, h8⟩
          · exact .inl ⟨h5, h6, by omega⟩
          · exact .inr ⟨h5, h6, h7, by omega⟩

/-- **`uvmalloc`**: the new size with fresh pages, or `0` and nothing changed below it. -/
theorem uvmalloc_spec {oldsz : Nat} (h : Own G s) (hr : G.use r = .root)
    (hs : Spans G r (npages oldsz)) (hx : Pte.IsFlags x) (newsz : Nat) :
    ∃ ret s' G', uvmalloc r oldsz newsz x s = .ok (ret, s') ∧ Own G' s' ∧
      Frame (userOf r (npages oldsz)) ∅ G G' s s' ∧ Growth (lowsOf r (npages oldsz) (npages newsz))
      G G' ∧ ((ret = 0 ∧ Spans G' r (npages oldsz) ∧
          s.freelist.length ≤ 3 * (npages newsz - npages oldsz)) ∨
        (ret = max oldsz newsz ∧ Spans G' r (npages ret) ∧
          (∀ w, npages oldsz ≤ w → w < npages ret → Fresh G' s' r w x) ∧
          s.freelist.length ≤ s'.freelist.length + 3 * (npages newsz - npages oldsz))) := by
  have hle := h.spans_le hs
  have hold : oldsz ≤ 4096 * 32768 := by unfold npages at hle; omega
  unfold uvmalloc
  by_cases hlt : newsz < oldsz
  · rw [if_pos hlt]
    refine ⟨oldsz, s, G, rfl, h, Frame.refl .., Growth.refl _ _,
      .inr ⟨by omega, hs, fun w h1 h2 => by omega, ?_⟩⟩
    omega
  · have hk : (newsz - 4096 * npages oldsz + (PGSIZE - 1)) / PGSIZE = npages newsz -
        npages oldsz := by
      simp only [PGSIZE_eq, npages]
      omega
    have hmono : npages oldsz ≤ npages newsz := by unfold npages; omega
    rw [if_neg hlt, PGROUNDUP_npages (by omega), hk]
    obtain ⟨ret, s', G', e, h', hF, hT, hor⟩ := uvmallocLoop_spec
      (k := npages newsz - npages oldsz) newsz h hr hs le_rfl hx
      fun w h1 h2 => by omega
    have hsum : npages oldsz + (npages newsz - npages oldsz) = npages newsz := by omega
    rw [hsum] at hT hor
    refine ⟨ret, s', G', e, h', hF, hT, hor.imp_right fun ⟨h1, h2, h3, h4⟩ => ?_⟩
    exact ⟨by omega, by rwa [h1], by rwa [h1], h4⟩

end Xv6
