import Xv6.Vm.Space

/-!
# Vm/Share — `uvmcopy`

The child's table maps the parent's pages.  A writable page is read-only and copy-on-write in both
tables afterwards; when a table page is missing half-way the child's mappings are taken back, and
the parent keeps the marks made so far.
-/

namespace Xv6

open Act Bytes Set

variable [Layout] {G G' : Ghost} {s s' : KState} {r ro rn v w a n i k pa : Nat} {x : Pte}
  {X : Set (Nat × Nat)} {Y : Set Nat}

/-! ## Marking -/

section

omit [Layout]

@[simp] theorem cowMark_V : (cowMark x).has PTE_V = x.has PTE_V := by
  unfold cowMark
  split <;> simp

@[simp] theorem cowMark_R : (cowMark x).has PTE_R = x.has PTE_R := by
  unfold cowMark
  split <;> simp

@[simp] theorem cowMark_U : (cowMark x).has PTE_U = x.has PTE_U := by
  unfold cowMark
  split <;> simp

/-- After `uvmcopy` neither table may write… -/
@[simp] theorem cowMark_W : (cowMark x).has PTE_W = false := by
  unfold cowMark
  split
  · simp
  · simpa using ‹¬ x.has PTE_W = true›

/-- …and what was writable is copy-on-write. -/
@[simp] theorem cowMark_COW : (cowMark x).has PTE_RSW_COW = (x.has PTE_W || x.has PTE_RSW_COW) := by
  unfold cowMark
  split
  · rename_i h
    simp [h]
  · rename_i h
    simp [Bool.eq_false_iff.2 h]

@[simp] theorem PTE2PA_cowMark : PTE2PA (cowMark x) = PTE2PA x := by
  unfold cowMark
  split
  · rw [Pte.PTE2PA_or Pte.isFlags_COW, Pte.PTE2PA_andNot Pte.isFlags_W]
  · rfl

/-- The child's entry for the parent's entry `x`. -/
def childPte (x : Pte) : Pte := PA2PTE (PTE2PA x) ||| PTE_FLAGS (cowMark x) ||| PTE_V

@[simp] theorem childPte_V : (childPte x).has PTE_V = true := by simp [childPte]
@[simp] theorem childPte_R : (childPte x).has PTE_R = x.has PTE_R := by simp [childPte]

end

theorem PTE2PA_childPte (h : IsPage (PTE2PA x)) : PTE2PA (childPte x) = PTE2PA x := by
  have hb := h.bounds
  unfold childPte
  rw [Pte.PTE2PA_or Pte.isFlags_V]
  exact Pte.PTE2PA_mk (by rw [PGSIZE_eq]; omega) (by omega) (Pte.isFlags_FLAGS _)

/-! ## One page -/

/-- Few page tables: the 8-bit counts have room. -/
def FewRoots (G : Ghost) : Prop := ∃ R : Finset Nat, (∀ r, G.use r = .root → r ∈ R) ∧ R.card ≤ 200

omit [Layout] in
theorem FewRoots.frame (h : FewRoots G) (hF : Frame X Y G G' s s') (hX : ∀ r, ∃ v, (r, v) ∉ X) :
    FewRoots G' := by
  obtain ⟨R, h1, h2⟩ := h
  refine ⟨R, fun r hr => h1 r ?_, h2⟩
  obtain ⟨v, hv⟩ := hX r
  exact (hF.root r v hv).1 hr

theorem Own.count_lt (h : Own G s) (hR : FewRoots G) (hu : G.use pa = .user) :
    s.referCount (refIdx pa) + 1 < 256 := by
  obtain ⟨R, h1, h2⟩ := hR
  have h3 : G.tokens (leaf s.mem) pa ≤ R.card := h.leaves.tokens_le R h1
  rw [h.ref pa (h.isPage (by simp [hu])), Ghost.refs_user hu]
  omega

/-- **One round of `uvmcopy`**: mark the parent's entry, map its page in the child, count it. -/
theorem share_page (h : Own G s) (hne : ro ≠ rn) (hm : (ro, i) ∈ G.maps)
    (ha : leafAddr s.mem ro i = some a) (hrn : G.use rn = .root) (hi : (rn, i) ∉ G.maps)
    (hno : ∀ w, (rn, w) ∈ G.maps → PTE2PA (leaf s.mem rn w) ≠ PTE2PA (leaf s.mem ro i))
    (hf : (rn, PTE2PA (leaf s.mem ro i)) ∉ G.flight) (hR : FewRoots G) :
    ∃ s1, writePte a (cowMark (leaf s.mem ro i)) s = .ok ((), s1) ∧
    ((∃ s2 G2, mappages rn (4096 * i) PGSIZE (PTE2PA (leaf s.mem ro i))
          (PTE_FLAGS (cowMark (leaf s.mem ro i))) s1 = .ok (-1, s2) ∧ Own G2 s2 ∧
        Frame {(ro, i)} ∅ G G2 s s2 ∧ Growth {(rn, i / 512)} G G2 ∧
        leaf s2.mem ro i = cowMark (leaf s.mem ro i) ∧ (∀ r v, (r, v) ∈ G2.maps ↔ (r, v) ∈ G.maps) ∧
        (∀ o < 4096, s2.mem (PTE2PA (leaf s.mem ro i) + o) = s.mem (PTE2PA (leaf s.mem ro i) + o)) ∧
        s.freelist.length ≤ 1) ∨
      ∃ s2 s3 G3, mappages rn (4096 * i) PGSIZE (PTE2PA (leaf s.mem ro i))
          (PTE_FLAGS (cowMark (leaf s.mem ro i))) s1 = .ok (0, s2) ∧
        increaseRefer (PTE2PA (leaf s.mem ro i)) s2 = .ok ((), s3) ∧ Own G3 s3 ∧
        Frame {(ro, i), (rn, i)} ∅ G G3 s s3 ∧ Growth {(rn, i / 512)} G G3 ∧
        leaf s3.mem ro i = cowMark (leaf s.mem ro i) ∧
        leaf s3.mem rn i = childPte (leaf s.mem ro i) ∧
        (∀ r v, (r, v) ∈ G3.maps ↔ (r, v) = (rn, i) ∨ (r, v) ∈ G.maps) ∧
        (∀ o < 4096, s3.mem (PTE2PA (leaf s.mem ro i) + o) = s.mem (PTE2PA (leaf s.mem ro i) + o)) ∧
        s.freelist.length ≤ s3.freelist.length + 2) := by
  have hro := h.leaves.map_root ro i hm
  have hlt := h.leaves.map_lt ro i hm
  have hu := h.leaves.map_user ro i hm
  have hpa := h.mapped hm
  have hnt : ¬ (G.use (PTE2PA (leaf s.mem ro i))).IsTable := by simp [hu, Use.IsTable]
  generalize hx : leaf s.mem ro i = x at *
  -- the marked parent
  have h1 : Own G { s with mem := setPte s.mem a (cowMark x) } :=
    h.setFlags hm ha (by rw [hx, cowMark_V]) (by rw [hx, cowMark_R])
      (by rw [hx, PTE2PA_cowMark])
  have hF1 : Frame {(ro, i)} ∅ G G s { s with mem := setPte s.mem a (cowMark x) } :=
    Frame.store (c := s.referCount) h hro (by omega) ha (mem_singleton _)
  have hl1 : leaf (setPte s.mem a (cowMark x)) ro i = cowMark x := by
    rw [h.leaf_store hro (by omega) ha hro (by omega), setLeaf_self]
  have hb1 : ∀ o < 4096, setPte s.mem a (cowMark x) (PTE2PA x + o) = s.mem (PTE2PA x + o) :=
    fun o ho => h.store_out hro (by omega) ha hpa hnt (by omega) (by omega)
  have hdiv : 4096 * i / 4096 = i := Nat.mul_div_cancel_left i (by decide)
  have hsp : (rn, i) ∉ G.spec := fun hc => by have := h.leaves.spec_lt rn i hc; omega
  refine ⟨_, rfl, ?_⟩
  have hb12 : ∀ {G2 : Ghost} {s2 : KState},
      Frame ∅ ∅ G G2 { s with mem := setPte s.mem a (cowMark x) } s2 →
      leaf s2.mem ro i = cowMark x ∧ ∀ o < 4096, s2.mem (PTE2PA x + o) = s.mem (PTE2PA x + o) := by
    intro G2 s2 hF2
    refine ⟨by rw [hF2.leaf ro i (notMem_empty _) hro (by omega)]; exact hl1, fun o ho => ?_⟩
    have := hF2.bytes ro i (notMem_empty _) hm o ho
    simp only [hl1, PTE2PA_cowMark] at this
    rw [this]
    exact hb1 o ho
  rcases mappages_page (X := ∅) (Y := ∅) (x := PTE_FLAGS (cowMark x)) h1 hrn
    (Nat.mul_mod_right 4096 i) (by rw [MAXVA_eq]; omega) (by rwa [hdiv]) (by rwa [hdiv]) (PTE2PA x)
    with ⟨s2, G2, e2, h2, hF2, hT2, hf2⟩ | ⟨b, s2, G2, e2, h2, hF2, hT2, hb, hf2⟩
  · rw [hdiv] at hT2
    obtain ⟨hl2, hb2⟩ := hb12 hF2
    exact .inl ⟨s2, G2, e2, h2, hF1.trans h.leaves (hF2.mono (empty_subset _) subset_rfl), hT2, hl2,
      fun r v => hF2.maps r v (notMem_empty _), hb2, hf2⟩
  · right
    rw [hdiv] at hb hT2
    obtain ⟨hl2, hb2⟩ := hb12 hF2
    have hrn2 : G2.use rn = .root := (hF2.root rn 0 (notMem_empty _)).2 hrn
    have hro2 : G2.use ro = .root := (hF2.root ro 0 (notMem_empty _)).2 hro
    have hm2 : ∀ r v, (r, v) ∈ G2.maps ↔ (r, v) ∈ G.maps := fun r v =>
      hF2.maps r v (notMem_empty _)
    have hpte : PTE2PA (childPte x) = PTE2PA x := PTE2PA_childPte hpa
    have hxR : x.has PTE_R = true := by rw [← hx]; exact h.leaves.map_R ro i hm
    have hu2 : G2.use (PTE2PA x) = .user := by
      have := h2.leaves.map_user ro i ((hm2 ro i).2 hm)
      rwa [hl2, PTE2PA_cowMark] at this
    have hR2 : FewRoots G2 := (hR.frame hF1 fun r => ⟨i + 1, by simp⟩).frame hF2
      fun r => ⟨0, notMem_empty _⟩
    have hcnt := h2.count_lt hR2 hu2
    have h3 := h2.share (x := childPte x) hrn2 (by omega) hb (by rwa [hm2])
      (by rw [hpte]; exact hu2) (fun w hw => ?_) (by rwa [hpte, hF2.flight rn _ (notMem_empty _)])
      childPte_V (by rw [childPte_R]; exact hxR) (by rwa [hpte])
    · rw [hpte] at h3
      refine ⟨_, _, _, e2, increaseRefer_ok hpa hcnt, h3,
        ((hF1.mono (by simp) subset_rfl).trans h.leaves
          (hF2.mono (empty_subset _) subset_rfl)).trans h.leaves
          (Frame.share h2 hrn2 (by omega) hb (by simp)), hT2.trans (Growth.of_use rfl), ?_,
          ?_, fun r v => ?_,
        fun o ho => ?_, hf2⟩
      · show leaf (setPte s2.mem b _) ro i = _
        rw [h2.leaf_store hrn2 (by omega) hb hro2 (by omega), setLeaf_ne (by simp [hne]), hl2]
      · show leaf (setPte s2.mem b _) rn i = _
        rw [h2.leaf_store hrn2 (by omega) hb hrn2 (by omega), setLeaf_self]
        rfl
      · rw [Ghost.addMap_maps, Finset.mem_insert, hm2]
      · exact (h2.store_out hrn2 (by omega) hb hpa (by simp [hu2, Use.IsTable])
          (Nat.le_add_right _ o) (by omega)).trans (hb2 o ho)
    · -- the child maps other pages of the parent so far
      have hw0 := (hm2 rn w).1 hw
      have hwlt := h.leaves.lt hw0
      rw [hpte, hF2.leaf rn w (notMem_empty _) hrn hwlt]
      show PTE2PA (leaf (setPte s.mem a (cowMark x)) rn w) ≠ _
      rw [h.leaf_store hro (by omega) ha hrn hwlt, setLeaf_ne (by simp [hne.symm])]
      exact hno w hw0

/-! ## The loop -/

/-- What `uvmcopy` leaves, for a parent with entries `lf` below `n`.  When it fails, the first `j`
pages are marked, the one it failed at among them. -/
structure Copied (lf : Nat → Pte) (ro rn n : Nat) (G G' : Ghost) (s s' : KState) (ret : Int)
    (k : Nat) : Prop where
  old : Spans G' ro n
  bytes : ∀ w < n, ∀ o < 4096, s'.mem (PTE2PA (lf w) + o) = s.mem (PTE2PA (lf w) + o)
  frame : Frame (pagesOf ro 0 n ∪ pagesOf rn 0 n) ∅ G G' s s'
  trees : Growth (allOf rn) G G'
  result : (ret = 0 ∧ Spans G' rn n ∧ (∀ w < n, leaf s'.mem ro w = cowMark (lf w)) ∧
      (∀ w < n, leaf s'.mem rn w = childPte (lf w)) ∧
      s.freelist.length ≤ s'.freelist.length + 2 * k) ∨
    (ret = -1 ∧ Spans G' rn 0 ∧ ∃ j ≤ n, s.freelist.length + 2 * n ≤ 2 * (j + k) ∧
      ∀ w < n, leaf s'.mem ro w = if w < j then cowMark (lf w) else lf w)

/-- **The loop of `uvmcopy`** from page `i`, with the pages below it shared. -/
theorem uvmcopyLoop_spec {lf : Nat → Pte} (h : Own G s) (hne : ro ≠ rn) (hro : G.use ro = .root)
    (hrn : G.use rn = .root) (hso : Spans G ro n) (hsn : Spans G rn i) (hik : i + k = n)
    (hold : ∀ w < n, leaf s.mem ro w = if w < i then cowMark (lf w) else lf w)
    (hnew : ∀ w < i, leaf s.mem rn w = childPte (lf w)) (hf : ∀ pa, (rn, pa) ∉ G.flight)
    (hR : FewRoots G) :
    ∃ ret s' G', uvmcopyLoop ro rn k (4096 * i) s = .ok (ret, s') ∧ Own G' s' ∧
      Copied lf ro rn n G G' s s' ret k := by
  induction k generalizing G s i with
  | zero =>
    obtain rfl : i = n := by omega
    exact ⟨0, s, G, rfl, h, hso, fun _ _ _ _ => rfl, Frame.refl .., Growth.refl _ _, .inl ⟨rfl, hsn,
      fun w hw => by rw [hold w hw, if_pos hw], hnew, le_rfl⟩⟩
  | succ k ih =>
    have hin : i < n := by omega
    have hm := (hso i).2 hin
    have hlt := h.leaves.map_lt ro i hm
    have hxi : leaf s.mem ro i = lf i := by rw [hold i hin, if_neg (lt_irrefl i)]
    have hpage : ∀ w < n, PTE2PA (leaf s.mem ro w) = PTE2PA (lf w) := fun w hw => by
      rw [hold w hw]
      split
      · rw [PTE2PA_cowMark]
      · rfl
    obtain ⟨a, ha⟩ := h.addr_of_map hm
    have hno : ∀ w, (rn, w) ∈ G.maps → PTE2PA (leaf s.mem rn w) ≠ PTE2PA (leaf s.mem ro i) := by
      intro w hw
      have hwi := (hsn w).1 hw
      have hpw : IsPage (PTE2PA (lf w)) := hpage w (by omega) ▸ h.mapped ((hso w).2 (by omega))
      rw [hnew w hwi, PTE2PA_childPte hpw, ← hpage w (by omega)]
      exact fun e => absurd (h.leaves.inj ro w i ((hso w).2 (by omega)) hm e) (by omega)
    obtain ⟨s1, e1, hcase⟩ := share_page h hne hm ha hrn
      (fun hc => absurd ((hsn i).1 hc) (lt_irrefl i)) hno (hf _) hR
    rw [hxi] at e1 hcase
    have hw := walk_page (show i < 2 ^ 26 by omega) ha false
    have hV : (lf i).has PTE_V = true := hxi ▸ h.leaves.map_V ro i hm
    rw [uvmcopyLoop, bind_ok hw]
    simp only
    rw [readPte_bind, leaf_of_addr ha, hxi,
      if_neg (by simp [hV]), bind_ok e1]
    have hone : ({(rn, i / 512)} : Set (Nat × Nat)) ⊆ allOf rn := singleton_subset_iff.2 rfl
    rcases hcase with ⟨s2, G2, e2, h2, hF2, hT2, hl2, hm2, hb2, hfl2⟩ |
      ⟨s2, s3, G3, e2, e3, h3, hF3, hT3, hlo3, hln3, hm3, hb3, hfl3⟩
    · -- a table page is missing: undo the child's mappings
      rw [bind_ok e2, if_pos (by decide)]
      obtain ⟨s3, G3, e3, h3, hF3, hT3, hm3, -⟩ := uvmunmap_spec (Y := ∅) (r := rn) (v := 0)
        (k := i) h2 (fun w _ hw => (hm2 rn w).2 ((hsn w).2 (by omega))) (by omega)
      have hro3 : ∀ w, leaf s2.mem ro w = leaf s3.mem ro w ∨ ¬ w < n := fun w => by
        by_cases hwn : w < n
        · have hmw := (hm2 ro w).2 ((hso w).2 hwn)
          exact .inl (hF3.leaf_map h2 hmw (by simp [hne])).symm
        · exact .inr hwn
      have hlo2 : ∀ w < n, w ≠ i → leaf s2.mem ro w = leaf s.mem ro w := fun w hw hwi =>
        hF2.leaf ro w (by simp [hwi]) hro (h.leaves.lt ((hso w).2 hw))
      refine ⟨-1, s3, G3, ?_, h3, fun w => ?_, fun w hw o ho => ?_, ?_,
        (hT2.mono hone).trans (hT3.mono (empty_subset _)), .inr ⟨rfl, fun w => ?_, i + 1,
        hin, by omega, fun w hw => ?_⟩⟩
      · rw [show 4096 * i / PGSIZE = i by rw [PGSIZE_eq]; omega, bind_ok e3]
        rfl
      · rw [hF3.maps ro w (by simp [hne]), hm2]
        exact hso w
      · have hmw := (hm2 ro w).2 ((hso w).2 hw)
        have e4 := hF3.bytes ro w (by simp [hne]) hmw o ho
        have hp2 : PTE2PA (leaf s2.mem ro w) = PTE2PA (lf w) := by
          by_cases hwi : w = i
          · rw [hwi, hl2, PTE2PA_cowMark]
          · rw [hlo2 w hw hwi, hpage w hw]
        rw [hp2] at e4
        rw [e4]
        by_cases hwi : w = i
        · rw [hwi]
          exact hb2 o ho
        · have := hF2.bytes ro w (by simp [hwi]) ((hso w).2 hw) o ho
          rwa [hpage w hw] at this
      · refine (hF2.mono ?_ subset_rfl).trans h.leaves (hF3.mono ?_ subset_rfl)
        · rintro y rfl
          exact .inl ⟨rfl, by simp, hin⟩
        · rintro ⟨r, w⟩ ⟨h5, h6, h7⟩
          exact .inr ⟨h5, h6, by simp only at *; omega⟩
      · rw [hm3, hm2, hsn]
        omega
      · rw [← (hro3 w).resolve_right (by simpa using hw)]
        by_cases hwi : w = i
        · rw [hwi, if_pos (Nat.lt_succ_self i)]
          exact hl2
        · rw [hlo2 w hw hwi, hold w hw]
          congr 1
          rw [eq_iff_iff]
          omega
    · have hX : ∀ {r w}, w < n → w ≠ i → (r, w) ∉ ({(ro, i), (rn, i)} : Set (Nat × Nat)) := by
        intro r w _ hwi
        simp [hwi]
      have hro3 : G3.use ro = .root := (hF3.root ro (i + 1) (by simp)).2 hro
      have hrn3 : G3.use rn = .root := (hF3.root rn (i + 1) (by simp)).2 hrn
      obtain ⟨ret, s', G', e', h', hC⟩ := ih (i := i + 1) h3 hro3 hrn3
        (fun w => by rw [hm3, ← hso w, Prod.mk.injEq]; simp [hne])
        (fun w => by rw [hm3, hsn, Prod.mk.injEq]; omega) (by omega)
        (fun w hw => by
          by_cases hwi : w = i
          · rw [if_pos (by omega), hwi]
            exact hlo3
          · rw [hF3.leaf ro w (hX hw hwi) hro (h.leaves.lt ((hso w).2 hw)), hold w hw]
            congr 1
            rw [eq_iff_iff]
            omega)
        (fun w hw => by
          by_cases hwi : w = i
          · rw [hwi]
            exact hln3
          · have hwi' : w < i := by omega
            rw [hF3.leaf rn w (hX (by omega) hwi) hrn (h.leaves.lt ((hsn w).2 hwi')), hnew w hwi'])
        (fun pa => by rw [hF3.flight rn pa (notMem_empty _)]; exact hf pa)
        (hR.frame hF3 fun r => ⟨i + 1, by simp⟩)
      refine ⟨ret, s', G', ?_, h', hC.old, fun w hw o ho => ?_, ?_,
        (hT3.mono hone).trans hC.trees, ?_⟩
      · rw [bind_ok e2, if_neg (by decide), bind_ok e3]
        exact e'
      · rw [hC.bytes w hw o ho]
        by_cases hwi : w = i
        · rw [hwi]
          exact hb3 o ho
        · have := hF3.bytes ro w (hX hw hwi) ((hso w).2 hw) o ho
          rwa [hpage w hw] at this
      · refine (hF3.mono ?_ subset_rfl).trans h.leaves hC.frame
        rintro y (rfl | rfl)
        · exact .inl ⟨rfl, by simp, hin⟩
        · exact .inr ⟨rfl, by simp, hin⟩
      · exact hC.result.imp (fun ⟨h4, h5, h6, h7, h8⟩ => ⟨h4, h5, h6, h7, by omega⟩)
          fun ⟨h4, h5, j, hj, h6, h7⟩ => ⟨h4, h5, j, hj, by omega, h7⟩

/-- **`uvmcopy`.** -/
theorem uvmcopy_spec {sz : Nat} (h : Own G s) (hne : ro ≠ rn) (hro : G.use ro = .root)
    (hrn : G.use rn = .root) (hso : Spans G ro (npages sz)) (hsn : Spans G rn 0)
    (hf : ∀ pa, (rn, pa) ∉ G.flight) (hR : FewRoots G) :
    ∃ ret s' G', uvmcopy ro rn sz s = .ok (ret, s') ∧ Own G' s' ∧
      Copied (leaf s.mem ro) ro rn (npages sz) G G' s s' ret (npages sz) := by
  unfold uvmcopy
  rw [show (sz + (PGSIZE - 1)) / PGSIZE = npages sz by simp [npages]]
  exact uvmcopyLoop_spec (i := 0) h hne hro hrn hso hsn (by omega) (fun w _ => by simp)
    (fun w hw => absurd hw (by omega)) hf hR

end Xv6
