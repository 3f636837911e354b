import Xv6.Vm.Proc
import Xv6.Vm.Space

/-!
# Vm/Free — taking an address space down

`freewalk` on a root without mappings frees every table page under it: level-0 pages have no valid
entry left, so each level is a round of `freeChild`.  With `uvmunmap` before it this is `uvmfree`,
and with the trampoline and trapframe mappings removed first, `proc_freepagetable`.
-/

namespace Xv6

open Act Bytes Ghost

variable [Layout] {G G' : Ghost} {s s' : KState} {t j c r v p i k : Nat} {Y : Set Nat}

/-! ## `freewalk` -/

/-- **Tables below `r` have been freed**, and nothing else has happened. -/
structure Felled (r : Nat) (Y : Set Nat) (G : Ghost) (s : KState) (G' : Ghost) (s' : KState) :
    Prop where
  frame : Frame (allOf r) Y G G' s s'
  growth : Growth (allOf r) G G'
  use : ∀ p, G'.use p = G.use p ∨ G'.use p = .free
  free : s.freelist.length ≤ s'.freelist.length

omit [Layout] in
theorem Felled.refl : Felled r Y G s G s :=
  ⟨Frame.refl .., Growth.refl _ _, fun _ => .inl rfl, le_rfl⟩

theorem Felled.trans {G'' : Ghost} {s'' : KState} (h0 : Own G s) (h : Felled r Y G s G' s')
    (h' : Felled r Y G' s' G'' s'') : Felled r Y G s G'' s'' where
  frame := h.frame.trans h0.leaves h'.frame
  growth := h.growth.trans h'.growth
  use p := (h'.use p).elim (fun e => by rw [e]; exact h.use p) .inr
  free := h.free.trans h'.free

omit [Layout] in
theorem Felled.old {u : Use} (h : Felled r Y G s G' s') (hp : G'.use p = u) (hu : u ≠ .free) :
    G.use p = u := by
  rcases h.use p with e | e
  · rw [← e, hp]
  · exact absurd (hp.symm.trans e) hu

/-- **Freeing a bare table page** and clearing the entry that pointed to it. -/
theorem freeChild (h : Own G s) (hP : Parent G.use t j (G.use c)) (hB : Bare G s.mem c)
    (hr : (G.use c).Within (allOf r)) :
    ∃ s', (kfree c >>= fun _ => writePte (t + 8 * j) 0#64) s = .ok ((), s') ∧
      Own (G.setUse c .free) s' ∧ Felled r Y G s (G.setUse c .free) s' := by
  have hpa : IsPage c := h.isPage hP.kernel.1.1
  have ht : IsPage t := h.isPage fun e => by simpa [e, Use.IsTable] using hP.table
  have h1 := h.unlink hP hB
  have hF1 : Frame (allOf r) (insert c Y) G (G.setUse c .held) s _ :=
    Frame.unlink h hP hB (fun r' q v e => by rw [e] at hr; exact hr) (Set.mem_insert c Y)
  obtain ⟨s', e, h2, hF2, hfl⟩ := kfree_held (X := allOf r) h1 setUse_self
  rw [setUse_setUse] at h2 hF2
  have hb1 := hpa.bounds
  have hb2 := ht.bounds
  have hj := hP.1
  have htc := hP.ne
  rw [kfree_writePte hpa (by omega)]
  refine ⟨s', e, h2, (hF1.trans h.leaves (hF2.mono subset_rfl (by simp))).drop ?_ ?_ fun _ =>
    Iff.rfl, Growth.setUse hr trivial, fun p => ?_, by rw [hfl]; exact Nat.le_succ _⟩
  · rcases hP.2 with ⟨-, e⟩ | ⟨_, _, -, e⟩ <;> simp [e, Use.Stays]
  · simp [Use.Stays]
  · by_cases e : p = c
    · exact .inr (by rw [e, setUse_self])
    · exact .inl (setUse_ne e)

theorem Own.bare_low (h : Own G s) (hU : Unmapped G r) {q : Nat} (hc : G.use c = .low r q) :
    Bare G s.mem c ∧ ∀ j < 512, (pteAt s.mem (c + 8 * j)).has PTE_V = false := by
  have hleaf : ∀ k < 512, (leaf s.mem r (512 * q + k)).has PTE_V = false := fun k hk => by
    have hq := h.tables.low_lt hc
    cases hV : (leaf s.mem r (512 * q + k)).has PTE_V
    · rfl
    · rcases h.leaves.only r _ (h.tables.low_root hc) (by omega)
        (Pte.ne_zero_of_has hV) with hm | hm
      · exact absurd hm (hU.maps _)
      · exact absurd hm (hU.spec _)
  refine ⟨?_, fun j hj => ?_⟩
  · unfold Bare
    rw [hc]
    exact hleaf
  · rw [← h.tables.leaf_low h.paged hc hj]
    exact hleaf j hj

omit [Layout] in
theorem Unmapped.setUse (h : Unmapped G r) {u : Use} : Unmapped (G.setUse c u) r :=
  ⟨h.maps, h.spec, h.flight⟩

/-- **`freewalk` takes the tables out**, one by one. -/
theorem Own.felling : Felling (fun G s => Own G s ∧ Unmapped G r) (Felled r Y) Ghost.use r where
  tables h := ⟨h.1.tables, h.1.paged⟩
  refl _ _ := .refl
  trans h := .trans h.1
  old := Felled.old
  leafless h hc := (h.1.bare_low h.2 hc).2
  free := by
    rintro G s t j c ⟨h, hU⟩ hP hc
    have hB : Bare G s.mem c ∧ (G.use c).Within (allOf r) := by
      rcases hc with ⟨q, hc⟩ | ⟨i, hc, hno⟩
      · exact ⟨(h.bare_low hU hc).1, by rw [hc]; rfl⟩
      · exact ⟨by rw [Bare, hc]; exact hno, by rw [hc]; exact ⟨512 * i, by omega, rfl⟩⟩
    obtain ⟨s1, e1, h1, hF1⟩ := freeChild (r := r) (Y := Y) h hP hB.1 hB.2
    exact ⟨_, s1, e1, ⟨h1, hU.setUse⟩, hF1, rfl⟩

/-- **`freewalk`** of a root without mappings gives all of its pages back. -/
theorem freewalk_spec (h : Own G s) (hr : G.use r = .root) (hU : Unmapped G r) :
    ∃ s' G', freewalk r s = .ok ((), s') ∧ Own G' s' ∧ Frame (allOf r) Y G G' s s' ∧
      Growth (allOf r) G G' ∧ G'.use r = .free ∧ s.freelist.length ≤ s'.freelist.length := by
  obtain ⟨G1, s1, e1, ⟨⟨h1, hU1⟩, ht1⟩, ⟨hF1, hT1, -, hf1⟩, hno1⟩ :=
    (Own.felling (Y := insert r Y)).root ⟨h, hU⟩ hr
  have h2 := h1.freeRoot ht1 hU1 (by rw [Bare, ht1]; exact hno1)
  obtain ⟨s3, e3, h3, hF3, hf3⟩ := kfree_held (X := allOf r) h2 setUse_self
  rw [setUse_setUse] at h3 hF3
  have hF2 : Frame (allOf r) (insert r Y) G1 (G1.setUse r .held) s1 s1 :=
    Frame.setRoot (fun v => rfl) (Set.mem_insert r Y)
  have hF := (hF1.trans h.leaves hF2).trans h.leaves (hF3.mono subset_rfl (by simp))
  refine ⟨s3, _, e1.trans e3, h3, hF.drop (by simp [hr, Use.Stays]) (by simp [Use.Stays]) fun r' =>
    ?_, hT1.trans (Growth.setUse (by rw [ht1]; trivial) trivial), setUse_self,
      hf1.trans (by rw [hf3]; exact Nat.le_succ _)⟩
  exact ⟨fun hc => absurd hc (h1.leaves.not_flight (by simp [ht1])),
    fun hc => absurd hc (h.leaves.not_flight (by simp [hr]))⟩

/-! ## `uvmfree`, `proc_freepagetable` -/

/-- **`uvmfree`** of a table whose only mappings are the user pages below `sz`. -/
theorem uvmfree_spec (sz : Nat) (h : Own G s) (hr : G.use r = .root) (hs : Spans G r (npages sz))
    (hsp : ∀ v, (r, v) ∉ G.spec) (hf : ∀ pa, (r, pa) ∉ G.flight) :
    ∃ s' G', uvmfree r sz s = .ok ((), s') ∧ Own G' s' ∧ Frame (allOf r) ∅ G G' s s' ∧
      Growth (allOf r) G G' ∧ G'.use r = .free ∧ s.freelist.length ≤ s'.freelist.length := by
  have hle := h.spans_le hs
  have hsz : sz ≤ 4096 * 32768 := by unfold npages at hle; omega
  unfold uvmfree
  by_cases hz : sz > 0
  · obtain ⟨s1, G1, e1, h1, hF1, hT1, hm1, hf1⟩ := uvmunmap_spec (Y := ∅) (v := 0)
      (k := npages sz) h (fun w _ hw => (hs w).2 (by omega)) (by omega)
    have hF1' : Frame (allOf r) ∅ G G1 s s1 := hF1.mono (fun y hy => hy.1) subset_rfl
    -- above the user pages nothing changed
    have hU : Unmapped G1 r := by
      refine ⟨fun v hv => ?_, fun v hv => ?_, fun pa hpa => ?_⟩
      · obtain ⟨h2, h3⟩ := (hm1 v).1 hv
        have := (hs v).1 h2
        omega
      · have hlt := (h1.leaves.spec_lt r v hv).1
        exact hsp v ((hF1.spec r v fun hx => by have := hx.2.2; omega).1 hv)
      · exact hf pa ((hF1.flight r pa (Set.notMem_empty _)).1 hpa)
    have hr1 : G1.use r = .root := (hF1.root r (npages sz) fun hx => by have := hx.2.2; omega).2 hr
    obtain ⟨s2, G2, e2, h2, hF2, hT2, hu2, hf2⟩ := freewalk_spec (Y := ∅) h1 hr1 hU
    refine ⟨s2, G2, ?_, h2, hF1'.trans h.leaves hF2, (hT1.mono (Set.empty_subset _)).trans hT2, hu2,
      hf1.trans hf2⟩
    have hn : PGROUNDUP sz / PGSIZE = npages sz := by
      rw [PGROUNDUP_npages (by omega), PGSIZE_eq]
      omega
    rw [if_pos hz, hn, bind_ok e1]
    exact e2
  · have hz0 : npages sz = 0 := by unfold npages; omega
    obtain ⟨s2, G2, e2, h2, hF2, hT2, hu2, hf2⟩ := freewalk_spec (Y := ∅) h hr
      ⟨fun v hv => by have := (hs v).1 hv; omega, hsp, hf⟩
    refine ⟨s2, G2, ?_, h2, hF2, hT2, hu2, hf2⟩
    rw [if_neg hz]
    exact e2

/-- Removing one of the two special mappings. -/
theorem unmap_spec (h : Own G s) (hs : (r, v) ∈ G.spec) :
    ∃ s', uvmunmap r (4096 * v) 1 false s = .ok ((), s') ∧ Own (G.delSpec r v) s' ∧
      Frame {(r, v)} Y G (G.delSpec r v) s s' ∧ s'.freelist = s.freelist := by
  have hlt := h.leaves.spec_lt r v hs
  have hV := h.leaves.spec_V r v hs
  have hR := h.leaves.spec_R r v hs
  obtain ⟨a, ha⟩ : ∃ a, leafAddr s.mem r v = some a := by
    have hV' := hV
    unfold leaf at hV'
    split at hV'
    · exact ⟨_, by assumption⟩
    · simp at hV'
  have hw := walk_page (show v < 2 ^ 26 by omega) ha false
  refine ⟨{ s with mem := setPte s.mem a 0#64 }, ?_, h.delSpec hs ha rfl,
    Frame.delSpec h hs ha rfl, rfl⟩
  have hk : ((4096 * v + 1 * PGSIZE) % 2 ^ 64 - 4096 * v) / PGSIZE = 1 := by
    rw [PGSIZE_eq]
    omega
  rw [uvmunmap, if_neg (by simp), hk, uvmunmapLoop, bind_ok hw]
  simp only
  rw [readPte_bind, leaf_of_addr ha,
    if_neg (by simp [hV]), if_neg fun e => ?_]
  · rfl
  · have := Pte.has_R_FLAGS (p := leaf s.mem r v)
    rw [e, hR] at this
    simp at this

/-- The page numbers of `TRAMPOLINE` and `TRAPFRAME`. -/
def trampolinePage : Nat := 2 ^ 26 - 1
def trapframePage : Nat := 2 ^ 26 - 2

omit [Layout] in
theorem TRAMPOLINE_page : TRAMPOLINE = 4096 * trampolinePage := by
  simp [trampolinePage]
omit [Layout] in
theorem TRAPFRAME_page : TRAPFRAME = 4096 * trapframePage := by
  simp [trapframePage]

/-- The special mappings of a process's page table. -/
def SpecFull (G : Ghost) (r : Nat) : Prop :=
  (r, trampolinePage) ∈ G.spec ∧ (r, trapframePage) ∈ G.spec

theorem Own.spec_cases (h : Own G s) (hs : (r, v) ∈ G.spec) :
    v = trampolinePage ∨ v = trapframePage := by
  have := h.leaves.spec_lt r v hs
  unfold trampolinePage trapframePage
  omega

/-- **`proc_freepagetable`.** -/
theorem procFreepagetable_spec {sz : Nat} (h : Own G s) (hr : G.use r = .root)
    (hs : Spans G r (npages sz)) (hsp : SpecFull G r) (hf : ∀ pa, (r, pa) ∉ G.flight) :
    ∃ s' G', procFreepagetable r sz s = .ok ((), s') ∧ Own G' s' ∧ Frame (allOf r) ∅ G G' s s' ∧
      Growth (allOf r) G G' ∧ G'.use r = .free ∧ s.freelist.length ≤ s'.freelist.length := by
  have hone : ∀ v, ({(r, v)} : Set (Nat × Nat)) ⊆ allOf r := fun v => by
    rintro y rfl
    rfl
  obtain ⟨s1, e1, h1, hF1, hf1⟩ := unmap_spec (Y := ∅) h hsp.1
  have hsp1 : (r, trapframePage) ∈ (G.delSpec r trampolinePage).spec :=
    Finset.mem_erase.2 ⟨by simp [trapframePage, trampolinePage], hsp.2⟩
  obtain ⟨s2, e2, h2, hF2, hf2⟩ := unmap_spec (Y := ∅) h1 hsp1
  obtain ⟨s3, G3, e3, h3, hF3, hT3, hu3, hf3⟩ := uvmfree_spec sz h2 hr hs (fun v hv => by
    rcases h2.spec_cases hv with rfl | rfl <;> simp [trapframePage, trampolinePage] at hv) hf
  refine ⟨s3, G3, ?_, h3, ((hF1.mono (hone _) subset_rfl).trans h.leaves
    (hF2.mono (hone _) subset_rfl)).trans h.leaves hF3, hT3, hu3, ?_⟩
  · rw [procFreepagetable, TRAMPOLINE_page, TRAPFRAME_page, bind_ok e1, bind_ok e2]
    exact e3
  · rw [← hf1, ← hf2]
    exact hf3

end Xv6
