import Xv6.Vm.Inv

/-!
# Vm/Slot — page tables and slots of processes

`proc_pagetable`, `freeproc` and `allocproc`: every exit of `allocproc` leaves either a slot with a
trapframe and an empty address space, or the process table and the memory as they were.
-/

namespace Xv6

open Act Bytes Function Set Ghost

variable [Layout] {T : Transit} {G G' : Ghost} {s s' : KState} {r v c p pa : Nat} {x : Pte}
  {X : Set (Nat × Nat)} {Y : Set Nat}

/-! ## `proc_pagetable` -/

/-- A root that was not there before and is gone after drops out of the view. -/
theorem View.dropRoot (hV : View (allOf c ∪ X) Y G G' s.mem s'.mem) (h : Own G s) (h' : Own G' s')
    (hc : G.use c ≠ .root) (hc' : G'.use c ≠ .root) : View X Y G G' s.mem s'.mem := by
  have hU := h.unmapped hc
  have hU' := h'.unmapped hc'
  have hne : ∀ {r v}, r ≠ c → (r, v) ∉ X → (r, v) ∉ allOf c ∪ X := fun hr hX hx => hx.elim hr hX
  exact
    { root := fun r v hx => by
        by_cases e : r = c
        · subst e; simp [hc, hc']
        · exact hV.root r v (hne e hx)
      maps := fun r v hx => by
        by_cases e : r = c
        · subst e; simp [hU.maps, hU'.maps]
        · exact hV.maps r v (hne e hx)
      leaf := fun r v hx hr hv => hV.leaf r v (hne (fun e => hc (e ▸ hr)) hx) hr hv
      bytes := fun r v hx hm => hV.bytes r v (hne (fun e => hU.maps v (e ▸ hm)) hx) hm
      keep := hV.keep }

/-- …and out of the frame. -/
theorem Frame.dropRoot (hF : Frame (allOf c ∪ X) Y G G' s s') (h : Own G s) (h' : Own G' s')
    (hc : G.use c ≠ .root) (hc' : G'.use c ≠ .root) : Frame X Y G G' s s' := by
  have hV := hF.view.dropRoot h h' hc hc'
  refine ⟨{ hF.toShape with
    root := hV.root, maps := hV.maps, spec := fun r v hx => ?_, leaf := hV.leaf }, hV.bytes⟩
  by_cases e : r = c
  · subst e
    simp [(h.unmapped hc).spec, (h'.unmapped hc').spec]
  · exact hF.spec r v fun hx' => hx'.elim e hx

/-- …and its pages are in no tree at either end. -/
theorem Growth.dropRoot (hT : Growth (allOf c) G G') (h : Own G s) (h' : Own G' s')
    (hc : G.use c ≠ .root) (hc' : G'.use c ≠ .root) : Growth ∅ G G' := by
  have hout : ∀ {G : Ghost} {s : KState} {p : Nat}, Own G s → G.use c ≠ .root →
      (G.use p).Within (allOf c) → (G.use p).Within ∅ := by
    intro G s p h hc hw
    cases hu : G.use p with
    | mid r i =>
      rw [hu] at hw
      obtain ⟨q, -, e⟩ := hw
      obtain rfl : r = c := e
      exact absurd (h.tables.mid_parent p r i hu).2.1 hc
    | low r q =>
      rw [hu] at hw
      obtain rfl : r = c := hw
      exact absurd (h.tables.low_root hu) hc
    | _ => trivial
  exact fun p => (hT p).imp_right fun ⟨h1, h2⟩ => ⟨hout h hc h1, hout h' hc' h2⟩

omit [Layout] in
theorem singleton_allOf : ({(r, v)} : Set (Nat × Nat)) ⊆ allOf r := by
  rintro y rfl
  rfl

/-- The number of the last level-0 page, where both special mappings are. -/
def topLow : Nat := 2 ^ 17 - 1

/-- Adding one special mapping to a table under construction. -/
theorem map_special (h : Own G s) (hr : G.use r = .root)
    (hv : v = trampolinePage ∨ v = trapframePage) (hs : (r, v) ∉ G.spec) (hR : x.has PTE_R = true)
    (hU : x.has PTE_U = false) (hC : x.has PTE_RSW_COW = false) (pa : Nat) :
    (∃ s1 G1, mappages r (4096 * v) PGSIZE pa x s = .ok (-1, s1) ∧ Own G1 s1 ∧ Frame ∅ ∅ G G1 s s1 ∧
      Growth {(r, topLow)} G G1 ∧ s.freelist.length ≤ 1) ∨
    ∃ s1 G1, mappages r (4096 * v) PGSIZE pa x s = .ok (0, s1) ∧ Own G1 s1 ∧
      Frame {(r, v)} ∅ G G1 s s1 ∧ Growth {(r, topLow)} G G1 ∧ (r, v) ∈ G1.spec ∧
      s.freelist.length ≤ s1.freelist.length + 2 := by
  have hlt : 2 ^ 26 - 2 ≤ v ∧ v < 2 ^ 26 := by
    unfold trampolinePage trapframePage at hv
    omega
  have hdiv : 4096 * v / 4096 = v := Nat.mul_div_cancel_left v (by decide)
  have htop : v / 512 = topLow := by unfold topLow; omega
  have hm : (r, v) ∉ G.maps := fun hc => by have := h.leaves.map_lt r v hc; omega
  rcases mappages_page (X := ∅) (Y := ∅) (x := x) h hr (Nat.mul_mod_right 4096 v)
    (by rw [MAXVA_eq]; omega) (by rwa [hdiv]) (by rwa [hdiv]) pa with
    ⟨s1, G1, e1, h1, hF, hT, hf⟩ | ⟨a, s1, G1, e1, h1, hF, hT, ha, hf⟩
  · rw [hdiv, htop] at hT
    exact .inl ⟨s1, G1, e1, h1, hF, hT, hf⟩
  · rw [hdiv] at ha hT
    rw [htop] at hT
    have hr1 : G1.use r = .root := (hF.root r 0 (notMem_empty _)).2 hr
    refine .inr ⟨_, _, e1, h1.addSpec hr1 hlt ha (by simp) (by simp [hR]) (by simp [hU])
      (by simp [hC]), (hF.mono (empty_subset _) subset_rfl).trans h.leaves
        (Frame.addSpec h1 hr1 (by omega) ha (mem_singleton _)), hT.trans (Growth.of_use rfl),
        Finset.mem_insert_self _ _, hf⟩

/-- **`uvmcreate`.** -/
theorem uvmcreate_spec (h : Own G s) :
    (uvmcreate s = .ok (0, s) ∧ s.freelist = []) ∨
    ∃ c s1, uvmcreate s = .ok (c, s1) ∧ c ≠ 0 ∧ G.use c = .free ∧ Own (G.setUse c .root) s1 ∧
      Frame (allOf c) Y G (G.setUse c .root) s s1 ∧ s.freelist.length = s1.freelist.length + 1 := by
  rcases zalloc_spec (α := Nat) (X := ∅) (e := pure 0) (f := pure) h with
    ⟨hnil, e⟩ | ⟨c, s1, e, hpc, hfree, h1, hF1, hz, hfl, -⟩
  · exact .inl ⟨e, hnil⟩
  · have hb := hpc.bounds
    have h2 := h1.newRoot setUse_self hz
    have hF2 : Frame (allOf c) (insert c Y) (G.setUse c .held)
        ((G.setUse c .held).setUse c .root) s1 s1 :=
      Frame.setRoot (fun v => rfl) (mem_insert c Y)
    rw [setUse_setUse] at h2 hF2
    refine .inr ⟨c, s1, e, by omega, hfree, h2, ((hF1.mono (empty_subset _) (by simp)).trans
      h.leaves hF2).drop (by simp [hfree, Use.Stays]) (by simp [Use.Stays]) fun _ => Iff.rfl, ?_⟩
    rw [hfl, List.length_cons]

/-- A table that was made and given up leaves no trace. -/
theorem giveUp (h : Own G s) (hc : G.use c = .free) (h' : Own G' s') (hr : G'.use c = .root)
    (hF : Frame (allOf c) ∅ G G' s s') (hT : Growth (allOf c) G G') (hs : Spans G' c 0)
    (hsp : ∀ v, (c, v) ∉ G'.spec) (hf : ∀ pa, (c, pa) ∉ G.flight) :
    ∃ s1 G1, uvmfree c 0 s' = .ok ((), s1) ∧ Own G1 s1 ∧ Frame ∅ ∅ G G1 s s1 ∧ Growth ∅ G G1 := by
  obtain ⟨s1, G1, e1, h1, hF1, hT1, hu1, -⟩ := uvmfree_spec 0 h' hr hs hsp fun pa hc =>
    hf pa ((hF.flight c pa (notMem_empty _)).1 hc)
  exact ⟨s1, G1, e1, h1,
    ((hF.trans h.leaves hF1).mono subset_union_left subset_rfl).dropRoot h h1 (by simp [hc])
      (by simp [hu1]), (hT.trans hT1).dropRoot h h1 (by simp [hc]) (by simp [hu1])⟩

/-- **`proc_pagetable`.** -/
theorem procPagetable_spec (h : Own G s) (p : Nat) :
    ∃ ret s' G', procPagetable p s = .ok (ret, s') ∧ Own G' s' ∧
      ((ret = 0 ∧ Frame ∅ ∅ G G' s s' ∧ Growth ∅ G G' ∧ s.freelist.length ≤ 5) ∨
        (ret ≠ 0 ∧ G.use ret = .free ∧ Frame (allOf ret) ∅ G G' s s' ∧ Growth {(ret, topLow)} G G' ∧
          G'.use ret = .root ∧ Spans G' ret 0 ∧ SpecFull G' ret ∧
          s.freelist.length ≤ s'.freelist.length + 5)) := by
  unfold procPagetable
  rcases uvmcreate_spec (Y := ∅) h with ⟨e, hnil⟩ | ⟨c, s1, e, hc0, hfree, h1, hF1, hfl⟩
  · exact ⟨0, s, G, by rw [bind_ok e]; rfl, h,
      .inl ⟨rfl, Frame.refl .., Growth.refl _ _, by simp [hnil]⟩⟩
  rw [bind_ok e, if_neg hc0, TRAMPOLINE_page, TRAPFRAME_page]
  have hr1 : (G.setUse c .root).use c = .root := setUse_self
  have hT1 : Growth {(c, topLow)} G (G.setUse c .root) :=
    Growth.setUse (by rw [hfree]; trivial) trivial
  have hU := h.unmapped (r := c) (by simp [hfree])
  -- the first mapping
  rcases map_special (x := PTE_R ||| PTE_X) h1 hr1 (.inl rfl) (hU.spec _) (by simp) (by simp)
    (by simp) trampoline with ⟨s2, G2, e2, h2, hF2, hT2, hf2⟩ | ⟨s2, G2, e2, h2, hF2, hT2, hs2, hf2⟩
  · have hm2 : ∀ r v, (r, v) ∈ G2.maps ↔ (r, v) ∈ G.maps := fun r v =>
      hF2.maps r v (notMem_empty _)
    obtain ⟨s3, G3, e3, h3, hF3, hT3⟩ := giveUp h hfree h2
      ((hF2.root c 0 (notMem_empty _)).2 hr1)
      (hF1.trans h.leaves (hF2.mono (empty_subset _) subset_rfl))
      ((hT1.trans hT2).mono singleton_allOf) (fun v => by rw [hm2]; simp [hU.maps])
      (fun v hv => hU.spec v ((hF2.spec c v (notMem_empty _)).1 hv)) hU.flight
    exact ⟨0, s3, G3, by rw [bind_ok e2, if_pos (by decide), bind_ok e3]; rfl, h3,
      .inl ⟨rfl, hF3, hT3, by omega⟩⟩
  rw [bind_ok e2, if_neg (by decide), getProc_bind]
  have hF12 := hF1.trans h.leaves (hF2.mono singleton_allOf subset_rfl)
  have hr2 : G2.use c = .root := h2.leaves.spec_root c _ hs2
  have hm2 : ∀ v, (c, v) ∉ G2.maps := fun v hv => by
    by_cases e : v = trampolinePage
    · have := h2.leaves.map_lt c v hv
      unfold trampolinePage at e
      omega
    · exact hU.maps v ((hF2.maps c v (by simp [e])).1 hv)
  have hsp2 : ∀ v, v ≠ trampolinePage → (c, v) ∉ G2.spec := fun v hne hv =>
    hU.spec v ((hF2.spec c v (by simp [hne])).1 hv)
  rcases map_special (x := PTE_R ||| PTE_W) h2 hr2 (.inr rfl)
    (hsp2 _ (by simp [trapframePage, trampolinePage])) (by simp) (by simp) (by simp)
    (s2.procs p).trapframe with
    ⟨s3, G3, e3, h3, hF3, hT3, hf3⟩ | ⟨s3, G3, e3, h3, hF3, hT3, hs3, hf3⟩
  · have hs3 : (c, trampolinePage) ∈ G3.spec := (hF3.spec c _ (notMem_empty _)).2 hs2
    obtain ⟨s4, e4, h4, hF4, -⟩ := unmap_spec (Y := ∅) h3 hs3
    obtain ⟨s5, G5, e5, h5, hF5, hT5⟩ := giveUp h hfree h4
      ((hF3.root c 0 (notMem_empty _)).2 hr2)
      ((hF12.trans h.leaves (hF3.mono (empty_subset _) subset_rfl)).trans h.leaves
        (hF4.mono singleton_allOf subset_rfl))
      ((((hT1.trans hT2).trans hT3).trans (Growth.of_use rfl)).mono singleton_allOf)
      (fun v => by
        rw [delSpec_maps, hF3.maps c v (notMem_empty _)]
        simp [hm2])
      (fun v hv => by
        obtain ⟨h6, h7⟩ := Finset.mem_erase.1 hv
        exact hsp2 v (fun e => h6 (by rw [e])) ((hF3.spec c v (notMem_empty _)).1 h7))
      hU.flight
    exact ⟨0, s5, G5, by rw [bind_ok e3, if_pos (by decide), bind_ok e4, bind_ok e5]; rfl, h5,
      .inl ⟨rfl, hF5, hT5, by omega⟩⟩
  · refine ⟨c, s3, G3, by rw [bind_ok e3, if_neg (by decide)]; rfl, h3, .inr ⟨hc0, hfree,
      hF12.trans h.leaves (hF3.mono singleton_allOf subset_rfl), (hT1.trans hT2).trans hT3,
      h3.leaves.spec_root c _ hs3, fun v => ⟨fun hv => ?_, fun hv => absurd hv (by omega)⟩,
      ⟨?_, hs3⟩, by omega⟩⟩
    · by_cases e : v = trapframePage
      · have := h3.leaves.map_lt c v hv
        unfold trapframePage at e
        omega
      · exact absurd ((hF3.maps c v (by simp [e])).1 hv) (hm2 v)
    · exact (hF3.spec c _ (by simp [trapframePage, trampolinePage])).2 hs2

/-! ## `freeproc` -/

/-- Slots in transit do without the slot rules. -/
def Transit.addSlot (T : Transit) (p : Nat) : Transit := { T with slots := insert p T.slots }
def Transit.delSlot (T : Transit) (p : Nat) : Transit := { T with slots := T.slots \ {p} }

section

variable (h : KInv T G s)

include h

/-- **The trapframe of a slot in transit changes**: one page gets another use. -/
theorem KInv.retrap (hp : p < NPROC) (hT : p ∈ T.slots) {w : Use} {t : Nat}
    (ho : Own (G.setUse pa w) s') (hk : s'.kheld = s.kheld)
    (hu : G.use pa ≠ .root ∧ G.use pa ≠ .held) (hw : w ≠ .root ∧ w ≠ .held)
    (htrap : ∀ c q, (G.setUse pa w).use c = .trap q ↔
      (q = p ∧ t = c ∧ c ≠ 0) ∨ (q ≠ p ∧ G.use c = .trap q)) :
    KInv T (G.setUse pa w)
    { s' with procs := update s.procs p { s.procs p with trapframe := t } } := by
  have hsame : ∀ {u c}, G.use pa ≠ u → w ≠ u → ((G.setUse pa w).use c = u ↔ G.use c = u) := by
    intro u c hu hw
    by_cases hc : c = pa
    · subst hc
      rw [setUse_self]
      exact iff_of_false hw hu
    · rw [setUse_ne hc]
  refine h.change hp ho.setProcs rfl h.flight (fun _ _ _ _ _ => Iff.rfl) (fun _ _ _ _ _ => Iff.rfl)
    (fun r => (hsame hu.1 hw.1).trans (h.root_split hp r)) (fun q hq _ => h.roots q hq)
    (h.roots p hp) (fun h0 => ⟨fun q hq hqp e => hqp (h.inj q p hq hp e (by rw [e]; exact h0)),
      h.spans p hp h0, h.spec p hp h0⟩) htrap (fun c => (hsame hu.2 hw.2).trans ?_)
    (by rw [hk]; exact h.pages) (by rw [hk]; exact h.nodup) (fun q _ _ hq => hq)
    (fun hc => absurd hT hc) (fun hc => absurd hT hc)
  show _ ↔ _ ∈ s'.kheld ∨ _
  rw [hk]
  exact h.held c

/-- The trapframe of a slot in transit is freed. -/
theorem freeTrapframe (hp : p < NPROC) (hT : p ∈ T.slots) (hne : (s.procs p).trapframe ≠ 0) :
    ∃ s' G', kfree (s.procs p).trapframe s = .ok ((), s') ∧
      KInv T G' { s' with
        procs := update s'.procs p { s'.procs p with trapframe := 0 } } ∧
      Frame ∅ {(s.procs p).trapframe} G G' s s' ∧ Growth ∅ G G' ∧
      s.freelist.length ≤ s'.freelist.length := by
  have hu : G.use (s.procs p).trapframe = .trap p := (h.trap _ _).2 ⟨hp, rfl, hne⟩
  have h1 := h.own.retype (w := .held) (.inr ⟨p, hu⟩) (.inl rfl)
  have hF1 : Frame ∅ {(s.procs p).trapframe} G (G.setUse (s.procs p).trapframe .held) s s :=
    Frame.retype (.inr ⟨p, hu⟩) (.inl rfl) (mem_singleton _)
  obtain ⟨s2, e2, h2, hF2, hfl⟩ := kfree_held (X := ∅) h1 setUse_self
  rw [setUse_setUse] at h2 hF2
  have hF := hF1.trans h.own.leaves hF2
  refine ⟨s2, _, e2, ?_, hF, Growth.setUse (by rw [hu]; trivial)
    trivial, by rw [hfl]; exact Nat.le_succ _⟩
  rw [hF.procs]
  refine h.retrap hp hT h2 hF.kheld (by rw [hu]; exact ⟨nofun, nofun⟩) ⟨nofun, nofun⟩ fun pa q => ?_
  by_cases hpa : pa = (s.procs p).trapframe
  · subst hpa
    rw [setUse_self, hu]
    constructor
    · nofun
    · rintro (⟨-, h3, h4⟩ | ⟨h3, h4⟩)
      · exact absurd h3.symm hne
      · exact absurd (Use.trap.inj h4).symm h3
  · rw [setUse_ne hpa]
    constructor
    · intro h3
      refine .inr ⟨fun hqp => ?_, h3⟩
      subst hqp
      exact hpa ((h.trap pa q).1 h3).2.1.symm
    · rintro (⟨-, h3, h4⟩ | ⟨-, h3⟩)
      · exact absurd h3.symm h4
      · exact h3

/-- The page table of a slot in transit is freed. -/
theorem freeTable (hp : p < NPROC) (hT : p ∈ T.slots)
    (hne : (s.procs p).pagetable ≠ 0) (hfl : ∀ pa, ((s.procs p).pagetable, pa) ∉ T.flight) :
    ∃ s' G', procFreepagetable (s.procs p).pagetable (s.procs p).sz s = .ok ((), s') ∧
      KInv T G' { s' with
        procs := update s'.procs p { s'.procs p with pagetable := 0, sz := 0 } } ∧
      Frame (allOf (s.procs p).pagetable) ∅ G G' s s' ∧ Growth (allOf (s.procs p).pagetable) G G' ∧
      s.freelist.length ≤ s'.freelist.length := by
  have hu := h.use_pagetable hp hne
  obtain ⟨s1, G1, e1, h1, hF, hT1, hu1, hlist⟩ := procFreepagetable_spec h.own hu (h.spans p hp hne)
    (h.spec p hp hne) fun pa => h.no_flight (hfl pa)
  have hother : ∀ q < NPROC, q ≠ p → (s.procs q).pagetable ≠ 0 → ∀ v,
      ((s.procs q).pagetable, v) ∉ allOf (s.procs p).pagetable := fun q hq hqp h0 v hx =>
    hqp (h.inj q p hq hp hx h0)
  refine ⟨s1, G1, e1, ?_, hF, hT1, hlist⟩
  rw [hF.procs]
  refine h.change hp h1.setProcs rfl (hF.flight_eq.trans h.flight)
    (fun q hq hqp h0 v => hF.maps _ v (hother q hq hqp h0 v))
    (fun q hq hqp h0 v => hF.spec _ v (hother q hq hqp h0 v))
    (fun r => ?_) (fun q hq _ => h.roots q hq) (fun hc => ?_) (fun hc => absurd rfl hc)
    (fun pa q => ?_) (fun pa => ?_) (by rw [hF.kheld]; exact h.pages)
    (by rw [hF.kheld]; exact h.nodup) (fun q _ _ hq => hq) (fun hc => absurd hT hc)
    (fun hc => absurd hT hc)
  · by_cases hr : r = (s.procs p).pagetable
    · subst hr
      have h3 : (s.procs p).pagetable ∉ T.roots := h.roots p hp
      simp [hu1, h3, hne]
    · rw [hF.root r 0 hr]
      have h0 : ¬ (r = 0 ∧ r ≠ 0) := fun hc => hc.2 hc.1
      have h1 := h.root_split hp r
      constructor
      · intro h2
        rcases h1.1 h2 with h3 | ⟨h3, -⟩ | h3
        exacts [.inl h3, absurd h3 hr, .inr (.inr h3)]
      · rintro (h3 | h3 | h3)
        exacts [h1.2 (.inl h3), absurd h3 h0, h3.1]
  · -- page 0 is not a page of the allocator
    have h3 : G.use 0 = .root := (h.root 0).2 (.inl hc)
    have h4 : IsPage 0 := h.own.isPage (by simp [h3])
    have h5 := h4.bounds
    omega
  · rw [hF.stays_iff (.inr ⟨q, rfl⟩)]
    exact h.trap_split hp pa q
  · rw [hF.stays_iff (.inl rfl)]
    show _ ↔ _ ∈ s1.kheld ∨ _
    rw [hF.kheld]
    exact h.held pa

/-- A slot that is in order leaves transit. -/
theorem KInv.leave (hu : (s.procs p).state = .unused → s.procs p = {})
    (hl : (s.procs p).state ≠ .unused → (s.procs p).pagetable ≠ 0 ∧ (s.procs p).trapframe ≠ 0) :
    KInv (T.delSlot p) G s := by
  refine { h with unused := fun q hq hT hs => ?_, live := fun q hq hT hs => ?_ } <;>
    by_cases hqp : q = p
  · subst hqp; exact hu hs
  · exact h.unused q hq (fun hc => hT ⟨hc, hqp⟩) hs
  · subst hqp; exact hl hs
  · exact h.live q hq (fun hc => hT ⟨hc, hqp⟩) hs

/-- A slot is taken in hand. -/
theorem KInv.take (p : Nat) : KInv (T.addSlot p) G s :=
  { h with
    unused := fun q hq hT => h.unused q hq fun hc => hT (.inr hc)
    live := fun q hq hT => h.live q hq fun hc => hT (.inr hc) }

/-- Fields that the memory does not depend on, of a slot in transit or of a live process. -/
theorem KInv.setFields {b : Proc} (hpt : b.pagetable = (s.procs p).pagetable)
    (htf : b.trapframe = (s.procs p).trapframe) (hsz : b.pagetable ≠ 0 → b.sz = (s.procs p).sz)
    (hst : p ∈ T.slots ∨ b.state ≠ .unused ∧ (s.procs p).state ≠ .unused) :
    KInv T G { s with procs := update s.procs p b } := by
  refine h.setProcs (fun q _ => ?_) (fun q _ => ?_) (fun q _ hne => ?_) fun q _ hq => ?_
  all_goals by_cases hqp : q = p
  · subst hqp; rwa [update_self]
  · rw [update_of_ne hqp]
  · subst hqp; rwa [update_self]
  · rw [update_of_ne hqp]
  · subst hqp; rw [update_self] at hne ⊢; exact hsz hne
  · rw [update_of_ne hqp]
  · subst hqp
    rw [update_self]
    exact .inr (hst.resolve_left hq)
  · exact .inl (update_of_ne hqp ..)

theorem KInv.setSlot (hT : p ∈ T.slots) {b : Proc}
    (hpt : b.pagetable = (s.procs p).pagetable) (htf : b.trapframe = (s.procs p).trapframe)
    (hsz : b.pagetable ≠ 0 → b.sz = (s.procs p).sz) :
    KInv T G { s with procs := update s.procs p b } := h.setFields hpt htf hsz (.inl hT)

/-- **`freeproc`.** -/
theorem freeproc_spec (hp : p < NPROC) (hT : p ∈ T.slots)
    (hfl : ∀ pa, ((s.procs p).pagetable, pa) ∉ T.flight) : ∃ s' G', freeproc p s = .ok ((), s') ∧
    KInv (T.delSlot p) G' s' ∧
      s'.procs = update s.procs p {} ∧ s'.initproc = s.initproc ∧ s'.nextpid = s.nextpid ∧
      s'.kheld = s.kheld ∧
      View (allOf (s.procs p).pagetable) {(s.procs p).trapframe} G G' s.mem s'.mem ∧
      Growth (allOf (s.procs p).pagetable) G G' ∧ s.freelist.length ≤ s'.freelist.length := by
  unfold freeproc
  rw [getProc_bind]
  -- the trapframe
  obtain ⟨s1, G1, e1, h1, hF1, hT1, hfl1⟩ : ∃ s1 G1,
      (if (s.procs p).trapframe ≠ 0 then kfree (s.procs p).trapframe else pure ())
        s = .ok ((), s1) ∧
      KInv T G1 { s1 with
        procs := update s1.procs p { s1.procs p with trapframe := 0 } } ∧
      Frame ∅ {(s.procs p).trapframe} G G1 s s1 ∧ Growth ∅ G G1 ∧
      s.freelist.length ≤ s1.freelist.length := by
    by_cases ht : (s.procs p).trapframe = 0
    · rw [if_neg (not_not.2 ht)]
      exact ⟨s, G, rfl, h.setSlot hT rfl ht.symm fun _ => rfl, Frame.refl ..,
        Growth.refl _ _, le_rfl⟩
    · rw [if_pos ht]
      exact freeTrapframe h hp hT ht
  rw [bind_ok e1, bind_ok (show setProc p _ s1 = .ok ((), _) from rfl)]
  -- the page table
  let s1' : KState := { s1 with
    procs := update s1.procs p { s1.procs p with trapframe := 0 } }
  have hp1 : s1'.procs p = { s.procs p with trapframe := 0 } := by
    show update s1.procs p _ p = _
    rw [update_self, hF1.procs]
  obtain ⟨s2, G2, e2, h2, hF2, hT2, hfl2⟩ : ∃ s2 G2,
      (if (s.procs p).pagetable ≠ 0 then procFreepagetable (s.procs p).pagetable (s.procs p).sz
        else pure ()) s1' = .ok ((), s2) ∧
      KInv T G2 { s2 with
        procs := update s2.procs p {} } ∧
      Frame (allOf (s.procs p).pagetable) ∅ G1 G2 s1' s2 ∧
        Growth (allOf (s.procs p).pagetable) G1 G2 ∧
      s1'.freelist.length ≤ s2.freelist.length := by
    by_cases ht : (s.procs p).pagetable = 0
    · rw [if_neg (not_not.2 ht)]
      refine ⟨s1', G1, rfl, ?_, Frame.refl .., Growth.refl _ _, le_rfl⟩
      exact h1.setSlot hT (by rw [hp1]; exact ht.symm) (by rw [hp1]) fun hc => absurd rfl hc
    · rw [if_pos ht]
      have h3 := freeTable h1 hp hT (by rw [hp1]; exact ht) (by rw [hp1]; exact hfl)
      rw [hp1] at h3
      obtain ⟨s2, G2, e2, h2, hF2, hT2, hfl2⟩ := h3
      have hs2 : (s2.procs p).trapframe = 0 := by
        rw [hF2.procs]
        exact congrArg Proc.trapframe hp1
      refine ⟨s2, G2, e2, ?_, hF2, hT2, hfl2⟩
      have h4 := h2.setSlot (b := {}) hT (by simp) (by simp [hs2]) (by simp)
      simpa only [update_idem] using h4
  have hs2 : (s2.procs p).trapframe = 0 := by
    rw [hF2.procs]
    exact congrArg Proc.trapframe hp1
  refine ⟨{ s2 with procs := update s2.procs p {} }, G2, ?_,
    h2.leave (fun _ => by simp) fun hc => absurd (by simp) hc, ?_, hF2.initproc.trans hF1.initproc,
    hF2.nextpid.trans hF1.nextpid, hF2.kheld.trans hF1.kheld,
    (hF1.view.mono (empty_subset _) subset_rfl).trans h.own.leaves
      (hF2.view.mono subset_rfl (empty_subset _)), (hT1.mono (empty_subset _)).trans hT2,
    hfl1.trans hfl2⟩
  · rw [bind_ok e2]
    show Except.ok ((), { s2 with
      procs := update s2.procs p { trapframe := (s2.procs p).trapframe } }) = _
    rw [hs2]
  · show update s2.procs p {} = _
    rw [hF2.procs]
    show update (update s1.procs p _) p {} = _
    rw [update_idem, hF1.procs]

end

/-! ## `allocproc` -/

omit [Layout] in
/-- A slot `findUnused` finds is free. -/
theorem findUnused_spec {k q : Nat} (e : findUnused s k p = some q) :
    q < p + k ∧ (s.procs q).state = .unused := by
  induction k generalizing p with
  | zero => exact absurd e (by simp [findUnused])
  | succ k ih =>
    unfold findUnused at e
    split at e
    · next h =>
      obtain rfl := Option.some.inj e
      exact ⟨by omega, h⟩
    · obtain ⟨h1, h2⟩ := ih e
      exact ⟨by omega, h2⟩

omit [Layout] in
/-- With a free slot at hand `findUnused` finds one. -/
theorem findUnused_none {k q : Nat} (e : findUnused s k p = none) (h1 : p ≤ q) (h2 : q < p + k) :
    (s.procs q).state ≠ .unused := by
  induction k generalizing p with
  | zero => omega
  | succ k ih =>
    unfold findUnused at e
    split at e
    · exact absurd e (by simp)
    · next h =>
      by_cases hq : q = p
      · rwa [hq]
      · exact ih e (by omega) (by omega)

omit [Layout] in
theorem Transit.del_addSlot (hp : p ∉ T.slots) : (T.addSlot p).delSlot p = T := by
  have : insert p T.slots \ {p} = T.slots := by simp [hp]
  simp only [Transit.delSlot, Transit.addSlot, this]

/-- The pid counter and `initproc` play no part. -/
theorem KInv.setNext (h : KInv T G s) {n i : Nat} :
    KInv T G { s with nextpid := n, initproc := i } :=
  { h with
    own := ⟨⟨h.own.pages.free_mem, h.own.pages.nodup, h.own.pages.page, h.own.pages.wrapped,
      h.own.pages.byte⟩, h.own.tables, h.own.leaves, h.own.ref, h.own.user_pos⟩ }

/-- A page from `kalloc` becomes the trapframe of a slot in transit. -/
theorem KInv.newTrapframe (h : KInv T G s) (hp : p < NPROC) (hT : p ∈ T.slots)
    (ht : (s.procs p).trapframe = 0) (hfree : G.use pa = .free) (hpa : pa ≠ 0)
    (ho : Own (G.setUse pa .held) s') (hF : Frame ∅ {pa} G (G.setUse pa .held) s s') :
    KInv T (G.setUse pa (.trap p)) { s' with
      procs := update s'.procs p { s'.procs p with trapframe := pa } } := by
  have h1 := ho.retype (c := pa) (w := .trap p) (.inl setUse_self) (.inr ⟨p, rfl⟩)
  rw [setUse_setUse] at h1
  rw [hF.procs]
  refine h.retrap hp hT h1 hF.kheld (by rw [hfree]; exact ⟨nofun, nofun⟩)
    ⟨nofun, nofun⟩ fun c q => ?_
  by_cases hc : c = pa
  · subst hc
    rw [setUse_self, hfree]
    simp [hpa, eq_comm]
  · have h3 : pa ≠ c := fun e => hc e.symm
    have h4 : ¬ (0 = c ∧ c ≠ 0) := fun e => e.2 e.1.symm
    have h5 := h.trap_split hp c q
    rw [ht] at h5
    rw [setUse_ne hc]
    simpa only [h3, h4, and_false, false_and, false_or] using h5

/-- A slot gets the page table `proc_pagetable` made. -/
theorem KInv.newTable (h : KInv T G s) (hp : p < NPROC) (hT : p ∈ T.slots)
    (ht : (s.procs p).pagetable = 0) (hz : (s.procs p).sz = 0) (hc0 : c ≠ 0)
    (hfree : G.use c = .free) (ho : Own G' s') (hF : Frame (allOf c) ∅ G G' s s')
    (hr : G'.use c = .root) (hs : Spans G' c 0) (hsp : SpecFull G' c) :
    KInv T G' { s' with
      procs := update s'.procs p { s'.procs p with pagetable := c } } := by
  have hne : ∀ q < NPROC, (s.procs q).pagetable ≠ 0 → (s.procs q).pagetable ≠ c :=
    fun q hq h0 e => by
    have h1 := h.use_pagetable hq h0
    rw [e, hfree] at h1
    cases h1
  have hcT : c ∉ T.roots := fun hc => by
    have h1 := (h.root c).2 (.inl hc)
    rw [hfree] at h1
    cases h1
  rw [hF.procs]
  refine h.change hp ho.setProcs rfl (hF.flight_eq.trans h.flight)
    (fun q hq _ h0 v => hF.maps _ v (hne q hq h0)) (fun q hq _ h0 v => hF.spec _ v (hne q hq h0))
    (fun r => ?_) (fun q hq _ => h.roots q hq) hcT
    (fun _ => ⟨fun q hq _ e => hne q hq (by rw [e]; exact hc0) e, ?_, hsp⟩) (fun pa q => ?_)
    (fun pa => ?_)
    (by rw [hF.kheld]; exact h.pages) (by rw [hF.kheld]; exact h.nodup) (fun q _ _ hq => hq)
    (fun hc => absurd hT hc) (fun hc => absurd hT hc)
  · by_cases hrc : r = c
    · subst hrc
      simp [hr, hc0]
    · rw [hF.root r 0 hrc]
      have h1 := h.root_split hp r
      rw [ht] at h1 ⊢
      have h2 : ¬ (r = 0 ∧ r ≠ 0) := fun e => e.2 e.1
      simpa only [h2, hrc, false_and, false_or] using h1
  · show Spans G' c (npages (s.procs p).sz)
    rw [hz]
    exact hs
  · rw [hF.stays_iff (.inr ⟨q, rfl⟩)]
    exact h.trap_split hp pa q
  · rw [hF.stays_iff (.inl rfl)]
    show _ ↔ _ ∈ s'.kheld ∨ _
    rw [hF.kheld]
    exact h.held pa

omit [Layout] in
theorem setProc_ok {f : Proc → Proc} {b : Proc} (e : s.procs p = b) :
    setProc p f s = .ok ((), { s with procs := update s.procs p (f b) }) := by
  rw [← e]
  rfl

/-- `freeproc` of a slot taken from the unused ones gives the process table back. -/
theorem freeproc_undo (h : KInv (T.addSlot p) G' s') (hp : p < NPROC) (hT : p ∉ T.slots) {b : Proc}
    (hu : s.procs p = {}) (hpr : s'.procs = update s.procs p b) (hs : KInv T G s)
    (hfree : b.pagetable ≠ 0 → G.use b.pagetable = .free)
    (htf : b.trapframe ≠ 0 → G.use b.trapframe = .free)
    (hV : View (allOf b.pagetable ∪ X) ∅ G G' s.mem s'.mem) (hW : Growth (allOf b.pagetable) G G') :
    ∃ s1 G1, freeproc p s' = .ok ((), s1) ∧ KInv T G1 s1 ∧ s1.procs = s.procs ∧
      s1.initproc = s'.initproc ∧ s1.kheld = s'.kheld ∧ View X ∅ G G1 s.mem s1.mem ∧ Growth ∅ G G1 ∧
      View (allOf b.pagetable) {b.trapframe} G' G1 s'.mem s1.mem := by
  have hb : s'.procs p = b := by rw [hpr, update_self]
  have h0 : G.use 0 = .free := by
    by_contra hc
    have h2 : IsPage 0 := hs.own.isPage hc
    have h3 := h2.bounds
    omega
  have hr : G.use b.pagetable = .free := by
    by_cases hz : b.pagetable = 0
    exacts [hz ▸ h0, hfree hz]
  have ht : G.use b.trapframe = .free := by
    by_cases hz : b.trapframe = 0
    exacts [hz ▸ h0, htf hz]
  have hfl : ∀ pa, (b.pagetable, pa) ∉ T.flight := fun pa hc => by
    have h2 := hs.own.leaves.flight_root b.pagetable pa (by rw [hs.flight]; exact hc)
    rw [hr] at h2
    cases h2
  obtain ⟨s1, G1, e1, h1, hp1, hi1, -, hk1, hV1, hW1, -⟩ := freeproc_spec h hp (mem_insert _ _)
    (by rw [hb]; exact hfl)
  rw [Transit.del_addSlot hT] at h1
  rw [hb] at hV1 hW1
  have hpr1 : s1.procs = s.procs := by
    rw [hp1, hpr, update_idem, ← hu, update_eq_self]
  have hr1 : G1.use b.pagetable ≠ .root := fun hc => by
    rcases (h1.root _).1 hc with hc | ⟨q, hq, hqe, hne⟩
    · have h2 := (hs.root _).2 (.inl hc)
      rw [hr] at h2
      cases h2
    · rw [hpr1] at hqe
      have h2 := hs.use_pagetable hq (by rw [hqe]; exact hne)
      rw [hqe, hr] at h2
      cases h2
  refine ⟨s1, G1, e1, h1, hpr1, hi1, hk1, ?_, (hW.trans hW1).dropRoot hs.own h1.own
    (by rw [hr]; simp) hr1, hV1⟩
  refine View.dropRoot
    (View.drop ?_ (show ¬ (G.use b.trapframe).Stays by rw [ht]; simp [Use.Stays])) hs.own h1.own
    (by rw [hr]; simp) hr1
  rw [insert_empty_eq]
  exact (hV.mono subset_rfl (empty_subset _)).trans hs.own.leaves
    (hV1.mono subset_union_left subset_rfl)

/-- **`allocproc`.** -/
theorem allocproc_spec (h : KInv T G s) (hslots : T.slots = ∅) :
    ∃ ret s' G', allocproc s = .ok (ret, s') ∧ KInv T G' s' ∧ s'.initproc = s.initproc ∧
    s'.kheld = s.kheld ∧
      ((ret = none ∧ s'.procs = s.procs ∧ View ∅ ∅ G G' s.mem s'.mem ∧ Growth ∅ G G' ∧
          (s.freelist.length ≤ 6 ∨ ∀ q < NPROC, (s.procs q).state ≠ .unused)) ∨
        ∃ p r tf, ret = some p ∧ p < NPROC ∧ s.procs p = {} ∧
          s'.procs = update s.procs p
            { state := .used, pid := s.nextpid, pagetable := r, trapframe := tf } ∧
          G.use r = .free ∧ G.use tf = .free ∧ View (allOf r) ∅ G G' s.mem s'.mem ∧
          Growth {(r, topLow)} G G' ∧ s.freelist.length ≤ s'.freelist.length + 6) := by
  have hpT : ∀ p, p ∉ T.slots := fun p => by rw [hslots]; exact notMem_empty p
  unfold allocproc
  rcases hfu : findUnused s NPROC 0 with - | p
  · refine ⟨none, s, G, ?_, h, rfl, rfl, .inl ⟨rfl, rfl, View.refl .., Growth.refl _ _,
      .inr fun q hq =>
      findUnused_none hfu (Nat.zero_le q) (by omega)⟩⟩
    rw [bind_ok (show gets (fun s : KState => findUnused s NPROC 0) s = .ok (none, s) from
      congrArg (fun x => Except.ok (x, s)) hfu)]
    rfl
  rw [bind_ok (show gets (fun s : KState => findUnused s NPROC 0) s = .ok (some p, s) from
    congrArg (fun x => Except.ok (x, s)) hfu)]
  obtain ⟨hp, hst⟩ := findUnused_spec hfu
  rw [Nat.zero_add] at hp
  have hempty : s.procs p = {} := h.unused p hp (hpT p) hst
  -- the slot is taken and gets its pid
  let b : Proc := { state := .used, pid := s.nextpid }
  let s1 : KState := { s with nextpid := s.nextpid + 1, procs := update s.procs p b }
  have hT : p ∈ (T.addSlot p).slots := mem_insert _ _
  have h1 : KInv (T.addSlot p) G s1 :=
    ((h.take p).setSlot (b := b) hT (by rw [hempty]) (by rw [hempty]) (by simp [b])).setNext
  have hp1 : s1.procs p = b := update_self ..
  simp only []
  rw [bind_ok (show gets (fun s : KState => s.nextpid) s = .ok (_, s) from rfl),
    bind_ok (show Act.modify (fun s : KState => { s with nextpid := s.nextpid + 1 }) s = .ok ((), _)
      from rfl), bind_ok (setProc_ok (s := { s with nextpid := s.nextpid + 1 }) hempty)]
  change ∃ ret s' G', (kalloc >>= _) s1 = _ ∧ _
  rcases kalloc_spec (X := ∅) h1.own with ⟨hnil, e⟩ | ⟨tf, s2, e, hpg, hfree, h2, hF2, hfl, -⟩
  · rw [bind_ok e]
    have hself : update s1.procs p { b with trapframe := 0 } = s1.procs :=
      (congrArg (update s1.procs p) hp1.symm).trans (update_eq_self ..)
    obtain ⟨s3, G3, e3, h3, hp3, hi3, hk3, hV3, hW3, -⟩ :=
      freeproc_undo (b := b) (X := ∅) h1 hp (hpT p) hempty rfl h (fun hc => absurd rfl hc)
        (fun hc => absurd rfl hc) (View.refl ..)
      (Growth.refl _ _)
    refine ⟨none, s3, G3, ?_, h3, hi3, hk3, .inl ⟨rfl, hp3, hV3, hW3, .inl ?_⟩⟩
    · simp only []
      rw [bind_ok (setProc_ok hp1), hself, bind_ok e3]
      rfl
    · rw [show s.freelist = [] from hnil]
      exact Nat.zero_le _
  -- the trapframe
  have htf0 : tf ≠ 0 := by
    have := hpg.bounds
    omega
  have hp2 : s2.procs p = b := by rw [hF2.procs, hp1]
  let b3 : Proc := { b with trapframe := tf }
  let s3 : KState := { s2 with procs := update s2.procs p b3 }
  have h3 : KInv (T.addSlot p) (G.setUse tf (.trap p)) s3 := by
    have := h1.newTrapframe hp hT (by rw [hp1]) hfree htf0 h2 hF2
    rwa [hp2] at this
  have hp3 : s3.procs p = b3 := update_self ..
  have hpr3 : s3.procs = update s.procs p b3 := by
    show update s2.procs p b3 = _
    rw [hF2.procs]
    exact update_idem ..
  have hV3 : View ∅ ∅ G (G.setUse tf (.trap p)) s.mem s3.mem := by
    have hF : Frame ∅ {tf} (G.setUse tf .held) ((G.setUse tf .held).setUse tf (.trap p)) s2 s2 :=
      Frame.retype (.inl setUse_self) (.inr ⟨p, rfl⟩) (mem_singleton _)
    rw [setUse_setUse] at hF
    have hV := hF2.view.trans h.own.leaves hF.view
    rw [← insert_empty_eq tf] at hV
    exact hV.drop (by simp [hfree, Use.Stays])
  have hW3 : Growth ∅ G (G.setUse tf (.trap p)) := Growth.setUse (by rw [hfree]; trivial) trivial
  have hlen : s.freelist.length = s3.freelist.length + 1 := by
    rw [show s.freelist = tf :: s3.freelist from hfl, List.length_cons]
  rw [bind_ok e]
  simp only []
  rw [bind_ok (setProc_ok hp2)]
  change ∃ ret s' G', (procPagetable p >>= _) s3 = _ ∧ _
  -- the page table
  obtain ⟨c, s4, G4, e4, h4, hres⟩ := procPagetable_spec h3.own p
  rw [bind_ok e4]
  rcases hres with ⟨rfl, hF4, hW4, hf4⟩ | ⟨hc0, hcfree, hF4, hW4, hr4, hs4, hsp4, hf4⟩
  · have hp4 : s4.procs p = b3 := by rw [hF4.procs, hp3]
    have hself : update s4.procs p { b3 with pagetable := 0 } = s4.procs :=
      (congrArg (update s4.procs p) hp4.symm).trans (update_eq_self ..)
    have h4' : KInv (T.addSlot p) G4 s4 := h3.keepSize h4 hF4.toShape
      (fun _ _ hx => absurd hx (notMem_empty _))
      (Finset.ext fun x => hF4.maps x.1 x.2 (notMem_empty _))
    obtain ⟨s5, G5, e5, h5, hp5, hi5, hk5, hV5, hW5, -⟩ :=
      freeproc_undo (b := b3) (X := ∅) h4' hp (hpT p) hempty (hF4.procs.trans hpr3) h
        (fun hc => absurd rfl hc) (fun _ => hfree)
      ((hV3.trans h.own.leaves hF4.view).mono (empty_subset _) subset_rfl)
      ((hW3.trans hW4).mono (empty_subset _))
    refine ⟨none, s5, G5, ?_, h5, (hi5.trans hF4.initproc).trans hF2.initproc,
      (hk5.trans hF4.kheld).trans hF2.kheld,
      .inl ⟨rfl, hp5, hV5, hW5, .inl (by omega)⟩⟩
    rw [bind_ok (setProc_ok hp4), hself, if_pos rfl, bind_ok e5]
    rfl
  · have hp4 : s4.procs p = b3 := by rw [hF4.procs, hp3]
    have hctf : c ≠ tf := by
      rintro rfl
      rw [setUse_self] at hcfree
      cases hcfree
    have h5 := h3.newTable hp hT (by rw [hp3]) (by rw [hp3]) hc0 hcfree h4 hF4 hr4 hs4 hsp4
    rw [hp4] at h5
    have h6 := h5.leave (p := p) (fun hu => by simp [b3, b] at hu) fun _ => by simp [b3, hc0, htf0]
    rw [Transit.del_addSlot (hpT p)] at h6
    refine ⟨some p, _, G4, ?_, h6, hF4.initproc.trans hF2.initproc, hF4.kheld.trans hF2.kheld,
      .inr ⟨p, c, tf, rfl, hp, hempty, ?_, ?_, hfree, ?_, (hW3.mono (empty_subset _)).trans
      hW4, by show _ ≤ s4.freelist.length + _; omega⟩⟩
    · rw [bind_ok (setProc_ok hp4), if_neg hc0]
      rfl
    · show update s4.procs p _ = _
      rw [hF4.procs, hpr3]
      exact update_idem ..
    · rwa [setUse_ne hctf] at hcfree
    · exact (hV3.mono (empty_subset _) subset_rfl).trans h.own.leaves hF4.view

end Xv6
