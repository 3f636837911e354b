import Xv6.Vm.Calls

/-!
# Vm/Boot — the first process, and the pages other kernel code takes

`userinit` runs once, with plenty of memory; `uvmfirst` does not look at what `kalloc` and
`mappages` return, so this is a precondition.  `kinit` starts with every page on the free list.
-/

namespace Xv6

open Act Bytes Function List Set Ghost

variable [Layout] {T : Transit} {G G' : Ghost} {s s' : KState} {r v c p pa : Nat}
  {X : Set (Nat × Nat)} {Y : Set Nat}

/-! ## `userinit` -/

/-- **`uvmfirst`** with memory for a page and two tables. -/
theorem uvmfirst_spec (src : List UInt8) (h : Own G s) (hr : G.use r = .root) (hs : Spans G r 0)
    (hlen : src.length < 4096) (hmem : 3 ≤ s.freelist.length) :
    ∃ s' G', uvmfirst r src s = .ok ((), s') ∧ Own G' s' ∧ Frame {(r, 0)} ∅ G G' s s' ∧
      Growth {(r, 0)} G G' ∧ Spans G' r 1 ∧ (leaf s'.mem r 0).has PTE_W = true ∧
      (leaf s'.mem r 0).has PTE_U = true ∧ (leaf s'.mem r 0).has PTE_RSW_COW = false ∧
      Sole G' s'.mem r 0 ∧ (∀ o < 4096, s'.mem (PTE2PA (leaf s'.mem r 0) + o) = src.getD o 0) ∧
      s.freelist.length ≤ s'.freelist.length + 3 := by
  have hperm : PTE_W ||| PTE_R ||| PTE_X ||| PTE_U = PTE_R ||| PTE_U ||| (PTE_W ||| PTE_X) := by
    decide +kernel
  unfold uvmfirst
  rw [if_neg (by rw [PGSIZE_eq]; omega), hperm]
  rcases zalloc_spec (α := Unit) (X := ∅) (e := stop .kerneltrap) (f := fun mem => do
      let _ ← mappages r 0 PGSIZE mem (PTE_R ||| PTE_U ||| (PTE_W ||| PTE_X))
      memput mem src) h with
    ⟨hnil, -⟩ | ⟨c, s1, e, hpc, hfree, h1, hF1, hz, hfl, -⟩
  · rw [hnil] at hmem
    simp at hmem
  have hlen1 : s.freelist.length = s1.freelist.length + 1 := by rw [hfl, length_cons]
  have hrc : r ≠ c := by rintro rfl; simp [hr] at hfree
  rcases alloc_page (v := 0) (x := PTE_W ||| PTE_X) h1 hs (by rw [setUse_ne hrc]; exact hr)
    setUse_self hz (Pte.isFlags_W.or Pte.isFlags_X) with
    ⟨s2, G2, e2, h2, hF2, hT2, hf2⟩ | ⟨s2, G2, e2, h2, hF2, hT2, hs2, hu2, hfl2, hpage, hfresh, hf2⟩
  · omega
  have htab : ¬ (G2.use c).IsTable := by simp [hu2, Use.IsTable]
  have hm2 : (r, 0) ∈ G2.maps := (hs2 0).2 (by omega)
  let s3 : KState := { s2 with mem := put s2.mem c src }
  have h3 : Own G2 s3 := h2.overlay hpc htab le_rfl (by omega)
  have hF3 : Frame {(r, 0)} {c} G2 G2 s2 s3 :=
    Frame.overlay h2 hpc htab le_rfl (by omega)
      (fun r' w hw e => by
        obtain ⟨rfl, rfl⟩ := hfresh.sole r' w hw (e.trans hpage.symm)
        rfl) fun _ => Set.mem_singleton c
  have hlf : ∀ r' w, (r', w) ∈ G2.maps → leaf s3.mem r' w = leaf s2.mem r' w := fun r' w hw =>
    (Shape.overlay (X := ∅) (Y := {c}) h2 hpc htab le_rfl (by omega) fun _ => Set.mem_singleton
      c).leaf_map h2 hw (notMem_empty _)
  have hF : Frame {(r, 0)} (insert c ∅) G G2 s s3 := by
    rw [insert_empty_eq]
    exact ((hF1.mono (empty_subset _) subset_rfl).trans h.leaves hF2).trans h.leaves hF3
  obtain ⟨pa, hent⟩ := hfresh.entry
  have hT1 : Growth {(r, 0)} G (G.setUse c .held) := Growth.setUse (by rw [hfree]; trivial) trivial
  refine ⟨s3, G2, ?_, h3, hF.drop (by simp [hfree, Use.Stays]) (by simp [hu2, Use.Stays]) fun r' =>
    ?_, hT1.trans hT2, hs2, ?_, ?_, ?_, fun r' w hw e => ?_, fun o ho => ?_, ?_⟩
  · refine e.trans ?_
    rw [show (0 : Nat) = 4096 * 0 from rfl, bind_ok e2]
    rfl
  · exact iff_of_false (hfl2 r') (h.leaves.not_flight (by simp [hfree]))
  · rw [hlf r 0 hm2, hent]
    simp
  · rw [hlf r 0 hm2, hent]
    simp
  · rw [hlf r 0 hm2, hent]
    simp
  · rw [hlf r' w hw, hlf r 0 hm2] at e
    exact hfresh.sole r' w hw e
  · rw [hlf r 0 hm2, hpage]
    by_cases hos : o < src.length
    · show put s2.mem c src (c + o) = _
      rw [put, overlay_in (by omega) (by omega), Nat.add_sub_cancel_left]
    · show put s2.mem c src (c + o) = _
      rw [put, overlay_out (by omega), getD_eq_getElem?_getD, getElem?_eq_none (by omega)]
      have := hfresh.zero o ho
      rwa [hpage] at this
  · show _ ≤ s2.freelist.length + 3
    omega

/-- **`userinit`** with nine pages and a free slot. -/
theorem userinit_spec (h : KInv T G s) (hslots : T.slots = ∅) (hmem : 10 ≤ s.freelist.length)
    (hfree : ∃ q < NPROC, (s.procs q).state = .unused) :
    ∃ p r tf s' G', userinit s = .ok ((), s') ∧ KInv T G' s' ∧ p < NPROC ∧ s.procs p = {} ∧
      G.use r = .free ∧ s'.initproc = p ∧
      s'.procs = update s.procs p { state := .runnable, pid := s.nextpid, sz := PGSIZE
                                    pagetable := r, trapframe := tf
                                    name := "initcode".toUTF8.data.toList } ∧
      View (allOf r) ∅ G G' s.mem s'.mem ∧ (leaf s'.mem r 0).has PTE_W = true ∧
      (leaf s'.mem r 0).has PTE_U = true ∧ (leaf s'.mem r 0).has PTE_RSW_COW = false ∧
      Sole G' s'.mem r 0 ∧
      (∀ o < 4096, s'.mem (PTE2PA (leaf s'.mem r 0) + o) = initcode.getD o 0) ∧
      Growth {(r, 0), (r, topLow)} G G' ∧ s.freelist.length ≤ s'.freelist.length + 9 := by
  obtain ⟨ret, s1, G1, e1, h1, hi1, -, hres⟩ := allocproc_spec h hslots
  obtain ⟨p, r, tf, rfl, hp, hempty, hp1, hr, htf, hV1, hW1, hf1⟩ := hres.resolve_left fun hc => by
    rcases hc with ⟨-, -, -, -, hc | hc⟩
    · omega
    · obtain ⟨q, hq, hu⟩ := hfree
      exact hc q hq hu
  have hpp : s1.procs p =
      { state := .used, pid := s.nextpid, pagetable := r, trapframe := tf } := by
    rw [hp1, update_self]
  have hpT : p ∉ T.slots := by rw [hslots]; exact notMem_empty p
  have hlive := h1.live p hp hpT (by rw [hpp]; simp)
  have hroot := h1.use_pagetable hp hlive.1
  have hspan := h1.spans p hp hlive.1
  rw [hpp] at hlive hroot hspan
  change Spans G1 r (npages 0) at hspan
  rw [show npages 0 = 0 from rfl] at hspan
  let s2 : KState := { s1 with initproc := p }
  have h2 : KInv T G1 s2 := h1.setNext
  obtain ⟨s3, G3, e3, h3, hF3, hT3, hs3, hW, hU, hC, hsole, hbytes, hf3⟩ := uvmfirst_spec initcode
    h2.own hroot hspan (by decide) (by show 3 ≤ s1.freelist.length; omega)
  have hpp3 : s3.procs p =
      { state := .used, pid := s.nextpid, pagetable := r, trapframe := tf } := by
    rw [hF3.procs]
    exact hpp
  -- the size, the trapframe, the name
  have h4 : KInv T G3 (s3.setProc p { s3.procs p with sz := PGSIZE }) := by
    refine h2.resize (by show (s1.procs p).state ≠ _; rw [hpp]; simp) h3 hF3.toShape ?_ ?_
      fun q hq hqp hq0 w => ?_
    · rintro _ v ⟨rfl, rfl⟩
      omega
    · show Spans G3 (s1.procs p).pagetable _
      rw [hpp, npages_one]
      exact hs3
    · rw [hF3.maps, h2.spans q hq hq0 w]
      intro hx
      have he : (s2.procs q).pagetable = (s2.procs p).pagetable := by
        rw [show s2.procs p = _ from hpp]
        exact (Prod.mk.inj hx).1
      exact hqp (h2.inj q p hq hp he hq0)
  rw [hpp3] at h4
  have htrap : G3.use tf = .trap p := (h4.trap tf p).2 ⟨hp, by simp, hlive.2⟩
  obtain ⟨m5, e5, h5, hV5, -⟩ := setTrapframe_inv h4 htrap 24 (by omega) 0
  obtain ⟨m6, e6, h6, hV6, -⟩ := setTrapframe_inv h5 htrap 48 (by omega) PGSIZE
  have hV56 := hV5.trans h4.own.leaves hV6
  have hm3 : (r, 0) ∈ G3.maps := (hs3 0).2 (by omega)
  have hlf : leaf m6 r 0 = leaf s3.mem r 0 :=
    hV56.leaf r 0 (notMem_empty _) (h3.leaves.map_root r 0 hm3) (by omega)
  have hV : View (allOf r) (insert tf ∅) G G3 s.mem m6 := by
    rw [insert_empty_eq]
    exact ((hV1.mono subset_rfl (empty_subset _)).trans h.own.leaves
      (hF3.view.mono singleton_allOf (empty_subset _))).trans h.own.leaves
      (hV56.mono (empty_subset _) subset_rfl)
  let b : Proc :=
    { state := .runnable, pid := s.nextpid, sz := PGSIZE, pagetable := r, trapframe := tf
      name := "initcode".toUTF8.data.toList }
  refine ⟨p, r, tf, _, G3, ?_, h6.setLive (p := p) (b := b) ?_ ?_ ?_ ?_ ?_, hp, hempty, hr, ?_, ?_,
    hV.drop (by simp [htf, Use.Stays]), ?_, ?_, ?_, fun r' w hw e => ?_, fun o ho => ?_,
    (hW1.mono (by simp)).trans (hT3.mono (by simp)), ?_⟩
  · unfold userinit
    rw [bind_ok e1]
    simp only
    rw [bind_ok (show Act.modify (fun s : KState => { s with initproc := p }) s1 =
      .ok ((), s2) from rfl), bind_ok (show getProc p s2 = .ok (_, s2) from congrArg
      (fun x => Except.ok (x, s2)) hpp)]
    simp only
    rw [bind_ok e3, bind_ok (setProc_ok hpp3), bind_ok e5, bind_ok e6,
      setProc_ok (update_self ..)]
  · simp [b]
  · simp [b]
  · simp [b]
  · simp [b]
  · simp
  · exact hF3.initproc
  · show update (update s3.procs p _) p b = _
    rw [update_idem, hF3.procs]
    show update s1.procs p b = _
    rw [hp1, update_idem]
  · rw [hlf, hW]
  · rw [hlf, hU]
  · rw [hlf, hC]
  · rw [hlf, hV56.leaf_map (s := s3) h3 hw (notMem_empty _)] at e
    exact hsole r' w hw e
  · rw [hlf]
    exact (hV56.bytes r 0 (notMem_empty _) hm3 o ho).trans (hbytes o ho)
  · show _ ≤ s3.freelist.length + 9
    have : s1.freelist.length ≤ s3.freelist.length + 3 := hf3
    omega

/-! ## `kinit` -/

/-- The state the kernel starts in: any memory, no page allocated or free, no process. -/
def bootState (m : Nat → UInt8) : KState where
  mem := m
  freelist := []
  referCount _ := 0
  wrapped := false
  procs _ := {}
  initproc := 0
  nextpid := 1
  kheld := []

/-- Freeing a page that counts one reference. -/
theorem freerange_page (hp : IsPage p) (h0 : ∀ i, s.referCount i = 0) :
    kfree p { s with referCount := update s.referCount (refIdx p) 1 } =
      .ok ((), { s with mem := fill s.mem p PGSIZE 1, freelist := p :: s.freelist }) := by
  have hself : update (update s.referCount (refIdx p) 1) (refIdx p) 0 =
      s.referCount := by
    rw [update_idem, ← h0 (refIdx p), update_eq_self]
  rw [kfree_last hp (update_self ..)]
  simp only [hself]

/-- **The loop of `freerange`** puts the pages it passes on the free list. -/
theorem freerangeLoop_spec {k : Nat} (hp : ∀ j < k, IsPage (p + 4096 * j))
    (h0 : ∀ i, s.referCount i = 0)
    (hfl : ∀ pa ∈ s.freelist, pa < p) (hnd : s.freelist.Nodup) :
    ∃ m l, freerangeLoop k p s = .ok ((), { s with mem := m, freelist := l }) ∧ l.Nodup ∧
      l.length = s.freelist.length + k ∧
      ∀ pa, pa ∈ l ↔ pa ∈ s.freelist ∨ ∃ j < k, pa = p + 4096 * j := by
  induction k generalizing s p with
  | zero => exact ⟨s.mem, s.freelist, rfl, hnd, rfl, fun pa => by simp⟩
  | succ k ih =>
    have hp0 : IsPage p := hp 0 (by omega)
    let s1 : KState := { s with mem := fill s.mem p PGSIZE 1, freelist := p :: s.freelist }
    obtain ⟨m, l, e, h1, h2, h3⟩ := ih (s := s1) (p := p + 4096)
      (fun j hj => by
        have := hp (j + 1) (by omega)
        rwa [show p + 4096 * (j + 1) = p + 4096 + 4096 * j by omega] at this)
      h0 (fun pa hpa => by
        rcases mem_cons.1 hpa with rfl | hpa
        · omega
        · have := hfl pa hpa
          omega)
      (nodup_cons.2 ⟨fun hc => absurd (hfl p hc) (lt_irrefl p), hnd⟩)
    refine ⟨m, l, ?_, h1, by rw [h2]; simp [s1]; omega, fun pa => ?_⟩
    · rw [freerangeLoop, bind_ok (show Act.modify (fun s : KState => { s with
        referCount := update s.referCount (refIdx p) 1 }) s = .ok ((), _) from rfl),
        bind_ok (freerange_page hp0 h0)]
      exact e
    · rw [h3, mem_cons]
      constructor
      · rintro ((rfl | hx) | ⟨j, hj, rfl⟩)
        exacts [.inr ⟨0, by omega, by omega⟩, .inl hx, .inr ⟨j + 1, by omega, by omega⟩]
      · rintro (hx | ⟨j, hj, rfl⟩)
        · exact .inl (.inr hx)
        · rcases j with - | j
          exacts [.inl (.inl (by omega)), .inr ⟨j, by omega, by omega⟩]

/-- No page is used for anything. -/
def Ghost.boot : Ghost := ⟨fun _ => .free, ∅, ∅, ∅⟩

/-- **`kinit`** frees every page between the kernel and the end of memory. -/
theorem kinit_spec (m : Nat → UInt8) :
    ∃ s, kinit (bootState m) = .ok ((), s) ∧ KInv .none Ghost.boot s ∧ s.procs = (fun _ => {}) ∧
      s.nextpid = 1 ∧ s.kheld = [] ∧ s.freelist.length = (PHYSTOP - PGROUNDUP kend) / PGSIZE := by
  have hend := Layout.kend_le
  have hround : PGROUNDUP kend % 4096 = 0 ∧ kend ≤ PGROUNDUP kend ∧
      PGROUNDUP kend < kend + 4096 := by
    rw [PHYSTOP_eq] at hend
    simp only [PGROUNDUP, PGSIZE_eq]
    omega
  have hpage : ∀ pa, IsPage pa ↔
      ∃ j < (PHYSTOP - PGROUNDUP kend) / PGSIZE, pa = PGROUNDUP kend + 4096 * j := fun pa => by
    rw [isPage_iff, PHYSTOP_eq, PGSIZE_eq]
    constructor
    · rintro ⟨h1, h2, h3⟩
      exact ⟨(pa - PGROUNDUP kend) / 4096, by omega, by omega⟩
    · rintro ⟨j, h1, rfl⟩
      exact ⟨by omega, by omega, by omega⟩
  obtain ⟨m', l, e, hnd, hlen, hmem⟩ := freerangeLoop_spec (s := bootState m) (p := PGROUNDUP kend)
    (k := (PHYSTOP - PGROUNDUP kend) / PGSIZE) (fun j hj => (hpage _).2 ⟨j, hj, rfl⟩) (fun _ => rfl)
    (fun pa hpa => absurd hpa not_mem_nil) nodup_nil
  have hown : Own Ghost.boot { bootState m with mem := m', freelist := l } := by
    refine ⟨⟨fun pa => ?_, hnd, fun pa hc => absurd rfl hc, rfl, fun i => Nat.zero_lt_succ 255⟩, ?_,
      ?_, fun pa _ => rfl, fun pa hc => by cases hc⟩
    · rw [show _ ↔ _ from hmem pa, hpage]
      simp [bootState, Ghost.boot]
    · exact ⟨(by rintro _ _ _ ⟨⟩), (by rintro _ _ _ ⟨⟩), (by rintro _ _ ⟨⟩), (by rintro _ _ _ _ ⟨⟩)⟩
    · have hno : ∀ {x : Nat × Nat}, x ∉ (∅ : Finset (Nat × Nat)) := Finset.notMem_empty _
      exact .of (fun _ _ hc => absurd hc hno) (fun _ _ hc => absurd hc hno) (by rintro _ _ ⟨⟩)
        (fun _ _ _ hc => absurd hc hno) (fun _ _ hc => absurd hc hno) fun _ _ _ hc => absurd hc hno
  refine ⟨_, e, ?_, rfl, rfl, rfl, by rw [hlen]; exact Nat.zero_add _⟩
  refine
    { own := hown
      flight := rfl
      root := fun r => ⟨(by rintro ⟨⟩), fun hc => ?_⟩
      inj := fun p q _ _ _ hc => absurd rfl hc
      roots := fun _ _ => notMem_empty _
      spans := fun p _ hc => absurd rfl hc
      spec := fun p _ hc => absurd rfl hc
      trap := fun pa p => ⟨(by rintro ⟨⟩), fun hc => absurd hc.2.1.symm hc.2.2⟩
      held := fun pa => ⟨(by rintro ⟨⟩), fun hc => ?_⟩
      pages := fun pa hc => absurd hc (notMem_empty _)
      nodup := nodup_nil
      unused := fun p _ _ _ => rfl
      live := fun p _ _ hc => absurd rfl hc }
  · rcases hc with hc | ⟨p, -, h1, h2⟩
    · exact absurd hc (notMem_empty _)
    · exact absurd h1.symm h2
  · rcases hc with hc | hc
    · exact absurd hc not_mem_nil
    · exact absurd hc (notMem_empty _)

/-! ## Pages of other kernel code -/

/-- Some other part of the kernel takes a page and keeps it. -/
def kernAlloc : Kern Unit := do
  match ← kalloc with
  | none => pure ()
  | some pa => modify fun s => { s with kheld := pa :: s.kheld }

/-- It gives a page back. -/
def kernFree (pa : Nat) : Kern Unit := do
  kfree pa
  modify fun s => { s with kheld := s.kheld.erase pa }

/-- One page changes hands inside the kernel. -/
theorem KInv.setHeld (T' : Transit) (h : KInv T G s) (hTr : T'.roots = T.roots)
    (hTs : T'.slots = T.slots) (hTf : T'.flight = T.flight)
    (hu : ¬ (G.use pa).Stays ∨ G.use pa = .held) {u : Use}
    (hroot : u ≠ .root) (hr : G.use pa ≠ .root) (htrap : ∀ q, u ≠ .trap q)
    (ho : Own (G.setUse pa u) s') (hF : Frame ∅ {pa} G (G.setUse pa u) s s') {l : List Nat}
    (hl : l.Nodup) (hT : ∀ q ∈ T'.pages, q ∉ l)
    (hmem : ∀ q, q ∈ l ∨ q ∈ T'.pages ↔ (G.setUse pa u).use q = .held) :
    KInv T' (G.setUse pa u) { s' with kheld := l } := by
  have hsame : ∀ {q}, q ≠ pa → (G.setUse pa u).use q = G.use q := fun hq => setUse_ne hq
  have hp : s'.procs = s.procs := hF.procs
  refine
    { own := ⟨⟨ho.pages.free_mem, ho.pages.nodup, ho.pages.page, ho.pages.wrapped, ho.pages.byte⟩,
        ho.tables, ho.leaves, ho.ref, ho.user_pos⟩
      flight := by rw [hTf]; exact h.flight
      root := fun r => ?_
      inj := by rw [hp]; exact h.inj
      roots := by rw [hp, hTr]; exact h.roots
      spans := by rw [hp]; exact h.spans
      spec := by rw [hp]; exact h.spec
      trap := fun q p => ?_
      held := fun q => (hmem q).symm
      pages := hT
      nodup := hl
      unused := by rw [hp, hTs]; exact h.unused
      live := by rw [hp, hTs]; exact h.live }
  · rw [setUse_root hr hroot, h.root, hTr]
    show _ ↔ _ ∨ ∃ p < NPROC, (s'.procs p).pagetable = r ∧ r ≠ 0
    rw [hp]
  · show _ ↔ p < NPROC ∧ (s'.procs p).trapframe = q ∧ q ≠ 0
    rw [hp, ← h.trap]
    by_cases hq : q = pa
    · subst hq
      rw [setUse_self]
      refine iff_of_false (htrap p) fun hc => ?_
      rcases hu with hu | hu
      · exact hu (.inr ⟨p, hc⟩)
      · rw [hu] at hc
        cases hc
    · rw [hsame hq]

/-- **A page for other kernel code.** -/
theorem kernAlloc_spec (h : KInv T G s) :
    (s.freelist = [] ∧ kernAlloc s = .ok ((), s)) ∨
    ∃ pa s' G', kernAlloc s = .ok ((), s') ∧ KInv T G' s' ∧ s'.procs = s.procs ∧
      s'.initproc = s.initproc ∧ s'.nextpid = s.nextpid ∧ s'.kheld = pa :: s.kheld ∧
      View ∅ ∅ G G' s.mem s'.mem ∧ s.freelist = pa :: s'.freelist := by
  unfold kernAlloc
  rcases kalloc_spec (X := ∅) h.own with ⟨hnil, e⟩ | ⟨pa, s1, e, hpg, hfree, h1, hF, hfl, -⟩
  · exact .inl ⟨hnil, by rw [bind_ok e]; rfl⟩
  right
  have hnot : ∀ q, q ∈ s.kheld ∨ q ∈ T.pages → q ≠ pa := fun q hq e => by
    have := (h.held q).2 hq
    rw [e, hfree] at this
    cases this
  have hV : View ∅ (insert pa ∅) G (G.setUse pa .held) s.mem s1.mem := by
    rw [insert_empty_eq]
    exact hF.view
  refine ⟨pa, _, _, by rw [bind_ok e]; rfl, h.setHeld T (l := pa :: s1.kheld) rfl rfl rfl
    (.inl (by simp [hfree, Use.Stays])) (by simp) (by simp [hfree])
    (by simp) h1 hF ?_ (fun q hq => ?_) fun q => ?_, hF.procs, hF.initproc,
    hF.nextpid, by rw [hF.kheld], hV.drop (by simp [hfree, Use.Stays]), hfl⟩
  · rw [hF.kheld]
    exact nodup_cons.2 ⟨fun hc => hnot pa (.inl hc) rfl, h.nodup⟩
  · rw [hF.kheld, mem_cons, not_or]
    exact ⟨hnot q (.inr hq), h.pages q hq⟩
  · rw [hF.kheld, mem_cons]
    by_cases hq : q = pa
    · simp [hq]
    · rw [setUse_ne hq, h.held]
      simp [hq]

/-- **…and back.** -/
theorem kernFree_spec (h : KInv T G s) (hpa : pa ∈ s.kheld) :
    ∃ s' G', kernFree pa s = .ok ((), s') ∧ KInv T G' s' ∧ s'.procs = s.procs ∧
      s'.initproc = s.initproc ∧ s'.nextpid = s.nextpid ∧ View ∅ {pa} G G' s.mem s'.mem := by
  have hu : G.use pa = .held := (h.held pa).2 (.inl hpa)
  obtain ⟨s1, e, h1, hF, -⟩ := kfree_held (X := ∅) h.own hu
  unfold kernFree
  refine ⟨_, _, by rw [bind_ok e]; rfl, h.setHeld T (l := s1.kheld.erase pa) rfl rfl rfl (.inr hu)
    (by simp) (by simp [hu]) (by simp) h1 hF ?_ (fun q hq => ?_) fun q => ?_, hF.procs, hF.initproc,
    hF.nextpid, hF.view⟩
  · rw [hF.kheld]
    exact h.nodup.erase pa
  · rw [hF.kheld]
    exact fun hc => h.pages q hq (mem_of_mem_erase hc)
  · rw [hF.kheld, h.nodup.mem_erase_iff]
    by_cases hq : q = pa
    · subst hq
      simp only [ne_eq, not_true_eq_false, false_and, false_or, setUse_self,
        reduceCtorEq, iff_false]
      exact fun hc => h.pages q hc hpa
    · rw [setUse_ne hq, h.held]
      simp [hq]

end Xv6
