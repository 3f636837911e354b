import Xv6.Vm.ExecSpec

/-!
# Vm/SysExec — `sys_exec`

Fetching the arguments takes one page for each string; every exit gives them back.
-/

namespace Xv6

open Act Bytes Set

variable [Layout] {T : Transit} {G G' : Ghost} {s s' : KState} {r v c p pa : Nat}

/-! ## Reading user memory -/

omit [Layout] in
theorem copyinLoop_ok (k va len : Nat) (dst : List UInt8) :
    ∃ o, copyinLoop r k va len dst s = .ok (o, s) := by
  induction k generalizing va len dst with
  | zero => exact ⟨_, rfl⟩
  | succ k ih =>
    rw [copyinLoop]
    by_cases hlen : len = 0
    · rw [if_pos hlen]
      exact ⟨_, rfl⟩
    rw [if_neg hlen, bind_ok walkaddr_eq]
    by_cases hpa : userPa s.mem r (PGROUNDDOWN va) = 0
    · rw [if_pos hpa]
      exact ⟨_, rfl⟩
    · rw [if_neg hpa]
      exact ih _ _ _

omit [Layout] in
/-- `copyinstr` returns at most `max` bytes. -/
theorem copyinstrLoop_ok (k va max : Nat) (dst : List UInt8) :
    ∃ ret bytes, copyinstrLoop r k va max dst s = .ok ((ret, bytes), s) ∧
      bytes.length ≤ dst.length + max := by
  induction k generalizing va max dst with
  | zero => exact ⟨_, _, rfl, Nat.le_add_right _ _⟩
  | succ k ih =>
    rw [copyinstrLoop]
    by_cases hmax : max = 0
    · rw [if_pos hmax]
      exact ⟨_, _, rfl, Nat.le_add_right _ _⟩
    rw [if_neg hmax, bind_ok walkaddr_eq]
    by_cases hpa : userPa s.mem r (PGROUNDDOWN va) = 0
    · rw [if_pos hpa]
      exact ⟨_, _, rfl, Nat.le_add_right _ _⟩
    rw [if_neg hpa]
    generalize hn : Min.min (PGSIZE - (va - PGROUNDDOWN va)) max = n
    rw [bind_ok (gets_apply _ _)]
    have hlen : (take s.mem (userPa s.mem r (PGROUNDDOWN va) + (va - PGROUNDDOWN va)) n).length =
        n := by
      rw [take, List.length_map, List.length_range]
    generalize take s.mem (userPa s.mem r (PGROUNDDOWN va) + (va - PGROUNDDOWN va))
      n = bytes at hlen ⊢
    by_cases h0 : 0 ∈ bytes
    · rw [if_pos h0]
      refine ⟨_, _, rfl, ?_⟩
      rw [List.length_append, List.length_take]
      omega
    · rw [if_neg h0]
      obtain ⟨ret, bs, e, hb⟩ := ih (PGROUNDDOWN va + PGSIZE) (max - n) (dst ++ bytes)
      refine ⟨ret, bs, e, hb.trans ?_⟩
      rw [List.length_append]
      omega

omit [Layout] in
theorem fetchaddr_ok (addr : Nat) : ∃ o, fetchaddr p addr s = .ok (o, s) := by
  unfold fetchaddr
  rw [getProc_bind]
  by_cases h : addr ≥ (s.procs p).sz ∨ (addr + 8) % 2 ^ 64 > (s.procs p).sz
  · rw [if_pos h]
    exact ⟨_, rfl⟩
  · rw [if_neg h]
    obtain ⟨o, e⟩ := copyinLoop_ok (r := (s.procs p).pagetable) (s := s) 8 addr 8 []
    rw [bind_ok (show copyin (s.procs p).pagetable addr 8 s = .ok (o, s) from e)]
    cases o
    exacts [⟨_, rfl⟩, ⟨_, rfl⟩]

/-! ## The argument pages -/

/-- Argument pages in transit. -/
def Transit.withPages (T : Transit) (l : List Nat) : Transit :=
  { T with pages := {q | q ∈ l} ∪ T.pages }

/-- A page is taken for an argument. -/
theorem KInv.takePage {l : List Nat} (h : KInv (T.withPages l) G s) (hfree : G.use pa = .free)
    (ho : Own (G.setUse pa .held) s') (hF : Frame ∅ {pa} G (G.setUse pa .held) s s') :
    KInv (T.withPages (l ++ [pa])) (G.setUse pa .held) s' := by
  have hnot : ∀ q, G.use q = .held → q ≠ pa := fun q hq e => by
    rw [e, hfree] at hq
    cases hq
  have hk : s'.kheld = s.kheld := hF.kheld
  have hmem : ∀ q, q ∈ (T.withPages (l ++ [pa])).pages ↔ q = pa ∨ q ∈ (T.withPages l).pages :=
    fun q => by
    simp only [Transit.withPages, mem_union, mem_ofPred_eq, List.mem_append, List.mem_singleton]
    tauto
  have h1 : KInv (T.withPages (l ++ [pa])) (G.setUse pa .held) { s' with kheld := s.kheld } := by
    refine h.setHeld (T.withPages (l ++ [pa])) (l := s.kheld) rfl rfl rfl
      (.inl (by simp [hfree, Use.Stays])) (by simp) (by simp [hfree]) (by simp) ho hF h.nodup
      (fun q hq => ?_) fun q => ?_
    · rcases (hmem q).1 hq with rfl | hq
      · exact fun hc => hnot q ((h.held q).2 (.inl hc)) rfl
      · exact h.pages q hq
    · rw [hmem]
      by_cases hq : q = pa
      · simp [hq]
      · rw [Ghost.setUse_ne hq, h.held]
        simp [hq]
  rwa [← hk] at h1

/-- A store into a page the kernel holds. -/
theorem KInv.storeHeld (h : KInv T G s) (hu : G.use pa = .held) {a n : Nat} {f : Nat → UInt8}
    (h1 : pa ≤ a) (h2 : a + n ≤ pa + 4096) :
    KInv T G { s with mem := overlay s.mem a n f } ∧
    View ∅ {pa} G G s.mem (overlay s.mem a n f) := by
  have hpg : IsPage pa := h.own.isPage (by simp [hu])
  have htab : ¬ (G.use pa).IsTable := by simp [hu, Use.IsTable]
  exact ⟨{ h with own := h.own.overlay hpg htab h1 h2 },
    (Frame.overlay (X := ∅) (Y := {pa}) h.own hpg htab h1 h2
      (fun r v hm e => absurd e (h.own.leaves.not_mapped (by simp [hu]) hm))
      fun _ => mem_singleton pa).view⟩

/-- **The argument loop of `sys_exec`** takes pages and does nothing else. -/
theorem fetchArgs_spec {G0 : Ghost} {s0 : KState} {k : Nat} (h0 : Leaves G0 (leaf s0.mem))
    (pages : List Nat) (h : Restored (T.withPages pages) G0 G s0 s) (hnd : pages.Nodup)
    (hP : ∀ q ∈ pages, ¬ (G0.use q).Stays) (uargv i : Nat) (argv : List (List UInt8)) :
    ∃ pages' o s' G', fetchArgs p uargv k i pages argv s = .ok ((pages', o), s') ∧
      Restored (T.withPages pages') G0 G' s0 s' ∧ pages'.Nodup ∧ ∀ q ∈ pages',
      ¬ (G0.use q).Stays := by
  induction k generalizing G s i pages argv with
  | zero => exact ⟨pages, none, s, G, rfl, h, hnd, hP⟩
  | succ k ih =>
    rw [fetchArgs]
    obtain ⟨o, e⟩ := fetchaddr_ok (p := p) (s := s) ((uargv + 8 * i) % 2 ^ 64)
    rw [bind_ok e]
    rcases o with - | uarg
    · exact ⟨pages, none, s, G, rfl, h, hnd, hP⟩
    simp only
    by_cases hu : uarg = 0
    · rw [if_pos hu]
      exact ⟨pages, some argv, s, G, rfl, h, hnd, hP⟩
    rw [if_neg hu]
    rcases kalloc_spec (X := ∅) h.inv.own with ⟨-, e1⟩ | ⟨pa, s1, e1, hpg, hfree, h1, hF1, -, -⟩
    · rw [bind_ok e1]
      exact ⟨pages, none, s, G, rfl, h, hnd, hP⟩
    have h2 := h.inv.takePage hfree h1 hF1
    have hpa : pa ∉ pages := fun hc => by
      have := (h.inv.held pa).2 (.inr (.inl hc))
      rw [hfree] at this
      cases this
    have hns : ¬ (G0.use pa).Stays := fun hc => by
      have := (h.view.keep pa (notMem_empty _) hc).1
      rw [hfree] at this
      rw [← this] at hc
      exact hc.ne_free rfl
    rw [bind_ok e1]
    simp only
    rw [getProc_bind]
    obtain ⟨ret, bytes, e2, hlen⟩ := copyinstrLoop_ok (r := (s1.procs p).pagetable)
      (s := s1) PGSIZE uarg PGSIZE []
    rw [bind_ok (show copyinstr (s1.procs p).pagetable uarg PGSIZE s1 =
      .ok ((ret, bytes), s1) from e2)]
    simp only
    obtain ⟨h3, hV3⟩ := h2.storeHeld Ghost.setUse_self (a := pa) (n := bytes.length)
      (f := fun i => bytes.getD i 0) le_rfl (by simpa using hlen)
    rw [bind_ok (show memput pa bytes s1 = .ok ((), _) from rfl)]
    have hV' : View ∅ ∅ G0 (G.setUse pa .held) s0.mem (put s1.mem pa bytes) := by
      have := ((h.view.mono subset_rfl (empty_subset {pa})).trans h0 hF1.view).trans h0 hV3
      rw [← insert_empty_eq pa] at this
      exact this.drop hns
    have hR : Restored (T.withPages (pages ++ [pa])) G0 (G.setUse pa .held) s0
        { s1 with mem := put s1.mem pa bytes } :=
      ⟨h3, hF1.procs.trans h.procs, hF1.initproc.trans h.initproc, hF1.kheld.trans h.kheld, hV',
        h.growth.trans (Growth.setUse (by rw [hfree]; trivial) trivial)⟩
    have hnd' : (pages ++ [pa]).Nodup := by
      rw [List.nodup_append]
      exact ⟨hnd, List.nodup_singleton pa, fun q hq q' hq' e => hpa (by
        rw [List.mem_singleton] at hq'
        rwa [← hq', ← e])⟩
    have hP' : ∀ q ∈ pages ++ [pa], ¬ (G0.use q).Stays := fun q hq => by
      rcases List.mem_append.1 hq with hq | hq
      · exact hP q hq
      · rw [List.mem_singleton.1 hq]
        exact hns
    by_cases hr : ret < 0
    · rw [if_pos hr]
      exact ⟨_, _, _, _, rfl, hR, hnd', hP'⟩
    · rw [if_neg hr]
      exact ih (pages ++ [pa]) hR hnd' hP' (i + 1) (argv ++ [bytes.dropLast])

/-- **Every argument page is given back.** -/
theorem freeArgs_spec {l : List Nat} (h : KInv (T.withPages l) G s) (hnd : l.Nodup)
    (hT : ∀ q ∈ l, q ∉ T.pages) :
    ∃ s' G', freeArgs l s = .ok ((), s') ∧ KInv T G' s' ∧ s'.procs = s.procs ∧
    s'.initproc = s.initproc ∧
      s'.kheld = s.kheld ∧ View ∅ {q | q ∈ l} G G' s.mem s'.mem ∧ Growth ∅ G G' := by
  induction l generalizing G s with
  | nil =>
    refine ⟨s, G, rfl, ?_, rfl, rfl, rfl, View.refl .., Growth.refl _ _⟩
    have : T.withPages [] = T := by simp [Transit.withPages]
    rwa [this] at h
  | cons pa l ih =>
    rw [List.nodup_cons] at hnd
    have hu : G.use pa = .held := (h.held pa).2 (.inr (.inl List.mem_cons_self))
    obtain ⟨s1, e1, h1, hF1, -⟩ := kfree_held (X := ∅) h.own hu
    have hmem : ∀ q, q ∈ (T.withPages (pa :: l)).pages ↔ q = pa ∨ q ∈ (T.withPages l).pages :=
      fun q => by
      simp only [Transit.withPages, mem_union, mem_ofPred_eq, List.mem_cons, or_assoc]
    have hk : s1.kheld = s.kheld := hF1.kheld
    have h2 : KInv (T.withPages l) (G.setUse pa .free) { s1 with kheld := s.kheld } := by
      refine h.setHeld (T.withPages l) (l := s.kheld) rfl rfl rfl (.inr hu) (by simp) (by simp [hu])
        (by simp) h1 hF1 h.nodup (fun q hq => h.pages q ((hmem q).2 (.inr hq))) fun q => ?_
      by_cases hq : q = pa
      · subst hq
        rw [Ghost.setUse_self]
        refine iff_of_false ?_ (by simp)
        rintro (hc | hc | hc)
        exacts [h.pages q ((hmem q).2 (.inl rfl)) hc, hnd.1 hc, hT q List.mem_cons_self hc]
      · rw [Ghost.setUse_ne hq, h.held, hmem]
        simp [hq]
    rw [← hk] at h2
    obtain ⟨s2, G2, e2, h3, hp, hi, hk2, hV, hW⟩ :=
      ih h2 hnd.2 fun q hq => hT q (List.mem_cons_of_mem _ hq)
    refine ⟨s2, G2, by rw [freeArgs, bind_ok e1]; exact e2, h3, hp.trans hF1.procs,
      hi.trans hF1.initproc, hk2.trans hk, (hF1.view.mono subset_rfl ?_).trans h.own.leaves
      (hV.mono subset_rfl ?_), Growth.trans (Growth.setUse (u := .free) (by rw [hu]; trivial)
      trivial) hW⟩
    · rintro q rfl
      exact List.mem_cons_self
    · exact fun q hq => List.mem_cons_of_mem _ hq

/-- …after which nothing came of the call, if nothing else did. -/
theorem Restored.freeArgs {G0 : Ghost} {s0 : KState} {l : List Nat}
    (h : Restored (T.withPages l) G0 G s0 s) (h0 : Leaves G0 (leaf s0.mem)) (hnd : l.Nodup)
    (hT : ∀ q ∈ l, q ∉ T.pages) (hP : ∀ q ∈ l, ¬ (G0.use q).Stays) :
    ∃ s' G', Xv6.freeArgs l s = .ok ((), s') ∧ Restored T G0 G' s0 s' := by
  obtain ⟨s', G', e, h', hp, hi, hk, hV, hW⟩ := freeArgs_spec h.inv hnd hT
  exact ⟨s', G', e, h', hp.trans h.procs, hi.trans h.initproc, hk.trans h.kheld,
    View.dropSet ((h.view.mono subset_rfl (empty_subset _)).trans h0
    (hV.mono subset_rfl subset_union_right)) hP, h.growth.trans hW⟩

/-- **`sys_exec`.** -/
theorem sysExec_spec (h : KInv T G s) (hT : T.roots = ∅) (hTp : T.pages = ∅) (hp : p < NPROC)
    (hslot : p ∉ T.slots) (hl : (s.procs p).state ≠ .unused)
    (hfl : ∀ pa, ((s.procs p).pagetable, pa) ∉ T.flight) (upath uargv : Nat)
    (namei : List UInt8 → Option ExecFile) :
    ∃ ret s' G', sysExec p upath uargv namei s = .ok (ret, s') ∧
      ((ret = -1 ∧ Restored T G G' s s') ∨
        ∃ c sz, 0 ≤ ret ∧ KInv T G' s' ∧ s'.initproc = s.initproc ∧ Execed p c sz G G' s s') := by
  unfold sysExec
  rw [getProc_bind]
  obtain ⟨ret, path, e1, -⟩ := copyinstrLoop_ok (r := (s.procs p).pagetable) (s := s) MAXPATH upath
    MAXPATH []
  rw [bind_ok (show copyinstr (s.procs p).pagetable upath MAXPATH s = .ok ((ret, path), s) from e1)]
  simp only
  by_cases hr : ret < 0
  · rw [if_pos hr]
    exact ⟨-1, s, G, rfl, .inl ⟨rfl, .refl h⟩⟩
  rw [if_neg hr]
  have hT0 : T.withPages [] = T := by simp [Transit.withPages]
  obtain ⟨pages, o, s1, G1, e2, h1, hnd, hP1⟩ := fetchArgs_spec (p := p) (k := MAXARG)
    h.own.leaves [] (by rw [hT0]; exact .refl h) List.nodup_nil
    (fun q hq => absurd hq List.not_mem_nil) uargv 0 []
  have hTpages : ∀ q ∈ pages, q ∉ T.pages := fun q _ => by rw [hTp]; exact notMem_empty q
  rw [bind_ok e2]
  rcases o with - | argv
  · obtain ⟨s2, G2, e3, h2⟩ := h1.freeArgs h.own.leaves hnd hTpages hP1
    exact ⟨-1, s2, G2, (bind_ok e3).trans rfl, .inl ⟨rfl, h2⟩⟩
  · have hpp : s1.procs p = s.procs p := by rw [h1.procs]
    obtain ⟨ret, s2, G2, e3, hor⟩ := exec_spec h1.inv hT hp hslot (by rw [hpp]; exact hl)
      (by rw [hpp]; exact hfl) path.dropLast (namei path.dropLast) argv
    rcases hor with ⟨rfl, h2⟩ | ⟨c, sz, rfl, h2, hi2, hE⟩
    · obtain ⟨s3, G3, e4, h3⟩ := (h1.trans h.own.leaves h2).freeArgs h.own.leaves hnd hTpages hP1
      exact ⟨-1, s3, G3, (bind_ok e3).trans ((bind_ok e4).trans rfl), .inl ⟨rfl, h3⟩⟩
    · obtain ⟨s3, G3, e4, h3, hp3, hi3, -, hV3, -⟩ := freeArgs_spec h2 hnd hTpages
      obtain ⟨name, hp2⟩ := hE.procs
      have hm : ∀ v < npages sz, (c, v) ∈ G2.maps := fun v hv => by
        have hpp2 : s2.procs p = { s1.procs p with name := name, pagetable := c, sz := sz } := by
          rw [hp2, Function.update_self]
        have hlive := h2.live p hp hslot (by rw [hpp2, hpp]; exact hl)
        rw [hpp2] at hlive
        have := h2.spans p hp (by rw [hpp2]; exact hlive.1)
        rw [hpp2] at this
        exact (this v).2 hv
      have hV2 := hE.view
      rw [hpp] at hV2
      refine ⟨_, s3, G3, (bind_ok e3).trans ((bind_ok e4).trans rfl),
        .inr ⟨c, sz, Int.natCast_nonneg _, h3, (hi3.trans hi2).trans h1.initproc,
        fun hc => hE.new ((h1.view.root c 0 (notMem_empty _)).2 hc), ⟨name, ?_⟩,
        View.dropSet (((h1.view.mono (empty_subset _) (empty_subset _)).trans h.own.leaves
          (hV2.mono subset_rfl subset_union_left)).trans h.own.leaves
          (hV3.mono (empty_subset _) subset_union_right)) hP1, fun v hv => ?_⟩⟩
      · rw [hp3, hp2, h1.procs]
      · exact (hE.sole v hv).view h2.own hV3 (hm v hv) (notMem_empty _)
          fun _ _ hx => absurd hx (notMem_empty _)

end Xv6
