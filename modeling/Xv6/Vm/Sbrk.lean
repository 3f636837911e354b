import Xv6.Vm.Account

/-!
# Vm/Sbrk — `growproc` is exact

A size is a `uint64` and an increment an `int`: `sz + n` wraps as soon as more is given back than
there is, and `uvmdealloc` then takes the sum for a larger size and leaves the process as it is.
Short of that the new size is the sum, and a call that fails takes back every page it mapped; what
it keeps are pages of the page table (`Own.free_table_iff`).
-/

namespace Xv6

open Act Bytes Function Finset

variable [Layout] {T : Transit} {G G' : Ghost} {s s' : KState} {r v pa p : Nat} {n : Int}

/-! ## The pages of a page table -/

/-- The pages that make up page table `r`. -/
def tablePages (m : Nat → UInt8) (r : Nat) : Finset Nat :=
  (Finset.range PHYSTOP).filter (TablePage m r)

/-- The uses of the pages of table `r`. -/
def Use.Of (r pa : Nat) (u : Use) : Prop := pa = r ∨ (∃ i, u = .mid r i) ∨ ∃ q, u = .low r q

theorem Own.tablePage_iff (h : Own G s) (hr : G.use r = .root) :
    TablePage s.mem r pa ↔ (G.use pa).Of r pa := by
  constructor
  · rintro (rfl | ⟨i, hi, hV, rfl | ⟨j, hj, hV', rfl⟩⟩)
    · exact .inl rfl
    · exact .inr (.inl ⟨i, h.root_entry hr hi hV⟩)
    · exact .inr (.inr ⟨_, h.mid_entry (h.root_entry hr hi hV) hj hV'⟩)
  · rintro (rfl | ⟨i, hu⟩ | ⟨q, hu⟩)
    exacts [.inl rfl, h.mid_tablePage hu, h.low_tablePage hu]

omit [Layout] in
/-- Where user memory has no mapping there is no entry. -/
theorem Leaves.eq_zero {lf : Nat → Nat → Pte} (h : Leaves G lf) (hr : G.use r = .root)
    (hm : (r, v) ∉ G.maps) (hv : v < 2 ^ 26 - 2) : lf r v = 0#64 := by
  by_contra hc
  rcases h.only r v hr (by omega) hc with hx | hx
  · exact hm hx
  · have := (h.spec_lt r v hx).1
    omega

/-- **A frame without mappings keeps every use but those of one table**: what is free or a page of
table `r` stays one of the two. -/
theorem Own.free_table_iff {X : Set (Nat × Nat)} {Z : Set (Nat × Nat)} (h : Own G s)
    (h' : Own G' s') (hF : Frame X ∅ G G' s s') (hf : G.flight = ∅)
    (hX : ∀ r v, (r, v) ∈ X → v < 2 ^ 26 - 2) (hm : G'.maps = G.maps)
    (hleaf : ∀ r v, (r, v) ∈ G.maps → leaf s'.mem r v = leaf s.mem r v) (hG : Growth Z G G')
    (hZ : ∀ x ∈ Z, x.1 = r) : G'.use pa = .free ∨ (G'.use pa).Of r pa ↔ G.use pa = .free ∨
    (G.use pa).Of r pa := by
  have hroot : G'.use pa = .root ↔ G.use pa = .root := hF.root pa (2 ^ 26) fun hx => by
    have := hX _ _ hx
    omega
  have huser : G'.use pa = .user ↔ G.use pa = .user := by
    rw [h.user_iff hf, h'.user_iff (hF.flight_eq.trans hf), hm]
    exact exists_congr fun r => exists_congr fun v => and_congr_right fun hx => by rw [hleaf r v hx]
  have hmid : ∀ {r' i}, r' ≠ r → (G'.use pa = .mid r' i ↔ G.use pa = .mid r' i) := fun hne =>
    hG.mid_iff fun q _ hx => hne (hZ _ hx)
  have hlow : ∀ {r' q}, r' ≠ r → (G'.use pa = .low r' q ↔ G.use pa = .low r' q) := fun hne =>
    hG.low_iff fun hx => hne (hZ _ hx)
  have hother : ∀ u : Use, ¬ (u = .free ∨ u.Of r pa) → (G'.use pa = u ↔ G.use pa = u)
    | .free, hu => absurd (.inl rfl) hu
    | .root, _ => hroot
    | .mid _ i, hu => hmid fun e => hu (.inr (.inr (.inl ⟨i, by rw [e]⟩)))
    | .low _ q, hu => hlow fun e => hu (.inr (.inr (.inr ⟨q, by rw [e]⟩)))
    | .trap p, _ => hF.stays_iff (.inr ⟨p, rfl⟩)
    | .held, _ => hF.stays_iff (.inl rfl)
    | .user, _ => huser
  refine not_iff_not.1 ⟨fun hn => ?_, fun hn => ?_⟩
  · rwa [(hother _ hn).1 rfl]
  · rwa [(hother _ hn).2 rfl]

/-- The free pages and the pages of table `r`, counted together. -/
theorem Own.card_free_table (h : Own G s) (hr : G.use r = .root) :
    ∃ A : Finset Nat, A.card = s.freelist.length + (tablePages s.mem r).card ∧
      ∀ pa, pa ∈ A ↔ IsPage pa ∧ (G.use pa = .free ∨ (G.use pa).Of r pa) := by
  have hnf : ∀ {pa}, (G.use pa).Of r pa → G.use pa ≠ .free := by
    rintro pa (rfl | ⟨i, e⟩ | ⟨q, e⟩)
    · rw [hr]
      nofun
    all_goals rw [e]; nofun
  have htab : ∀ pa, pa ∈ tablePages s.mem r ↔ IsPage pa ∧ (G.use pa).Of r pa := fun pa => by
    rw [tablePages, mem_filter, mem_range, h.tablePage_iff hr, PHYSTOP_eq]
    refine and_congr_left fun hu => ⟨fun _ => h.isPage (hnf hu), fun hp => hp.bounds.2.2⟩
  refine ⟨s.freelist.toFinset ∪ tablePages s.mem r, ?_, fun pa => ?_⟩
  · rw [card_union_of_disjoint, List.toFinset_card_of_nodup h.pages.nodup]
    refine disjoint_left.2 fun pa hx hy => ?_
    exact hnf ((htab pa).1 hy).2 ((h.pages.free_mem pa).1 (List.mem_toFinset.1 hx)).2
  · rw [mem_union, List.mem_toFinset, h.pages.free_mem, htab, ← and_or_left]

/-! ## Calls that fail -/

/-- **A `growproc` that fails was to grow, and has mapped nothing**: what it leaves behind are pages
of the page table. -/
theorem growproc_fail (h : KInv T G s) (hp : p < NPROC) (hr : (s.procs p).pagetable = r)
    (hne : r ≠ 0) (e : growproc p n s = .ok (-1, s')) :
    0 < n ∧ ∃ G' b, Own G' s' ∧ Frame (userOf r (npages (s.procs p).sz)) ∅ G G' s s' ∧
    G'.maps = G.maps ∧
      Growth (lowsOf r (npages (s.procs p).sz) b) G G' := by
  subst hr
  have hs := h.spans p hp hne
  unfold growproc at e
  rw [getProc_bind] at e
  split at e
  next hpos =>
    obtain ⟨ret, s1, G1, e1, h1, hF, hT, hres⟩ := uvmalloc_spec h.own (h.use_pagetable hp hne) hs
      (x := PTE_W) (by decide +kernel) (((s.procs p).sz + n) % 2 ^ 64).toNat
    rw [bind_ok e1] at e
    split at e
    next h0 =>
      obtain ⟨-, rfl⟩ := ok_inj e
      have hs1 : Spans G1 (s.procs p).pagetable (npages (s.procs p).sz) := by
        rcases hres with ⟨-, hs1, -⟩ | ⟨e, hs1, -⟩
        · exact hs1
        · rwa [show ret = (s.procs p).sz by omega] at hs1
      refine ⟨hpos, G1, _, h1, hF, Finset.ext fun ⟨r', v⟩ => ?_, hT⟩
      by_cases hx : (r', v) ∈ userOf (s.procs p).pagetable (npages (s.procs p).sz)
      · obtain rfl : r' = _ := hx.1
        rw [hs v, hs1 v]
      · exact hF.maps r' v hx
    next => rw [bind_ok (setProc_ok rfl)] at e; cases e
  next =>
    split at e
    next =>
      obtain ⟨s1, G1, e1, -⟩ :=
        uvmdealloc_spec (Y := ∅) h.own hs (((s.procs p).sz + n) % 2 ^ 64).toNat
      rw [bind_ok e1, bind_ok (setProc_ok rfl)] at e
      cases e
    next => rw [bind_ok (setProc_ok rfl)] at e; cases e

/-- Page `v` of table `r`, its entry and its bytes, is as before. -/
def PageKept (m m' : Nat → UInt8) (r v : Nat) : Prop :=
  leaf m' r v = leaf m r v ∧ ∀ o < 4096, m' (PTE2PA (leaf m r v) + o) = m (PTE2PA (leaf m r v) + o)

/-- **A call that undid what it did**: the process and every page it has mapped are as before, and
the free pages that are missing are pages of its page table. -/
structure Undone (s s' : KState) (p : Nat) : Prop where
  procs : s'.procs = s.procs
  leaf : ∀ v < 2 ^ 27, Xv6.leaf s'.mem (s.procs p).pagetable v =
    Xv6.leaf s.mem (s.procs p).pagetable v
  pages : ∀ v < npages (s.procs p).sz, PageKept s.mem s'.mem (s.procs p).pagetable v
  free : s'.freelist.length + (tablePages s'.mem (s.procs p).pagetable).card =
    s.freelist.length + (tablePages s.mem (s.procs p).pagetable).card

theorem growproc_undone (h : KInv .none G s) (hp : Runs s p) (e : growproc p n s = .ok (-1, s')) :
    Undone s s' p := by
  have hne := (h.runs hp).1
  have hroot := h.use_pagetable hp.1 hne
  have hs := h.spans p hp.1 hne
  obtain ⟨-, G', b, h', hF, hm, hT⟩ := growproc_fail h hp.1 rfl hne e
  have hroot' : G'.use (s.procs p).pagetable = .root := (hF.root _ (2 ^ 26) fun hx => by
    have := hx.2.2
    omega).2 hroot
  have hleaf : ∀ r v, v < 2 ^ 27 → G.use r = .root → leaf s'.mem r v = leaf s.mem r v :=
    fun r v hv hr => by
    by_cases hx : (r, v) ∈ userOf (s.procs p).pagetable (npages (s.procs p).sz)
    · -- above the size there is no entry before or after
      obtain ⟨rfl, h1, h2⟩ := hx
      have hno : (_, v) ∉ G.maps := fun hc => absurd ((hs v).1 hc) (not_lt.2 h1)
      rw [h.own.leaves.eq_zero hroot hno h2, h'.leaves.eq_zero hroot' (hm ▸ hno) h2]
    · exact hF.leaf r v hx hr hv
  refine ⟨hF.procs, fun v hv => hleaf _ v hv hroot, fun v hv => ?_, ?_⟩
  · have hmv := (hs v).2 hv
    refine ⟨hleaf _ v (h.own.leaves.lt hmv) hroot, hF.bytes _ v (fun hx => ?_) hmv⟩
    exact absurd hx.2.1 (not_le.2 hv)
  · obtain ⟨A, hA, hA'⟩ := h.own.card_free_table hroot
    obtain ⟨B, hB, hB'⟩ := h'.card_free_table hroot'
    rw [← hA, ← hB]
    refine congrArg _ (Finset.ext fun pa => ?_)
    rw [hA', hB', h.own.free_table_iff h' hF h.flight (fun _ _ hx => hx.2.2) hm
      (fun r v hx => hleaf r v (h.own.leaves.lt hx) (h.own.leaves.map_root r v hx)) hT
        fun _ hx => hx.1]

/-! ## Calls that succeed -/

/-- **The size is the exact sum**, the pages below both sizes are as they were, and the new ones
hold zeros. -/
structure Resized (s s' : KState) (p : Nat) (n : Int) : Prop where
  size : ((s'.procs p).sz : Int) = (s.procs p).sz + n
  procs : s'.procs = update s.procs p { s.procs p with sz := (s'.procs p).sz }
  pages : ∀ v < min (npages (s.procs p).sz) (npages (s'.procs p).sz),
    PageKept s.mem s'.mem (s.procs p).pagetable v
  zero : ∀ v, npages (s.procs p).sz ≤ v → v < npages (s'.procs p).sz →
    (leaf s'.mem (s.procs p).pagetable v).has PTE_V = true ∧
      ∀ o < 4096, s'.mem (PTE2PA (leaf s'.mem (s.procs p).pagetable v) + o) = 0

/-- **`sbrk` is exact just where the size stays at least 0**: for any `int` `growproc` returns, and
it returns 0 with the size changed by just that, or -1 with everything as it was, if and only if the
sum is not negative. -/
theorem sbrk_exact (h : machine.Reach s) (hp : Runs s p) (hn : n < 2 ^ 31) :
    ∃ ret s', growproc p n s = .ok (ret, s') ∧
      ((ret = 0 ∧ Resized s s' p n ∨ ret = -1 ∧ Undone s s' p) ↔ 0 ≤ (s.procs p).sz + n) := by
  obtain ⟨G, hG⟩ := machine_inv h
  have hne := (hG.runs hp).1
  have hs := hG.spans p hp.1 hne
  have hle := hG.own.spans_le hs
  obtain ⟨ret, sz, s', G', e, hG', hps, -, -, hV, -, hfresh, hres⟩ :=
    growproc_spec hG hp.1 hp.2.1 rfl hne n
  refine ⟨ret, s', e, ?_⟩
  rcases hres with ⟨rfl, hsz', -⟩ | ⟨rfl, -⟩
  · refine ⟨fun hr => ?_, fun hsz => ?_⟩
    · -- the new size is the sum, and a size
      have hsum := (hr.resolve_right fun hc => absurd hc.1 (by decide)).2.size
      omega
    have hpp : (s'.procs p).sz = sz := by rw [hps, Function.update_self]
    have hexact : (sz : Int) = (s.procs p).sz + n := by
      rw [hsz']
      unfold grown
      unfold npages at hle
      split_ifs <;> omega
    refine .inl ⟨rfl, by rw [hpp, hexact], by rw [hpp, hps], fun v hv => ?_, fun v h1 h2 => ?_⟩
    · rw [hpp] at hv
      have hmv := (hs v).2 (hv.trans_le (min_le_left _ _))
      have hx : ((s.procs p).pagetable, v) ∉
          userOf (s.procs p).pagetable (min (npages (s.procs p).sz) (npages sz)) :=
        fun hx => absurd hx.2.1 (not_le.2 hv)
      exact ⟨hV.leaf _ v hx (hG.use_pagetable hp.1 hne) (hG.own.leaves.lt hmv), hV.bytes _ v hx hmv⟩
    · rw [hpp] at h2
      have hpt : (s'.procs p).pagetable = (s.procs p).pagetable := by rw [hps, Function.update_self]
      have hmv := (hG'.spans p hp.1 (hpt ▸ hne) v).2 (hpp ▸ h2)
      rw [hpt] at hmv
      exact ⟨hG'.own.leaves.map_V _ v hmv, (hfresh v h1 h2).zero⟩
  · have hpos := (growproc_fail hG hp.1 rfl hne e).1
    exact iff_of_true (.inr ⟨rfl, growproc_undone hG hp e⟩) (by omega)

omit [Layout] in
/-- …for instance one page more for the first process. -/
theorem sbrk_exact_alone : ∃ (s s' : KState) (p : Nat) (ret : Int),
    (@machine sampleLayout).Reach s ∧ Runs s p ∧ (s.procs p).sz = PGSIZE ∧
    @growproc sampleLayout p PGSIZE s = .ok (ret, s') ∧
    (ret = 0 ∧ Resized s s' p PGSIZE ∨ ret = -1 ∧ Undone s s' p) := by
  let _ : Layout := sampleLayout
  obtain ⟨_, _, s, p, h0, hs, ha, -⟩ := exists_alone (by decide)
  have hr : machine.Reach s := .step (.init h0) hs
  obtain ⟨ret, s', e, hres⟩ := sbrk_exact (n := PGSIZE) hr ha.runs (by decide)
  exact ⟨s, s', p, ret, hr, ha.runs, ha.size, e, hres.2 (by rw [ha.size]; decide)⟩

omit [Layout] in
/-- **Giving back more than there is succeeds and gives back nothing**: `sz + n` wraps, and
`uvmdealloc` leaves the size as it is. -/
theorem sbrk_below_zero : ∃ (s s' : KState) (p : Nat), (@machine sampleLayout).Reach s ∧ Runs s p ∧
    (s.procs p).sz = PGSIZE ∧ @growproc sampleLayout p (-8192) s = .ok (0, s') ∧
    (s'.procs p).sz = PGSIZE := by
  let _ : Layout := sampleLayout
  obtain ⟨_, _, s, p, h0, hs, ha, hfree⟩ := exists_alone (by decide)
  obtain ⟨ret, sz, s', _, e, -, hps, -, -, -, -, -, hres⟩ :=
    growproc_spec ha.inv ha.runs.1 ha.runs.2.1 rfl (ha.inv.runs ha.runs).1 (-8192)
  have hgrow : grown PGSIZE (-8192) = PGSIZE := by decide
  have hpages : 10 ≤ (PHYSTOP - PGROUNDUP kend) / PGSIZE := by decide
  rw [ha.size, hgrow] at hres
  obtain ⟨rfl, rfl, -⟩ := hres.resolve_right fun ⟨_, hsz, hfew⟩ => by
    rw [hsz, hgrow, PGSIZE_eq] at hfew
    omega
  exact ⟨s, s', p, .step (.init h0) hs, ha.runs, ha.size, e, by rw [hps, Function.update_self]⟩

end Xv6
