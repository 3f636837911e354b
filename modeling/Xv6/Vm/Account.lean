import Mathlib.Algebra.BigOperators.Group.Finset.Sigma
import Mathlib.Algebra.Order.BigOperators.Group.Finset
import Xv6.Vm.Machine

/-!
# Vm/Account — every page is accounted for, and address spaces have their shape

What the ownership invariant says about the memory itself, with the ghost state gone: reference
counts are sums over page tables (`pages_accounted`), and the valid leaves of a page table are the
pages below the process size, the trapframe and the trampoline (`address_space_shape`).
-/

namespace Xv6

open Act Bytes Finset

variable [Layout] {G : Ghost} {s : KState} {r v pa p : Nat}

/-! ## Counting from the page tables -/

/-- The number of leaves below the process sizes that map `pa`, over all page tables. -/
def userRefs (s : KState) (pa : Nat) : Nat :=
  ∑ p ∈ Finset.range NPROC, ((Finset.range (npages (s.procs p).sz)).filter fun v =>
    (leaf s.mem (s.procs p).pagetable v).has PTE_V = true ∧
      PTE2PA (leaf s.mem (s.procs p).pagetable v) = pa).card

/-- A user page is one that is mapped. -/
theorem Own.user_iff (h : Own G s) (hf : G.flight = ∅) :
    G.use pa = .user ↔ ∃ r v, (r, v) ∈ G.maps ∧ PTE2PA (leaf s.mem r v) = pa := by
  constructor
  · intro hu
    have hpos := h.user_pos pa hu
    rw [Ghost.tokens, hf, filter_empty, card_empty, Nat.add_zero] at hpos
    obtain ⟨⟨r, v⟩, hx⟩ := card_pos.1 hpos
    obtain ⟨hm, e⟩ := mem_filter.1 hx
    exact ⟨r, v, hm, e⟩
  · rintro ⟨r, v, hm, rfl⟩
    exact h.leaves.map_user r v hm

/-- `pa` is one of the pages that make up page table `r`: the root, a page that a valid entry of
the root points to, or a page that a valid entry of such a page points to. -/
def TablePage (m : Nat → UInt8) (r pa : Nat) : Prop :=
  pa = r ∨ ∃ i < 512, (pteAt m (r + 8 * i)).has PTE_V = true ∧
    (PTE2PA (pteAt m (r + 8 * i)) = pa ∨
      ∃ j < 512, (pteAt m (PTE2PA (pteAt m (r + 8 * i)) + 8 * j)).has PTE_V = true ∧
        PTE2PA (pteAt m (PTE2PA (pteAt m (r + 8 * i)) + 8 * j)) = pa)

instance {m : Nat → UInt8} {r pa : Nat} : Decidable (TablePage m r pa) := by
  unfold TablePage
  infer_instance

/-- The kernel owns `pa`: a page-table page or the trapframe of a process, or a page other kernel
code holds. -/
def KernelOwns (s : KState) (pa : Nat) : Prop :=
  (∃ p < NPROC, (s.procs p).pagetable ≠ 0 ∧ TablePage s.mem (s.procs p).pagetable pa) ∨
    (∃ p < NPROC, (s.procs p).trapframe ≠ 0 ∧ (s.procs p).trapframe = pa) ∨ pa ∈ s.kheld

instance {s : KState} {pa : Nat} : Decidable (KernelOwns s pa) := by
  unfold KernelOwns
  infer_instance

/-- A valid entry of a root enters a level-1 page. -/
theorem Own.root_entry (h : Own G s) (hr : G.use r = .root) {i : Nat} (hi : i < 512)
    (hV : (pteAt s.mem (r + 8 * i)).has PTE_V = true) :
    G.use (PTE2PA (pteAt s.mem (r + 8 * i))) = .mid r i := by
  rcases h.tables.root_child r i hr hi with hc | ⟨t, ht, e⟩
  · rw [hV] at hc
    exact absurd hc (by simp)
  · rw [e, PTE2PA_tableEntry h.paged (by simp [ht])]
    exact ht

/-- …and a valid entry of that a level-0 page. -/
theorem Own.mid_entry (h : Own G s) {t i j : Nat} (ht : G.use t = .mid r i) (hj : j < 512)
    (hV : (pteAt s.mem (t + 8 * j)).has PTE_V = true) :
    G.use (PTE2PA (pteAt s.mem (t + 8 * j))) = .low r (512 * i + j) := by
  rcases h.tables.mid_child t r i j ht hj with hc | ⟨c, hc, e⟩
  · rw [hV] at hc
    exact absurd hc (by simp)
  · rw [e, PTE2PA_tableEntry h.paged (by simp [hc])]
    exact hc

/-- A level-1 page of `r` is a page of the tree under `r`, and so is the level-0 page below it. -/
theorem Own.mid_tablePage (h : Own G s) {i : Nat} (hu : G.use pa = .mid r i) :
    TablePage s.mem r pa := by
  obtain ⟨hi, -, e⟩ := h.tables.mid_parent pa r i hu
  refine .inr ⟨i, hi, by rw [e, tableEntry_V], .inl ?_⟩
  rw [e, PTE2PA_tableEntry h.paged (by simp [hu])]

theorem Own.low_tablePage (h : Own G s) {q : Nat} (hu : G.use pa = .low r q) :
    TablePage s.mem r pa := by
  obtain ⟨t, ht, e⟩ := h.tables.low_parent pa r q hu
  obtain ⟨hi, -, e'⟩ := h.tables.mid_parent t r _ ht
  have et : PTE2PA (pteAt s.mem (r + 8 * (q / 512))) = t := by
    rw [e', PTE2PA_tableEntry h.paged (by simp [ht])]
  refine .inr ⟨q / 512, hi, by rw [e', tableEntry_V], .inr ⟨q % 512, Nat.mod_lt _ (by omega), ?_⟩⟩
  rw [et, e]
  exact ⟨tableEntry_V pa, PTE2PA_tableEntry h.paged (by simp [hu])⟩

/-- The pages of the tree under `r` are the pages used for it. -/
theorem Own.tablePage (h : Own G s) (hr : G.use r = .root) (ht : TablePage s.mem r pa) :
    (G.use pa).IsTable := by
  obtain rfl | ⟨i, hi, hV, rfl | ⟨j, hj, hV', rfl⟩⟩ := ht
  · rw [hr]
    trivial
  · rw [h.root_entry hr hi hV]
    trivial
  · rw [h.mid_entry (h.root_entry hr hi hV) hj hV']
    trivial

/-- **What the kernel owns is what the ghost state says it uses.** -/
theorem KInv.kernelOwns_iff (h : KInv .none G s) (pa : Nat) :
    KernelOwns s pa ↔ G.use pa ≠ .free ∧ G.use pa ≠ .user := by
  have hroot : ∀ {r}, G.use r = .root → ∃ p < NPROC, (s.procs p).pagetable ≠ 0 ∧
      (s.procs p).pagetable = r := fun {r} hr => by
    obtain hc | ⟨p, hp, rfl, hne⟩ := (h.root r).1 hr
    · exact absurd hc (Set.notMem_empty r)
    · exact ⟨p, hp, hne, rfl⟩
  have htable : ∀ {r}, G.use r = .root → TablePage s.mem r pa → KernelOwns s pa :=
    fun hr ht => by
      obtain ⟨p, hp, hne, rfl⟩ := hroot hr
      exact .inl ⟨p, hp, hne, ht⟩
  constructor
  · rintro (⟨p, hp, hne, ht⟩ | ⟨p, hp, hne, rfl⟩ | hk)
    · have := h.own.tablePage (h.use_pagetable hp hne) ht
      constructor <;> intro e <;> rw [e] at this <;> exact this
    · rw [(h.trap _ p).2 ⟨hp, rfl, hne⟩]
      simp
    · rw [(h.held pa).2 (.inl hk)]
      simp
  · rintro ⟨h1, h2⟩
    rcases hu : G.use pa with _ | _ | ⟨r, i⟩ | ⟨r, q⟩ | p | _ | _
    · exact absurd hu h1
    · exact htable hu (.inl rfl)
    · exact htable (h.own.tables.mid_parent pa r i hu).2.1 (h.own.mid_tablePage hu)
    · exact htable (h.own.tables.low_root hu) (h.own.low_tablePage hu)
    · obtain ⟨hp, e, hne⟩ := (h.trap pa p).1 hu
      exact .inr (.inl ⟨p, hp, e ▸ hne, e⟩)
    · exact .inr (.inr (((h.held pa).1 hu).resolve_right (Set.notMem_empty pa)))
    · exact absurd hu h2

/-- The mappings of one page table, as leaves below the process size. -/
theorem KInv.card_leaves (h : KInv .none G s) (hp : p < NPROC) (pa : Nat) :
    ((Finset.range (npages (s.procs p).sz)).filter fun v =>
      (leaf s.mem (s.procs p).pagetable v).has PTE_V = true ∧
        PTE2PA (leaf s.mem (s.procs p).pagetable v) = pa).card =
    (G.maps.filter fun x => x.1 = (s.procs p).pagetable ∧
      PTE2PA (leaf s.mem x.1 x.2) = pa).card := by
  have hsz : (s.procs p).pagetable = 0 → s.procs p = {} := fun h0 =>
    h.unused p hp (Set.notMem_empty p) (by
      by_contra hc
      exact (h.live p hp (Set.notMem_empty p) hc).1 h0)
  have hmap : ∀ v, ((s.procs p).pagetable, v) ∈ G.maps ↔ v < npages (s.procs p).sz := fun v => by
    by_cases h0 : (s.procs p).pagetable = 0
    · have hno : ((s.procs p).pagetable, v) ∉ G.maps := fun hm => by
        have h1 := (h.own.isPage (by rw [h.own.leaves.map_root _ v hm]; simp)).bounds
        omega
      rw [hsz h0] at hno ⊢
      exact ⟨fun hm => absurd hm hno, nofun⟩
    · exact h.spans p hp h0 v
  refine card_bij (fun v _ => ((s.procs p).pagetable, v)) (fun v hv => ?_)
    (fun v _ w _ e => (Prod.mk.inj e).2) fun ⟨r, v⟩ hx => ?_
  · obtain ⟨hv, -, e⟩ := mem_filter.1 hv
    exact mem_filter.2 ⟨(hmap v).2 (mem_range.1 hv), rfl, e⟩
  · obtain ⟨hm, (rfl : r = _), e⟩ := mem_filter.1 hx
    exact ⟨v, mem_filter.2 ⟨mem_range.2 ((hmap v).1 hm), h.own.leaves.map_V _ v hm, e⟩,
      rfl⟩

/-- **The references the ghost state counts are the leaves that map the page.** -/
theorem KInv.userRefs_eq (h : KInv .none G s) (pa : Nat) :
    userRefs s pa = G.tokens (leaf s.mem) pa := by
  have hsplit : (G.maps.filter fun x => PTE2PA (leaf s.mem x.1 x.2) = pa) =
      (Finset.range NPROC).biUnion fun p =>
        G.maps.filter fun x => x.1 = (s.procs p).pagetable ∧ PTE2PA (leaf s.mem x.1 x.2) = pa := by
    ext ⟨r, v⟩
    simp only [mem_biUnion, mem_filter, mem_range]
    refine ⟨fun ⟨hm, e⟩ => ?_, fun ⟨_, _, hm, _, e⟩ => ⟨hm, e⟩⟩
    obtain hc | ⟨p, hp, e', -⟩ := (h.root r).1 (h.own.leaves.map_root r v hm)
    · exact absurd hc (Set.notMem_empty r)
    · exact ⟨p, hp, hm, e'.symm, e⟩
  have hdisj : ∀ p ∈ Finset.range NPROC, ∀ q ∈ Finset.range NPROC, p ≠ q →
      Disjoint
        (G.maps.filter fun x => x.1 = (s.procs p).pagetable ∧ PTE2PA (leaf s.mem x.1 x.2) = pa)
        (G.maps.filter fun x => x.1 = (s.procs q).pagetable ∧
          PTE2PA (leaf s.mem x.1 x.2) = pa) := by
    refine fun p hp q hq hne => disjoint_left.2 fun ⟨r, v⟩ hx hy => hne ?_
    obtain ⟨hm, e1, -⟩ := mem_filter.1 hx
    obtain ⟨-, e2, -⟩ := mem_filter.1 hy
    have h1 := (h.own.isPage (by rw [h.own.leaves.map_root r v hm]; simp)).bounds
    have e1' : r = (s.procs p).pagetable := e1
    exact h.inj p q (mem_range.1 hp) (mem_range.1 hq) (e1'.symm.trans e2) (by omega)
  have hfl : (G.flight.filter fun x => x.2 = pa) = ∅ := by rw [h.flight]; rfl
  unfold Ghost.tokens userRefs
  rw [hsplit, card_biUnion hdisj, hfl, card_empty, Nat.add_zero]
  exact sum_congr rfl fun p hp => h.card_leaves (mem_range.1 hp) pa

/-- The pages `kinit` gives to the allocator. -/
theorem isPage_of_range (hmod : pa % PGSIZE = 0) (hlo : PGROUNDUP kend ≤ pa) (hhi : pa < PHYSTOP) :
    IsPage pa := by
  have hk := Layout.kend_le
  rw [PHYSTOP_eq] at hk hhi
  rw [PGSIZE_eq] at hmod
  rw [PGROUNDUP_npages (by omega)] at hlo
  unfold npages at hlo
  exact isPage_iff.2 ⟨hmod, by omega, hhi⟩

/-- The reference count of a page: its leaves, plus one if the kernel owns it. -/
theorem KInv.refCount_eq (h : KInv .none G s) (hpa : IsPage pa) :
    s.referCount (refIdx pa) = userRefs s pa + if KernelOwns s pa then 1 else 0 := by
  have hzero : G.use pa ≠ .user → userRefs s pa = 0 := fun hu => by
    rw [h.userRefs_eq, Ghost.tokens, filter_false_of_mem, filter_false_of_mem]
    · rfl
    · rintro ⟨r, q⟩ hx (rfl : q = pa)
      exact hu (h.own.leaves.flight_user r q hx)
    · rintro ⟨r, v⟩ hx
      exact h.own.leaves.not_mapped hu hx
  rw [h.own.ref pa hpa]
  by_cases hu : G.use pa = .user
  · rw [if_neg (by rw [h.kernelOwns_iff, hu]; simp), Ghost.refs_user hu,
      h.userRefs_eq, Nat.add_zero]
  · rw [hzero hu]
    by_cases hf : G.use pa = .free
    · rw [if_neg (by rw [h.kernelOwns_iff, hf]; simp)]
      simp [Ghost.refs, hf]
    · rw [if_pos ((h.kernelOwns_iff pa).2 ⟨hf, hu⟩)]
      unfold Ghost.refs
      rcases hc : G.use pa <;> simp_all

/-- A page is on the free list exactly when its count is 0. -/
theorem KInv.free_iff (h : KInv .none G s) (hpa : IsPage pa) :
    pa ∈ s.freelist ↔ s.referCount (refIdx pa) = 0 := by
  rw [h.own.pages.free_mem, h.own.ref pa hpa]
  refine ⟨fun hf => by simp [Ghost.refs, hf.2], fun h0 => ⟨hpa, ?_⟩⟩
  by_contra hf
  unfold Ghost.refs at h0
  rcases hc : G.use pa <;> rw [hc] at h0 hf <;> simp only at h0 <;> try omega
  · exact hf rfl
  · have := h.own.user_pos pa hc
    omega

/-- **Reference counts are exact and pages are conserved**: in every reachable state the count of
a page is the number of leaves below the process sizes that map it, plus one if the kernel owns it;
the page is on the free list once if the count is 0, and not at all otherwise; no count has ever
wrapped. -/
theorem pages_accounted (h : machine.Reach s) :
    (∀ pa, pa % PGSIZE = 0 → PGROUNDUP kend ≤ pa → pa < PHYSTOP →
      s.referCount (refIdx pa) = userRefs s pa + (if KernelOwns s pa then 1 else 0) ∧
        s.freelist.count pa = if s.referCount (refIdx pa) = 0 then 1 else 0) ∧
      s.wrapped = false ∧ ∀ i, s.referCount i < 256 := by
  obtain ⟨G, hG⟩ := machine_inv h
  refine ⟨fun pa hmod hlo hhi => ?_, hG.own.pages.wrapped, hG.own.pages.byte⟩
  have hpa := isPage_of_range hmod hlo hhi
  refine ⟨hG.refCount_eq hpa, ?_⟩
  rw [hG.own.pages.nodup.count]
  simp only [hG.free_iff hpa]

omit [Layout] in
/-- …for instance the page that the first process shares with its child after `fork`. -/
theorem pages_accounted_shared : ∃ s p x, (@machine sampleLayout).Reach s ∧
    leaf s.mem (s.procs p).pagetable 0 = x ∧ x.has PTE_RSW_COW = true ∧
    s.referCount (refIdx (PTE2PA x)) =
      userRefs s (PTE2PA x) + (if KernelOwns s (PTE2PA x) then 1 else 0) ∧
    2 ≤ s.referCount (refIdx (PTE2PA x)) ∧ s.freelist.count (PTE2PA x) = 0 := by
  let _ : Layout := sampleLayout
  obtain ⟨G, s, p, hr, h⟩ := exists_forks (by decide)
  have hm := (h.inv.spans p h.runs.1 (h.inv.runs h.runs).1 0).2 (by rw [h.size]; decide)
  have hpa := h.inv.own.mapped hm
  have hpos : s.referCount (refIdx (PTE2PA (leaf s.mem (s.procs p).pagetable 0))) ≠ 0 :=
    fun h0 => by
    have hu := h.inv.own.leaves.map_user _ 0 hm
    rw [((h.inv.own.pages.free_mem _).1 ((h.inv.free_iff hpa).2 h0)).2] at hu
    cases hu
  have hmany := h.many
  obtain ⟨hmod, hlo, hhi⟩ := isPage_iff.1 hpa
  have hround : PGROUNDUP kend = kend := by decide
  obtain ⟨hcount, hfree⟩ := (pages_accounted hr).1 _ hmod (hround.trans_le hlo) hhi
  exact ⟨s, p, _, hr, rfl, h.cow, hcount, by omega, by rw [hfree, if_neg hpos]⟩

/-! ## The shape of address spaces -/

/-- The panics that a page table out of shape leads to. -/
def ShapePanic (e : Panic) : Prop :=
  e = .uvmcopyPte ∨ e = .uvmcopyPresent ∨ e = .uvmunmapWalk ∨ e = .uvmunmapMapped ∨
    e = .uvmunmapLeaf ∨ e = .mappagesRemap ∨ e = .freewalkLeaf

/-- The valid leaves of a process's page table. -/
theorem KInv.valid_iff (h : KInv .none G s) (hp : p < NPROC) (hne : (s.procs p).pagetable ≠ 0)
    (hv : v < 2 ^ 27) :
    (leaf s.mem (s.procs p).pagetable v).has PTE_V = true ↔
      4096 * v < PGROUNDUP (s.procs p).sz ∨ 4096 * v = TRAPFRAME ∨ 4096 * v = TRAMPOLINE := by
  have hs := h.spans p hp hne
  have hle := h.own.size_le fun w hw => (hs w).2 hw
  rw [PGROUNDUP_npages (by unfold npages at hle; omega), TRAPFRAME_page, TRAMPOLINE_page]
  constructor
  · intro hV
    rcases h.own.leaves.only _ v (h.use_pagetable hp hne) hv (Pte.ne_zero_of_has hV) with hm | hm
    · have := (hs v).1 hm
      exact .inl (by omega)
    · rcases h.own.spec_cases hm with rfl | rfl
      exacts [.inr (.inr rfl), .inr (.inl rfl)]
  · rintro (hlt | e | e)
    · exact h.own.leaves.map_V _ v ((hs v).2 (by omega))
    · obtain rfl : v = trapframePage := by omega
      exact h.own.leaves.spec_V _ _ (h.spec p hp hne).2
    · obtain rfl : v = trampolinePage := by omega
      exact h.own.leaves.spec_V _ _ (h.spec p hp hne).1

/-- **Address spaces keep their shape**: in every reachable state the valid leaves of a live
process are the pages below its size, the trapframe and the trampoline, and no operation that can
start there ends in one of the panics that guard this. -/
theorem address_space_shape (h : machine.Reach s) :
    (∀ p < NPROC, (s.procs p).state ≠ .unused → ∀ v < 2 ^ 27,
      ((leaf s.mem (s.procs p).pagetable v).has PTE_V = true ↔
        4096 * v < PGROUNDUP (s.procs p).sz ∨ 4096 * v = TRAPFRAME ∨ 4096 * v = TRAMPOLINE)) ∧
      ∀ (o : Op) e, o.Enabled s → o.run s = .error e → ¬ ShapePanic e := by
  obtain ⟨G, hG⟩ := machine_inv h
  refine ⟨fun p hp hl v hv => hG.valid_iff hp (hG.live p hp (Set.notMem_empty p) hl).1 hv,
    fun o e he hr hc => ?_⟩
  rcases Op.ok hG o he with ⟨e', hr', hS⟩ | ⟨s', G', hr', -⟩ <;> rw [hr] at hr' <;> cases hr'
  rcases hS with rfl | rfl <;> simp [ShapePanic] at hc

omit [Layout] in
/-- …for instance the first process after `fork`, which shares its one page. -/
theorem address_space_shape_shared : ∃ s p, (@machine sampleLayout).Reach s ∧
    (leaf s.mem (s.procs p).pagetable 0).has PTE_RSW_COW = true ∧
    (leaf s.mem (s.procs p).pagetable 0).has PTE_V = true ∧ (leaf s.mem (s.procs p).pagetable 1).has
    PTE_V = false := by
  let _ : Layout := sampleLayout
  obtain ⟨G, s, p, hr, h⟩ := exists_forks (by decide)
  have hshape := (address_space_shape hr).1 p h.runs.1 h.runs.2.1
  rw [h.size] at hshape
  refine ⟨s, p, hr, h.cow, (hshape 0 (by decide)).2 (by decide), ?_⟩
  rw [← Bool.not_eq_true, hshape 1 (by decide)]
  decide

end Xv6
