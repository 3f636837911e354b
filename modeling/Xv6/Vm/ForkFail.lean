import Xv6.Vm.Account

/-!
# Vm/ForkFail — a failed `fork` leaves no trace

`fork` can run out of memory for the trapframe, for the child's page table and for any table page
while `uvmcopy` is half-way through the parent.  Whatever the point, the pages it took are free
again, the references it counted are dropped, and the parent can do with its pages what it could
before: an entry that lost `PTE_W` on the way is copy-on-write instead (`failed_fork_traceless`).
-/

namespace Xv6

open Act Bytes Function Finset

variable [Layout] {G G' : Ghost} {s s' : KState} {p q v pa : Nat} {x : Pte}

/-! ## What user code may do -/

/-- What user code can do through an entry: read, execute, write (at once, or once the store fault
has made a copy). -/
def userRights (x : Pte) : Bool × Bool × Bool :=
  let user := x.has PTE_V && x.has PTE_U
  (user && x.has PTE_R, user && x.has PTE_X, user && (x.has PTE_W || x.has PTE_RSW_COW))

omit [Layout] in
theorem cowMark_X : (cowMark x).has PTE_X = x.has PTE_X := by
  unfold cowMark
  split <;> simp

omit [Layout] in
/-- **The mark of `uvmcopy` takes no right away.** -/
@[simp] theorem userRights_cowMark : userRights (cowMark x) = userRights x := by
  simp [userRights, cowMark_X]

/-! ## Nothing is left -/

/-- Where the processes, the pages other code holds and the trees are as before, so is what the
kernel owns. -/
theorem KInv.kernelOwns_congr (h : KInv .none G s) (h' : KInv .none G' s')
    (hps : s'.procs = s.procs) (hk : s'.kheld = s.kheld) (hG : Growth ∅ G G') (pa : Nat) :
    KernelOwns s' pa ↔ KernelOwns s pa := by
  have hroot : G'.use pa = .root ↔ G.use pa = .root := by rw [h.root, h'.root, hps]
  have htrap : ∀ q, G'.use pa = .trap q ↔ G.use pa = .trap q :=
    fun q => by rw [h.trap, h'.trap, hps]
  have hheld : G'.use pa = .held ↔ G.use pa = .held := by rw [h.held, h'.held, hk]
  have hmid : ∀ r i, G'.use pa = .mid r i ↔ G.use pa = .mid r i := fun r i =>
    hG.mid_iff fun q _ => Set.notMem_empty _
  have hlow : ∀ r q, G'.use pa = .low r q ↔ G.use pa = .low r q := fun r q =>
    hG.low_iff (Set.notMem_empty _)
  -- a use of the kernel is a use on both sides
  have hside : ∀ {u : Use}, u ≠ .free → u ≠ .user → (G'.use pa = u ↔ G.use pa = u) := by
    intro u h1 h2
    cases u with
    | free => exact absurd rfl h1
    | root => exact hroot
    | mid r i => exact hmid r i
    | low r q => exact hlow r q
    | trap q => exact htrap q
    | held => exact hheld
    | user => exact absurd rfl h2
  rw [h.kernelOwns_iff, h'.kernelOwns_iff]
  constructor
  · rintro ⟨h1, h2⟩
    rw [(hside h1 h2).1 rfl]
    exact ⟨h1, h2⟩
  · rintro ⟨h1, h2⟩
    rw [(hside h1 h2).2 rfl]
    exact ⟨h1, h2⟩

section

variable {j : Nat} (hM : Marked (s.procs p).pagetable (npages (s.procs p).sz) j G G' s.mem s'.mem)
  (h : KInv .none G s) (hq : q < NPROC) (hl : (s.procs q).pagetable ≠ 0)

include hM h hq hl

/-- The leaves of a live process after a failed `fork` of `p`. -/
theorem Marked.leaf_or (hv : v < 2 ^ 27) :
    leaf s'.mem (s.procs q).pagetable v = leaf s.mem (s.procs q).pagetable v ∨
      leaf s'.mem (s.procs q).pagetable v = cowMark (leaf s.mem (s.procs q).pagetable v) := by
  by_cases hx : ((s.procs q).pagetable, v) ∈ pagesOf (s.procs p).pagetable 0 (npages (s.procs p).sz)
  · obtain ⟨e, -, hv'⟩ := hx
    have e' : (s.procs q).pagetable = (s.procs p).pagetable := e
    rw [e', hM.parent v hv']
    split
    exacts [.inr rfl, .inl rfl]
  · exact .inl (hM.view.leaf _ v hx (h.use_pagetable hq hl) hv)

/-- …and the bytes it sees. -/
theorem Marked.bytes_eq (hv : v < npages (s.procs q).sz) {o : Nat} (ho : o < 4096) :
    s'.mem (PTE2PA (leaf s.mem (s.procs q).pagetable v) + o) =
      s.mem (PTE2PA (leaf s.mem (s.procs q).pagetable v) + o) := by
  by_cases hx : ((s.procs q).pagetable, v) ∈ pagesOf (s.procs p).pagetable 0 (npages (s.procs p).sz)
  · obtain ⟨e, -, hv'⟩ := hx
    have e' : (s.procs q).pagetable = (s.procs p).pagetable := e
    rw [e']
    exact hM.bytes v hv' o ho
  · exact hM.view.bytes _ v hx ((h.spans q hq hl v).2 hv) o ho

end

/-- A process without a page table has no pages. -/
theorem KInv.npages_zero (h : KInv .none G s) (hq : q < NPROC) (h0 : (s.procs q).pagetable = 0) :
    npages (s.procs q).sz = 0 := by
  rw [h.unused q hq (Set.notMem_empty q) (by
    by_contra hc
    exact (h.live q hq (Set.notMem_empty q) hc).1 h0)]
  rfl

/-- No page gains or loses a mapping. -/
theorem Marked.userRefs_eq {j : Nat}
    (hM : Marked (s.procs p).pagetable (npages (s.procs p).sz) j G G' s.mem s'.mem)
    (h : KInv .none G s) (hps : s'.procs = s.procs) (pa : Nat) :
    userRefs s' pa = userRefs s pa := by
  unfold userRefs
  rw [hps]
  refine sum_congr rfl fun q hq => congrArg Finset.card (filter_congr fun v hv => ?_)
  rw [mem_range] at hq hv
  by_cases h0 : (s.procs q).pagetable = 0
  · rw [h.npages_zero hq h0] at hv
    exact absurd hv (Nat.not_lt_zero v)
  · rcases hM.leaf_or h hq h0 (h.own.leaves.lt ((h.spans q hq h0 v).2 hv)) with e | e <;> rw [e]
    rw [cowMark_V, PTE2PA_cowMark]

/-- **A failed `fork` leaves no trace.**  `fork` of a running process does not panic; if it returns
-1, in whatever state it started, the process table is as before, with the slot it had chosen unused
and of size 0; every page has as many mappings, is owned by the kernel and has the reference count
it had, and the free pages are the same; and every process sees the bytes it saw, through entries
with the rights they had. -/
theorem failed_fork_traceless (h : machine.Reach s) (hp : Runs s p) :
    (∀ e, fork p s ≠ .error e) ∧ ∀ s', fork p s = .ok (none, s') →
      s'.procs = s.procs ∧
      (∀ np, findUnused s NPROC 0 = some np →
        (s'.procs np).state = .unused ∧ (s'.procs np).sz = 0 ∧ (s'.procs np).pagetable = 0) ∧
      (∀ pa, userRefs s' pa = userRefs s pa ∧ (KernelOwns s' pa ↔ KernelOwns s pa)) ∧
      (∀ pa, pa % PGSIZE = 0 → PGROUNDUP kend ≤ pa → pa < PHYSTOP →
        s'.referCount (refIdx pa) = s.referCount (refIdx pa) ∧
        (pa ∈ s'.freelist ↔ pa ∈ s.freelist)) ∧
      ∀ q < NPROC, (s.procs q).state ≠ .unused →
        (∀ v < 2 ^ 27, userRights (leaf s'.mem (s.procs q).pagetable v) =
            userRights (leaf s.mem (s.procs q).pagetable v) ∧
          PTE2PA (leaf s'.mem (s.procs q).pagetable v) =
            PTE2PA (leaf s.mem (s.procs q).pagetable v)) ∧
        ∀ v < npages (s.procs q).sz, ∀ o < 4096,
          s'.mem (PTE2PA (leaf s'.mem (s.procs q).pagetable v) + o) =
            s.mem (PTE2PA (leaf s.mem (s.procs q).pagetable v) + o) := by
  obtain ⟨G, hG⟩ := machine_inv h
  obtain ⟨ret, s1, G1, e1, h1, -, hk, hres⟩ := fork_spec hG rfl rfl hp.1 hp.2.1
  refine ⟨fun e he => by simp [e1] at he, fun s' hs' => ?_⟩
  obtain ⟨rfl, rfl⟩ := Prod.mk.inj (Except.ok.inj (e1.symm.trans hs'))
  obtain ⟨-, hps, hW, j, -, hM, -⟩ := hres.resolve_right fun ⟨np, rn, tf, hc, _⟩ => by cases hc
  have hown : ∀ pa, KernelOwns s1 pa ↔ KernelOwns s pa := hG.kernelOwns_congr h1 hps hk hW
  have hrefs : ∀ pa, userRefs s1 pa = userRefs s pa := hM.userRefs_eq hG hps
  have hcount : ∀ pa, IsPage pa → s1.referCount (refIdx pa) = s.referCount (refIdx pa) :=
    fun pa hpa => by
    rw [hG.refCount_eq hpa, h1.refCount_eq hpa, hrefs]
    simp only [hown]
  refine ⟨hps, fun np hnp => ?_, fun pa => ⟨hrefs pa, hown pa⟩, fun pa hmod hlo hhi => ?_,
    fun q hq hl => ?_⟩
  · obtain ⟨hlt, hst⟩ := findUnused_spec hnp
    rw [hps, hG.unused np (by omega) (Set.notMem_empty np) hst]
    exact ⟨rfl, rfl, rfl⟩
  · have hpa := isPage_of_range hmod hlo hhi
    exact ⟨hcount pa hpa, by rw [hG.free_iff hpa, h1.free_iff hpa, hcount pa hpa]⟩
  · have hne := (hG.live q hq (Set.notMem_empty q) hl).1
    have hright : ∀ v < 2 ^ 27, userRights (leaf s1.mem (s.procs q).pagetable v) =
          userRights (leaf s.mem (s.procs q).pagetable v) ∧
        PTE2PA (leaf s1.mem (s.procs q).pagetable v) =
          PTE2PA (leaf s.mem (s.procs q).pagetable v) := by
      intro v hv
      rcases hM.leaf_or hG hq hne hv with e | e <;> rw [e]
      · exact ⟨rfl, rfl⟩
      · exact ⟨userRights_cowMark, PTE2PA_cowMark⟩
    refine ⟨hright, fun v hv o ho => ?_⟩
    rw [(hright v (hG.own.leaves.lt ((hG.spans q hq hne v).2 hv))).2]
    exact hM.bytes_eq hG hq hne hv ho

/-! ## A `fork` that fails half-way -/

/-- **The level-0 pages of the child were free**: no other use of a page ends in `fork`. -/
theorem Forked.low_free {np rn c k : Nat} {b : Proc}
    (hF : Forked (s.procs p).pagetable rn (npages (s.procs p).sz) G G' s.mem s'.mem)
    (h : KInv .none G s) (h' : KInv .none G' s') (hT : Growth (allOf rn) G G') (hp : Runs s p)
    (hrn : G.use rn = .free) (h0 : s.procs np = {}) (hps : s'.procs = update s.procs np b)
    (hc : G'.use c = .low rn k) : G.use c = .free := by
  have hne : ∀ {r}, G.use r = .root → r ≠ rn := fun hr e => by
    rw [e, hrn] at hr
    cases hr
  have hs := h.spans p hp.1 (h.runs hp).1
  have hpp : s'.procs p = s.procs p := by
    rw [hps, update_of_ne]
    rintro rfl
    exact hp.2.1 (by rw [h0])
  have hs' := h'.spans p hp.1 (by rw [hpp]; exact (h.runs hp).1)
  rw [hpp] at hs'
  -- the use it would have had is still there
  have hno : ∀ {u : Use}, G'.use c = u → u ≠ .low rn k → False := fun e hu => hu (e.symm.trans hc)
  cases hu : G.use c with
  | free => rfl
  | root =>
    refine (hno ((hF.view.root c (2 ^ 26) ?_).2 hu) (by simp)).elim
    rintro (hx | ⟨-, -, hx⟩)
    · exact hne hu hx
    · have := h.own.spans_le hs
      simp only at hx
      omega
  | mid r i =>
    have hr := (h.own.tables.mid_parent c r i hu).2.1
    exact (hno ((hT.mid_iff fun q _ => hne hr).2 hu) (by simp)).elim
  | low r q =>
    have hr := hne (h.own.tables.low_root hu)
    exact (hno ((hT.low_iff hr).2 hu) fun e => hr (Use.low.inj e).1).elim
  | trap q =>
    exact (hno ((hF.view.keep c (Set.notMem_empty c) (.inr ⟨q, hu⟩)).1.trans hu) (by simp)).elim
  | held => exact (hno ((hF.view.keep c (Set.notMem_empty c) (.inl hu)).1.trans hu) (by simp)).elim
  | user =>
    obtain ⟨r, v, hm, rfl⟩ := (h.own.user_iff h.flight).1 hu
    have hr := hne (h.own.leaves.map_root r v hm)
    by_cases hx : (r, v) ∈ pagesOf (s.procs p).pagetable 0 (npages (s.procs p).sz)
    · obtain ⟨rfl, -, hv⟩ := hx
      have := h'.own.leaves.map_user _ v ((hs' v).2 hv)
      rw [hF.parent v hv, PTE2PA_cowMark] at this
      exact (hno this (by simp)).elim
    · have hx' : (r, v) ∉ allOf rn ∪ pagesOf (s.procs p).pagetable 0 (npages (s.procs p).sz) :=
        not_or.2 ⟨hr, hx⟩
      have := h'.own.leaves.map_user r v ((hF.view.maps r v hx').2 hm)
      rw [hF.view.leaf_map h.own hm hx'] at this
      exact (hno this (by simp)).elim

/-- **`fork` needs a page for every 512 pages of the parent.** -/
theorem fork_low {ret : Option (Nat × Nat)} {n : Nat} (h : KInv .none G s) (hp : Runs s p)
    (e : fork p s = .ok (ret, s')) (hret : ret ≠ none) (hn : 512 * n ≤ npages (s.procs p).sz) :
    n ≤ s.freelist.length := by
  obtain ⟨ret', s1, G', e', h', -, -, ⟨hr, -⟩ | ⟨np, rn, tf, -, hnp, h0, hfree, hps, hF, hT, -⟩⟩ :=
    fork_spec h rfl rfl hp.1 hp.2.1
  all_goals obtain ⟨rfl, rfl⟩ := Prod.mk.inj (Except.ok.inj (e'.symm.trans e))
  · exact absurd hr hret
  have hb : (s1.procs np).pagetable = rn ∧ (s1.procs np).sz = (s.procs p).sz := by
    rw [hps, update_self]
    exact ⟨rfl, rfl⟩
  have hne := (h'.live np hnp (Set.notMem_empty np) (by rw [hps, update_self]; simp)).1
  have hs := h'.spans np hnp hne
  rw [hb.1, hb.2] at hs
  have hlow : ∀ k, ∃ c, k < n → G'.use c = .low rn k := fun k => by
    by_cases hk : k < n
    · have hm := (hs (512 * k)).2 (by omega)
      obtain ⟨a, ha⟩ := h'.own.addr_of_map hm
      obtain ⟨c, hc, -⟩ := h'.own.low_of_addr (h'.own.leaves.map_root rn _ hm)
        (h'.own.leaves.lt hm) ha
      rw [Nat.mul_div_cancel_left k (by decide)] at hc
      exact ⟨c, fun _ => hc⟩
    · exact ⟨0, fun hk' => absurd hk' hk⟩
  choose c hc using hlow
  have hsub : (Finset.range n).image c ⊆ s.freelist.toFinset := fun x hx => by
    obtain ⟨k, hk, rfl⟩ := Finset.mem_image.1 hx
    have hck := hc k (Finset.mem_range.1 hk)
    exact List.mem_toFinset.2 ((h.own.pages.free_mem _).2 ⟨h'.own.isPage (by simp [hck]),
      hF.low_free h h' hT hp hfree h0 hps hck⟩)
  have hinj : Set.InjOn c (Finset.range n) := fun j hj k hk ejk =>
    (Use.low.inj ((hc j (Finset.mem_range.1 hj)).symm.trans (ejk ▸ hc k (Finset.mem_range.1 hk)))).2
  calc
    n = ((Finset.range n).image c).card := by
      rw [Finset.card_image_of_injOn hinj, Finset.card_range]
    _ ≤ s.freelist.toFinset.card := Finset.card_le_card hsub
    _ ≤ s.freelist.length := s.freelist.toFinset_card_le

omit [Layout] in
/-- …for instance when memory runs out with the first pages of a process of 20 MiB already
shared. -/
theorem failed_fork_traceless_midway : ∃ (s s' : KState) (p : Nat),
    (@machine sampleLayout).Reach s ∧ Runs s p ∧ @fork sampleLayout p s = .ok (none, s') ∧
    s'.procs = s.procs ∧
      ∀ v < 2, (leaf s.mem (s.procs p).pagetable v).has PTE_W = true ∧
        (leaf s'.mem (s.procs p).pagetable v).has PTE_W = false := by
  let _ : Layout := sampleLayout
  obtain ⟨G0, sb, s0, p, hb, hs0, ha, hl0⟩ := exists_alone (by decide)
  have hpages : 32000 ≤ (PHYSTOP - PGROUNDUP kend) / PGSIZE := by decide
  have hgrow : grown PGSIZE (4096 * 5119 : Nat) = 4096 * 5120 := by decide
  obtain ⟨s1, G1, -, hr1, hG1, hp1, hps1, hV1, -, hfresh, hl1⟩ :=
    ha.grow (.step (.init hb) hs0) (n := (4096 * 5119 : Nat)) (by rw [hgrow, npages_mul]; omega)
  rw [hgrow, npages_mul] at hV1 hfresh hl1
  have hl1 := hl1 (by decide)
  obtain ⟨s, G, hr, hG, hlen, hps, hV⟩ := exists_drained (k := 9) hr1 hG1 (by omega)
  have hpp : s.procs p = { s0.procs p with sz := grown PGSIZE (4096 * 5119 : Nat) } := by
    rw [hps, hps1, update_self]
  have hn : npages (s.procs p).sz = 5120 := by rw [hpp, hgrow, npages_mul]
  have hp : Runs s p := by
    unfold Runs
    rw [hps]
    exact hp1
  have hW : ∀ v < 2, (leaf s.mem (s.procs p).pagetable v).has PTE_W = true := fun v hv => by
    have hroot := hG1.use_pagetable hp1.1 (hG1.runs hp1).1
    rw [← hps, hpp] at hroot
    rw [hpp, hV.leaf _ v (Set.notMem_empty _) hroot (by omega)]
    obtain rfl | rfl : v = 0 ∨ v = 1 := by omega
    · rw [hV1.leaf _ 0 (by simp [userOf])
        (ha.inv.use_pagetable hp.1 (ha.inv.runs ha.runs).1) (by decide)]
      exact ha.write
    · obtain ⟨pa, e⟩ := (hfresh 1 le_rfl (by decide)).entry
      rw [e]
      simp
  obtain ⟨ret, s', G', e, -, -, -, hres⟩ := fork_spec hG rfl rfl hp.1 hp.2.1
  have hret : ret = none := by
    by_contra hc
    have := fork_low (n := 10) hG hp e hc (by omega)
    omega
  subst hret
  obtain ⟨-, -, -, j, -, hM, hfew⟩ := hres.resolve_right fun ⟨np, rn, tf, hc, _⟩ => by cases hc
  have hj : 9 ≤ 6 + 2 * j := hlen ▸ hfew.resolve_right fun hfull => by
    obtain ⟨q, hq, hu⟩ := ha.slot
    refine hfull q hq ?_
    rw [hps, hps1, update_of_ne, hu]
    rintro rfl
    exact ha.runs.2.1 hu
  refine ⟨s, s', p, hr, hp, e, ((failed_fork_traceless hr hp).2 s' e).1, fun v hv => ⟨hW v hv, ?_⟩⟩
  rw [hM.parent v (by omega), if_pos (by omega), cowMark_W]

end Xv6
