import Xv6.Vm.Account

/-!
# Vm/StoreFault — what a store fault leaves behind

`cow_alloc` takes one of two paths, and they do not end in the same entry: a page with one reference
becomes an ordinary writable page, a shared one is copied and the entry of the copy keeps
`PTE_RSW_COW` (`cowAlloc_private` says what both leave, `cowAlloc_restores` is the first path,
`copy_keeps_mark` the second).

The branch of `usertrap` that calls it compares `fault_va` with `p->sz` and then walks.  Below the
size the walk finds an entry.  At the size it does so only if the level-0 page happens to exist
(`storeFault_total`, `storeFault_at_size`).
-/

namespace Xv6

open Act Bytes Function

variable [Layout] {G G' : Ghost} {s s' : KState} {p r v va ret : Nat} {x : Pte}

/-! ## `cow_alloc` -/

/-- **The page of `v` is private to table `r` now**: its entry leads to `ret`, with flags `f`; `ret`
holds the bytes the page had and has one reference; the page before it lost a reference if it is
another one; and no other entry of a process has changed. -/
structure Private (s s' : KState) (r v ret : Nat) (f : Pte) : Prop where
  page : PTE2PA (leaf s'.mem r v) = ret
  flags : PTE_FLAGS (leaf s'.mem r v) = f
  bytes : ∀ o < 4096, s'.mem (ret + o) = s.mem (PTE2PA (leaf s.mem r v) + o)
  count : s'.referCount (refIdx ret) = 1
  old : s'.referCount (refIdx (PTE2PA (leaf s.mem r v))) +
    (if ret = PTE2PA (leaf s.mem r v) then 0 else 1) =
      s.referCount (refIdx (PTE2PA (leaf s.mem r v)))
  rest : ∀ q < NPROC, (s.procs q).state ≠ .unused → ∀ w < 2 ^ 27, ((s.procs q).pagetable, w) ≠
    (r, v) → leaf s'.mem (s.procs q).pagetable w = leaf s.mem (s.procs q).pagetable w

section

omit [Layout]

theorem FLAGS_or {y : Pte} : PTE_FLAGS (x ||| y) = PTE_FLAGS x ||| PTE_FLAGS y := by
  unfold PTE_FLAGS
  refine BitVec.eq_of_getLsbD_eq fun i _ => ?_
  simp only [BitVec.getLsbD_and, BitVec.getLsbD_or, Bool.and_or_distrib_right]

theorem FLAGS_and {y : Pte} : PTE_FLAGS (x &&& y) = PTE_FLAGS x &&& y := by
  unfold PTE_FLAGS
  rw [BitVec.and_assoc, BitVec.and_comm y, ← BitVec.and_assoc]

theorem FLAGS_FLAGS : PTE_FLAGS (PTE_FLAGS x) = PTE_FLAGS x := by
  unfold PTE_FLAGS
  rw [BitVec.and_assoc, BitVec.and_self]

theorem FLAGS_PA2PTE (c : Nat) : PTE_FLAGS (PA2PTE c) = 0#64 := by
  unfold PTE_FLAGS PA2PTE
  refine BitVec.eq_of_getLsbD_eq fun i hi => ?_
  rw [BitVec.getLsbD_and, BitVec.getLsbD_zero, BitVec.getLsbD_shiftLeft]
  by_cases h : i < 10
  · simp [h]
  · have hmask : (0x3FF#64).getLsbD i = false := by
      rw [BitVec.getLsbD_ofNat, show (0x3FF : Nat) = 2 ^ 10 - 1 from rfl,
        Nat.testBit_two_pow_sub_one]
      simp [h]
    rw [hmask, Bool.and_false]

theorem FLAGS_W : PTE_FLAGS PTE_W = PTE_W := by
  unfold PTE_FLAGS
  decide

theorem FLAGS_V : PTE_FLAGS PTE_V = PTE_V := by
  unfold PTE_FLAGS
  decide

/-- A valid entry has `PTE_V` already. -/
theorem or_V (h : x.has PTE_V = true) : x ||| PTE_V = x := by
  rw [Pte.has_V] at h
  refine BitVec.eq_of_getLsbD_eq fun i _ => ?_
  rw [BitVec.getLsbD_or]
  by_cases h0 : i = 0
  · rw [h0, h, Bool.true_or]
  · rw [show PTE_V.getLsbD i = false by simp [PTE_V, h0], Bool.or_false]

/-- The flags of an entry made writable in place… -/
theorem FLAGS_soleEntry : PTE_FLAGS (soleEntry x) = (PTE_FLAGS x ||| PTE_W) &&& ~~~PTE_RSW_COW := by
  rw [soleEntry, FLAGS_and, FLAGS_or, FLAGS_W]

/-- …and of the entry of a copy. -/
theorem FLAGS_copyEntry (hV : x.has PTE_V = true) (c : Nat) :
    PTE_FLAGS (copyEntry x c) = PTE_FLAGS x ||| PTE_W := by
  rw [copyEntry, FLAGS_or, FLAGS_or, FLAGS_FLAGS, FLAGS_PA2PTE, FLAGS_V, FLAGS_or,
    FLAGS_W, BitVec.zero_or]
  exact or_V (by simp [hV])

end

/-- Where the mapping moves to another page, the old page has one reference less. -/
theorem Own.count_moved (h : Own G s) (h' : Own G' s') (hm : (r, v) ∈ G.maps)
    (hmaps : G'.maps = G.maps) (hfl : G'.flight = G.flight)
    (hu : G'.use (PTE2PA (leaf s.mem r v)) = .user)
    (hne : PTE2PA (leaf s'.mem r v) ≠ PTE2PA (leaf s.mem r v))
    (hleaf : ∀ r' w, (r', w) ∈ G.maps → (r', w) ≠ (r, v) → leaf s'.mem r' w = leaf s.mem r' w) :
    s'.referCount (refIdx (PTE2PA (leaf s.mem r v))) + 1 =
      s.referCount (refIdx (PTE2PA (leaf s.mem r v))) := by
  have hpa := h.mapped hm
  have e : G.tokens (leaf s.mem) (PTE2PA (leaf s.mem r v)) = _ := Ghost.tokens_delMap hm
  have e' : G'.tokens (leaf s'.mem) (PTE2PA (leaf s.mem r v)) = _ :=
    Ghost.tokens_delMap (hmaps ▸ hm)
  have hrest : (G'.delMap r v).tokens (leaf s'.mem) (PTE2PA (leaf s.mem r v)) =
      (G.delMap r v).tokens (leaf s.mem) (PTE2PA (leaf s.mem r v)) := by
    refine Ghost.tokens_congr (by simp [hmaps]) hfl fun r' w hw => ?_
    obtain ⟨hne', hw⟩ := Finset.mem_erase.1 hw
    rw [hleaf r' w (hmaps ▸ hw) hne']
  rw [if_pos rfl] at e
  rw [if_neg hne, hrest] at e'
  rw [h.ref _ hpa, h'.ref _ hpa, Ghost.refs_user (h.leaves.map_user r v hm),
    Ghost.refs_user hu, e, e']

/-- **What `cow_alloc` leaves when it returns a page**, whatever the sharing: the flags are the old
ones with `PTE_W`, and with `PTE_RSW_COW` cleared only if the page had one reference. -/
theorem cowAlloc_private (h : KInv .none G s) (hm : (r, v) ∈ G.maps)
    (e : cowAlloc r (4096 * v) s = .ok (ret, s')) (h0 : ret ≠ 0) :
    Private s s' r v ret (if s.referCount (refIdx (PTE2PA (leaf s.mem r v))) = 1 then
      (PTE_FLAGS (leaf s.mem r v) ||| PTE_W) &&& ~~~PTE_RSW_COW else PTE_FLAGS (leaf s.mem r v)
        ||| PTE_W) := by
  obtain ⟨ret', s1, G1, e1, h1, hF, hend⟩ := cowAlloc_spec h.own hm rfl
  obtain ⟨rfl, rfl⟩ := ok_inj (e1.symm.trans e)
  have hrest : ∀ q < NPROC, (s.procs q).state ≠ .unused → ∀ w < 2 ^ 27, ((s.procs q).pagetable, w) ≠
      (r, v) → leaf s1.mem (s.procs q).pagetable w = leaf s.mem (s.procs q).pagetable w :=
      fun q hq hl w hw hne =>
    hF.leaf _ w hne (h.use_pagetable hq (h.live q hq (Set.notMem_empty q) hl).1) hw
  cases hend with
  | @sole a one addr =>
    obtain ⟨-, -, hleaf, hbytes⟩ := h.own.flag_store (Y := ∅) hm addr (.inl rfl)
    exact
      { page := by rw [hleaf, PTE2PA_soleEntry]
        flags := by rw [if_pos one, hleaf, FLAGS_soleEntry]
        bytes := hbytes
        count := one
        old := by rw [if_pos rfl]; rfl
        rest := hrest }
  | full many addr empty => exact absurd rfl h0
  | copied many page free list maps entry bytes sole old =>
    have hm1 : (r, v) ∈ G1.maps := by rw [maps]; exact hm
    have hpage : PTE2PA (leaf s1.mem r v) = ret' := by rw [entry, PTE2PA_copyEntry page]
    have hne : ret' ≠ PTE2PA (leaf s.mem r v) := (h.own.leaves.not_mapped (by simp [free]) hm).symm
    have hother : ∀ r' w, (r', w) ∈ G.maps → (r', w) ≠ (r, v) →
        leaf s1.mem r' w = leaf s.mem r' w :=
      fun r' w hw hne => hF.leaf_map h.own hw hne
    -- the page was shared, so another mapping still leads to it
    have hu : G1.use (PTE2PA (leaf s.mem r v)) = .user := by
      by_contra hu
      refine many (h.own.count_sole h.flight hm fun r' w hw e => ?_)
      by_contra hc
      refine hu ?_
      rw [← e, ← hother r' w hw fun e => hc (Prod.mk.inj e)]
      exact h1.leaves.map_user r' w (by rw [maps]; exact hw)
    exact
      { page := hpage
        flags := by rw [if_neg many, entry, FLAGS_copyEntry (h.own.leaves.map_V r v hm)]
        bytes := bytes
        count := by
          rw [← hpage]
          exact h1.count_sole (hF.flight_eq.trans h.flight) hm1 fun r' w hw e => sole r' w
            hw (e.trans hpage)
        old := by
          rw [if_neg hne]
          exact h.own.count_moved h1 hm maps hF.flight_eq hu (by rw [hpage]; exact hne) hother
        rest := hrest }

/-- An entry with the mark is a user mapping of its process. -/
theorem KInv.marked_mapped (h : KInv .none G s) (hp : p < NPROC) (hl : (s.procs p).state ≠ .unused)
    (hv : v < 2 ^ 27) (hC : (leaf s.mem (s.procs p).pagetable v).has PTE_RSW_COW = true) :
    ((s.procs p).pagetable, v) ∈ G.maps := by
  have hr := h.use_pagetable hp (h.live p hp (Set.notMem_empty p) hl).1
  refine (h.own.leaves.only _ v hr hv (Pte.ne_zero_of_has hC)).resolve_right fun hs => ?_
  rw [h.own.leaves.spec_COW _ v hs] at hC
  cases hC

/-- **Resolving a fault restores an ordinary private page just when the page has one reference**:
then, and only then, the flags are the old ones with `PTE_W` set and `PTE_RSW_COW` cleared, and
`is_cowpage` says no. -/
theorem cowAlloc_restores (h : machine.Reach s) (hp : p < NPROC) (hl : (s.procs p).state ≠ .unused)
    (hv : v < 2 ^ 27) (hC : (leaf s.mem (s.procs p).pagetable v).has PTE_RSW_COW = true)
    (e : cowAlloc (s.procs p).pagetable (4096 * v) s = .ok (ret, s')) (h0 : ret ≠ 0) :
    (Private s s' (s.procs p).pagetable v ret
        ((PTE_FLAGS (leaf s.mem (s.procs p).pagetable v) ||| PTE_W) &&& ~~~PTE_RSW_COW) ∧
      isCowpage (s.procs p).pagetable (4096 * v) s' = .ok (false, s')) ↔
    s.referCount (refIdx (PTE2PA (leaf s.mem (s.procs p).pagetable v))) = 1 := by
  obtain ⟨G, hG⟩ := machine_inv h
  have hm := hG.marked_mapped hp hl hv hC
  have hP := cowAlloc_private hG hm e h0
  refine ⟨fun hr => by_contra fun hmany => ?_, fun hone => ?_⟩
  · -- the entry of a copy keeps the mark
    rw [if_neg hmany] at hP
    have hcow := congrArg (Pte.has · PTE_RSW_COW) (hP.flags.symm.trans hr.1.flags)
    simp [hC] at hcow
  rw [if_pos hone] at hP
  have hW : (leaf s'.mem (s.procs p).pagetable v).has PTE_W = true := by
    rw [← Pte.has_W_FLAGS, hP.flags]
    simp
  have hno : (leaf s'.mem (s.procs p).pagetable v).has PTE_RSW_COW = false := by
    rw [← Pte.has_COW_FLAGS, hP.flags]
    simp
  cases ha : leafAddr s'.mem (s.procs p).pagetable v with
  | none =>
    rw [leaf, ha] at hW
    simp at hW
  | some a =>
    refine ⟨hP, ?_⟩
    rw [isCowpage_eq (hG.own.leaves.map_lt _ v hm) (Nat.mul_div_cancel_left v (by decide)) ha, hno]

/-- **Its next store copies the page**, in a step of the machine. -/
theorem Forks.store {G : Ghost} (h : Forks G s p) (hr : machine.Reach s) :
    ∃ ret s', cowAlloc (s.procs p).pagetable (4096 * 0) s = .ok (ret, s') ∧ ret ≠ 0 ∧
    machine.Reach s' ∧
      s'.procs = s.procs := by
  have hne := (h.inv.runs h.runs).1
  have hm := h.inv.marked_mapped h.runs.1 h.runs.2.1 (by decide) h.cow
  obtain ⟨ret, s', G', e, -, hF, hend⟩ := cowAlloc_spec h.inv.own hm rfl
  have h0 : ret ≠ 0 := by
    cases hend with
    | sole one addr => exact absurd one h.many
    | full many addr empty => exact absurd empty h.mem
    | copied many page free list maps entry bytes sole old =>
      have := page.bounds
      omega
  refine ⟨ret, s', e, h0, .step (a := .store p 0 0) hr ⟨⟨?_, trivial⟩, ?_⟩, hF.procs⟩
  · rintro q ⟨⟩
    exact h.runs
  · obtain ⟨a, ha⟩ := h.inv.own.addr_of_map hm
    have hw : ¬ Writable s.mem (s.procs p).pagetable 0 := fun hc => by
      have hW := hc.2.2.2
      rw [h.ro] at hW
      cases hW
    have hfault : storeFault p 0 s = .ok ((), s') := by
      unfold storeFault
      rw [getProc_bind, if_neg (Nat.not_lt_zero _),
        bind_ok (isCowpage_eq (h.inv.own.leaves.map_lt _ 0 hm) rfl ha), h.cow, if_pos rfl,
        show PGROUNDDOWN 0 = 4096 * 0 from rfl, bind_ok e, if_neg h0]
      rfl
    rw [Op.run_store, if_neg hw, bind_ok hfault, exitIfKilled,
      getProc_bind, hF.procs, if_neg (by simp [h.killed])]
    rfl

omit [Layout] in
/-- **The copy of a shared page keeps the mark**: `cow_alloc` returns a page, the entry leads to it
with `PTE_W` and, still, `PTE_RSW_COW`. -/
theorem copy_keeps_mark : ∃ (s s' : KState) (p ret : Nat), (@machine sampleLayout).Reach s ∧
    (s.procs p).state ≠ .unused ∧ (leaf s.mem (s.procs p).pagetable 0).has PTE_V = true ∧
    (leaf s.mem (s.procs p).pagetable 0).has PTE_RSW_COW = true ∧
    @cowAlloc sampleLayout (s.procs p).pagetable (4096 * 0) s = .ok (ret, s') ∧ ret ≠ 0 ∧
    PTE_FLAGS (leaf s'.mem (s.procs p).pagetable 0) ≠
      (PTE_FLAGS (leaf s.mem (s.procs p).pagetable 0) ||| PTE_W) &&& ~~~PTE_RSW_COW ∧
    (leaf s'.mem (s.procs p).pagetable 0).has PTE_RSW_COW = true := by
  let _ : Layout := sampleLayout
  obtain ⟨G, s, p, hr, h⟩ := exists_forks (by decide)
  have hm := h.inv.marked_mapped h.runs.1 h.runs.2.1 (by decide) h.cow
  obtain ⟨ret, s', e, h0, -, -⟩ := h.store hr
  have hP := cowAlloc_private h.inv hm e h0
  rw [if_neg h.many] at hP
  have hcow : (leaf s'.mem (s.procs p).pagetable 0).has PTE_RSW_COW = true := by
    rw [← Pte.has_COW_FLAGS, hP.flags]
    simp [h.cow]
  refine ⟨s, s', p, ret, hr, h.runs.2.1, h.inv.own.leaves.map_V _ 0 hm, h.cow, e, h0,
    fun hc => ?_, hcow⟩
  rw [← Pte.has_COW_FLAGS, hc] at hcow
  simp at hcow

omit [Layout] in
/-- The copy has one reference, so the next `cow_alloc` on it does restore an ordinary page. -/
theorem cowAlloc_restores_copy : ∃ (s s' : KState) (p ret : Nat), (@machine sampleLayout).Reach s ∧
    @cowAlloc sampleLayout (s.procs p).pagetable (4096 * 0) s = .ok (ret, s') ∧
    isCowpage (s.procs p).pagetable (4096 * 0) s' = .ok (false, s') := by
  let _ : Layout := sampleLayout
  obtain ⟨G, s, p, hr, h⟩ := exists_forks (by decide)
  have hm := h.inv.marked_mapped h.runs.1 h.runs.2.1 (by decide) h.cow
  obtain ⟨ret, s1, e, h0, hr1, hps⟩ := h.store hr
  have hP := cowAlloc_private h.inv hm e h0
  rw [if_neg h.many] at hP
  obtain ⟨G1, h1⟩ := machine_inv hr1
  have hcow : (leaf s1.mem (s1.procs p).pagetable 0).has PTE_RSW_COW = true := by
    rw [hps, ← Pte.has_COW_FLAGS, hP.flags]
    simp [h.cow]
  have hone : s1.referCount (refIdx (PTE2PA (leaf s1.mem (s1.procs p).pagetable 0))) = 1 := by
    rw [hps, hP.page]
    exact hP.count
  have hl : (s1.procs p).state ≠ .unused := by
    rw [hps]
    exact h.runs.2.1
  have hm1 := h1.marked_mapped h.runs.1 hl (by decide) hcow
  obtain ⟨ret2, s2, G2, e2, -, -, hend⟩ := cowAlloc_spec h1.own hm1 rfl
  have h2 : ret2 ≠ 0 := by
    cases hend with
    | sole one addr =>
      have := (h1.own.mapped hm1).bounds
      omega
    | full many addr empty | copied many page free list maps entry bytes sole old =>
      exact absurd hone many
  exact ⟨s1, s2, p, ret2, hr1, e2,
    ((cowAlloc_restores hr1 h.runs.1 hl (by decide) hcow e2 h2).2 hone).2⟩

/-! ## The store-fault branch of `usertrap` -/

/-- **The store-fault branch is total, except at the size itself**: for a running process and any
`fault_va`, the branch returns with the page, which was copy-on-write, writable now or with the
process marked killed, if and only if `fault_va` is not the size or a level-0 page exists for it. -/
theorem storeFault_total (h : machine.Reach s) (hp : Runs s p) (va : Nat) :
    (∃ s', storeFault p va s = .ok ((), s') ∧
      ((leaf s.mem (s.procs p).pagetable (va / 4096)).has PTE_RSW_COW = true ∧ s'.procs = s.procs ∧
          (leaf s'.mem (s.procs p).pagetable (va / 4096)).has PTE_W = true ∨
        (s'.procs p).killed = true)) ↔
    (va = (s.procs p).sz → leafAddr s.mem (s.procs p).pagetable (va / 4096) ≠ none) := by
  obtain ⟨G, hG⟩ := machine_inv h
  have hne := (hG.runs hp).1
  rcases storeFault_cases hG hp.1 rfl hne va with
    ⟨hle, hnone, e⟩ | ⟨hva, e⟩ | ⟨ret, s1, G1, -, hm, hcow, h1, hF, hend, e⟩
  · refine iff_of_false (by rintro ⟨s', e', -⟩; cases e.symm.trans e') fun hva => ?_
    -- below the size there is an entry
    rcases Nat.lt_or_eq_of_le hle with hlt | heq
    · have hm : ((s.procs p).pagetable, va / 4096) ∈ G.maps :=
        (hG.spans p hp.1 hne _).2 (by unfold npages; omega)
      obtain ⟨a, ha⟩ := hG.own.addr_of_map hm
      rw [hnone] at ha
      cases ha
    · exact hva heq hnone
  · exact iff_of_true ⟨_, e, .inr (by simp)⟩ fun heq => hva.resolve_left heq.not_gt
  · refine iff_of_true ?_ fun heq hnone => ?_
    · by_cases h0 : ret = 0
      · rw [if_pos h0] at e
        exact ⟨_, e, .inr (by simp)⟩
      · rw [if_neg h0] at e
        exact ⟨s1, e, .inl ⟨hcow, hF.procs, ((hend.opened hG.own hm h1 hF hcow h0).1.sole hcow).1⟩⟩
    · obtain ⟨a, ha⟩ := hG.own.addr_of_map hm
      rw [hnone] at ha
      cases ha

omit [Layout] in
/-- …for instance a store to the page that the first process shares with its child. -/
theorem storeFault_total_shared : ∃ (s s' : KState) (p : Nat), (@machine sampleLayout).Reach s ∧
    (leaf s.mem (s.procs p).pagetable 0).has PTE_RSW_COW = true ∧
    s.referCount (refIdx (PTE2PA (leaf s.mem (s.procs p).pagetable 0))) ≠ 1 ∧
    @storeFault sampleLayout p 0 s = .ok ((), s') := by
  let _ : Layout := sampleLayout
  obtain ⟨G, s, p, hr, h⟩ := exists_forks (by decide)
  obtain ⟨s', e, -⟩ := (storeFault_total hr h.runs 0).2 fun hc => by
    rw [h.size] at hc
    cases hc
  exact ⟨s, s', p, hr, h.cow, h.many, e⟩

omit [Layout] in
/-- **A store at the size of the process can bring the kernel down**: after `sbrk` to 2 MiB there is
no level-0 page for the next address, and `is_cowpage` reads through the null pointer that `walk`
returns. -/
theorem storeFault_at_size : ∃ (s : KState) (p : Nat), (@machine sampleLayout).Reach s ∧ Runs s p ∧
    (s.procs p).sz = 0x200000 ∧ @storeFault sampleLayout p 0x200000 s = .error .kerneltrap := by
  let _ : Layout := sampleLayout
  obtain ⟨G0, sb, s0, p, hb, hs0, ha, hl0⟩ := exists_alone (by decide)
  have hp := ha.runs
  have hgrow : grown PGSIZE (0x200000 - PGSIZE : Nat) = 4096 * 512 := by decide
  have hpages : 32000 ≤ (PHYSTOP - PGROUNDUP kend) / PGSIZE := by decide
  obtain ⟨s, G, -, hr, hG, hruns, hps, -, hT, -⟩ :=
    ha.grow (.step (.init hb) hs0) (n := (0x200000 - PGSIZE : Nat))
      (by rw [hgrow, npages_mul]; omega)
  rw [hgrow] at hps hT
  have hpp : s.procs p = { s0.procs p with sz := 0x200000 } := by rw [hps, Function.update_self]
  have hroot := hG.use_pagetable hp.1 (hG.runs hruns).1
  rw [hpp] at hroot
  -- the tree has level-0 pages for the first 2 MiB and for the top
  have hnone : leafAddr s.mem (s0.procs p).pagetable 512 = none := by
    refine hG.own.tables.leafAddr_none hG.own.paged hroot (by decide) fun c hc => ?_
    have hc0 := (hT.low_iff fun hx => ?_).1 hc
    · rcases ha.lows c _ hc0 with h1 | h1 <;> exact absurd h1 (by decide)
    · obtain ⟨-, w, h1, h2, h3⟩ := hx
      simp only [npages] at h2
      simp only at h3
      omega
  refine ⟨s, p, hr, hruns, by rw [hpp], ?_⟩
  have hcow : isCowpage (s0.procs p).pagetable 0x200000 s = .error .kerneltrap :=
    isCowpage_none (by rw [MAXVA_eq]; decide) hnone
  unfold storeFault
  rw [getProc_bind, hpp, if_neg (lt_irrefl _), bind_apply, hcow]

end Xv6
