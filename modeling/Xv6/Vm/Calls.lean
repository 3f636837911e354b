import Xv6.Vm.Share
import Xv6.Vm.Copy
import Xv6.Vm.Slot

/-!
# Vm/Calls — the system calls on processes

What `growproc`, `fork`, `exit`, `wait` and a store fault do to the process table and to every
address space, from any state in which the invariant holds.  Each result says which mappings may
change (the `View`) and what they become.
-/

namespace Xv6

open Act Bytes Function Set

variable [Layout] {T : Transit} {G G' : Ghost} {s s' : KState} {r v c p pa : Nat}
  {X : Set (Nat × Nat)} {Y : Set Nat}

/-- One process replaced in the table. -/
abbrev KState.setProc (s : KState) (p : Nat) (b : Proc) : KState :=
  { s with procs := update s.procs p b }

/-- No other mapping leads to the page of `(r, v)`. -/
def Sole (G : Ghost) (m : Nat → UInt8) (r v : Nat) : Prop :=
  ∀ r' w, (r', w) ∈ G.maps → PTE2PA (leaf m r' w) = PTE2PA (leaf m r v) → r' = r ∧ w = v

/-- A page with one mapping keeps to it, if what changes elsewhere does not lead to it. -/
theorem Sole.view {m' : Nat → UInt8} (h : Sole G s.mem r v) (ho : Own G s)
    (hV : View X Y G G' s.mem m') (hm : (r, v) ∈ G.maps) (hx : (r, v) ∉ X)
    (hnew : ∀ r' w, (r', w) ∈ X → (r', w) ∈ G'.maps → PTE2PA (leaf m' r' w) ≠
      PTE2PA (leaf s.mem r v)) :
    Sole G' m' r v := by
  intro r' w hw e
  rw [hV.leaf_map ho hm hx] at e
  by_cases hx' : (r', w) ∈ X
  · exact absurd e (hnew r' w hx' hw)
  · have hw0 := (hV.maps r' w hx').1 hw
    rw [hV.leaf_map ho hw0 hx'] at e
    exact h r' w hw0 e

/-! ## `growproc` -/

/-- The size `growproc` aims at. -/
def grown (sz : Nat) (n : Int) : Nat :=
  if n > 0 then max sz ((sz + n) % 2 ^ 64).toNat
  else if n < 0 then min sz ((sz + n) % 2 ^ 64).toNat
  else sz

/-- The size of a process changes with its pages. -/
theorem KInv.resize {sz : Nat} (h : KInv T G s) (hl : (s.procs p).state ≠ .unused)
    (ho : Own G' s') (hS : Shape X ∅ G G' s s') (hX : ∀ r v, (r, v) ∈ X → v < 2 ^ 26 - 2)
    (hs : Spans G' (s.procs p).pagetable (npages sz))
    (hq : ∀ q < NPROC, q ≠ p → (s.procs q).pagetable ≠ 0 →
      Spans G' (s.procs q).pagetable (npages (s.procs q).sz)) :
    KInv T G' (s'.setProc p { s'.procs p with sz := sz }) := by
  have hself : ∀ {q}, q ≠ p → update s'.procs p { s'.procs p with sz := sz } q = s.procs q :=
    fun hq => by rw [update_of_ne hq, hS.procs]
  have hp' : update s'.procs p { s'.procs p with sz := sz } p =
      { s.procs p with sz := sz } := by rw [update_self, hS.procs]
  refine h.reshape ho hS hX (fun q _ => ?_) (fun q _ => ?_) (fun q _ _ => ?_) fun q hq' hne => ?_
  all_goals by_cases hqp : q = p
  · rw [hqp, hp']
  · rw [hself hqp]
  · rw [hqp, hp']
  · rw [hself hqp]
  · rw [hqp, hp']
    exact .inr ⟨hl, hl⟩
  · exact .inl (hself hqp)
  · rw [hqp, hp']
    exact hs
  · rw [hself hqp] at hne ⊢
    exact hq q hq' hqp hne

/-- …and the other processes keep theirs. -/
theorem KInv.resizeUser {sz : Nat} (h : KInv T G s) (hp : p < NPROC)
    (hl : (s.procs p).state ≠ .unused) (ho : Own G' s')
    (hF : Frame (userOf (s.procs p).pagetable c) ∅ G G' s s')
    (hs : Spans G' (s.procs p).pagetable (npages sz)) :
    KInv T G' (s'.setProc p { s'.procs p with sz := sz }) := by
  refine h.resize hl ho hF.toShape (fun _ _ hx => hx.2.2) hs fun q hq hqp hne w => ?_
  rw [hF.maps _ w fun hx => hqp (h.inj q p hq hp hx.1 hne)]
  exact h.spans q hq hne w

/-- **`growproc`** for any `n`: new pages are fresh, pages below both sizes stay as they are. -/
theorem growproc_spec (h : KInv T G s) (hp : p < NPROC) (hl : (s.procs p).state ≠ .unused)
    (hr : (s.procs p).pagetable = r) (hne : r ≠ 0) (n : Int) :
    ∃ ret sz s' G', growproc p n s = .ok (ret, s') ∧ KInv T G' s' ∧
      s'.procs = update s.procs p { s.procs p with sz := sz } ∧ s'.initproc = s.initproc ∧
      s'.nextpid = s.nextpid ∧
      View (userOf r (min (npages (s.procs p).sz) (npages sz))) ∅ G G' s.mem s'.mem ∧
      Growth (lowsOf r (npages (s.procs p).sz) (npages (grown (s.procs p).sz n))) G G' ∧
      (∀ v, npages (s.procs p).sz ≤ v → v < npages sz → Fresh G' s' r v PTE_W) ∧
      ((ret = 0 ∧ sz = grown (s.procs p).sz n ∧
          (0 < n → s.freelist.length ≤ s'.freelist.length + 3 *
            (npages sz - npages (s.procs p).sz))) ∨
        (ret = -1 ∧ sz = (s.procs p).sz ∧
          (0 < sz → s.freelist.length ≤ 3 * (npages (grown sz n) - npages sz)))) := by
  subst hr
  have hroot := h.use_pagetable hp hne
  have hs := h.spans p hp hne
  unfold growproc
  rw [getProc_bind]
  simp only
  by_cases hpos : n > 0
  · rw [if_pos hpos]
    have hg : grown (s.procs p).sz n = max (s.procs p).sz (((s.procs p).sz + n) % 2 ^ 64).toNat :=
      if_pos hpos
    have hnew : npages (((s.procs p).sz + n) % 2 ^ 64).toNat ≤ npages (grown (s.procs p).sz n) := by
      unfold npages
      omega
    obtain ⟨ret, s1, G1, e1, h1, hF, hT, hres⟩ := uvmalloc_spec h.own hroot hs
      (x := PTE_W) (by decide +kernel) (((s.procs p).sz + n) % 2 ^ 64).toNat
    have hT' := hT.mono (lowsOf_mono le_rfl hnew)
    rw [bind_ok e1]
    by_cases h0 : ret = 0
    · have hs1 : Spans G1 (s.procs p).pagetable (npages (s.procs p).sz) := by
        rcases hres with ⟨-, hs1, -⟩ | ⟨e, hs1, -⟩
        · exact hs1
        · rwa [show ret = (s.procs p).sz by omega] at hs1
      rw [if_pos h0]
      have hself : update s1.procs p { s1.procs p with sz := (s.procs p).sz } = s1.procs := by
        rw [hF.procs]
        exact update_eq_self p s.procs
      have h2 := h.resizeUser hp hl h1 hF hs1
      rw [KState.setProc, hself] at h2
      refine ⟨-1, (s.procs p).sz, s1, G1, rfl, h2, ?_, hF.initproc, hF.nextpid,
        by rw [min_self]; exact hF.view, hT', fun v hv hv' => by omega,
        .inr ⟨rfl, rfl, fun hz => ?_⟩⟩
      · rw [hF.procs]
        exact (update_eq_self p s.procs).symm
      · rcases hres with ⟨-, -, hf⟩ | ⟨e, -⟩ <;> omega
    · rw [if_neg h0]
      rcases hres with ⟨hc, -⟩ | ⟨hret, hs1, hfresh, hf⟩
      · exact absurd hc h0
      refine ⟨0, ret, _, G1, by rw [bind_ok (setProc_ok rfl)]; rfl, h.resizeUser hp hl h1 hF hs1,
        ?_, hF.initproc, hF.nextpid, hF.view.mono ?_ subset_rfl, hT', fun v hv hv' => ?_,
        .inl ⟨rfl, hret.trans hg.symm, fun _ => hf.trans ?_⟩⟩
      · show update s1.procs p _ = _
        rw [hF.procs]
      · rintro ⟨r', v⟩ ⟨h2, h3, h4⟩
        exact ⟨h2, (min_le_left _ _).trans h3, h4⟩
      · obtain ⟨h2, h3, h4⟩ := hfresh v hv hv'
        exact ⟨h2, h3, h4⟩
      · rw [hret, ← hg]
        exact Nat.add_le_add_left (Nat.mul_le_mul_left 3 (Nat.sub_le_sub_right hnew _)) _
  · rw [if_neg hpos]
    by_cases hneg : n < 0
    · rw [if_pos hneg]
      obtain ⟨s1, G1, e1, h1, hF, hT, hs1, -⟩ := uvmdealloc_spec (Y := ∅) h.own hs
        (((s.procs p).sz + n) % 2 ^ 64).toNat
      have hF' := hF.mono (show _ ⊆ userOf (s.procs p).pagetable (min (npages (s.procs p).sz)
        (npages (min (s.procs p).sz (((s.procs p).sz + n) % 2 ^ 64).toNat))) from ?_) subset_rfl
      · refine ⟨0, min (s.procs p).sz (((s.procs p).sz + n) % 2 ^ 64).toNat, _, G1,
          by rw [bind_ok e1, bind_ok (setProc_ok rfl)]; rfl, h.resizeUser hp hl h1 hF' hs1, ?_,
          hF.initproc, hF.nextpid, hF'.view, hT.mono (empty_subset _), fun v hv hv' => ?_,
          .inl ⟨rfl, by rw [grown, if_neg hpos, if_pos hneg], fun h0 => absurd h0 hpos⟩⟩
        · show update s1.procs p _ = _
          rw [hF.procs]
        · unfold npages at hv hv'
          omega
      · rintro ⟨r', v⟩ ⟨h2, h3, h4⟩
        have hle := h.own.spans_le hs
        refine ⟨h2, ?_, by simp only at h4; omega⟩
        simp only at h3 ⊢
        unfold npages at h3 ⊢
        omega
    · rw [if_neg hneg]
      refine ⟨0, (s.procs p).sz, s, G, ?_, h, (update_eq_self p s.procs).symm, rfl, rfl,
        View.refl .., Growth.refl _ _, fun v hv hv' => by omega,
        .inl ⟨rfl, by rw [grown, if_neg hpos, if_neg hneg], fun h0 => absurd h0 hpos⟩⟩
      rw [bind_ok (setProc_ok rfl)]
      exact congrArg (fun f => Except.ok ((0 : Int), { s with procs := f }))
        (update_eq_self p s.procs)

/-! ## `fork` -/

/-- A live process changes in fields the memory does not depend on. -/
theorem KInv.setLive (h : KInv T G s) {b : Proc} (hpt : b.pagetable = (s.procs p).pagetable)
    (htf : b.trapframe = (s.procs p).trapframe) (hsz : b.sz = (s.procs p).sz)
    (hst : b.state ≠ .unused) (hl : (s.procs p).state ≠ .unused) : KInv T G (s.setProc p b) :=
  h.setFields hpt htf (fun _ => hsz) (.inr ⟨hst, hl⟩)

/-- A store into a trapframe. -/
theorem KInv.setTrap (h : KInv T G s) (ht : G.use c = .trap p) {a n : Nat} {f : Nat → UInt8}
    (h1 : c ≤ a) (h2 : a + n ≤ c + 4096) :
    KInv T G { s with mem := overlay s.mem a n f } ∧
      View ∅ {c} G G s.mem (overlay s.mem a n f) := by
  have hpg : IsPage c := h.own.isPage (by simp [ht])
  have htab : ¬ (G.use c).IsTable := by simp [ht, Use.IsTable]
  refine ⟨{ h with own := h.own.overlay hpg htab h1 h2 }, ?_⟩
  exact (Frame.overlay (X := ∅) (Y := {c}) h.own hpg htab h1 h2
    (fun r v hm e => absurd e (h.own.leaves.not_mapped (by simp [ht]) hm))
    fun _ => mem_singleton c).view

/-- A field of a trapframe. -/
theorem setTrapframe_inv (h : KInv T G s) (ht : G.use c = .trap p) (off : Nat)
    (hoff : off + 8 ≤ 4096) (v : Nat) :
    ∃ m, setTrapframe c off v s = .ok ((), { s with mem := m }) ∧ KInv T G { s with mem := m } ∧
      View ∅ {c} G G s.mem m ∧ getLE m (c + off) 8 = v % 2 ^ 64 ∧
      ∀ b, b + 8 ≤ c + off ∨ c + off + 8 ≤ b → getLE m b 8 = getLE s.mem b 8 := by
  obtain ⟨h1, hV⟩ := h.setTrap ht (a := c + off) (n := 8) (f := fun i => UInt8.ofNat (v / 256 ^ i))
    (by omega) (by omega)
  exact ⟨_, rfl, h1, hV, getLE_setLE .., fun b hb => getLE_setLE_out hb⟩

/-- The child's trapframe: the parent's with `a0 = 0`. -/
theorem fork_trapframe (h : KInv T G s) (ht : G.use c = .trap p) (src : Nat) :
    ∃ m1 m2, memmove c src 288 s = .ok ((), { s with mem := m1 }) ∧
      setTrapframe c 112 0 { s with mem := m1 } = .ok ((), { s with mem := m2 }) ∧
      KInv T G { s with mem := m2 } ∧ View ∅ {c} G G s.mem m2 := by
  obtain ⟨h1, hV1⟩ :=
    h.setTrap ht (a := c) (n := 288) (f := fun i => s.mem (src + i)) le_rfl (by omega)
  obtain ⟨m2, e2, h2, hV2, -⟩ := setTrapframe_inv h1 ht 112 (by omega) 0
  exact ⟨_, m2, rfl, e2, h2, hV1.trans h.own.leaves hV2⟩

/-- **`uvmcopy` between two processes**, the second without pages. -/
theorem uvmcopy_inv {np : Nat} (h : KInv T G s) (hroots : T.roots = ∅) (hp : p < NPROC)
    (hnp : np < NPROC) (hne : p ≠ np) (hp0 : (s.procs p).pagetable ≠ 0)
    (hn0 : (s.procs np).pagetable ≠ 0) (hl : (s.procs np).state ≠ .unused)
    (hz : (s.procs np).sz = 0) (hfl : ∀ pa, ((s.procs np).pagetable, pa) ∉ T.flight) :
    ∃ ret s' G', uvmcopy (s.procs p).pagetable (s.procs np).pagetable (s.procs p).sz s =
        .ok (ret, s') ∧
      Copied (leaf s.mem (s.procs p).pagetable) (s.procs p).pagetable (s.procs np).pagetable
        (npages (s.procs p).sz) G G' s s' ret (npages (s.procs p).sz) ∧
      ∀ sz, Spans G' (s.procs np).pagetable (npages sz) →
        KInv T G' (s'.setProc np { s'.procs np with sz := sz }) := by
  have hso := h.spans p hp hp0
  have hsn := h.spans np hnp hn0
  rw [hz] at hsn
  obtain ⟨ret, s', G', e, h', hC⟩ := uvmcopy_spec h.own (fun e => hne (h.inj p np hp hnp e hp0))
    (h.use_pagetable hp hp0) (h.use_pagetable hnp hn0) hso hsn (fun pa => h.no_flight (hfl pa))
    (h.fewRoots ⟨∅, by simp [hroots], by simp⟩)
  have hle := h.own.spans_le hso
  refine ⟨ret, s', G', e, hC, fun sz hs => h.resize hl h' hC.frame.toShape (fun r v hx => ?_) hs
    fun q hq hqn hq0 w => ?_⟩
  · rcases hx with ⟨-, -, hx⟩ | ⟨-, -, hx⟩ <;> simp only at hx <;> omega
  · by_cases hqp : q = p
    · rw [hqp]
      exact hC.old w
    · rw [hC.frame.maps _ w, h.spans q hq hq0 w]
      rintro (⟨hx, -⟩ | ⟨hx, -⟩)
      · exact hqp (h.inj q p hq hp hx hq0)
      · exact hqn (h.inj q np hq hnp hx hq0)

/-- What `fork` does to the address spaces: the child's table `rn` is new and shares the `n` pages
of the parent's `ro`. -/
structure Forked (ro rn n : Nat) (G G' : Ghost) (m m' : Nat → UInt8) : Prop where
  view : View (allOf rn ∪ pagesOf ro 0 n) ∅ G G' m m'
  parent : ∀ w < n, leaf m' ro w = cowMark (leaf m ro w)
  child : ∀ w < n, leaf m' rn w = childPte (leaf m ro w)
  bytes : ∀ w < n, ∀ o < 4096, m' (PTE2PA (leaf m ro w) + o) = m (PTE2PA (leaf m ro w) + o)

/-- A failed `fork` may leave pages of the parent marked: the first `j`. -/
structure Marked (ro n j : Nat) (G G' : Ghost) (m m' : Nat → UInt8) : Prop where
  view : View (pagesOf ro 0 n) ∅ G G' m m'
  parent : ∀ w < n, leaf m' ro w = if w < j then cowMark (leaf m ro w) else leaf m ro w
  bytes : ∀ w < n, ∀ o < 4096, m' (PTE2PA (leaf m ro w) + o) = m (PTE2PA (leaf m ro w) + o)

/-- **`fork`.** -/
theorem fork_spec (h : KInv T G s) (hslots : T.slots = ∅) (hroots : T.roots = ∅) (hp : p < NPROC)
    (hl : (s.procs p).state ≠ .unused) :
    ∃ ret s' G', fork p s = .ok (ret, s') ∧ KInv T G' s' ∧ s'.initproc = s.initproc ∧
    s'.kheld = s.kheld ∧
      ((ret = none ∧ s'.procs = s.procs ∧ Growth ∅ G G' ∧ ∃ j ≤ npages (s.procs p).sz,
          Marked (s.procs p).pagetable (npages (s.procs p).sz) j G G' s.mem s'.mem ∧
          (s.freelist.length ≤ 6 + 2 * j ∨ ∀ q < NPROC, (s.procs q).state ≠ .unused)) ∨
        ∃ np rn tf, ret = some (np, s.nextpid) ∧ np < NPROC ∧ s.procs np = {} ∧ G.use rn = .free ∧
          s'.procs = update s.procs np
            { state := .runnable, pid := s.nextpid, parent := some p, sz := (s.procs p).sz
              pagetable := rn, trapframe := tf, name := safestrcpy (s.procs p).name 16 } ∧
          Forked (s.procs p).pagetable rn (npages (s.procs p).sz) G G' s.mem s'.mem ∧
          Growth (allOf rn) G G' ∧ s.freelist.length ≤ s'.freelist.length +
          (6 + 2 * npages (s.procs p).sz)) := by
  have hne : (s.procs p).pagetable ≠ 0 :=
    (h.live p hp (by rw [hslots]; exact notMem_empty p) hl).1
  obtain ⟨ret, s1, G1, e1, h1, hi1, hk1, hres⟩ := allocproc_spec h hslots
  unfold fork
  rw [bind_ok e1]
  rcases hres with ⟨rfl, hp1, hV1, hW1, hf1⟩ | ⟨np, rn, tf, rfl, hnp, hempty, hp1, hrn,
    htf, hV1, hW1, hf1⟩
  · refine ⟨none, s1, G1, rfl, h1, hi1, hk1, .inl ⟨rfl, hp1, hW1, 0, Nat.zero_le _,
      ⟨hV1.mono (empty_subset _) subset_rfl, fun w hw => ?_, fun w hw => ?_⟩, hf1⟩⟩
    · exact hV1.leaf _ w (notMem_empty _) (h.use_pagetable hp hne)
        (h.own.leaves.lt ((h.spans p hp hne w).2 hw))
    · exact hV1.bytes _ w (notMem_empty _) ((h.spans p hp hne w).2 hw)
  -- the child has a slot, and shares the parent's pages
  have hpnp : p ≠ np := by
    rintro rfl
    rw [hempty] at hl
    exact hl rfl
  have hpp : s1.procs p = s.procs p := by rw [hp1, update_of_ne hpnp]
  have hpn : s1.procs np =
      { state := .used, pid := s.nextpid, pagetable := rn, trapframe := tf } := by
    rw [hp1, update_self]
  have hnT : ∀ q, q ∉ T.slots := fun q => by rw [hslots]; exact notMem_empty q
  have hn0 : rn ≠ 0 := by
    have := (h1.live np hnp (hnT np) (by rw [hpn]; simp)).1
    rwa [hpn] at this
  have htf0 : tf ≠ 0 := by
    have := (h1.live np hnp (hnT np) (by rw [hpn]; simp)).2
    rwa [hpn] at this
  have hnu : ∀ {r}, G.use r = .root → r ≠ rn := fun hr e => by
    rw [e, hrn] at hr
    cases hr
  have hro : (s.procs p).pagetable ≠ rn := hnu (h.use_pagetable hp hne)
  have hcopy := uvmcopy_inv h1 hroots hp hnp hpnp (by rw [hpp]; exact hne) (by rw [hpn]; exact hn0)
    (by rw [hpn]; simp) (by rw [hpn]) fun pa hc => by
      rw [hpn, ← h.flight] at hc
      exact hnu (h.own.leaves.flight_root _ pa hc) rfl
  rw [hpp, hpn] at hcopy
  obtain ⟨ret, s2, G2, e2, hC, hK⟩ := hcopy
  have hV2 : View (allOf rn ∪ pagesOf (s.procs p).pagetable 0 (npages (s.procs p).sz)) ∅ G G2
      s.mem s2.mem := by
    refine (hV1.mono subset_union_left subset_rfl).trans h.own.leaves
      (hC.frame.view.mono ?_ subset_rfl)
    rintro y (hy | hy)
    exacts [.inr hy, .inl hy.1]
  have hm : ∀ w < npages (s.procs p).sz, ((s.procs p).pagetable, w) ∈ G.maps := fun w hw =>
    (h.spans p hp hne w).2 hw
  have hlf : ∀ w < npages (s.procs p).sz,
      leaf s1.mem (s.procs p).pagetable w = leaf s.mem (s.procs p).pagetable w := fun w hw =>
    hV1.leaf _ w hro (h.use_pagetable hp hne) (h.own.leaves.lt (hm w hw))
  have hby : ∀ w < npages (s.procs p).sz, ∀ o < 4096,
      s2.mem (PTE2PA (leaf s.mem (s.procs p).pagetable w) + o) =
        s.mem (PTE2PA (leaf s.mem (s.procs p).pagetable w) + o) := fun w hw o ho => by
    rw [← hlf w hw, hC.bytes w hw o ho, hlf w hw]
    exact hV1.bytes _ w hro (hm w hw) o ho
  simp only
  rw [bind_ok (show getProc p s1 = .ok (s.procs p, s1) from congrArg (fun x => Except.ok (x, s1))
    hpp), bind_ok (show getProc np s1 = .ok (_, s1) from congrArg (fun x => Except.ok (x, s1)) hpn)]
  simp only
  rw [bind_ok e2]
  have hpn2 : s2.procs np =
      { state := .used, pid := s.nextpid, pagetable := rn, trapframe := tf } := by
    rw [hC.frame.procs, hpn]
  have hm2 : ∀ w < npages (s.procs p).sz, ((s.procs p).pagetable, w) ∈ G2.maps := fun w hw =>
    (hC.old w).2 hw
  have hro2 : G2.use (s.procs p).pagetable = .root :=
    (hC.frame.root _ (2 ^ 26) fun hx => by
      have := h.own.spans_le (h.spans p hp hne)
      rcases hx with ⟨-, -, hx⟩ | ⟨-, -, hx⟩ <;> simp only at hx <;> omega).2
      ((hV1.root _ 0 hro).2 (h.use_pagetable hp hne))
  have hlt : ∀ w < npages (s.procs p).sz, w < 2 ^ 27 := fun w hw => h.own.leaves.lt (hm w hw)
  have hT2 : Growth (allOf rn) G G2 := (hW1.mono singleton_allOf).trans hC.trees
  rcases hC.result with ⟨rfl, hs2, hold, hnew, hf2⟩ | ⟨rfl, hs2, j, hj, hf2, hold⟩
  · rw [if_neg (by decide), bind_ok (setProc_ok hpn2)]
    have h3 := hK (s.procs p).sz hs2
    rw [hpn2] at h3
    have htrap : G2.use tf = .trap np := (h3.trap tf np).2 ⟨hnp, by simp, htf0⟩
    obtain ⟨m4, m5, e4, e5, h5, hV45⟩ := fork_trapframe h3 htrap (s.procs p).trapframe
    have hV : View (allOf rn ∪ pagesOf (s.procs p).pagetable 0 (npages (s.procs p).sz))
        (insert tf ∅) G G2 s.mem m5 := (hV2.mono subset_rfl (empty_subset _)).trans h.own.leaves
      (hV45.mono (empty_subset _) (by simp))
    let b : Proc := { state := .runnable, pid := s.nextpid, parent := some p, sz := (s.procs p).sz
                      pagetable := rn, trapframe := tf, name := safestrcpy (s.procs p).name 16 }
    refine ⟨some (np, s.nextpid), _, G2, ?_, h5.setLive (p := np) (b := b) ?_ ?_ ?_ ?_ ?_,
      hC.frame.initproc.trans hi1, hC.frame.kheld.trans hk1, .inr ⟨np, rn, tf, rfl, hnp, hempty,
      hrn, ?_, ⟨hV.drop (by simp [htf, Use.Stays]), fun w hw => ?_, fun w hw => ?_,
      fun w hw o ho => ?_⟩, hT2, ?_⟩⟩
    · rw [bind_ok e4, bind_ok e5, bind_ok (setProc_ok (update_self ..))]
      rfl
    · simp [b]
    · simp [b]
    · simp [b]
    · simp [b]
    · simp
    · show update (update s2.procs np _) np b = _
      rw [update_idem, hC.frame.procs, hp1, update_idem]
    · rw [hV45.leaf _ w (notMem_empty _) hro2 (hlt w hw), hold w hw, hlf w hw]
    · have hrn2 : G2.use rn = .root := (h3.root rn).2 (.inr ⟨np, hnp, by simp, hn0⟩)
      rw [hV45.leaf _ w (notMem_empty _) hrn2 (hlt w hw), hnew w hw, hlf w hw]
    · have hpa : PTE2PA (leaf s2.mem (s.procs p).pagetable w) =
          PTE2PA (leaf s.mem (s.procs p).pagetable w) := by
        rw [hold w hw, PTE2PA_cowMark, hlf w hw]
      have := hV45.bytes _ w (notMem_empty _) (hm2 w hw) o ho
      rw [hpa] at this
      exact this.trans (hby w hw o ho)
    · show _ ≤ s2.freelist.length + _
      omega
  · rw [if_pos (by decide)]
    have h2 : KInv T G2 s2 := by
      have hself : update s2.procs np { s2.procs np with sz := 0 } = s2.procs := by
        rw [hpn2]
        exact (congrArg (update s2.procs np) hpn2.symm).trans (update_eq_self ..)
      have := hK 0 hs2
      rwa [KState.setProc, hself] at this
    obtain ⟨s3, G3, e3, h3, hp3, hi3, hk3, hV3, hW3, hV23⟩ :=
      freeproc_undo (h2.take np) hnp (hnT np) hempty (hC.frame.procs.trans hp1) h (fun _ => hrn)
        (fun _ => htf) hV2 hT2
    refine ⟨none, s3, G3, by rw [bind_ok e3]; rfl, h3, (hi3.trans hC.frame.initproc).trans hi1,
      (hk3.trans hC.frame.kheld).trans hk1,
      .inl ⟨rfl, hp3, hW3, j, hj, ⟨hV3, fun w hw => ?_, fun w hw o ho => ?_⟩, .inl (by omega)⟩⟩
    · rw [hV23.leaf _ w hro hro2 (hlt w hw), ← hlf w hw]
      exact hold w hw
    · have hpa : PTE2PA (leaf s2.mem (s.procs p).pagetable w) =
          PTE2PA (leaf s.mem (s.procs p).pagetable w) := by
        rw [hold w hw, hlf w hw]
        split
        · exact PTE2PA_cowMark
        · rfl
      have := hV23.bytes _ w hro (hm2 w hw) o ho
      rw [hpa] at this
      rw [this, hby w hw o ho]

/-! ## `exit` -/

/-- The process table after `exit`. -/
def exited (s : KState) (p : Nat) (status : Int) : Nat → Proc :=
  update (reparented s p) p { reparented s p p with xstate := status, state := .zombie }

omit [Layout] in
/-- `init` cannot exit; every other process leaves a zombie. -/
theorem exit_eq (hp : p ≠ s.initproc) (status : Int) :
    exit p status s = .ok ((), { s with procs := exited s p status }) := by
  unfold exit
  rw [bind_ok (show gets (fun s : KState => s.initproc) s = .ok (s.initproc, s) from rfl),
    if_neg hp]
  rfl

section

omit [Layout]

variable {q : Nat}

@[simp] theorem reparented_pagetable : (reparented s p q).pagetable = (s.procs q).pagetable := by
  unfold reparented
  split <;> rfl

@[simp] theorem reparented_trapframe : (reparented s p q).trapframe = (s.procs q).trapframe := by
  unfold reparented
  split <;> rfl

@[simp] theorem reparented_sz : (reparented s p q).sz = (s.procs q).sz := by
  unfold reparented
  split <;> rfl

@[simp] theorem reparented_state : (reparented s p q).state = (s.procs q).state := by
  unfold reparented
  split <;> rfl

variable {status : Int}

theorem exited_ne (hq : q ≠ p) : exited s p status q = reparented s p q :=
  update_of_ne hq ..

theorem exited_self :
    exited s p status p = { reparented s p p with xstate := status, state := .zombie } :=
  update_self ..

@[simp] theorem exited_pagetable :
    (exited s p status q).pagetable = (s.procs q).pagetable := by
  by_cases hq : q = p
  · rw [hq, exited_self, reparented_pagetable]
  · rw [exited_ne hq, reparented_pagetable]

@[simp] theorem exited_trapframe :
    (exited s p status q).trapframe = (s.procs q).trapframe := by
  by_cases hq : q = p
  · rw [hq, exited_self, reparented_trapframe]
  · rw [exited_ne hq, reparented_trapframe]

@[simp] theorem exited_sz : (exited s p status q).sz = (s.procs q).sz := by
  by_cases hq : q = p
  · rw [hq, exited_self, reparented_sz]
  · rw [exited_ne hq, reparented_sz]

end

/-- **`exit` touches the process table only**, and no page table, trapframe or size in it. -/
theorem KInv.exit (h : KInv T G s) (hl : (s.procs p).state ≠ .unused)
    (status : Int) : KInv T G { s with procs := exited s p status } := by
  refine h.setProcs (fun _ _ => exited_pagetable) (fun _ _ => exited_trapframe)
    (fun _ _ _ => exited_sz) fun q hq hqT => ?_
  by_cases hqp : q = p
  · rw [hqp, exited_self]
    exact .inr ⟨by simp, hl⟩
  · rw [exited_ne hqp, reparented_state]
    by_cases hu : (s.procs q).state = .unused
    · left
      have he := h.unused q hq hqT hu
      unfold reparented
      rw [if_neg fun hc => by simp [he] at hc]
    · exact .inr ⟨hu, hu⟩

/-! ## A store fault -/

omit [Layout] in
theorem isCowpage_none (hlt : va < MAXVA) (ha : leafAddr s.mem r (va / 4096) = none) :
    isCowpage r va s = .error .kerneltrap := by
  unfold isCowpage
  rw [bind_ok (walk_false hlt), ha]
  rfl

/-- **The store-fault branch of `usertrap`**: a null dereference, a kill, or `cow_alloc` on a page
that is copy-on-write. -/
theorem storeFault_cases (h : KInv T G s) (hp : p < NPROC) (hr : (s.procs p).pagetable = r)
    (hne : r ≠ 0) (va : Nat) :
    (va ≤ (s.procs p).sz ∧ leafAddr s.mem r (va / 4096) = none ∧
      storeFault p va s = .error .kerneltrap) ∨
    (((s.procs p).sz < va ∨ leafAddr s.mem r (va / 4096) ≠ none) ∧
      storeFault p va s = .ok ((), s.setProc p { s.procs p with killed := true })) ∨
    ∃ ret s1 G1, va ≤ (s.procs p).sz ∧ (r, va / 4096) ∈ G.maps ∧
      (leaf s.mem r (va / 4096)).has PTE_RSW_COW = true ∧ Own G1 s1 ∧
      Frame {(r, va / 4096)} ∅ G G1 s s1 ∧ CowEnd G s r (va / 4096) ret G1 s1 ∧
      storeFault p va s = .ok ((), if ret = 0 then
        s1.setProc p { s.procs p with killed := true } else s1) := by
  subst hr
  have hs := h.spans p hp hne
  have hle := h.own.spans_le hs
  unfold storeFault
  rw [getProc_bind]
  by_cases hva : va > (s.procs p).sz
  · rw [if_pos hva]
    exact .inr (.inl ⟨.inl hva, rfl⟩)
  have hpage : va / 4096 ≤ 32768 := by unfold npages at hle; omega
  have hlt : va < MAXVA := by rw [MAXVA_eq]; omega
  rw [if_neg hva]
  rcases ha : leafAddr s.mem (s.procs p).pagetable (va / 4096) with - | a
  · refine .inl ⟨by omega, rfl, ?_⟩
    rw [bind_apply, isCowpage_none hlt ha]
  right
  rw [bind_ok (isCowpage_eq (by omega) rfl ha)]
  by_cases hcow : (leaf s.mem (s.procs p).pagetable (va / 4096)).has PTE_RSW_COW = true
  · -- an entry with the mark is a mapping below the size
    have hm : ((s.procs p).pagetable, va / 4096) ∈ G.maps := by
      refine (h.own.leaves.only _ _ (h.use_pagetable hp hne) (by omega)
        (Pte.ne_zero_of_has hcow)).resolve_right fun hc => ?_
      have := h.own.leaves.spec_lt _ _ hc
      omega
    have hround : PGROUNDDOWN va = 4096 * (va / 4096) := by
      simp only [PGROUNDDOWN, PGSIZE_eq]
      omega
    obtain ⟨ret, s1, G1, e1, h1, hF, hend⟩ := cowAlloc_spec h.own hm hround
    refine .inr ⟨ret, s1, G1, by omega, hm, hcow, h1, hF, hend, ?_⟩
    rw [hcow, if_pos rfl, bind_ok e1]
    by_cases h0 : ret = 0
    · rw [if_pos h0, if_pos h0, ← hF.procs]
      rfl
    · rw [if_neg h0, if_neg h0]
      rfl
  · have hc : (leaf s.mem (s.procs p).pagetable (va / 4096)).has PTE_RSW_COW = false := by
      simpa using hcow
    rw [hc, if_neg (by decide)]
    exact .inl ⟨.inr (by simp), rfl⟩

/-! ## `copyout` and `wait` -/

/-- **`copyout` keeps the invariant.** -/
theorem CopyRun.inv {dstva : Nat} {src : List UInt8} {ret : Int}
    (hrun : CopyRun r G s dstva src ret G' s') (h : KInv T G s) : KInv T G' s' := by
  obtain ⟨h1, h2, h3⟩ := hrun.spec h.own
  exact h.keepSize h1 h3 (fun _ _ hx => hx.2.2) h2

omit [Layout] in
/-- A slot `findZombie` finds is a zombie child. -/
theorem findZombie_spec {k q pp : Nat} (e : findZombie s p k q = some pp) :
    pp < q + k ∧ (s.procs pp).parent = some p ∧ (s.procs pp).state = .zombie := by
  induction k generalizing q with
  | zero => exact absurd e (by simp [findZombie])
  | succ k ih =>
    unfold findZombie at e
    split at e
    · next h =>
      obtain rfl := Option.some.inj e
      exact ⟨by omega, h⟩
    · obtain ⟨h1, h2⟩ := ih e
      exact ⟨by omega, h2⟩

/-- The status `wait` copies out. -/
def waitBytes (s : KState) (addr pp : Nat) : List UInt8 :=
  if addr ≠ 0 then intBytes (s.procs pp).xstate else []

/-- **`wait`**: nothing, or a zombie child whose status is copied out and who is freed if that
succeeds. -/
theorem wait_cases (h : KInv T G s) (hslots : T.slots = ∅) (hp : p < NPROC)
    (hl : (s.procs p).state ≠ .unused)
    (hfl : ∀ q pa, (s.procs q).state = .zombie → ((s.procs q).pagetable, pa) ∉ T.flight)
    (addr : Nat) :
    (∃ ret, findZombie s p NPROC 0 = none ∧ wait p addr s = .ok (ret, s)) ∨
    ∃ pp ret s1 G1, pp < NPROC ∧ (s.procs pp).parent = some p ∧ (s.procs pp).state = .zombie ∧
      findZombie s p NPROC 0 = some pp ∧
      CopyRun (s.procs p).pagetable G s addr (waitBytes s addr pp) ret G1 s1 ∧ KInv T G1 s1 ∧
      ((ret = -1 ∧ wait p addr s = .ok (some (-1), s1)) ∨
        ∃ s' G', ret = 0 ∧ wait p addr s = .ok (some (s.procs pp).pid, s') ∧ KInv T G' s' ∧
          s'.procs = update s.procs pp {} ∧ s'.initproc = s.initproc ∧
          View (allOf (s.procs pp).pagetable) {(s.procs pp).trapframe} G1 G' s1.mem s'.mem) := by
  unfold wait
  rcases hz : findZombie s p NPROC 0 with - | pp
  · left
    rw [bind_ok (show gets (fun s : KState => findZombie s p NPROC 0) s = .ok (none, s) from
      congrArg (fun x => Except.ok (x, s)) hz)]
    simp only
    rw [bind_ok (show gets (fun s : KState => haveKids s p NPROC 0) s = .ok (_, s) from rfl),
      getProc_bind]
    split
    · exact ⟨_, trivial, rfl⟩
    · exact ⟨_, trivial, rfl⟩
  right
  obtain ⟨hpp, hpar, hzom⟩ := findZombie_spec hz
  rw [Nat.zero_add] at hpp
  have hnT : ∀ q, q ∉ T.slots := fun q => by rw [hslots]; exact notMem_empty q
  have hroot := h.use_pagetable hp (h.live p hp (hnT p) hl).1
  rw [bind_ok (show gets (fun s : KState => findZombie s p NPROC 0) s = .ok (some pp, s) from
    congrArg (fun x => Except.ok (x, s)) hz)]
  simp only
  rw [getProc_bind,
    getProc_bind]
  obtain ⟨ret, s1, G1, e1, hrun⟩ : ∃ ret s1 G1,
      (if addr ≠ 0 then copyout (s.procs p).pagetable addr (intBytes (s.procs pp).xstate)
        else pure 0) s = .ok (ret, s1) ∧
      CopyRun (s.procs p).pagetable G s addr (waitBytes s addr pp) ret G1 s1 := by
    unfold waitBytes
    by_cases h0 : addr ≠ 0
    · rw [if_pos h0, if_pos h0]
      exact copyout_run _ _ h.own hroot
    · rw [if_neg h0, if_neg h0]
      exact ⟨0, s, G, rfl, .done⟩
  rw [bind_ok e1]
  have h1 := hrun.inv h
  have hpr : s1.procs = s.procs := (hrun.spec h.own).2.2.procs
  refine ⟨pp, ret, s1, G1, hpp, hpar, hzom, rfl, hrun, h1, ?_⟩
  rcases hrun.ret_cases with rfl | rfl
  · right
    obtain ⟨s2, G2, e2, h2, hp2, hi2, -, -, hV2, -, -⟩ := freeproc_spec (h1.take pp) hpp
      (mem_insert _ _) (by rw [hpr]; exact fun pa => hfl pp pa hzom)
    rw [Transit.del_addSlot (hnT pp)] at h2
    rw [hpr] at hV2 hp2
    refine ⟨s2, G2, rfl, ?_, h2, hp2, hi2.trans (hrun.spec h.own).2.2.initproc, hV2⟩
    rw [if_neg (by decide), bind_ok e2]
    rfl
  · left
    rw [if_pos (by decide)]
    exact ⟨rfl, rfl⟩

end Xv6
