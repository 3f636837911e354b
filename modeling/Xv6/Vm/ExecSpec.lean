import Xv6.Vm.Boot
import Xv6.Vm.Exec

/-!
# Vm/ExecSpec — `exec` builds a new address space and swaps it in

While `exec` works the new page table is in transit, owned by no process (`Space`).  Every page of
it is fresh: no other mapping leads to it, and none is copy-on-write.  A failure frees it; success
makes it the process's and frees the old one.
-/

namespace Xv6

open Act Bytes Function Set

variable [Layout] {T : Transit} {G G' : Ghost} {s s' : KState} {r v c p pa sz : Nat}
  {X : Set (Nat × Nat)} {Y : Set Nat}

/-! ## Roots in transit -/

/-- The page table `c` in transit. -/
def Transit.withRoot (T : Transit) (c : Nat) : Transit := { T with roots := {c} }

/-- Page 0 is no page of the allocator. -/
theorem KInv.root_ne (h : KInv T G s) (hr : G.use r = .root) : r ≠ 0 := by
  rintro rfl
  have h1 : IsPage 0 := h.own.isPage (by simp [hr])
  have h2 := h1.bounds
  omega

/-- Page tables of processes stay as they are and the roots in transit change. -/
theorem KInv.setRoots (h : KInv T G s) {T' : Transit} (hT : T'.slots = T.slots)
    (hTp : T'.pages = T.pages) (hTf : T'.flight = T.flight) (ho : Own G' s')
    (hF : Frame (allOf c) ∅ G G' s s') (hc : ∀ q < NPROC, (s.procs q).pagetable ≠ c)
    (hroot : ∀ r, G'.use r = .root ↔
      r ∈ T'.roots ∨ (G.use r = .root ∧ r ∉ T.roots))
    (hr : ∀ q < NPROC, (s.procs q).pagetable ∉ T'.roots) : KInv T' G' s' := by
  have hp : s'.procs = s.procs := hF.procs
  refine
    { own := ho
      flight := by rw [hF.flight_eq, hTf]; exact h.flight
      root := fun r => ?_
      inj := by rw [hp]; exact h.inj
      roots := by rw [hp]; exact hr
      spans := fun q hq hne v => ?_
      spec := fun q hq hne => ?_
      trap := fun q p => by rw [hF.stays_iff (.inr ⟨p, rfl⟩), hp]; exact h.trap q p
      held := fun q => by rw [hF.stays_iff (.inl rfl), hF.kheld, hTp]; exact h.held q
      pages := by rw [hF.kheld, hTp]; exact h.pages
      nodup := by rw [hF.kheld]; exact h.nodup
      unused := by rw [hp, hT]; exact h.unused
      live := by rw [hp, hT]; exact h.live }
  · rw [hroot, h.root, hp]
    refine or_congr_right ⟨fun ⟨h1, h2⟩ => h1.resolve_left h2, fun ⟨q, hq, e, hne⟩ =>
      ⟨.inr ⟨q, hq, e, hne⟩, e ▸ h.roots q hq⟩⟩
  · rw [hp] at hne ⊢
    rw [hF.maps _ v (hc q hq)]
    exact h.spans q hq hne v
  · rw [hp] at hne ⊢
    obtain ⟨h1, h2⟩ := h.spec q hq hne
    exact ⟨(hF.spec _ _ (hc q hq)).2 h1, (hF.spec _ _ (hc q hq)).2 h2⟩

/-- A new page table is in transit. -/
theorem KInv.addRoot (h : KInv T G s) (hT : T.roots = ∅) (hfree : G.use c = .free) (hc0 : c ≠ 0)
    (ho : Own G' s') (hF : Frame (allOf c) ∅ G G' s s') (hr : G'.use c = .root) :
    KInv (T.withRoot c) G' s' := by
  have hne : ∀ q < NPROC, (s.procs q).pagetable ≠ c := fun q hq e => by
    have h1 := h.use_pagetable hq (by rw [e]; exact hc0)
    rw [e, hfree] at h1
    cases h1
  refine h.setRoots rfl rfl rfl ho hF hne (fun r => ?_) hne
  by_cases e : r = c
  · subst e
    exact iff_of_true hr (.inl rfl)
  · rw [hF.root r 0 e, hT]
    show _ ↔ r = c ∨ _
    simp [e]

/-- **A page table in transit is freed.** -/
theorem KInv.freeRoot (h : KInv (T.withRoot c) G s) (hT : T.roots = ∅) (hs : Spans G c (npages sz))
    (hsp : SpecFull G c) (hfl : ∀ pa, (c, pa) ∉ T.flight) :
    ∃ s' G', procFreepagetable c sz s = .ok ((), s') ∧ KInv T G' s' ∧
      Frame (allOf c) ∅ G G' s s' ∧ Growth (allOf c) G G' ∧ G'.use c = .free ∧
      s.freelist.length ≤ s'.freelist.length := by
  have hr : G.use c = .root := (h.root c).2 (.inl rfl)
  obtain ⟨s1, G1, e1, h1, hF, hW, hu, hf⟩ := procFreepagetable_spec h.own hr hs hsp fun pa =>
    h.no_flight (hfl pa)
  refine ⟨s1, G1, e1, h.setRoots rfl rfl rfl h1 hF (fun q hq e => h.roots q hq e) (fun r => ?_)
    (by rw [hT]; exact fun q _ => notMem_empty _), hF, hW, hu, hf⟩
  by_cases e : r = c
  · subst e
    rw [hT]
    refine iff_of_false (by simp [hu]) ?_
    rintro (hc | ⟨-, hc⟩)
    exacts [hc, hc rfl]
  · rw [hF.root r 0 e, hT]
    show _ ↔ r ∈ ∅ ∨ (_ ∧ r ≠ c)
    simp [e]

/-- **The new table becomes that of a process**, and the old one is in transit. -/
theorem KInv.swapRoot (h : KInv (T.withRoot c) G s) (hp : p < NPROC)
    (hl : (s.procs p).pagetable ≠ 0 ∧ (s.procs p).trapframe ≠ 0) (hs : Spans G c (npages sz))
    (hsp : SpecFull G c) {b : Proc} (hb : b.pagetable = c) (hbs : b.sz = sz)
    (hbt : b.trapframe = (s.procs p).trapframe) (hst : b.state ≠ .unused) :
    KInv (T.withRoot (s.procs p).pagetable) G (s.setProc p b) := by
  have hroot : G.use c = .root := (h.root c).2 (.inl rfl)
  have hc0 := h.root_ne hroot
  have hne : ∀ q < NPROC, (s.procs q).pagetable ≠ c := fun q hq e => h.roots q hq e
  have hold := h.use_pagetable hp hl.1
  refine h.change hp h.own.setProcs rfl h.flight (fun _ _ _ _ _ => Iff.rfl)
    (fun _ _ _ _ _ => Iff.rfl) (fun r => ?_) (fun q hq hqp e => ?_) (fun e => ?_)
    (fun _ => ⟨fun q hq _ e => ?_, ?_, ?_⟩) (fun pa q => ?_) h.held h.pages h.nodup
    (fun q _ _ hq => hq) (fun _ hc => absurd hc hst)
    (fun _ _ => ⟨by rw [hb]; exact hc0, by rw [hbt]; exact hl.2⟩)
  · show _ ↔ r = (s.procs p).pagetable ∨ (r = b.pagetable ∧ r ≠ 0) ∨
      (G.use r = .root ∧ r ≠ (s.procs p).pagetable ∧ r ≠ c)
    rw [hb]
    constructor
    · intro hr
      by_cases h1 : r = (s.procs p).pagetable
      · exact .inl h1
      · by_cases h2 : r = c
        exacts [.inr (.inl ⟨h2, h.root_ne hr⟩), .inr (.inr ⟨hr, h1, h2⟩)]
    · rintro (rfl | ⟨rfl, -⟩ | ⟨hr, -⟩)
      exacts [hold, hroot, hr]
  · by_cases h0 : (s.procs q).pagetable = 0
    · exact hl.1 (e.symm.trans h0)
    · exact hqp (h.inj q p hq hp e h0)
  · rw [hb] at e
    exact hne p hp e.symm
  · exact hne q hq (e.trans hb)
  · rw [hb, hbs]
    exact hs
  · rw [hb]
    exact hsp
  · rw [hbt]
    exact h.trap_split hp pa q

/-! ## The space under construction -/

/-- **The address space `exec` builds**, `c` of `sz` bytes, since `(G0, s0)`. -/
structure Space (T : Transit) (G0 : Ghost) (s0 : KState) (c sz : Nat) (G : Ghost) (s : KState) :
    Prop where
  inv : KInv (T.withRoot c) G s
  spans : Spans G c (npages sz)
  spec : SpecFull G c
  sole : ∀ v < npages sz, Sole G s.mem c v
  plain : ∀ v < npages sz, (leaf s.mem c v).has PTE_RSW_COW = false
  frame : Frame (allOf c) ∅ G0 G s0 s

/-- Every page of the space is a user page. -/
def AllUser (s : KState) (c sz : Nat) : Prop :=
  ∀ v < npages sz, (leaf s.mem c v).has PTE_U = true

namespace Space

variable {G0 : Ghost} {s0 : KState} {x : Pte}

theorem root (h : Space T G0 s0 c sz G s) : G.use c = .root := (h.inv.root c).2 (.inl rfl)

theorem map (h : Space T G0 s0 c sz G s) (hv : v < npages sz) : (c, v) ∈ G.maps := (h.spans v).2 hv

omit [Layout] in
theorem userOf_allOf {lo : Nat} : userOf c lo ⊆ allOf c := fun _ hx => hx.1

section

variable (h : Space T G0 s0 c sz G s) (h0 : Own G0 s0)

include h h0

/-- Work on the user part of the space. -/
theorem step {lo : Nat} (ho : Own G' s') (hF : Frame (userOf c lo) ∅ G G' s s') :
    KInv (T.withRoot c) G' s' ∧ SpecFull G' c ∧ Frame (allOf c) ∅ G0 G' s0 s' := by
  have hF' := hF.mono (userOf_allOf (c := c)) subset_rfl
  have hroot : ∀ r, G'.use r = .root ↔ G.use r = .root := fun r =>
    hF.root r (2 ^ 26) fun hx => absurd hx.2.2 (by simp)
  refine ⟨h.inv.setRoots rfl rfl rfl ho hF' h.inv.roots (fun r => ?_) h.inv.roots, ⟨?_, ?_⟩,
    h.frame.trans h0.leaves hF'⟩
  · rw [hroot]
    show _ ↔ r = c ∨ (_ ∧ r ≠ c)
    by_cases e : r = c
    · simp [e, h.root]
    · simp [e]
  · exact (hF.spec _ _ fun hx => absurd hx.2.2 (by simp [trampolinePage])).2 h.spec.1
  · exact (hF.spec _ _ fun hx => absurd hx.2.2 (by simp [trapframePage])).2 h.spec.2

/-- **`uvmalloc` on the space.** -/
theorem alloc (hU : AllUser s c sz) (hx : Pte.IsFlags x) (hC : x.has PTE_RSW_COW = false)
    (newsz : Nat) : ∃ ret s' G', uvmalloc c sz newsz x s = .ok (ret, s') ∧ Growth (allOf c) G G' ∧
      ((ret = 0 ∧ Space T G0 s0 c sz G' s' ∧
          (newsz ≠ 0 → s.freelist.length ≤ 3 * (npages newsz - npages sz))) ∨
        (ret ≠ 0 ∧ ret = max sz newsz ∧ Space T G0 s0 c ret G' s' ∧ AllUser s' c ret ∧
          (∀ v, npages sz ≤ v → v < npages ret → (leaf s'.mem c v).has PTE_W = x.has PTE_W) ∧
          (∀ v < npages sz, leaf s'.mem c v = leaf s.mem c v) ∧
          s.freelist.length ≤ s'.freelist.length + 3 * (npages newsz - npages sz))) := by
  obtain ⟨ret, s', G', e, ho, hF, hW, hres⟩ := uvmalloc_spec h.inv.own h.root h.spans hx newsz
  obtain ⟨h1, h2, h3⟩ := h.step h0 ho hF
  have hlt : ∀ v < npages sz, (c, v) ∉ userOf c (npages sz) := fun v hv hc => by
    have := hc.2.1
    simp only at this
    omega
  have hlf : ∀ v < npages sz, leaf s'.mem c v = leaf s.mem c v := fun v hv =>
    hF.leaf c v (hlt v hv) h.root (h.inv.own.leaves.lt (h.map hv))
  have hsole : (∀ w, npages sz ≤ w → (c, w) ∈ G'.maps → Sole G' s'.mem c w) →
      ∀ v < npages sz, Sole G' s'.mem c v := fun hnew v hv =>
    (h.sole v hv).view h.inv.own hF.view (h.map hv) (hlt v hv) fun r' w hw hm he => by
      obtain ⟨rfl, hw1, -⟩ := hw
      simp only at hw1
      have := hnew w hw1 hm r' v ((hF.maps r' v (hlt v hv)).2 (h.map hv)) (by rw [hlf v hv, he])
      omega
  refine ⟨ret, s', G', e, hW.mono fun _ hx => hx.1, ?_⟩
  have hfail : Spans G' c (npages sz) → Space T G0 s0 c sz G' s' := fun hs =>
    ⟨h1, hs, h2, hsole fun w hw hm => absurd ((hs w).1 hm) (by omega), fun v hv => by
      rw [hlf v hv]; exact h.plain v hv, h3⟩
  rcases hres with ⟨hr, hs, hf⟩ | ⟨hr, hs, hfresh, hf⟩
  · exact .inl ⟨hr, hfail hs, fun _ => hf⟩
  · by_cases hr0 : ret = 0
    · refine .inl ⟨hr0, hfail ?_, fun hn => absurd hn (by omega)⟩
      rwa [show ret = sz by omega] at hs
    · have hent : ∀ w, npages sz ≤ w → w < npages ret → ∃ pa,
          leaf s'.mem c w = PA2PTE pa ||| (PTE_R ||| PTE_U ||| x) ||| PTE_V := fun w h4 h5 =>
        (hfresh w h4 h5).entry
      refine .inr ⟨hr0, hr, ⟨h1, hs, h2, fun v hv => ?_, fun v hv => ?_, h3⟩, fun v hv => ?_,
        fun v hv hv' => ?_, hlf, hf⟩
      · by_cases hvs : v < npages sz
        · exact hsole (fun w hw hm => (hfresh w hw ((hs w).1 hm)).sole) v hvs
        · exact (hfresh v (by omega) hv).sole
      · by_cases hvs : v < npages sz
        · rw [hlf v hvs]; exact h.plain v hvs
        · obtain ⟨pa, he⟩ := hent v (by omega) hv
          rw [he]
          simp [hC]
      · by_cases hvs : v < npages sz
        · rw [hlf v hvs]; exact hU v hvs
        · obtain ⟨pa, he⟩ := hent v (by omega) hv
          rw [he]
          simp
      · obtain ⟨pa, he⟩ := hent v hv hv'
        rw [he]
        simp

/-- Changes of bytes only, on pages of the space. -/
theorem bytes (ho : Own G s') (hF : Frame (userOf c 0) ∅ G G s s')
    (hl : ∀ r v, (r, v) ∈ G.maps → leaf s'.mem r v = leaf s.mem r v) : Space T G0 s0 c sz G s' := by
  obtain ⟨h1, h2, h3⟩ := h.step h0 ho hF
  refine ⟨h1, h.spans, h2, fun v hv r' w hw e => ?_, fun v hv => ?_, h3⟩
  · rw [hl r' w hw, hl c v (h.map hv)] at e
    exact h.sole v hv r' w hw e
  · rw [hl c v (h.map hv)]
    exact h.plain v hv

/-- A store into a page of the space. -/
theorem store (hv : v < npages sz) {a n : Nat}
    {f : Nat → UInt8} (h1 : PTE2PA (leaf s.mem c v) ≤ a)
    (h2 : a + n ≤ PTE2PA (leaf s.mem c v) + 4096) :
    Space T G0 s0 c sz G { s with mem := overlay s.mem a n f } ∧
      ∀ w < npages sz, leaf (overlay s.mem a n f) c w = leaf s.mem c w := by
  have ho := h.inv.own
  have hm := h.map hv
  have hpg := ho.mapped hm
  have hu := ho.leaves.map_user c v hm
  have htab : ¬ (G.use (PTE2PA (leaf s.mem c v))).IsTable := by simp [hu, Use.IsTable]
  have hns : (G.use (PTE2PA (leaf s.mem c v))).Stays → PTE2PA (leaf s.mem c v) ∈ (∅ : Set Nat) :=
    fun hc => by rcases hc with e | ⟨q, e⟩ <;> simp [hu] at e
  have hS : Shape ∅ ∅ G G s { s with mem := overlay s.mem a n f } :=
    Shape.overlay ho hpg htab h1 h2 hns
  have hl : ∀ r v, (r, v) ∈ G.maps → leaf (overlay s.mem a n f) r v = leaf s.mem r v :=
    fun r v hm => hS.leaf_map ho hm (Set.notMem_empty _)
  refine ⟨h.bytes h0 (ho.overlay hpg htab h1 h2) (Frame.overlay ho hpg htab h1 h2
    (fun r w hw e => ?_) hns) hl, fun w hw => hl c w (h.map hw)⟩
  obtain ⟨rfl, rfl⟩ := h.sole v hv r w hw e
  exact ⟨rfl, Nat.zero_le _, ho.leaves.map_lt r w hw⟩

end

end Space

/-! ## `loadseg` -/

omit [Layout] in
theorem fileRead_length {f : ExecFile} {off n : Nat} (hn : n < 2 ^ 32) :
    (fileRead f off n).length ≤ n := by
  unfold fileRead
  simp only
  rw [Nat.mod_eq_of_lt hn]
  split
  · exact Nat.zero_le _
  · rw [take, List.length_map, List.length_range]
    split <;> omega

/-- **The loop of `loadseg`** does not panic on pages below the size. -/
theorem loadsegLoop_spec {G0 : Ghost} {s0 : KState} {va fsz off k i : Nat} {ip : ExecFile}
    (h : Space T G0 s0 c sz G s) (h0 : Own G0 s0) (hU : AllUser s c sz) (hva : va % 4096 = 0)
    (hi : i % 4096 = 0) (hk : i + 4096 * k < fsz + 4096) (hle : va + fsz ≤ sz) :
    ∃ ret s', loadsegLoop c va ip off fsz k i s = .ok (ret, s') ∧ (ret = 0 ∨ ret = -1) ∧
      Space T G0 s0 c sz G s' ∧ ∀ w < npages sz, leaf s'.mem c w = leaf s.mem c w := by
  induction k generalizing s i with
  | zero => exact ⟨0, s, rfl, .inl rfl, h, fun _ _ => rfl⟩
  | succ k ih =>
    have hpage : (va + i) / 4096 < npages sz := by unfold npages; omega
    have hm := h.map hpage
    have hsz := h.inv.own.spans_le h.spans
    have hwrap : (va + i) % 2 ^ 64 = va + i := by unfold npages at hsz; omega
    have hne : userPa s.mem c (va + i) ≠ 0 := (h.inv.own.userPa_ne h.root).2 ⟨hm, hU _ hpage⟩
    have hpa := userPa_of_ne hne
    rw [loadsegLoop, hwrap, bind_ok walkaddr_eq, if_neg hne, hpa]
    generalize hn : (if fsz - i < PGSIZE then fsz - i else PGSIZE) = n
    have hn' : n ≤ 4096 := by
      rw [PGSIZE_eq] at hn
      split at hn <;> omega
    have hlen : (fileRead ip (off + i) n).length ≤ 4096 := (fileRead_length (by omega)).trans hn'
    obtain ⟨h1, hl1⟩ := h.store h0 hpage (a := PTE2PA (leaf s.mem c ((va + i) / 4096)))
      (n := (fileRead ip (off + i) n).length) (f := fun j => (fileRead ip (off + i) n).getD j 0)
      le_rfl (by omega)
    rw [bind_ok (show memput _ _ s = .ok ((), _) from rfl)]
    split
    · exact ⟨-1, _, rfl, .inr rfl, h1, hl1⟩
    · obtain ⟨ret, s', e, hr, h2, hl2⟩ := ih (i := i + 4096) h1
        (fun w hw => by rw [hl1 w hw]; exact hU w hw) (by omega) (by omega)
      exact ⟨ret, s', e, hr, h2, fun w hw => (hl2 w hw).trans (hl1 w hw)⟩

/-- **`loadseg`.** -/
theorem loadseg_spec {G0 : Ghost} {s0 : KState} {va fsz : Nat} (ip : ExecFile) (off : Nat)
    (h : Space T G0 s0 c sz G s) (h0 : Own G0 s0) (hU : AllUser s c sz) (hva : va % 4096 = 0)
    (hle : va + fsz ≤ sz) :
    ∃ ret s', loadseg c va ip off fsz s = .ok (ret, s') ∧ (ret = 0 ∨ ret = -1) ∧
      Space T G0 s0 c sz G s' ∧ ∀ w < npages sz, leaf s'.mem c w = leaf s.mem c w := by
  unfold loadseg
  have := Nat.mod_le fsz (2 ^ 32)
  refine loadsegLoop_spec h h0 hU hva rfl ?_ (by omega)
  rw [PGSIZE_eq]
  omega

/-! ## The program headers -/

omit [Layout] in
theorem flags2perm_isFlags (f : Nat) : Pte.IsFlags (flags2perm f) := by
  unfold flags2perm
  split <;> split <;> decide +kernel

omit [Layout] in
theorem flags2perm_COW (f : Nat) : (flags2perm f).has PTE_RSW_COW = false := by
  unfold flags2perm
  split <;> split <;> decide +kernel

omit [Layout] in
theorem field_lt (b : List UInt8) (off n : Nat) : field b off n < 256 ^ n := getLE_lt off n

/-- **The program-header loop.** -/
theorem loadProgram_spec {G0 : Ghost} {s0 : KState} {k : Nat} (h : Space T G0 s0 c sz G s)
    (h0 : Own G0 s0) (ip : ExecFile) (off : Nat) (hU : AllUser s c sz) :
    ∃ ok sz' s' G', loadProgram c ip k off sz s = .ok ((ok, sz'), s') ∧ Space T G0 s0 c sz' G' s' ∧
      Growth (allOf c) G G' ∧ (ok = true → AllUser s' c sz') := by
  induction k generalizing G s off sz with
  | zero => exact ⟨true, sz, s, G, rfl, h, Growth.refl _ _, fun _ => hU⟩
  | succ k ih =>
    rw [loadProgram]
    simp only
    generalize fileRead ip off proghdrSize = ph
    have hfail : ∃ ok sz' s' G', (pure (false, sz) : Kern (Bool × Nat)) s = .ok ((ok, sz'), s') ∧
        Space T G0 s0 c sz' G' s' ∧ Growth (allOf c) G G' ∧ (ok = true → AllUser s' c sz') :=
      ⟨false, sz, s, G, rfl, h, Growth.refl _ _, nofun⟩
    by_cases hlen : ph.length ≠ proghdrSize
    · rwa [if_pos hlen]
    by_cases hty : field ph 0 4 ≠ ELF_PROG_LOAD
    · rw [if_neg hlen, if_pos hty]
      exact ih h _ hU
    by_cases hmf : field ph 40 8 < field ph 32 8
    · rwa [if_neg hlen, if_neg hty, if_pos hmf]
    by_cases hov : (field ph 16 8 + field ph 40 8) % 2 ^ 64 < field ph 16 8
    · rwa [if_neg hlen, if_neg hty, if_neg hmf, if_pos hov]
    by_cases hal : field ph 16 8 % PGSIZE ≠ 0
    · rwa [if_neg hlen, if_neg hty, if_neg hmf, if_neg hov, if_pos hal]
    rw [if_neg hlen, if_neg hty, if_neg hmf, if_neg hov, if_neg hal]
    have hv := field_lt ph 16 8
    have hm := field_lt ph 40 8
    have hsum : (field ph 16 8 + field ph 40 8) % 2 ^ 64 = field ph 16 8 + field ph 40 8 := by omega
    rw [hsum]
    obtain ⟨ret, s1, G1, e1, hW, hres⟩ := h.alloc h0 hU (flags2perm_isFlags _) (flags2perm_COW _)
      (field ph 16 8 + field ph 40 8)
    rw [bind_ok e1]
    rcases hres with ⟨rfl, h1, -⟩ | ⟨hr0, hr, h1, hU1, -⟩
    · rw [if_pos rfl]
      exact ⟨false, sz, s1, G1, rfl, h1, hW, nofun⟩
    rw [if_neg hr0]
    have hle : field ph 16 8 + field ph 32 8 ≤ ret := by omega
    obtain ⟨r2, s2, e2, hr2, h2, hl2⟩ := loadseg_spec ip (field ph 8 8) h1 h0 hU1
      (by rw [PGSIZE_eq] at hal; omega) hle
    rw [bind_ok e2]
    by_cases hr : r2 < 0
    · rw [if_pos hr]
      exact ⟨false, ret, s2, G1, rfl, h2, hW, nofun⟩
    · rw [if_neg hr]
      obtain ⟨ok, sz', s', G', e, h3, hW3, hU3⟩ :=
        ih h2 _ fun v hv => by rw [hl2 v hv]; exact hU1 v hv
      exact ⟨ok, sz', s', G', e, h3, hW.trans hW3, hU3⟩

/-! ## The stack -/

section

variable {G0 : Ghost} {s0 : KState}

section

variable (h : Space T G0 s0 c sz G s) (h0 : Own G0 s0)

include h h0

/-- **`uvmclear`** takes `PTE_U` from one page of the space. -/
theorem uvmclear_spec (hv : v < npages sz) :
    ∃ s', uvmclear c (4096 * v) s = .ok ((), s') ∧ Space T G0 s0 c sz G s' ∧
      leaf s'.mem c v = leaf s.mem c v &&& ~~~PTE_U ∧
      (∀ w < npages sz, w ≠ v → leaf s'.mem c w = leaf s.mem c w) ∧ s'.freelist = s.freelist := by
  have ho := h.inv.own
  have hm := h.map hv
  have hlt := ho.leaves.map_lt c v hm
  obtain ⟨a, ha⟩ := ho.addr_of_map hm
  have hpa : PTE2PA (leaf s.mem c v &&& ~~~PTE_U) = PTE2PA (leaf s.mem c v) :=
    Pte.PTE2PA_andNot Pte.isFlags_U
  let s1 : KState := { s with mem := setPte s.mem a (leaf s.mem c v &&& ~~~PTE_U) }
  have h1 : Own G s1 := ho.setFlags hm ha (by simp) (by simp) hpa
  have hF : Frame {(c, v)} ∅ G G s s1 :=
    Frame.store (c := s.referCount) ho h.root (by omega) ha (mem_singleton _)
  have hself : leaf s1.mem c v = leaf s.mem c v &&& ~~~PTE_U := by
    show leaf (setPte _ _ _) c v = _
    rw [ho.leaf_store h.root (by omega) ha h.root (by omega), setLeaf_self]
  have hother : ∀ r w, (r, w) ∈ G.maps → (r, w) ≠ (c, v) → leaf s1.mem r w = leaf s.mem r w :=
    fun r w hw hne => hF.leaf_map ho hw hne
  have hpage : ∀ r w, (r, w) ∈ G.maps → PTE2PA (leaf s1.mem r w) = PTE2PA (leaf s.mem r w) :=
    fun r w hw => by
      by_cases e : (r, w) = (c, v)
      · obtain ⟨rfl, rfl⟩ := Prod.mk.inj e
        rw [hself, hpa]
      · rw [hother r w hw e]
  obtain ⟨h2, h3, h4⟩ := h.step h0 h1 (hF.mono (show _ ⊆ userOf c 0 from by
    rintro y rfl
    exact ⟨rfl, Nat.zero_le _, hlt⟩) subset_rfl)
  refine ⟨s1, ?_, ⟨h2, h.spans, h3, fun w hw r' w' hw' e => ?_, fun w hw => ?_, h4⟩, hself,
    fun w hw hne => hother c w (h.map hw) fun e => hne (Prod.mk.inj e).2, rfl⟩
  · unfold uvmclear
    rw [bind_ok (walk_map hlt (Nat.mul_div_cancel_left v (by decide)) ha false)]
    simp only
    rw [readPte_bind, leaf_of_addr ha]
    rfl
  · rw [hpage r' w' hw', hpage c w (h.map hw)] at e
    exact h.sole w hw r' w' hw' e
  · by_cases e : w = v
    · rw [e, hself]
      simp [h.plain v hv]
    · rw [hother c w (h.map hw) fun e' => e (Prod.mk.inj e').2]
      exact h.plain w hw

/-- **`copyout` into the space** changes its bytes only. -/
theorem Space.copyout (dstva : Nat) (src : List UInt8) :
    ∃ ret s', copyout c dstva src s = .ok (ret, s') ∧ CopyRun c G s dstva src ret G s' ∧
      Space T G0 s0 c sz G s' ∧ (∀ w < npages sz, leaf s'.mem c w = leaf s.mem c w) ∧
      s'.freelist = s.freelist := by
  have ho := h.inv.own
  obtain ⟨ret, s', G', e, hrun⟩ := copyout_run dstva src ho h.root
  obtain ⟨rfl, hS, hf⟩ := hrun.plain ho fun v hv => h.plain v ((h.spans v).1 hv)
  obtain ⟨h1, -, hS'⟩ := hrun.spec ho
  have hl : ∀ r v, (r, v) ∈ G'.maps → leaf s'.mem r v = leaf s.mem r v :=
    fun r v hm => hS.leaf_map ho hm (Set.notMem_empty _)
  have hF : Frame (userOf c 0) ∅ G' G' s s' :=
    { hS' with
      bytes := fun r v hx hm => hrun.others ho hm (.inl fun hc => hx ⟨hc, Nat.zero_le _,
        ho.leaves.map_lt r v hm⟩) fun w _ hw _ he => hx ?_ }
  · exact ⟨ret, s', e, hrun, h.bytes h0 h1 hF hl, fun w hw => hl c w (h.map hw), hf⟩
  · obtain ⟨rfl, rfl⟩ := h.sole w ((h.spans w).1 hw) r v hm he.symm
    exact ⟨rfl, Nat.zero_le _, ho.leaves.map_lt r v hm⟩

/-- The argument strings. -/
theorem pushArgs_spec (base : Nat) (argv : List (List UInt8)) (sp : Nat) (us : List Nat) :
    ∃ o s', pushArgs c base argv sp us s = .ok (o, s') ∧ Space T G0 s0 c sz G s' := by
  induction argv generalizing s sp us with
  | nil => exact ⟨_, s, rfl, h⟩
  | cons arg rest ih =>
    rw [pushArgs]
    by_cases hmax : us.length ≥ MAXARG
    · rw [if_pos hmax]
      exact ⟨none, s, rfl, h⟩
    rw [if_neg hmax]
    by_cases hsp : pushSp sp (arg.length + 1) < base
    · rw [if_pos hsp]
      exact ⟨none, s, rfl, h⟩
    obtain ⟨ret, s1, e1, -, h1, -⟩ := h.copyout h0 (pushSp sp (arg.length + 1)) (arg ++ [0])
    rw [if_neg hsp, bind_ok e1]
    by_cases hr : ret < 0
    · rw [if_pos hr]
      exact ⟨none, s1, rfl, h1⟩
    · rw [if_neg hr]
      exact ih h1 _ _

/-- The strings and the `argv` array. -/
theorem pushStack_spec (argv : List (List UInt8)) :
    ∃ o s', pushStack c sz argv s = .ok (o, s') ∧ Space T G0 s0 c sz G s' := by
  obtain ⟨o, s1, e1, h1⟩ := pushArgs_spec h h0 (sz - PGSIZE) argv sz []
  unfold pushStack
  simp only
  rw [bind_ok e1]
  rcases o with - | ⟨sp, us⟩
  · exact ⟨none, s1, rfl, h1⟩
  simp only
  by_cases hsp : pushSp sp ((us.length + 1) * 8) < sz - PGSIZE
  · rw [if_pos hsp]
    exact ⟨none, s1, rfl, h1⟩
  obtain ⟨ret, s2, e2, -, h2, -⟩ := h1.copyout h0 (pushSp sp ((us.length + 1) * 8))
    ((us ++ [0]).flatMap wordBytes)
  rw [if_neg hsp, bind_ok e2]
  by_cases hr : ret < 0
  · rw [if_pos hr]
    exact ⟨none, s2, rfl, h2⟩
  · rw [if_neg hr]
    exact ⟨_, s2, rfl, h2⟩

end

/-! ## The commit -/

/-- **The new space is the process's**, and the old one is gone. -/
theorem execCommit_spec (h : Space T G0 s0 c sz G s) (h0 : KInv T G0 s0) (hT : T.roots = ∅)
    (hp : p < NPROC) (hslot : p ∉ T.slots) (hl : (s0.procs p).state ≠ .unused)
    (hfl : ∀ pa, ((s0.procs p).pagetable, pa) ∉ T.flight) (sp entry argc : Nat)
    (path : List UInt8) : ∃ s' G', execCommit p c sz sp entry path argc s = .ok (argc, s') ∧
    KInv T G' s' ∧
      s'.procs = update s0.procs p { s0.procs p with
        name := safestrcpy (lastName path path) 16, pagetable := c, sz := sz } ∧
      s'.initproc = s0.initproc ∧
      View (allOf c ∪ allOf (s0.procs p).pagetable) {(s0.procs p).trapframe} G0 G' s0.mem s'.mem ∧
      (∀ v < npages sz, leaf s'.mem c v = leaf s.mem c v ∧ Sole G' s'.mem c v ∧
        ∀ o < 4096, s'.mem (PTE2PA (leaf s.mem c v) + o) = s.mem (PTE2PA (leaf s.mem c v) + o)) ∧
      getLE s'.mem ((s0.procs p).trapframe + 120) 8 = sp % 2 ^ 64 ∧
      getLE s'.mem ((s0.procs p).trapframe + 48) 8 = sp % 2 ^ 64 := by
  have hpr : s.procs = s0.procs := h.frame.procs
  have hpp : s.procs p = s0.procs p := by rw [hpr]
  have hlive := h0.live p hp hslot hl
  have hroot := h.root
  have hold : (s0.procs p).pagetable ≠ c := fun e => h.inv.roots p hp (by rw [hpp]; exact e)
  have htrap : G.use (s0.procs p).trapframe = .trap p := by
    rw [h.inv.trap, hpp]
    exact ⟨hp, rfl, hlive.2⟩
  have hso : Spans G (s0.procs p).pagetable (npages (s0.procs p).sz) := by
    have := h.inv.spans p hp (by rw [hpp]; exact hlive.1)
    rwa [hpp] at this
  have hsp : SpecFull G (s0.procs p).pagetable := by
    have := h.inv.spec p hp (by rw [hpp]; exact hlive.1)
    rwa [hpp] at this
  let b : Proc := { s0.procs p with
    name := safestrcpy (lastName path path) 16, pagetable := c, sz := sz }
  obtain ⟨m1, e1, h1, hV1, hw1, -⟩ := setTrapframe_inv h.inv htrap 120 (by omega) sp
  let s2 : KState := KState.setProc { s with mem := m1 } p b
  have h2 : KInv (T.withRoot (s0.procs p).pagetable) G s2 := by
    have := h1.swapRoot (b := b) hp (by show (s.procs p).pagetable ≠ 0 ∧ _; rw [hpp]; exact hlive)
      h.spans h.spec rfl rfl (by show _ = (s.procs p).trapframe; rw [hpp]) hl
    rwa [show ({ s with mem := m1 } : KState).procs p = _ from hpp] at this
  obtain ⟨m3, e3, h3, hV3, -, ho3⟩ := setTrapframe_inv h2 htrap 24 (by omega) entry
  obtain ⟨m4, e4, h4, hV4, hw4, ho4⟩ := setTrapframe_inv h3 htrap 48 (by omega) sp
  have hV : View ∅ {(s0.procs p).trapframe} G G s.mem m4 :=
    (hV1.trans h.inv.own.leaves hV3).trans h.inv.own.leaves hV4
  obtain ⟨s5, G5, e5, h5, hF5, -, hu5, -⟩ := h4.freeRoot hT hso hsp hfl
  have hne5 : ∀ {v}, (c, v) ∉ allOf (s0.procs p).pagetable := fun hx => hold hx.symm
  -- the trapframe is none of the pages that are freed
  have htf : ∀ off, off + 8 ≤ 4096 →
      getLE s5.mem ((s0.procs p).trapframe + off) 8 = getLE m4 ((s0.procs p).trapframe + off) 8 :=
      fun off ho =>
    getLE_congr 8 fun i hi => by
      rw [Nat.add_assoc]
      exact (hF5.keep _ (notMem_empty _) (htrap ▸ .inr ⟨p, rfl⟩)).2 (off + i) (by omega)
  have hlf : ∀ v < npages sz, leaf m4 c v = leaf s.mem c v := fun v hv =>
    hV.leaf c v (notMem_empty _) hroot (h.inv.own.leaves.lt (h.map hv))
  refine ⟨s5, G5, ?_, h5, ?_, hF5.initproc.trans h.frame.initproc, ?_,
    fun v hv => ⟨?_, ?_, fun o ho => ?_⟩, ?_, ?_⟩
  · unfold execCommit
    rw [bind_ok (show getProc p s = .ok (s0.procs p, s) from congrArg (fun x => Except.ok (x, s))
      hpp), bind_ok e1, bind_ok (setProc_ok (show ({ s with mem := m1 } : KState).procs p =
        _ from hpp))]
    refine (bind_ok e3).trans ?_
    rw [bind_ok e4, bind_ok e5]
    rfl
  · rw [hF5.procs]
    show update s.procs p b = _
    rw [hpr]
  · exact ((h.frame.view.mono subset_union_left (empty_subset _)).trans h0.own.leaves
      (hV.mono (empty_subset _) subset_rfl)).trans h0.own.leaves
      (hF5.view.mono subset_union_right (empty_subset _))
  · rw [hF5.leaf c v hne5 hroot (h.inv.own.leaves.lt (h.map hv))]
    exact hlf v hv
  · have hsole : Sole G m4 c v := (h.sole v hv).view h.inv.own hV (h.map hv) (notMem_empty _)
      fun _ _ hx => absurd hx (notMem_empty _)
    exact Sole.view (s := { s2 with mem := m4 }) hsole h4.own hF5.view (h.map hv) hne5
      fun r' w hx hw => absurd hw ((h5.own.unmapped (by simp [show r' = _ from hx, hu5])).maps w)
  · have hb : s5.mem (PTE2PA (leaf m4 c v) + o) = m4 (PTE2PA (leaf m4 c v) + o) :=
      hF5.bytes c v hne5 (h.map hv) o ho
    rw [hlf v hv] at hb
    exact hb.trans (hV.bytes c v (notMem_empty _) (h.map hv) o ho)
  · rw [htf 120 (by decide), ho4 _ (by omega), ← hw1]
    exact ho3 _ (by omega)
  · exact (htf 48 (by decide)).trans hw4

/-! ## `exec` -/

/-- **Nothing came of it**: processes, user memory and the trees of page tables are as before. -/
structure Restored (T : Transit) (G G' : Ghost) (s s' : KState) : Prop where
  inv : KInv T G' s'
  procs : s'.procs = s.procs
  initproc : s'.initproc = s.initproc
  kheld : s'.kheld = s.kheld
  view : View ∅ ∅ G G' s.mem s'.mem
  growth : Growth ∅ G G'

theorem Restored.refl (h : KInv T G s) : Restored T G G s s :=
  ⟨h, rfl, rfl, rfl, View.refl .., Growth.refl _ _⟩

theorem Restored.trans {T' : Transit} {G'' : Ghost} {s'' : KState} (h : Restored T G G' s s')
    (h0 : Leaves G (leaf s.mem)) (h' : Restored T' G' G'' s' s'') : Restored T' G G'' s s'' :=
  ⟨h'.inv, h'.procs.trans h.procs, h'.initproc.trans h.initproc, h'.kheld.trans h.kheld,
    h.view.trans h0 h'.view, h.growth.trans h'.growth⟩

/-- **A failed `exec` leaves no trace** of the space it built. -/
theorem Space.abort (h : Space T G0 s0 c sz G s) (hW : Growth (allOf c) G0 G) (h0 : KInv T G0 s0)
    (hT : T.roots = ∅) (hfree : G0.use c = .free) :
    ∃ s' G', procFreepagetable c sz s = .ok ((), s') ∧ Restored T G0 G' s0 s' := by
  obtain ⟨s1, G1, e1, h1, hF, hW1, hu, -⟩ := h.inv.freeRoot hT h.spans h.spec fun pa hc => by
    rw [← h0.flight] at hc
    have := h0.own.leaves.flight_root c pa hc
    rw [hfree] at this
    cases this
  have hF' := h.frame.trans h0.own.leaves hF
  have hc : G0.use c ≠ .root := by simp [hfree]
  have hc' : G1.use c ≠ .root := by simp [hu]
  exact ⟨s1, G1, e1, h1, hF'.procs, hF'.initproc, hF'.kheld,
    ((hF'.mono subset_union_left subset_rfl).dropRoot h0.own h1.own hc hc').view,
    (hW.trans hW1).dropRoot h0.own h1.own hc hc'⟩

/-- What `exec` does: nothing, or process `p` has a space of fresh pages. -/
structure Execed (p c sz : Nat) (G G' : Ghost) (s s' : KState) : Prop where
  new : G.use c ≠ .root
  procs : ∃ name, s'.procs = update s.procs p { s.procs p with
    name := name, pagetable := c, sz := sz }
  view : View (allOf c ∪ allOf (s.procs p).pagetable) {(s.procs p).trapframe} G G' s.mem s'.mem
  sole : ∀ v < npages sz, Sole G' s'.mem c v

/-- **A space with its stack**, a user page above the guard page at `n`. -/
structure Stacked (T : Transit) (G0 : Ghost) (s0 : KState) (c n : Nat) (G : Ghost) (s : KState) :
    Prop extends Space T G0 s0 c (4096 * (n + 2)) G s where
  growth : Growth (allOf c) G0 G
  user : (leaf s.mem c (n + 1)).has PTE_U = true

/-- `exec` with the stack in place: the arguments and the commit. -/
def execArgs (p c sz entry : Nat) (path : List UInt8) (argv : List (List UInt8)) : Kern Int := do
  match ← pushStack c sz argv with
  | none => do
    procFreepagetable c sz
    pure (-1)
  | some sp => execCommit p c sz sp entry path argv.length

/-- **`exec` from the stack on** fails for want of memory, whatever the arguments, or gets to
them. -/
theorem execStack_cases (h : Space T G0 s0 c sz G s) (hW : Growth (allOf c) G0 G)
    (h0 : KInv T G0 s0) (hU : AllUser s c sz) (hT : T.roots = ∅) (hfree : G0.use c = .free)
    (p entry : Nat) (path : List UInt8) :
    (∃ s' G', (∀ argv, execStack p c sz entry path argv s = .ok (-1, s')) ∧ Restored T G0 G' s0 s' ∧
      s.freelist.length ≤ 6) ∨
    ∃ n s' G', (∀ argv, execStack p c sz entry path argv s =
        execArgs p c (4096 * (n + 2)) entry path argv s') ∧ Stacked T G0 s0 c n G' s' := by
  have hle := h.inv.own.spans_le h.spans
  have hround : PGROUNDUP sz = 4096 * npages sz := PGROUNDUP_npages (by unfold npages at hle; omega)
  have hnp := npages_mul (npages sz)
  have hs' : Space T G0 s0 c (4096 * npages sz) G s :=
    ⟨h.inv, by rw [hnp]; exact h.spans,
      h.spec, by rw [hnp]; exact h.sole, by rw [hnp]; exact h.plain, h.frame⟩
  have hU' : AllUser s c (4096 * npages sz) := by unfold AllUser; rw [hnp]; exact hU
  have hwrap : (4096 * npages sz + 2 * PGSIZE) % 2 ^ 64 = 4096 * (npages sz + 2) := by
    rw [PGSIZE_eq]
    omega
  have hnp2 := npages_mul (npages sz + 2)
  unfold execStack
  rw [hround, hwrap]
  obtain ⟨ret, s1, G1, e1, hW1, hres⟩ := hs'.alloc h0.own hU' Pte.isFlags_W (by decide +kernel)
    (4096 * (npages sz + 2))
  simp only [bind_ok e1]
  rcases hres with ⟨rfl, h1, hf⟩ | ⟨hr0, hr, h1, hU1, -⟩
  · obtain ⟨s2, G2, e2, h2⟩ := h1.abort (hW.trans hW1) h0 hT hfree
    refine .inl ⟨s2, G2, fun argv => by rw [if_pos rfl, bind_ok e2]; rfl, h2, ?_⟩
    have := hf (by omega)
    omega
  obtain rfl : ret = 4096 * (npages sz + 2) := by omega
  obtain ⟨s2, e2, h2, -, hl2, -⟩ := uvmclear_spec h1 h0.own (v := npages sz) (by rw [hnp2]; omega)
  refine .inr ⟨npages sz, s2, G1, fun argv => ?_, h2, hW.trans hW1, ?_⟩
  · rw [if_neg hr0, show 4096 * (npages sz + 2) - 2 * PGSIZE = 4096 *
      npages sz by rw [PGSIZE_eq]; omega, bind_ok e2]
    rfl
  · rw [hl2 _ (by rw [hnp2]; omega) (by omega)]
    exact hU1 _ (by rw [hnp2]; omega)

/-- The arguments and the commit. -/
theorem Stacked.args {n : Nat} (h : Stacked T G0 s0 c n G s) (h0 : KInv T G0 s0) (hT : T.roots = ∅)
    (hfree : G0.use c = .free) (hp : p < NPROC) (hslot : p ∉ T.slots)
    (hl : (s0.procs p).state ≠ .unused) (hfl : ∀ pa, ((s0.procs p).pagetable, pa) ∉ T.flight)
    (entry : Nat) (path : List UInt8) (argv : List (List UInt8)) :
    ∃ ret s' G', execArgs p c (4096 * (n + 2)) entry path argv s = .ok (ret, s') ∧
      ((ret = -1 ∧ Restored T G0 G' s0 s') ∨
        ret = argv.length ∧ KInv T G' s' ∧ s'.initproc = s0.initproc ∧
          Execed p c (4096 * (n + 2)) G0 G' s0 s') := by
  obtain ⟨o, s1, e1, h1⟩ := pushStack_spec h.toSpace h0.own argv
  unfold execArgs
  rw [bind_ok e1]
  rcases o with - | sp
  · obtain ⟨s2, G2, e2, h2⟩ := h1.abort h.growth h0 hT hfree
    exact ⟨-1, s2, G2, (bind_ok e2).trans rfl, .inl ⟨rfl, h2⟩⟩
  · obtain ⟨s2, G2, e2, h2, hp2, hi2, hV2, hl2, -⟩ :=
      execCommit_spec h1 h0 hT hp hslot hl hfl sp entry argv.length path
    exact ⟨_, s2, G2, e2, .inr ⟨rfl, h2, hi2, by simp [hfree], ⟨_, hp2⟩, hV2,
      fun v hv => (hl2 v hv).2.1⟩⟩

/-- **`exec` fails before it comes to the arguments**, whatever they are, or builds a space with a
stack. -/
theorem exec_cases (h : KInv T G s) (hT : T.roots = ∅) (p : Nat) (path : List UInt8)
    (ip : Option ExecFile) :
    (∃ s' G', (∀ argv, exec p path ip argv s = .ok (-1, s')) ∧ Restored T G G' s s') ∨
    ∃ c n entry s' G', G.use c = .free ∧ (∀ argv, exec p path ip argv s =
        execArgs p c (4096 * (n + 2)) entry path argv s') ∧ Stacked T G s c n G' s' := by
  have hsame : ∃ s' G', (∀ _ : List (List UInt8), (pure (-1) : Kern Int) s = .ok (-1, s')) ∧
      Restored T G G' s s' :=
    ⟨s, G, fun _ => rfl, .refl h⟩
  unfold exec
  rcases ip with - | ip
  · exact .inl hsame
  simp only
  by_cases hlen : (fileRead ip 0 elfhdrSize).length ≠ elfhdrSize
  · simp only [if_pos hlen]
    exact .inl hsame
  by_cases hmag : field (fileRead ip 0 elfhdrSize) 0 4 ≠ ELF_MAGIC
  · simp only [if_neg hlen, if_pos hmag]
    exact .inl hsame
  simp only [if_neg hlen, if_neg hmag]
  obtain ⟨c, s1, G1, e1, h1, hres⟩ := procPagetable_spec h.own p
  simp only [bind_ok e1]
  rcases hres with ⟨rfl, hF1, hW1, -⟩ | ⟨hc0, hfree, hF1, hW1, hr1, hs1, hsp1, -⟩
  · simp only [if_pos]
    refine .inl ⟨s1, G1, fun _ => rfl, h.keepSize h1 hF1.toShape
      (fun _ _ hx => absurd hx (notMem_empty _))
      (Finset.ext fun ⟨r, v⟩ => hF1.maps r v (notMem_empty _)), hF1.procs, hF1.initproc,
      hF1.kheld, hF1.view, hW1⟩
  simp only [if_neg hc0]
  have hspace : Space T G s c 0 G1 s1 :=
    ⟨h.addRoot hT hfree hc0 h1 hF1 hr1, hs1, hsp1, nofun,
      nofun, hF1⟩
  obtain ⟨ok, sz, s2, G2, e2, h2, hW2, hU2⟩ := loadProgram_spec
    (k := field (fileRead ip 0 elfhdrSize) 56 2) hspace h.own ip (field (fileRead ip 0 elfhdrSize)
    32 8) nofun
  have hW := (hW1.mono singleton_allOf).trans hW2
  simp only [bind_ok e2]
  by_cases hok : ok = true
  · simp only [if_neg (not_not.2 hok)]
    rcases execStack_cases h2 hW h (hU2 hok) hT hfree p
      (field (fileRead ip 0 elfhdrSize) 24 8) path with
      ⟨s3, G3, e3, h3, -⟩ | ⟨n, s3, G3, e3, h3⟩
    exacts [.inl ⟨s3, G3, e3, h3⟩, .inr ⟨c, n, _, s3, G3, hfree, e3, h3⟩]
  · simp only [if_pos hok]
    obtain ⟨s3, G3, e3, h3⟩ := h2.abort hW h hT hfree
    exact .inl ⟨s3, G3, fun _ => (bind_ok e3).trans rfl, h3⟩

/-- **`exec`.** -/
theorem exec_spec (h : KInv T G s) (hT : T.roots = ∅) (hp : p < NPROC) (hslot : p ∉ T.slots)
    (hl : (s.procs p).state ≠ .unused) (hfl : ∀ pa, ((s.procs p).pagetable, pa) ∉ T.flight)
    (path : List UInt8) (ip : Option ExecFile) (argv : List (List UInt8)) :
    ∃ ret s' G', exec p path ip argv s = .ok (ret, s') ∧
      ((ret = -1 ∧ Restored T G G' s s') ∨
        ∃ c sz, ret = argv.length ∧ KInv T G' s' ∧ s'.initproc = s.initproc ∧
        Execed p c sz G G' s s') := by
  rcases exec_cases h hT p path ip with ⟨s', G', e, hR⟩ | ⟨c, n, entry, s1, G1, hfree, e, h1⟩
  · exact ⟨-1, s', G', e argv, .inl ⟨rfl, hR⟩⟩
  · obtain ⟨ret, s', G', e', hor⟩ := h1.args h hT hfree hp hslot hl hfl entry path argv
    exact ⟨ret, s', G', (e argv).trans e', hor.imp_right fun hE => ⟨c, _, hE⟩⟩

end

end Xv6
