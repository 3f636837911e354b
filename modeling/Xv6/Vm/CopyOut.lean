import Xv6.Vm.CopyIn

/-!
# Vm/CopyOut — what `copyout` does to user memory

A copy-on-write page that is replaced on the way holds the same bytes as before, so that seen from
user mode a copy changes the bytes of its range and nothing else (`Edited`); such edits compose.
With memory for the copies, it succeeds just when user mode has access to the whole range.
-/

namespace Xv6

open Act Bytes

variable [Layout] {G G' G'' G1 : Ghost} {s s' s'' s1 : KState} {r v va pa dstva : Nat}
  {src : List UInt8}

/-! ## Edits of user memory -/

/-- The addresses of a range. -/
def span (va n : Nat) : Set Nat := {a | va ≤ a ∧ a < va + n}

omit [Layout] in
theorem span_mono {n n' : Nat} (h : va ≤ v) (h' : v + n ≤ va + n') :
    span v n ⊆ span va n' := fun _ ha =>
  ⟨h.trans ha.1, ha.2.trans_le h'⟩

/-- **Edits within `R`**: the mappings of table `r` and the access to them are as before, and so are
the bytes outside `R`. -/
structure Edited (r : Nat) (R : Set Nat) (G G' : Ghost) (s s' : KState) : Prop where
  own : Own G' s'
  maps : G'.maps = G.maps
  shape : Shape (userOf r 0) ∅ G G' s s'
  user : ∀ v, (r, v) ∈ G.maps → (leaf s'.mem r v).has PTE_U = (leaf s.mem r v).has PTE_U
  bytes : ∀ va, (r, va / 4096) ∈ G.maps → va ∉ R → byteAt s'.mem r va = byteAt s.mem r va

namespace Edited

variable {R R' : Set Nat}

theorem refl (h : Own G s) : Edited r R G G s s :=
  ⟨h, rfl, (Frame.refl ..).toShape, fun _ _ => rfl, fun _ _ _ => rfl⟩

section

variable (h : Edited r R G G' s s')

include h

theorem trans (h' : Edited r R G' G'' s' s'') : Edited r R G G'' s s'' where
  own := h'.own
  maps := h'.maps.trans h.maps
  shape := h.shape.trans h'.shape
  user v hm := (h'.user v (h.maps ▸ hm)).trans (h.user v hm)
  bytes va hm hR := (h'.bytes va (h.maps ▸ hm) hR).trans (h.bytes va hm hR)

theorem mono (hR : R ⊆ R') : Edited r R' G G' s s' :=
  { h with bytes := fun va hm hx => h.bytes va hm fun hc => hx (hR hc) }

theorem root (hr : G.use r = .root) : G'.use r = .root :=
  (h.shape.root r (2 ^ 26) fun hx => by have := hx.2.2; omega).2 hr

/-- User mode has access to the same addresses. -/
theorem access (ho : Own G s) (hr : G.use r = .root) (va : Nat) :
    userPa s'.mem r va ≠ 0 ↔ userPa s.mem r va ≠ 0 := by
  rw [h.own.userPa_ne (h.root hr), ho.userPa_ne hr, h.maps]
  exact and_congr_right fun hm => by rw [h.user _ hm]

end

end Edited

/-! ## One page -/

section

variable (h : Opened G s r v pa G1 s1) (ho : Own G s) (hm : (r, v) ∈ G.maps) (hd : dstva / 4096 = v)

include h ho hm hd

/-- **The byte at each address once a page has been written.** -/
theorem Opened.byteAt_store (src : List UInt8) (hw : (r, va / 4096) ∈ G.maps) :
    byteAt (put s1.mem (pa + dstva % 4096) (src.take (chunk dstva src))) r va =
      if dstva ≤ va ∧ va < dstva + chunk dstva src then src.getD (va - dstva) 0
      else byteAt s.mem r va := by
  have hm1 : (r, v) ∈ G1.maps := h.maps ▸ hm
  have hch : chunk dstva src = min (4096 - dstva % 4096) src.length := rfl
  have hlen : (src.take (chunk dstva src)).length = chunk dstva src := by
    rw [List.length_take]
    omega
  have hS := (h.store dstva src (X := ∅) hm).2
  have hleaf : ∀ {w}, (r, w) ∈ G.maps →
      leaf (put s1.mem (pa + dstva % 4096) (src.take (chunk dstva src))) r w = leaf s1.mem r w :=
    fun hw => hS.leaf_map h.own (h.maps ▸ hw) (Set.notMem_empty _)
  unfold byteAt userAddr
  rw [hleaf hw]
  by_cases hv : va / 4096 = v
  · rw [hv, h.page]
    split
    next hin =>
      rw [put, overlay_in (by omega) (by rw [hlen]; omega), List.getD_eq_getElem?_getD,
        List.getD_eq_getElem?_getD, List.getElem?_take_of_lt (by omega), show pa + va % 4096 -
        (pa + dstva % 4096) = va - dstva by omega]
    next hout =>
      rw [put, overlay_out (by rw [hlen]; omega)]
      exact h.bytes _ (Nat.mod_lt _ (by decide))
  · -- the page of another address is another one, before and after
    have hout : ¬ (dstva ≤ va ∧ va < dstva + chunk dstva src) := by omega
    have hl1 : leaf s1.mem r (va / 4096) = leaf s.mem r (va / 4096) :=
      h.frame.leaf_map ho hw fun e => hv (Prod.mk.inj e).2
    have hne : PTE2PA (leaf s1.mem r (va / 4096)) ≠ pa := fun e =>
      hv (h.own.leaves.inj r _ v (h.maps ▸ hw) hm1 (e.trans h.page.symm))
    rw [if_neg hout, hl1] at *
    have hlt : va % 4096 < 4096 := Nat.mod_lt _ (by decide)
    rw [h.store_out hm (ho.mapped hw) hne hlt]
    exact h.frame.bytes r _ (fun e => hv (Prod.mk.inj e).2) hw _ hlt

/-- An opened and written page is an edit. -/
theorem Opened.edited (src : List UInt8) :
    Edited r (span dstva (chunk dstva src)) G G1 s (putChunk s1 pa dstva src) := by
  obtain ⟨h1, hS1⟩ := h.store dstva src (X := userOf r 0) hm
  have hS := (h.frame.toShape.mono (ho.singleton_userOf hm) subset_rfl).trans hS1
  refine ⟨h1, h.maps, hS, fun w hw => ?_, fun va hw hx => ?_⟩
  · have hl := (h.store dstva src (X := ∅) hm).2.leaf_map h.own (h.maps ▸ hw) (Set.notMem_empty _)
    rw [hl]
    by_cases hv : w = v
    · rw [hv, h.user]
    · rw [h.frame.leaf_map ho hw fun e => hv (Prod.mk.inj e).2]
  · exact (h.byteAt_store ho hm hd src hw).trans (if_neg hx)

end

/-! ## Whole runs -/

namespace CopyRun

variable {ret : Int}

omit [Layout] in
/-- The range that the first page leaves. -/
theorem span_rest (dstva : Nat) (src : List UInt8) :
    span (4096 * (dstva / 4096 + 1)) (src.drop (chunk dstva src)).length ⊆ span dstva
    src.length := by
  rintro a ⟨h1, h2⟩
  rw [List.length_drop] at h2
  have hch : chunk dstva src = min (4096 - dstva % 4096) src.length := rfl
  exact ⟨by omega, by omega⟩

section

variable (h : CopyRun r G s dstva src ret G' s') (ho : Own G s)

include h ho

/-- **A run of `copyout` edits its range**, whether it succeeds or not. -/
theorem edited : Edited r (span dstva src.length) G G' s s' := by
  induction h with
  | done | stop => exact .refl ho
  | @full G s dstva src a _ hm _ _ _ ha =>
    obtain ⟨h1, hF, hl, hb⟩ := ho.flag_store (Y := ∅) hm ha (.inr rfl)
    refine ⟨h1, rfl, hF.toShape.mono (ho.singleton_userOf hm) subset_rfl, fun w hw => ?_,
      fun va hw _ => ?_⟩
    · by_cases hv : w = dstva / 4096
      · subst hv
        rw [hl]
        simp
      · rw [hF.leaf_map ho hw fun e => hv (Prod.mk.inj e).2]
    · unfold byteAt userAddr
      have hlt : va % 4096 < 4096 := Nat.mod_lt _ (by decide)
      by_cases hv : va / 4096 = dstva / 4096
      · rw [hv, hl, Pte.PTE2PA_or Pte.isFlags_W]
        exact hb _ hlt
      · have hx : (r, va / 4096) ∉ ({(r, dstva / 4096)} : Set (Nat × Nat)) :=
          fun e => hv (Prod.mk.inj e).2
        rw [hF.leaf_map ho hw hx]
        exact hF.bytes r _ hx hw _ hlt
  | @page G s dstva src pa G1 s1 ret G' s' _ hm _ hO _ _ ih =>
    have h1 := hO.edited ho hm rfl src
    have hch : span dstva (chunk dstva src) ⊆ span dstva src.length :=
      span_mono le_rfl (Nat.add_le_add_left (min_le_right _ _) _)
    exact (h1.mono hch).trans ((ih h1.own).mono (span_rest dstva src))

/-- **A run that succeeds had access to every address and left the source there.** -/
theorem bytes (h0 : ret = 0) {i : Nat} (hi : i < src.length) :
    (r, (dstva + i) / 4096) ∈ G.maps ∧ (leaf s.mem r ((dstva + i) / 4096)).has PTE_U = true ∧
      byteAt s'.mem r (dstva + i) = src.getD i 0 := by
  induction h generalizing i with
  | done => exact absurd hi (Nat.not_lt_zero i)
  | stop | full => exact absurd h0 (by decide)
  | @page G s dstva src pa G1 s1 ret G' s' hsrc hm hU hO _ hrest ih =>
    have hch : chunk dstva src = min (4096 - dstva % 4096) src.length := rfl
    have h1 := hO.edited ho hm rfl src
    by_cases hic : i < chunk dstva src
    · have hpage : (dstva + i) / 4096 = dstva / 4096 := by omega
      rw [hpage]
      refine ⟨hm, hU, ?_⟩
      have hout :=
        (hrest.edited h1.own).bytes (dstva + i) (by rw [hpage, hO.maps]; exact hm) fun hx => by
          have := hx.1
          omega
      rw [hout, hO.byteAt_store ho hm rfl src (by rw [hpage]; exact hm),
        if_pos ⟨by omega, by omega⟩, Nat.add_sub_cancel_left]
    · have hstart : 4096 * (dstva / 4096 + 1) = dstva + chunk dstva src := by omega
      obtain ⟨h2, h3, h4⟩ := ih h1.own h0 (i := i - chunk dstva src)
        (by rw [List.length_drop]; omega)
      rw [hstart, show dstva + chunk dstva src + (i - chunk dstva src) = dstva + i by omega]
        at h2 h3 h4
      rw [h1.maps] at h2
      refine ⟨h2, by rwa [h1.user _ h2] at h3, h4.trans ?_⟩
      rw [List.getD_eq_getElem?_getD, List.getD_eq_getElem?_getD, List.getElem?_drop,
        show chunk dstva src + (i - chunk dstva src) = i by omega]

/-- **With memory for the copies only access decides.** -/
theorem ret_iff (hr : G.use r = .root)
    (hf : Fits s r dstva src.length) : ret = 0 ↔ Accessible s.mem r dstva src.length := by
  constructor
  · intro h0 i hi
    obtain ⟨h1, h2, -⟩ := h.bytes ho h0 hi
    exact (ho.userPa_ne hr).2 ⟨h1, h2⟩
  intro hacc
  induction h with
  | done => rfl
  | @stop G s dstva src hsrc hno =>
    refine absurd ?_ (hacc 0 (List.length_pos_iff.2 hsrc))
    rw [← hno]
    exact userPa_congr (by omega)
  | full hsrc hm hU hneed hnil => exact absurd hnil (hf.ne_nil ho hm hU hneed hsrc)
  | @page G s dstva src pa G1 s1 ret G' s' hsrc hm hU hO _ hrest ih =>
    have h1 := hO.edited ho hm rfl src
    refine ih h1.own (h1.root hr) (hO.fits_rest ho hm hU rfl hsrc hf) fun i hi => ?_
    have hch : chunk dstva src = min (4096 - dstva % 4096) src.length := rfl
    rw [List.length_drop] at hi
    rw [h1.access ho hr, show 4096 * (dstva / 4096 + 1) + i = dstva +
      (chunk dstva src + i) by omega]
    exact hacc _ (by omega)

end

end CopyRun

omit [Layout] in
/-- Without copy-on-write pages no memory is needed. -/
theorem fits_of_plain (h : ∀ v, userPa s.mem r (4096 * v) ≠ 0 → ¬ NeedsCopy s r v) (va len : Nat) :
    Fits s r va len := by
  have hzero : ∀ k v, copies s r k v = 0 := by
    intro k
    induction k with
    | zero => exact fun _ => rfl
    | succ k ih =>
      intro v
      rw [copies, ih]
      split
      · rfl
      next hu => rw [if_neg (h v hu)]
  exact (hzero _ _).le.trans (Nat.zero_le _)

/-! ## The copies of a process -/

/-- Address `a` lies below `MAXVA` on a valid page with `PTE_U`. -/
def UserAddr (m : Nat → UInt8) (r a : Nat) : Prop :=
  a < MAXVA ∧ (leaf m r (a / 4096)).has PTE_V = true ∧ (leaf m r (a / 4096)).has PTE_U = true

/-- No page of a process is at physical address 0. -/
theorem Own.userAddr_iff (h : Own G s) (hr : G.use r = .root) {a : Nat} :
    UserAddr s.mem r a ↔ userPa s.mem r a ≠ 0 := by
  constructor
  · rintro ⟨h1, h2, h3⟩
    rw [MAXVA_eq] at h1
    refine (h.userPa_ne hr).2
      ⟨(h.leaves.only r _ hr (by omega) (Pte.ne_zero_of_has h2)).resolve_right fun hc => ?_, h3⟩
    rw [h.leaves.spec_U r _ hc] at h3
    exact absurd h3 Bool.false_ne_true
  · rw [← userMapped_iff]
    exact fun hm => ⟨hm.1, hm.2.1, hm.2.2.1⟩

/-- **`copyin` and `copyout` move exactly the named bytes**: for the page table of any process in a
reachable state each succeeds just when every address of the range, taken modulo 2⁶⁴, is a user
address, given memory for the copies `copyout` makes; what `copyout` stored `copyin` reads back; the
bytes outside the range stay, and `copyin` changes nothing. -/
theorem copy_exact {p : Nat} (h : machine.Reach s) (hp : p < NPROC)
    (hl : (s.procs p).state ≠ .unused) (hva : va < 2 ^ 64) :
    (∀ len, ∃ o, copyin (s.procs p).pagetable va len s = .ok (o, s) ∧
      (o.isSome = true ↔ ∀ i < len, UserAddr s.mem (s.procs p).pagetable ((va + i) % 2 ^ 64))) ∧
    ∀ src : List UInt8, Fits s (s.procs p).pagetable va src.length →
      ∃ ret s', copyout (s.procs p).pagetable va src s = .ok (ret, s') ∧ (ret = 0 ∨ ret = -1) ∧
        (ret = 0 ↔ ∀ i < src.length, UserAddr s.mem (s.procs p).pagetable ((va + i) % 2 ^ 64)) ∧
        (ret = 0 → copyin (s.procs p).pagetable va src.length s' = .ok (some src, s')) ∧
        ∀ a < PGROUNDUP (s.procs p).sz, a < va ∨ va + src.length ≤ a →
          byteAt s'.mem (s.procs p).pagetable a = byteAt s.mem (s.procs p).pagetable a := by
  obtain ⟨G, hG⟩ := machine_inv h
  have hne := (hG.live p hp (Set.notMem_empty p) hl).1
  have hr := hG.use_pagetable hp hne
  have hs := hG.spans p hp hne
  have hacc : ∀ n, (∀ i < n, UserAddr s.mem (s.procs p).pagetable ((va + i) % 2 ^ 64)) ↔
      Accessible s.mem (s.procs p).pagetable va n := fun n => by
    simp only [hG.own.userAddr_iff hr, accessible_wrap hva]
  refine ⟨fun len => ⟨_, copyin_eq, ?_⟩, fun src hf => ?_⟩
  · rw [hacc]
    split <;> simp_all
  obtain ⟨ret, s', G', e, hR⟩ := copyout_run va src hG.own hr
  have hE := hR.edited hG.own
  refine ⟨ret, s', e, hR.ret_cases, by rw [hacc, hR.ret_iff hG.own hr hf], fun h0 => ?_,
    fun a ha hx => ?_⟩
  · have hall : Accessible s'.mem (s.procs p).pagetable va src.length := fun i hi =>
      (hE.access hG.own hr _).2 ((hR.ret_iff hG.own hr hf).1 h0 i hi)
    rw [copyin_eq, if_pos hall]
    have hsrc : userTake s'.mem (s.procs p).pagetable va src.length = src := by
      refine List.ext_getElem length_userTake fun i h1 h2 => ?_
      rw [getElem_userTake, (hR.bytes hG.own h0 h2).2.2, List.getD_eq_getElem?_getD,
        List.getElem?_eq_getElem h2]
      rfl
    rw [hsrc]
  · have hle := hG.own.spans_le hs
    rw [PGROUNDUP_npages (by unfold npages at hle; omega)] at ha
    exact hE.bytes a ((hs _).2 (by omega)) fun hc => by
      have h1 := hc.1
      have h2 := hc.2
      omega

/-- The first process has access to its page… -/
theorem Alone.accessible {p n : Nat} (ha : Alone G s p) (h : va + n ≤ 4096) :
    Accessible s.mem (s.procs p).pagetable va n := fun i hi => by
  have hne := (ha.inv.runs ha.runs).1
  rw [ha.inv.own.userPa_ne (ha.inv.use_pagetable ha.runs.1 hne), Nat.div_eq_of_lt (by omega)]
  exact ⟨(ha.inv.spans p ha.runs.1 hne 0).2 (by rw [ha.size]; decide), ha.user⟩

/-- …and no copies to make there. -/
theorem Alone.fits {p n : Nat} (ha : Alone G s p) (h : va + n ≤ 4096) :
    Fits s (s.procs p).pagetable va n := by
  have hno : ¬ NeedsCopy s (s.procs p).pagetable 0 := fun hn => by
    rw [NeedsCopy, ha.plain] at hn
    exact absurd hn.1 Bool.false_ne_true
  unfold Fits pagesSpanned
  split
  · exact Nat.zero_le _
  · rw [show (va + n - 1) / 4096 + 1 - va / 4096 = 1 by omega, Nat.div_eq_of_lt (by omega)]
    simp only [copies, hno]
    split <;> exact Nat.zero_le _

omit [Layout] in
/-- …for instance a copy to and from the page of the first process. -/
theorem copy_exact_alone : ∃ (s s' : KState) (p : Nat), (@machine sampleLayout).Reach s ∧
    @copyout sampleLayout (s.procs p).pagetable 4000 [1, 2, 3] s = .ok (0, s') ∧
    copyin (s.procs p).pagetable 4000 3 s' = .ok (some [1, 2, 3], s') := by
  let _ : Layout := sampleLayout
  obtain ⟨G, _, s, p, h0, hs, ha, -⟩ := exists_alone (by decide)
  have hreach : machine.Reach s := .step (.init h0) hs
  have hroot := ha.inv.use_pagetable ha.runs.1 (ha.inv.runs ha.runs).1
  obtain ⟨ret, s', e, -, hret, hin, -⟩ :=
    (copy_exact hreach ha.runs.1 ha.runs.2.1 (show 4000 < 2 ^ 64 by decide)).2 [1, 2, 3]
      (ha.fits (by decide))
  obtain rfl := hret.2 fun i hi => by
    rw [ha.inv.own.userAddr_iff hroot, Nat.mod_eq_of_lt (by simp at hi; omega)]
    exact ha.accessible (n := 3) (by decide) i hi
  exact ⟨s, s', p, hreach, e, hin rfl⟩

end Xv6
