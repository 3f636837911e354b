import Xv6.Vm.Resolve

/-!
# Vm/Copy — `copyout` page by page

`copyout` goes through `walkaddr` and `is_cowpage`.  Opening one page either fails, leaves a page
without the copy-on-write mark as it is, or resolves the mark (`Opened`).  Which pages of a range
are reached is a property of the state before the call (`Reached`): a copy uses up one free page and
changes nothing the later pages depend on.
-/

namespace Xv6

open Act Bytes Finset

variable [Layout] {G G' G1 : Ghost} {s s' s1 : KState} {r v va a c pa : Nat} {x : Pte}
  {X : Set (Nat × Nat)} {Y : Set Nat}

/-! ## `walkaddr` -/

/-- The page that user address `va` is on, `0` if user mode has no access to it. -/
def userPa (m : Nat → UInt8) (r va : Nat) : Nat :=
  if va < MAXVA ∧ (leaf m r (va / 4096)).has PTE_V = true ∧ (leaf m r (va / 4096)).has PTE_U = true
  then PTE2PA (leaf m r (va / 4096)) else 0

omit [Layout] in
theorem walkaddr_eq : walkaddr r va s = .ok (userPa s.mem r va, s) := by
  unfold walkaddr userPa
  by_cases hva : va ≥ MAXVA
  · rw [if_pos hva, if_neg (by omega)]
    rfl
  · rw [if_neg hva, bind_ok (walk_false (by omega))]
    cases ha : leafAddr s.mem r (va / 4096) with
    | none =>
      have e : leaf s.mem r (va / 4096) = 0#64 := by simp [leaf, ha]
      rw [e]
      simp
    | some a =>
      simp only
      rw [readPte_bind, leaf_of_addr ha]
      by_cases hV : (leaf s.mem r (va / 4096)).has PTE_V = true
      · by_cases hU : (leaf s.mem r (va / 4096)).has PTE_U = true
        · rw [if_neg (by simp [hV]), if_neg (by simp [hU]), if_pos ⟨by omega, hV, hU⟩]
          rfl
        · rw [if_neg (by simp [hV]), if_pos hU, if_neg fun hc => hU hc.2.2]
          rfl
      · rw [if_pos hV, if_neg fun hc => hV hc.2.1]
        rfl

/-- User mode sees exactly the mapped pages with `PTE_U`. -/
theorem Own.userPa_ne (h : Own G s) (hr : G.use r = .root) :
    userPa s.mem r va ≠ 0 ↔
      (r, va / 4096) ∈ G.maps ∧ (leaf s.mem r (va / 4096)).has PTE_U = true := by
  unfold userPa
  constructor
  · intro hne
    split at hne
    · rename_i hc
      obtain ⟨h1, h2, h3⟩ := hc
      rw [MAXVA_eq] at h1
      rcases h.leaves.only r _ hr (by omega) (Pte.ne_zero_of_has h2) with hm | hm
      · exact ⟨hm, h3⟩
      · rw [h.leaves.spec_U r _ hm] at h3
        exact absurd h3 (by simp)
    · exact absurd rfl hne
  · rintro ⟨hm, hU⟩
    have hlt := h.leaves.map_lt r _ hm
    have hb := (h.mapped hm).bounds
    rw [if_pos ⟨by rw [MAXVA_eq]; omega, h.leaves.map_V r _ hm, hU⟩]
    omega

theorem Own.userPa_page (h : Own G s) (hm : (r, v) ∈ G.maps)
    (hU : (leaf s.mem r v).has PTE_U = true) : userPa s.mem r (4096 * v) ≠ 0 :=
  (h.userPa_ne (h.leaves.map_root r v hm)).2
    (by rw [Nat.mul_div_cancel_left v (by decide)]; exact ⟨hm, hU⟩)

omit [Layout] in
theorem userPa_of_ne (h : userPa s.mem r va ≠ 0) :
    userPa s.mem r va = PTE2PA (leaf s.mem r (va / 4096)) := by
  unfold userPa at h ⊢
  split
  · rfl
  · rename_i hc
    rw [if_neg hc] at h
    exact absurd rfl h

/-! ## Opening one page for writing -/

/-- Resolving the copy-on-write mark of page `v` needs a copy. -/
def NeedsCopy (s : KState) (r v : Nat) : Prop :=
  (leaf s.mem r v).has PTE_RSW_COW = true ∧ s.referCount (refIdx (PTE2PA (leaf s.mem r v))) ≠ 1

instance {s : KState} {r v : Nat} : Decidable (NeedsCopy s r v) :=
  inferInstanceAs (Decidable (_ ∧ _))

/-- Page `v` of `r` has been opened at `pa`: it was not copy-on-write and nothing happened, or its
mark was resolved and no other mapping leads to it. -/
structure Opened (G : Ghost) (s : KState) (r v pa : Nat) (G1 : Ghost) (s1 : KState) : Prop where
  own : Own G1 s1
  frame : Frame {(r, v)} ∅ G G1 s s1
  maps : G1.maps = G.maps
  page : PTE2PA (leaf s1.mem r v) = pa
  user : (leaf s1.mem r v).has PTE_U = (leaf s.mem r v).has PTE_U
  bytes : ∀ o < 4096, s1.mem (pa + o) = s.mem (PTE2PA (leaf s.mem r v) + o)
  list : s.freelist.length = s1.freelist.length + if NeedsCopy s r v then 1 else 0
  plain : (leaf s.mem r v).has PTE_RSW_COW = false → G1 = G ∧ s1 = s
  sole : (leaf s.mem r v).has PTE_RSW_COW = true →
    (leaf s1.mem r v).has PTE_W = true ∧
    ∀ r' w, (r', w) ∈ G1.maps → PTE2PA (leaf s1.mem r' w) = pa → r' = r ∧ w = v
  old : (leaf s.mem r v).has PTE_RSW_COW = true → ∀ o < 4096,
    s1.mem (PTE2PA (leaf s.mem r v) + o) = s.mem (PTE2PA (leaf s.mem r v) + o)

/-- With one reference a page has one mapping. -/
theorem Own.sole (h : Own G s) (hm : (r, v) ∈ G.maps)
    (hone : s.referCount (refIdx (PTE2PA (leaf s.mem r v))) = 1) {r' w : Nat}
    (hw : (r', w) ∈ G.maps) (e : PTE2PA (leaf s.mem r' w) = PTE2PA (leaf s.mem r v)) :
    r' = r ∧ w = v := by
  have hcard : (G.maps.filter fun x => PTE2PA (leaf s.mem x.1 x.2) =
      PTE2PA (leaf s.mem r v)).card ≤ 1 := by
    rw [h.ref _ (h.mapped hm), Ghost.refs_user (h.leaves.map_user r v hm)] at hone
    exact (Nat.le_add_right _ _).trans hone.le
  have hrv : (r, v) ∈ G.maps.filter fun x => PTE2PA (leaf s.mem x.1 x.2) =
      PTE2PA (leaf s.mem r v) := Finset.mem_filter.2 ⟨hm, rfl⟩
  exact Prod.mk.inj (Finset.card_le_one.1 hcard (r', w) (Finset.mem_filter.2 ⟨hw, e⟩) (r, v) hrv)

/-- …and with one mapping and nothing in flight, one reference. -/
theorem Own.count_sole (h : Own G s) (hfl : G.flight = ∅) (hm : (r, v) ∈ G.maps)
    (hS : ∀ r' w, (r', w) ∈ G.maps → PTE2PA (leaf s.mem r' w) = PTE2PA (leaf s.mem r v) →
      r' = r ∧ w = v) :
    s.referCount (refIdx (PTE2PA (leaf s.mem r v))) = 1 := by
  have hone : (G.maps.filter fun x => PTE2PA (leaf s.mem x.1 x.2) = PTE2PA (leaf s.mem r v)) =
      {(r, v)} := by
    ext ⟨r', w⟩
    simp only [mem_filter, mem_singleton, Prod.mk.injEq]
    exact ⟨fun ⟨hw, e⟩ => hS r' w hw e, fun ⟨e1, e2⟩ => by subst e1 e2; exact ⟨hm, rfl⟩⟩
  rw [h.ref _ (h.mapped hm), Ghost.refs_user (h.leaves.map_user r v hm), Ghost.tokens, hone, hfl]
  rfl

omit [Layout] in
theorem isCowpage_eq (hlt : v < 2 ^ 26 - 2) (hva : va / 4096 = v)
    (ha : leafAddr s.mem r v = some a) :
    isCowpage r va s = .ok ((leaf s.mem r v).has PTE_RSW_COW, s) := by
  unfold isCowpage
  rw [bind_ok (walk_map hlt hva ha false)]
  simp only
  rw [readPte_bind, leaf_of_addr ha]
  rfl

/-- **A `cow_alloc` that returns a page has opened it.** -/
theorem CowEnd.opened {ret : Nat} (hend : CowEnd G s r v ret G1 s1) (h : Own G s)
    (hm : (r, v) ∈ G.maps) (h1 : Own G1 s1) (hF1 : Frame {(r, v)} ∅ G G1 s s1)
    (hcow : (leaf s.mem r v).has PTE_RSW_COW = true) (h0 : ret ≠ 0) :
    Opened G s r v ret G1 s1 ∧ (NeedsCopy s r v → s.freelist ≠ []) := by
  have hplain : (leaf s.mem r v).has PTE_RSW_COW = false → G1 = G ∧ s1 = s := fun hc => by
    rw [hcow] at hc
    exact absurd hc (by simp)
  cases hend with
  | @sole b hone hb =>
    obtain ⟨-, -, (hl1 : leaf (setPte s.mem b _) r v = _), hb1⟩ :=
      h.flag_store (Y := ∅) hm hb (.inl rfl)
    refine ⟨⟨h1, hF1, rfl, ?_, ?_, hb1, ?_, hplain, fun _ => ⟨?_, fun r' w hw e => ?_⟩,
      fun _ => hb1⟩, fun hc => absurd hone hc.2⟩
    · show PTE2PA (leaf (setPte s.mem b _) r v) = _
      rw [hl1, PTE2PA_soleEntry]
    · show (leaf (setPte s.mem b _) r v).has PTE_U = _
      rw [hl1, soleEntry_U]
    · rw [if_neg fun hc => hc.2 hone]
      rfl
    · show (leaf (setPte s.mem b _) r v).has PTE_W = true
      rw [hl1, soleEntry_W]
    · have epa : PTE2PA (leaf (setPte s.mem b (soleEntry (leaf s.mem r v))) r v) =
          PTE2PA (leaf s.mem r v) := by rw [hl1, PTE2PA_soleEntry]
      refine h1.sole hm ?_ hw (e.trans epa.symm)
      show s.referCount (refIdx (PTE2PA (leaf (setPte s.mem b _) r v))) = 1
      rw [epa]
      exact hone
  | full => exact absurd rfl h0
  | copied hmany hpc hfree hlist hmaps hentry hbytes hsole hold =>
    refine ⟨⟨h1, hF1, hmaps, ?_, ?_, hbytes, ?_, hplain, fun _ => ⟨?_, hsole⟩, fun _ => hold⟩,
      fun _ => by simp [hlist]⟩
    · rw [hentry, PTE2PA_copyEntry hpc]
    · rw [hentry, copyEntry_U]
    · rw [if_pos ⟨hcow, hmany⟩, hlist, List.length_cons]
    · rw [hentry, copyEntry_W]

/-- A `cow_alloc` that returns 0 found no memory, and left the page writable. -/
theorem CowEnd.nomem (hend : CowEnd G s r v 0 G1 s1) (h : Own G s) (hm : (r, v) ∈ G.maps) :
    ∃ a, s.referCount (refIdx (PTE2PA (leaf s.mem r v))) ≠ 1 ∧ s.freelist = [] ∧
      leafAddr s.mem r v = some a ∧ G1 = G ∧
      s1 = { s with mem := setPte s.mem a (leaf s.mem r v ||| PTE_W) } := by
  generalize h0 : (0 : Nat) = ret at hend
  cases hend with
  | sole =>
    have := (h.mapped hm).bounds
    omega
  | @full b hmany hb hnil => exact ⟨b, hmany, hnil, hb, rfl, rfl⟩
  | copied _ hpc =>
    have := hpc.bounds
    omega

/-- **`copyout` on one page**: no access, an opened page, or no memory for a copy. -/
theorem copyoutPage_spec (h : Own G s) (hr : G.use r = .root) (v : Nat) :
    (userPa s.mem r (4096 * v) = 0 ∧ copyoutPage r (4096 * v) s = .ok (0, s)) ∨
    ((r, v) ∈ G.maps ∧ (leaf s.mem r v).has PTE_U = true ∧
      ((∃ pa s1 G1, copyoutPage r (4096 * v) s = .ok (pa, s1) ∧ pa ≠ 0 ∧ Opened G s r v pa G1 s1 ∧
          (NeedsCopy s r v → s.freelist ≠ [])) ∨
        ∃ a, NeedsCopy s r v ∧ s.freelist = [] ∧ leafAddr s.mem r v = some a ∧
          copyoutPage r (4096 * v) s =
            .ok (0, { s with mem := setPte s.mem a (leaf s.mem r v ||| PTE_W) }))) := by
  have hdiv : 4096 * v / 4096 = v := Nat.mul_div_cancel_left v (by decide)
  unfold copyoutPage
  rw [bind_ok walkaddr_eq]
  by_cases hpa : userPa s.mem r (4096 * v) = 0
  · rw [if_pos hpa]
    exact .inl ⟨hpa, rfl⟩
  right
  obtain ⟨hm, hU⟩ := (h.userPa_ne hr).1 hpa
  have hval := userPa_of_ne hpa
  rw [hdiv] at hm hU hval
  obtain ⟨a, ha⟩ := h.addr_of_map hm
  refine ⟨hm, hU, ?_⟩
  rw [if_neg hpa, bind_ok (isCowpage_eq (h.leaves.map_lt r v hm) hdiv ha), hval]
  by_cases hcow : (leaf s.mem r v).has PTE_RSW_COW = true
  · rw [if_pos hcow]
    obtain ⟨ret, s1, G1, e1, h1, hF1, hend⟩ := cowAlloc_spec h hm (rfl : 4096 * v = 4096 * v)
    by_cases h0 : ret = 0
    · subst h0
      obtain ⟨b, hmany, hnil, hb, rfl, rfl⟩ := hend.nomem h hm
      exact .inr ⟨b, ⟨hcow, hmany⟩, hnil, hb, e1⟩
    · exact .inl ⟨ret, s1, G1, e1, h0, hend.opened h hm h1 hF1 hcow h0⟩
  · left
    have hb := (h.mapped hm).bounds
    have hcf : (leaf s.mem r v).has PTE_RSW_COW = false := by simpa using hcow
    rw [if_neg hcow]
    refine ⟨_, s, G, rfl, by omega, ⟨h, Frame.refl .., rfl, rfl, rfl, fun _ _ => rfl, ?_,
      fun _ => ⟨rfl, rfl⟩, fun hc => absurd hc hcow, fun _ _ _ => rfl⟩, fun hc => absurd hc.1 hcow⟩
    rw [if_neg fun hc => hcow hc.1]
    rfl

/-! ## Runs of `copyout` -/

/-- The bytes of `src` that go to the first page. -/
def chunk (dstva : Nat) (src : List UInt8) : Nat := min (4096 - dstva % 4096) src.length

/-- How `copyout` proceeds from `dstva`, page by page. -/
inductive CopyRun (r : Nat) : Ghost → KState → Nat → List UInt8 → Int → Ghost → KState → Prop
  | done {G s dstva} : CopyRun r G s dstva [] 0 G s
  | stop {G s dstva src} (ne : src ≠ []) (no : userPa s.mem r (4096 * (dstva / 4096)) = 0) :
      CopyRun r G s dstva src (-1) G s
  | full {G s dstva src a} (ne : src ≠ []) (map : (r, dstva / 4096) ∈ G.maps)
      (user : (leaf s.mem r (dstva / 4096)).has PTE_U = true) (need : NeedsCopy s r (dstva / 4096))
      (empty : s.freelist = []) (addr : leafAddr s.mem r (dstva / 4096) = some a) :
      CopyRun r G s dstva src (-1) G
        { s with mem := setPte s.mem a (leaf s.mem r (dstva / 4096) ||| PTE_W) }
  | page {G s dstva src pa G1 s1 ret G' s'} (ne : src ≠ []) (map : (r, dstva / 4096) ∈ G.maps)
      (user : (leaf s.mem r (dstva / 4096)).has PTE_U = true)
      (opened : Opened G s r (dstva / 4096) pa G1 s1)
      (memory : NeedsCopy s r (dstva / 4096) → s.freelist ≠ [])
      (rest : CopyRun r G1
        { s1 with mem := put s1.mem (pa + dstva % 4096) (src.take (chunk dstva src)) }
        (4096 * (dstva / 4096 + 1)) (src.drop (chunk dstva src)) ret G' s') :
      CopyRun r G s dstva src ret G' s'

/-- The first chunk is stored. -/
abbrev putChunk (s : KState) (pa dstva : Nat) (src : List UInt8) : KState :=
  { s with mem := put s.mem (pa + dstva % 4096) (src.take (chunk dstva src)) }

/-- The store into an opened page. -/
theorem Opened.store (dstva : Nat) (src : List UInt8) (h : Opened G s r v pa G1 s1)
    (hm : (r, v) ∈ G.maps) :
    Own G1 (putChunk s1 pa dstva src) ∧ Shape X ∅ G1 G1 s1 (putChunk s1 pa dstva src) := by
  have hm1 : (r, v) ∈ G1.maps := h.maps ▸ hm
  have hp : IsPage pa := h.page ▸ h.own.mapped hm1
  have hu : G1.use pa = .user := h.page ▸ h.own.leaves.map_user r v hm1
  have hlen : pa + dstva % 4096 + (src.take (chunk dstva src)).length ≤ pa + 4096 := by
    rw [List.length_take]
    unfold chunk
    omega
  exact ⟨h.own.overlay hp (by simp [hu, Use.IsTable]) (by omega) hlen,
    Shape.overlay h.own hp (by simp [hu, Use.IsTable]) (by omega) hlen
      fun hs => by rcases hs with e | ⟨p, e⟩ <;> simp [hu] at e⟩

/-- Pages other than the opened one keep their bytes. -/
theorem Opened.store_out {dstva : Nat} {src : List UInt8} (h : Opened G s r v pa G1 s1)
    (hm : (r, v) ∈ G.maps) {q : Nat} (hq : IsPage q) (hne : q ≠ pa) {o : Nat} (ho : o < 4096) :
    put s1.mem (pa + dstva % 4096) (src.take (chunk dstva src)) (q + o) = s1.mem (q + o) := by
  have hp : IsPage pa := h.page ▸ h.own.mapped (h.maps ▸ hm)
  have h1 := hp.bounds
  have h2 := hq.bounds
  refine overlay_out ?_
  rw [List.length_take]
  unfold chunk
  omega

/-- **Every call of `copyout` is such a run.** -/
theorem copyoutLoop_run {k dstva : Nat} {src : List UInt8} (h : Own G s) (hr : G.use r = .root)
    (hk : src.length ≤ k) :
    ∃ ret s' G', copyoutLoop r k dstva src s = .ok (ret, s') ∧
    CopyRun r G s dstva src ret G' s' := by
  induction k generalizing G s dstva src with
  | zero =>
    obtain rfl := List.length_eq_zero_iff.1 (Nat.le_zero.1 hk)
    exact ⟨0, s, G, rfl, .done⟩
  | succ k ih =>
    rw [copyoutLoop]
    by_cases hsrc : src = []
    · subst hsrc
      exact ⟨0, s, G, rfl, .done⟩
    · have hva : PGROUNDDOWN dstva = 4096 * (dstva / 4096) := by
        simp only [PGROUNDDOWN, PGSIZE_eq]
        omega
      have hoff : dstva - 4096 * (dstva / 4096) = dstva % 4096 := by omega
      rw [if_neg hsrc]
      simp only [hva, hoff, PGSIZE_eq]
      rcases copyoutPage_spec h hr (dstva / 4096) with ⟨h0, e⟩ | ⟨hm, hU, hcase⟩
      · exact ⟨-1, s, G, by rw [bind_ok e, if_pos rfl]; rfl, .stop hsrc h0⟩
      · rcases hcase with ⟨pa, s1, G1, e, hne, hO, hmem⟩ | ⟨a, hneed, hnil, ha, e⟩
        · have hpos := List.length_pos_iff.2 hsrc
          have hdrop : (src.drop (chunk dstva src)).length ≤ k := by
            rw [List.length_drop]
            unfold chunk
            omega
          have hr1 : G1.use r = .root := hO.own.leaves.map_root r _ (hO.maps ▸ hm)
          obtain ⟨ret, s', G', e', hrun⟩ := ih (hO.store dstva src (X := ∅) hm).1 hr1 hdrop
          refine ⟨ret, s', G', ?_, .page hsrc hm hU hO hmem hrun⟩
          rw [bind_ok e, if_neg hne]
          exact e'
        · exact ⟨-1, _, G, by rw [bind_ok e, if_pos rfl]; rfl, .full hsrc hm hU hneed hnil ha⟩

theorem copyout_run (dstva : Nat) (src : List UInt8) (h : Own G s) (hr : G.use r = .root) :
    ∃ ret s' G', copyout r dstva src s = .ok (ret, s') ∧ CopyRun r G s dstva src ret G' s' :=
  copyoutLoop_run h hr le_rfl

/-! ## The pages a call reaches -/

/-- The copies `copyout` makes on the `k` pages from `v`, up to the first that user mode cannot
access. -/
def copies (s : KState) (r : Nat) : Nat → Nat → Nat
  | 0, _ => 0
  | k + 1, v =>
    if userPa s.mem r (4096 * v) = 0 then 0
    else (if NeedsCopy s r v then 1 else 0) + copies s r k (v + 1)

/-- The number of pages that `len` bytes from `va` lie on. -/
def pagesSpanned (va len : Nat) : Nat :=
  if len = 0 then 0 else (va + len - 1) / 4096 + 1 - va / 4096

/-- There is a free page for every copy `copyout` has to make. -/
def Fits (s : KState) (r dstva len : Nat) : Prop :=
  copies s r (pagesSpanned dstva len) (dstva / 4096) ≤ s.freelist.length

instance {s : KState} {r dstva len : Nat} : Decidable (Fits s r dstva len) :=
  inferInstanceAs (Decidable (_ ≤ _))

omit [Layout] in
theorem copies_congr {k : Nat}
    (hpa : ∀ w, v ≤ w → userPa s'.mem r (4096 * w) = userPa s.mem r (4096 * w))
    (hn : ∀ w, v ≤ w → userPa s.mem r (4096 * w) ≠ 0 → (NeedsCopy s' r w ↔ NeedsCopy s r w)) :
    copies s' r k v = copies s r k v := by
  induction k generalizing v with
  | zero => rfl
  | succ k ih =>
    unfold copies
    rw [hpa v le_rfl, ih (fun w hw => hpa w (by omega)) fun w hw => hn w (by omega)]
    by_cases h0 : userPa s.mem r (4096 * v) = 0
    · rw [if_pos h0, if_pos h0]
    · rw [if_neg h0, if_neg h0]
      simp only [hn v le_rfl h0]

section

variable (h : Opened G s r v pa G1 s1)

include h

/-- Opening a page leaves the counts of the other pages of the table alone. -/
theorem Opened.refCount (ho : Own G s) (hm : (r, v) ∈ G.maps) (hw : (r, w) ∈ G.maps) (hne : w ≠ v) :
    s1.referCount (refIdx (PTE2PA (leaf s.mem r w))) =
      s.referCount (refIdx (PTE2PA (leaf s.mem r w))) := by
  have hroot := ho.leaves.map_root r w hw
  have hleaf : leaf s1.mem r w = leaf s.mem r w :=
    h.frame.leaf r w (fun e => hne (Prod.mk.inj e).2) hroot (ho.leaves.lt hw)
  have hw1 : (r, w) ∈ G1.maps := h.maps ▸ hw
  have hu1 := h.own.leaves.map_user r w hw1
  rw [hleaf] at hu1
  have hpages : ∀ x ∈ G.maps, PTE2PA (leaf s1.mem x.1 x.2) = PTE2PA (leaf s.mem r w) ↔
      PTE2PA (leaf s.mem x.1 x.2) = PTE2PA (leaf s.mem r w) := ?_
  · rw [ho.ref _ (ho.mapped hw), h.own.ref _ (ho.mapped hw), Ghost.refs_user hu1,
      Ghost.refs_user (ho.leaves.map_user r w hw), Ghost.tokens, Ghost.tokens, h.maps,
      h.frame.toShape.flight_eq, filter_congr hpages]
  rintro ⟨r', w'⟩ hx
  by_cases hrv : (r', w') = (r, v)
  · -- the opened page is neither before nor after the page of `w`
    obtain ⟨rfl, rfl⟩ := Prod.mk.inj hrv
    refine ⟨fun e => absurd ?_ hne, fun e => absurd (ho.leaves.inj _ w w' hw hm e.symm) hne⟩
    exact h.own.leaves.inj _ w w' hw1 (h.maps ▸ hm) (by rw [hleaf]; exact e.symm)
  · rw [h.frame.leaf_map ho hx hrv]

/-- …and user mode sees them as before… -/
theorem Opened.userPa_eq (hr : G.use r = .root) (hne : w ≠ v) :
    userPa s1.mem r (4096 * w) = userPa s.mem r (4096 * w) := by
  unfold userPa
  rw [Nat.mul_div_cancel_left w (by decide)]
  by_cases hlt : 4096 * w < MAXVA
  · rw [h.frame.leaf r w (fun e => hne (Prod.mk.inj e).2) hr (by rw [MAXVA_eq] at hlt; omega)]
  · rw [if_neg fun hc => hlt hc.1, if_neg fun hc => hlt hc.1]

/-- …and so are the copies they need. -/
theorem Opened.copies_eq {k : Nat} (ho : Own G s) (hm : (r, v) ∈ G.maps) :
    copies s1 r k (v + 1) = copies s r k (v + 1) := by
  have hroot := ho.leaves.map_root r v hm
  refine copies_congr (fun w hw => h.userPa_eq hroot (by omega)) fun w hw h0 => ?_
  obtain ⟨hmw, -⟩ := (ho.userPa_ne hroot).1 h0
  rw [Nat.mul_div_cancel_left w (by decide)] at hmw
  unfold NeedsCopy
  rw [h.frame.leaf r w (fun e => by have := (Prod.mk.inj e).2; omega) hroot (ho.leaves.lt hmw),
    h.refCount ho hm hmw (by omega)]

end

omit [Layout] in
/-- The rest of a copy spans one page less. -/
theorem pagesSpanned_chunk {dstva : Nat} {src : List UInt8} (hne : src ≠ []) :
    pagesSpanned dstva src.length =
      pagesSpanned (4096 * (dstva / 4096 + 1)) (src.drop (chunk dstva src)).length + 1 := by
  have hpos := List.length_pos_of_ne_nil hne
  rw [List.length_drop]
  unfold pagesSpanned chunk
  rw [if_neg (by omega)]
  by_cases hlast : src.length ≤ 4096 - dstva % 4096
  · rw [if_pos (by omega)]
    omega
  · rw [if_neg (by omega)]
    omega

omit [Layout] in
theorem userPa_shape (hr : G.use r = .root) (hS : Shape ∅ Y G G' s s') (va : Nat) :
    userPa s'.mem r va = userPa s.mem r va := by
  unfold userPa
  by_cases hlt : va < MAXVA
  · rw [hS.leaf r _ (Set.notMem_empty _) hr (by rw [MAXVA_eq] at hlt; omega)]
  · rw [if_neg fun hc => hlt hc.1, if_neg fun hc => hlt hc.1]

omit [Layout] in
/-- The same entries and counts need the same copies. -/
theorem copies_shape {k : Nat} (hr : G.use r = .root) (hS : Shape ∅ Y G G' s s')
    (hc : s'.referCount = s.referCount) : copies s' r k v = copies s r k v := by
  refine copies_congr (fun w _ => userPa_shape hr hS _) fun w _ h0 => ?_
  have hlt : 4096 * w < MAXVA := by
    by_contra hc
    exact h0 (if_neg fun h => hc h.1)
  unfold NeedsCopy
  rw [hS.leaf r w (Set.notMem_empty _) hr (by rw [MAXVA_eq] at hlt; omega), hc]

/-- Entries of other pages stay as they are up to the rest of a copy. -/
theorem Opened.leaf_rest (h : Opened G s r v pa G1 s1) (ho : Own G s) (hm : (r, v) ∈ G.maps)
    (dstva : Nat) (src : List UInt8) :
    Own G1 (putChunk s1 pa dstva src) ∧ ∀ r' w, (r', w) ∈ G.maps → (r', w) ≠ (r, v) →
      leaf (putChunk s1 pa dstva src).mem r' w = leaf s.mem r' w := by
  obtain ⟨h2, hS⟩ := h.store dstva src (X := ∅) hm
  refine ⟨h2, fun r' w hw hne => ?_⟩
  rw [hS.leaf_map h.own (h.maps ▸ hw) (Set.notMem_empty _)]
  exact h.frame.leaf_map ho hw hne

/-- `copyout` of `len` bytes to `dstva` gets as far as writing to page `v`: user mode has access to
the pages up to `v`, and there is memory for the copies they need. -/
def Reached (s : KState) (r dstva len v : Nat) : Prop :=
  0 < len ∧ dstva / 4096 ≤ v ∧ 4096 * v < dstva + len ∧
    (∀ w, dstva / 4096 ≤ w → w ≤ v → userPa s.mem r (4096 * w) ≠ 0) ∧
    copies s r (v + 1 - dstva / 4096) (dstva / 4096) ≤ s.freelist.length

/-- The first page is reached when it can be opened. -/
theorem Opened.reached (h : Opened G s r v pa G1 s1) {dstva len : Nat} (hd : dstva / 4096 = v)
    (hlen : 0 < len) (hpa : userPa s.mem r (4096 * v) ≠ 0) : Reached s r dstva len v := by
  have hl := h.list
  refine ⟨hlen, hd.le, by omega, fun w h1 h2 => ?_, ?_⟩
  · obtain rfl : w = v := by omega
    exact hpa
  · rw [hd, show v + 1 - v = 1 by omega, copies, if_neg hpa, copies]
    omega

/-- **The rest of a copy reaches the pages the whole does.** -/
theorem Opened.reached_rest (h : Opened G s r v pa G1 s1) (ho : Own G s) (hm : (r, v) ∈ G.maps)
    (hU : (leaf s.mem r v).has PTE_U = true) {dstva : Nat} {src : List UInt8}
    (hd : dstva / 4096 = v) (hne : src ≠ []) (hw : w ≠ v) :
    Reached (putChunk s1 pa dstva src) r (4096 * (v + 1)) (src.drop (chunk dstva src)).length w ↔
      Reached s r dstva src.length w := by
  have hroot := ho.leaves.map_root r v hm
  have hroot1 : G1.use r = .root := h.own.leaves.map_root r v (h.maps ▸ hm)
  have hpos := List.length_pos_of_ne_nil hne
  have hdiv : ∀ w, 4096 * w / 4096 = w := fun w => Nat.mul_div_cancel_left w (by decide)
  have hpa := ho.userPa_page hm hU
  have hS := (h.store dstva src (X := ∅) hm).2
  have hl := h.list
  unfold Reached
  rw [hdiv, copies_shape hroot1 hS rfl, h.copies_eq ho hm, List.length_drop, hd]
  have hpa' : ∀ w', v + 1 ≤ w' →
      userPa (putChunk s1 pa dstva src).mem r (4096 * w') = userPa s.mem r (4096 * w') :=
      fun w' hw' =>
    (userPa_shape hroot1 hS _).trans (h.userPa_eq hroot (by omega))
  have hch : chunk dstva src = min (4096 - dstva % 4096) src.length := rfl
  constructor
  · rintro ⟨h1, h2, h3, h4, h5⟩
    refine ⟨hpos, by omega, by omega, fun w' h6 h7 => ?_, ?_⟩
    · by_cases hw' : w' = v
      · subst hw'
        exact hpa
      · rw [← hpa' w' (by omega)]
        exact h4 w' (by omega) h7
    · rw [show w + 1 - v = (w + 1 - (v + 1)) + 1 by omega, copies, if_neg hpa]
      change _ ≤ s1.freelist.length at h5
      omega
  · rintro ⟨h1, h2, h3, h4, h5⟩
    refine ⟨by omega, by omega, by omega, fun w' h6 h7 => ?_, ?_⟩
    · rw [hpa' w' h6]
      exact h4 w' (by omega) h7
    · rw [show w + 1 - v = (w + 1 - (v + 1)) + 1 by omega, copies, if_neg hpa] at h5
      show _ ≤ s1.freelist.length
      omega

/-- With memory for the copies there is a free page where one is needed. -/
theorem Fits.ne_nil {dstva : Nat} {src : List UInt8} (hf : Fits s r dstva src.length) (ho : Own G s)
    (hm : (r, dstva / 4096) ∈ G.maps) (hU : (leaf s.mem r (dstva / 4096)).has PTE_U = true)
    (hneed : NeedsCopy s r (dstva / 4096)) (hne : src ≠ []) : s.freelist ≠ [] := by
  unfold Fits at hf
  rw [pagesSpanned_chunk hne, copies, if_neg (ho.userPa_page hm hU), if_pos hneed] at hf
  exact List.ne_nil_of_length_pos (by omega)

/-- There is memory for the rest of a copy when there was for the whole. -/
theorem Opened.fits_rest (h : Opened G s r v pa G1 s1) (ho : Own G s) (hm : (r, v) ∈ G.maps)
    (hU : (leaf s.mem r v).has PTE_U = true) {dstva : Nat} {src : List UInt8}
    (hd : dstva / 4096 = v) (hne : src ≠ []) (hf : Fits s r dstva src.length) :
    Fits (putChunk s1 pa dstva src) r (4096 * (v + 1)) (src.drop (chunk dstva src)).length := by
  have hdiv : ∀ w, 4096 * w / 4096 = w := fun w => Nat.mul_div_cancel_left w (by decide)
  have hroot := ho.leaves.map_root r v hm
  have hroot1 : G1.use r = .root := h.own.leaves.map_root r v (h.maps ▸ hm)
  have hpa := ho.userPa_page hm hU
  have hl := h.list
  unfold Fits at hf ⊢
  rw [pagesSpanned_chunk hne, hd, copies, if_neg hpa] at hf
  rw [hdiv, copies_shape hroot1 (h.store dstva src (X := ∅) hm).2 rfl, h.copies_eq ho hm]
  show _ ≤ s1.freelist.length
  omega

theorem Own.singleton_userOf (h : Own G s) (hm : (r, v) ∈ G.maps) : {(r, v)} ⊆ userOf r 0 := by
  rintro y rfl
  exact ⟨rfl, Nat.zero_le _, h.leaves.map_lt r v hm⟩

namespace CopyRun

variable {dstva : Nat} {src : List UInt8} {ret : Int}

section

variable (h : CopyRun r G s dstva src ret G' s')

include h

theorem ret_cases : ret = 0 ∨ ret = -1 := by
  induction h with
  | done => exact .inl rfl
  | stop | full => exact .inr rfl
  | page _ _ _ _ _ _ ih => exact ih

/-- **`copyout` keeps the ownership, the mappings and everything outside its page table.** -/
theorem spec (ho : Own G s) : Own G' s' ∧ G'.maps = G.maps ∧ Shape (userOf r 0) ∅ G G' s s' := by
  induction h with
  | done | stop => exact ⟨ho, rfl, (Frame.refl ..).toShape⟩
  | full _ hm _ _ _ ha =>
    obtain ⟨h1, hF, -, -⟩ := ho.flag_store (Y := ∅) hm ha (.inr rfl)
    exact ⟨h1, rfl, hF.toShape.mono (ho.singleton_userOf hm) subset_rfl⟩
  | page _ hm _ hO _ _ ih =>
    obtain ⟨h1, hS1⟩ := hO.store _ _ (X := userOf r 0) hm
    obtain ⟨h2, hm2, hS2⟩ := ih h1
    exact ⟨h2, hm2.trans hO.maps,
      ((hO.frame.toShape.mono (ho.singleton_userOf hm) subset_rfl).trans hS1).trans hS2⟩

/-- Without copy-on-write pages `copyout` changes bytes only. -/
theorem plain (ho : Own G s)
    (hp : ∀ v, (r, v) ∈ G.maps → (leaf s.mem r v).has PTE_RSW_COW = false) :
    G' = G ∧ Shape ∅ ∅ G G s s' ∧ s'.freelist = s.freelist := by
  induction h with
  | done | stop => exact ⟨rfl, (Frame.refl ..).toShape, rfl⟩
  | full _ hm _ hneed =>
    have := hneed.1
    rw [hp _ hm] at this
    exact absurd this (by simp)
  | page _ hm _ hO _ _ ih =>
    obtain ⟨rfl, rfl⟩ := hO.plain (hp _ hm)
    obtain ⟨h1, hS1⟩ := hO.store _ _ (X := ∅) hm
    obtain ⟨h2, h3, h4⟩ := ih h1 fun v hv => by
      rw [hS1.leaf_map ho hv (Set.notMem_empty _)]
      exact hp v hv
    exact ⟨h2, hS1.trans h3, h4⟩

/-- **Pages outside the range keep their bytes**, if no page that is reached without the
copy-on-write mark is the same page. -/
theorem others (ho : Own G s) {r' w : Nat} (hm : (r', w) ∈ G.maps) (hne : r' ≠ r ∨ w < dstva / 4096)
    (hX : ∀ v, Reached s r dstva src.length v → (r, v) ∈ G.maps →
      (leaf s.mem r v).has PTE_RSW_COW = false →
      PTE2PA (leaf s.mem r v) ≠ PTE2PA (leaf s.mem r' w)) :
    ∀ o < 4096, s'.mem (PTE2PA (leaf s.mem r' w) + o) = s.mem (PTE2PA (leaf s.mem r' w) + o) := by
  induction h with
  | done | stop => exact fun _ _ => rfl
  | full _ hm' _ _ _ ha =>
    obtain ⟨-, hF, -, -⟩ := ho.flag_store (Y := ∅) hm' ha (.inr rfl)
    refine hF.bytes r' w (fun e => ?_) hm
    obtain ⟨rfl, rfl⟩ := Prod.mk.inj e
    omega
  | @page G s dstva src pa G1 s1 ret G' s' hsrc hm' hU hO _ _ ih =>
    have hx : (r', w) ∉ ({(r, dstva / 4096)} : Set (Nat × Nat)) := fun e => by
      obtain ⟨rfl, rfl⟩ := Prod.mk.inj e
      omega
    have hm1 : (r', w) ∈ G1.maps := hO.maps ▸ hm
    have hl1 : leaf s1.mem r' w = leaf s.mem r' w := hO.frame.leaf_map ho hm hx
    -- the page that is written is another one
    have hpa : pa ≠ PTE2PA (leaf s.mem r' w) := by
      cases hc : (leaf s.mem r (dstva / 4096)).has PTE_RSW_COW with
      | true =>
        rintro rfl
        refine hx ?_
        rw [Set.mem_singleton_iff, Prod.mk.injEq]
        exact (hO.sole hc).2 r' w hm1 (by rw [hl1])
      | false =>
        obtain ⟨-, rfl⟩ := hO.plain hc
        rw [← hO.page]
        exact hX _ (hO.reached rfl (List.length_pos_iff.2 hsrc) (ho.userPa_page hm' hU)) hm' hc
    obtain ⟨h2, hl2⟩ := hO.leaf_rest ho hm' dstva src
    have hlw := hl2 r' w hm hx
    have hrest := ih h2 hm1 (hne.imp_right fun hlt => by omega) fun v hv hmv hcv => by
      have hv' : v ≠ dstva / 4096 := by
        have := hv.2.1
        omega
      rw [hO.maps] at hmv
      rw [hlw]
      rw [hl2 r v hmv fun e => hv' (Prod.mk.inj e).2] at hcv ⊢
      exact hX v ((hO.reached_rest ho hm' hU rfl hsrc hv').1 hv) hmv hcv
    intro o hlt
    rw [hlw] at hrest
    rw [hrest o hlt]
    exact (hO.store_out hm' (ho.mapped hm) (Ne.symm hpa) hlt).trans
      (hO.frame.bytes r' w hx hm o hlt)

end

end CopyRun

end Xv6
