import Xv6.Vm.Frame

/-!
# Vm/OwnAlloc — ownership across stores, `kalloc` and `kfree`

A store outside the page tables changes no ownership.  `kalloc` turns a free page into a held one;
`kfree` takes a held page back (`kfree_held`), or one reference of a user page
(`kfree_flight`), and then the page itself if the reference was its last.
-/

namespace Xv6

open Act Bytes Function Ghost

variable [Layout] {G G' : Ghost} {s s' : KState} {pa r v : Nat} {X : Set (Nat × Nat)} {Y : Set Nat}

/-! ## Stores -/

/-- **A store outside the table pages keeps the ownership.** -/
theorem Own.setMem (h : Own G s) {m' : Nat → UInt8}
    (hm : ∀ p, (G.use p).IsTable → ∀ y, p ≤ y → y < p + 4096 → m' y = s.mem y) :
    Own G { s with mem := m' } := by
  have hl : ∀ r v, G.use r = .root → v < 2 ^ 27 → leaf m' r v = leaf s.mem r v :=
    fun r v hr hv => h.tables.leaf_congr_mem h.paged hm hr hv
  refine ⟨⟨h.pages.free_mem, h.pages.nodup, h.pages.page, h.pages.wrapped, h.pages.byte⟩,
    h.tables.congr_mem hm, h.leaves.congr_leaf hl, fun pa hp => ?_, fun pa hp => ?_⟩
  · rw [h.leaves.refs_congr_leaf hl]
    exact h.ref pa hp
  · rw [h.leaves.tokens_congr_leaf hl]
    exact h.user_pos pa hp

/-- Bytes of a page of another use are not in the tables. -/
theorem table_ne (h : Pages G s) {p y : Nat} (hp : (G.use p).IsTable) (hpa : IsPage pa)
    (hu : ¬ (G.use pa).IsTable) (h1 : p ≤ y) (h2 : y < p + 4096) : y < pa ∨ pa + 4096 ≤ y := by
  have hne : p ≠ pa := fun e => hu (e ▸ hp)
  have hp' : IsPage p := h.page p (by intro e; simp [e, Use.IsTable] at hp)
  have := hp'.bounds
  have := hpa.bounds
  omega

/-- **A store inside one page that is no table.** -/
theorem Own.overlay (h : Own G s) (hpa : IsPage pa) (hu : ¬ (G.use pa).IsTable) {a n : Nat}
    {f : Nat → UInt8} (h1 : pa ≤ a) (h2 : a + n ≤ pa + 4096) :
    Own G { s with mem := overlay s.mem a n f } := by
  refine h.setMem fun p hp y hy1 hy2 => overlay_out ?_
  have := table_ne h.pages hp hpa hu hy1 hy2
  omega

/-- A mapped page is an allocator page. -/
theorem Own.mapped (h : Own G s) (hm : (r, v) ∈ G.maps) : IsPage (PTE2PA (leaf s.mem r v)) :=
  h.isPage (by rw [h.leaves.map_user r v hm]; simp)

/-- Such a store changes no mapping… -/
theorem Shape.overlay (h : Own G s) (hpa : IsPage pa) (hu : ¬ (G.use pa).IsTable) {a n : Nat}
    {f : Nat → UInt8} (h1 : pa ≤ a) (h2 : a + n ≤ pa + 4096) (hY : (G.use pa).Stays → pa ∈ Y) :
    Shape X Y G G s { s with mem := Bytes.overlay s.mem a n f } where
  procs := rfl
  initproc := rfl
  nextpid := rfl
  kheld := rfl
  root _ _ _ := Iff.rfl
  maps _ _ _ := Iff.rfl
  spec _ _ _ := Iff.rfl
  leaf r v _ hr hv := by
    refine h.tables.leaf_congr_mem h.paged (fun p hp y hy1 hy2 => overlay_out ?_) hr hv
    have := table_ne h.pages hp hpa hu hy1 hy2
    omega
  flight _ _ _ := Iff.rfl
  keep q hq hs := by
    refine ⟨rfl, fun o ho => overlay_out ?_⟩
    have hne : q ≠ pa := fun e => hq (e ▸ hY (e ▸ hs))
    have h3 := (h.isPage hs.ne_free).bounds
    have h4 := hpa.bounds
    omega
  fresh _ _ _ := rfl

/-- …and the bytes of no other page. -/
theorem Frame.overlay (h : Own G s) (hpa : IsPage pa) (hu : ¬ (G.use pa).IsTable) {a n : Nat}
    {f : Nat → UInt8} (h1 : pa ≤ a) (h2 : a + n ≤ pa + 4096)
    (hX : ∀ r v, (r, v) ∈ G.maps → PTE2PA (Xv6.leaf s.mem r v) = pa → (r, v) ∈ X)
    (hY : (G.use pa).Stays → pa ∈ Y) :
    Frame X Y G G s { s with mem := Bytes.overlay s.mem a n f } where
  toShape := Shape.overlay h hpa hu h1 h2 hY
  bytes r v hx hm o ho := by
    refine overlay_out ?_
    have hne : PTE2PA (Xv6.leaf s.mem r v) ≠ pa := fun e => hx (hX r v hm e)
    have h3 := (h.mapped hm).bounds
    have h4 := hpa.bounds
    omega

/-! ## Changing the use of one page -/

/-- The invariant but for the count of one page. -/
structure OwnBut (pa : Nat) (G : Ghost) (s : KState) : Prop where
  pages : Pages G s
  tables : Tables G.use s.mem
  leaves : Leaves G (leaf s.mem)
  ref : ∀ q, q ≠ pa → IsPage q → s.referCount (refIdx q) = G.refs (leaf s.mem) q
  user_pos : ∀ q, q ≠ pa → G.use q = .user → 0 < G.tokens (leaf s.mem) q

theorem Own.but (h : Own G s) (pa : Nat) : OwnBut pa G s :=
  ⟨h.pages, h.tables, h.leaves, fun q _ => h.ref q, fun q _ => h.user_pos q⟩

/-- Setting the count right. -/
theorem OwnBut.close (h : OwnBut pa G s) (hpa : IsPage pa) {c : Nat} (hc : c < 256)
    (href : c = G.refs (leaf s.mem) pa) (hpos : G.use pa = .user → 0 < G.tokens (leaf s.mem) pa) :
    Own G { s with referCount := update s.referCount (refIdx pa) c } := by
  refine ⟨⟨h.pages.free_mem, h.pages.nodup, h.pages.page, h.pages.wrapped, fun i => ?_⟩, h.tables,
    h.leaves, fun q hq => ?_, fun q hq => ?_⟩
  · by_cases e : i = refIdx pa
    · simpa [e] using hc
    · simp only [update_of_ne e]; exact h.pages.byte i
  · by_cases e : q = pa
    · simpa [e] using href
    · simp only [update_of_ne fun hc => e (refIdx_inj hq hpa hc)]
      exact h.ref q e hq
  · by_cases e : q = pa
    · subst e; exact hpos hq
    · exact h.user_pos q e hq

/-- The count of a page that no mapping leads to. -/
def Use.count : Use → Nat
  | .free | .user => 0
  | _ => 1

/-- **A page outside the tables and the mappings changes its use**, its count, and its place on or
off the free list. -/
theorem OwnBut.setUse (h : OwnBut pa G s) (hpa : IsPage pa) {u : Use} {fl : List Nat}
    {m' : Nat → UInt8} (ht : ¬ (G.use pa).IsTable) (ht' : ¬ u.IsTable) (hu : u ≠ .user)
    (hm : ∀ r v, (r, v) ∈ G.maps → PTE2PA (leaf s.mem r v) ≠ pa) (hf : ∀ r, (r, pa) ∉ G.flight)
    (hmem : ∀ p, (G.use p).IsTable → ∀ y, p ≤ y → y < p + 4096 → m' y = s.mem y)
    (hfl : ∀ q, q ∈ fl ↔ if q = pa then u = .free else q ∈ s.freelist) (hnd : fl.Nodup) :
    Own (G.setUse pa u) { s with
      freelist := fl, referCount := update s.referCount (refIdx pa) u.count, mem := m' } := by
  have hr : G.use pa ≠ .root := fun e => by simp [e, Use.IsTable] at ht
  have hr' : u ≠ .root := fun e => by simp [e, Use.IsTable] at ht'
  have hl : ∀ r v, G.use r = .root → v < 2 ^ 27 → leaf m' r v = leaf s.mem r v := fun r v hx hv =>
    h.tables.leaf_congr_mem h.pages.paged hmem hx hv
  have hl' : ∀ r v, (G.setUse pa u).use r = .root → v < 2 ^ 27 → leaf m' r v = leaf s.mem r v :=
    fun r v hx => hl r v (by
      by_cases e : r = pa
      · exact absurd (by simpa [e] using hx) hr'
      · rwa [setUse_ne e] at hx)
  have hL : Leaves (G.setUse pa u) (leaf s.mem) := h.leaves.setUse hr hr' hm hf
  have hb : OwnBut pa (G.setUse pa u) { s with freelist := fl, mem := m' } := by
    refine ⟨⟨fun q => ?_, hnd, fun q hq => ?_, h.pages.wrapped, h.pages.byte⟩,
      (h.tables.congr_mem hmem).setUse ht ht', hL.congr_leaf hl', fun q e hq => ?_,
      fun q e hq => ?_⟩
    · rw [hfl]
      by_cases e : q = pa
      · subst e; simp [hpa]
      · rw [if_neg e, setUse_ne e]; exact h.pages.free_mem q
    · by_cases e : q = pa
      · exact e ▸ hpa
      · rw [setUse_ne e] at hq; exact h.pages.page q hq
    · rw [hL.refs_congr_leaf hl', show s.referCount (refIdx q) = _ from h.ref q e hq]
      exact (refs_congr (setUse_ne e) fun _ => rfl).symm
    · rw [setUse_ne e] at hq
      rw [hL.tokens_congr_leaf hl']
      exact h.user_pos q e hq
  refine hb.close hpa ?_ ?_ fun hc => absurd (by simpa using hc) hu
  · cases u <;> simp [Use.count]
  · cases u <;> simp_all [Ghost.refs, Use.count]

/-- What such a change leaves alone when it also fills the page. -/
theorem Frame.setUse (h : Own G s) (hpa : IsPage pa) {u : Use} {c : UInt8} {fl : List Nat}
    {rc : Nat → Nat} (ht : ¬ (G.use pa).IsTable) (ht' : ¬ u.IsTable)
    (hm : ∀ r v, (r, v) ∈ G.maps → PTE2PA (Xv6.leaf s.mem r v) ≠ pa) :
    Frame X {pa} G (G.setUse pa u) s
      { s with freelist := fl, referCount := rc, mem := fill s.mem pa PGSIZE c } := by
  have hfr : Frame X {pa} G G s { s with mem := fill s.mem pa PGSIZE c } :=
    Frame.overlay h hpa ht le_rfl (by simp) (fun r v hx e => absurd e (hm r v hx)) (fun _ => rfl)
  exact
    { procs := rfl
      initproc := rfl
      nextpid := rfl
      kheld := rfl
      root := fun r v _ => by
        by_cases e : r = pa
        · subst e
          rw [setUse_self]
          constructor <;> intro hc
          · simp [hc, Use.IsTable] at ht'
          · simp [hc, Use.IsTable] at ht
        · rw [setUse_ne e]
      maps := fun _ _ _ => Iff.rfl
      spec := fun _ _ _ => Iff.rfl
      leaf := hfr.leaf
      bytes := hfr.bytes
      flight := fun _ _ _ => Iff.rfl
      keep := fun q hq hs => ⟨by rw [setUse_ne hq], (hfr.keep q hq hs).2⟩
      fresh := fun q hq hs => by rw [setUse_ne hq] }

/-- Filling such a page does not touch the tables. -/
theorem fill_table (h : Pages G s) (hpa : IsPage pa) (ht : ¬ (G.use pa).IsTable) (c : UInt8)
    (p : Nat) (hp : (G.use p).IsTable) (y : Nat) (h1 : p ≤ y) (h2 : y < p + 4096) :
    fill s.mem pa PGSIZE c y = s.mem y :=
  overlay_out (by simpa using table_ne h hp hpa ht h1 h2)

/-! ## `kalloc` -/

omit [Layout] in
theorem kalloc_nil (h : s.freelist = []) : kalloc s = .ok (none, s) := by
  unfold kalloc
  rw [bind_ok (gets_apply _ _), h]
  rfl

omit [Layout] in
theorem kalloc_cons {rest : List Nat} (h : s.freelist = pa :: rest) :
    kalloc s = .ok (some pa, { s with
      freelist := rest
      referCount := update s.referCount (refIdx pa) 1
      mem := fill s.mem pa PGSIZE 5 }) := by
  unfold kalloc
  rw [bind_ok (gets_apply _ _), h]
  rfl

/-- **`kalloc` either finds no page or hands out a free page, now held.** -/
theorem kalloc_spec (h : Own G s) :
    (s.freelist = [] ∧ kalloc s = .ok (none, s)) ∨
    ∃ pa s', kalloc s = .ok (some pa, s') ∧ IsPage pa ∧ G.use pa = .free ∧
      Own (G.setUse pa .held) s' ∧ Frame X {pa} G (G.setUse pa .held) s s' ∧
      s.freelist = pa :: s'.freelist ∧ ∀ y, y < pa ∨ pa + 4096 ≤ y → s'.mem y = s.mem y := by
  rcases hf : s.freelist with - | ⟨pa, rest⟩
  · exact .inl ⟨rfl, kalloc_nil hf⟩
  · obtain ⟨hpa, hfree⟩ := (h.pages.free_mem pa).1 (by rw [hf]; exact List.mem_cons_self)
    have hnd := h.pages.nodup
    rw [hf, List.nodup_cons] at hnd
    have ht : ¬ (G.use pa).IsTable := by simp [hfree, Use.IsTable]
    have hm : ∀ r v, (r, v) ∈ G.maps → PTE2PA (leaf s.mem r v) ≠ pa :=
      fun r v => h.leaves.not_mapped (by simp [hfree])
    refine .inr ⟨pa, _, kalloc_cons hf, hpa, hfree,
      (h.but pa).setUse (u := .held) hpa ht (by simp [Use.IsTable]) (by simp) hm
        (fun r => h.leaves.not_flight (by simp [hfree])) (fill_table h.pages hpa ht 5)
        (fun q => ?_) hnd.2,
      Frame.setUse h hpa ht (by simp [Use.IsTable]) hm, rfl,
      fun y hy => show fill s.mem pa PGSIZE 5 y = s.mem y from overlay_out (by simpa using hy)⟩
    by_cases e : q = pa
    · subst e; simp [hnd.1]
    · simp [hf, e]

/-! ## `kfree` -/

theorem kfree_last (hp : IsPage pa) (hc : s.referCount (refIdx pa) = 1) :
    kfree pa s = .ok ((), { s with
      freelist := pa :: s.freelist
      referCount := update s.referCount (refIdx pa) 0
      mem := fill s.mem pa PGSIZE 1 }) := by
  unfold kfree
  rw [if_neg hp, bind_ok (modify_apply _ _), bind_ok (gets_apply _ _)]
  simp [decRef, hc, memset, bind_apply]

theorem kfree_shared (hp : IsPage pa) (hc : 2 ≤ s.referCount (refIdx pa))
    (hc' : s.referCount (refIdx pa) < 256) :
    kfree pa s = .ok ((), { s with
      referCount := update s.referCount (refIdx pa) (s.referCount (refIdx pa) - 1) }) := by
  have e : (s.referCount (refIdx pa) + 255) % 256 = s.referCount (refIdx pa) - 1 := by omega
  have e0 : (s.referCount (refIdx pa) == 0) = false := by
    rw [beq_eq_false_iff_ne]
    omega
  unfold kfree
  rw [if_neg hp, bind_ok (modify_apply _ _), bind_ok (gets_apply _ _)]
  simp only [decRef, e, e0, update_self, Bool.or_false]
  rw [if_pos (by omega)]
  rfl

/-- Freeing a page with one reference, that no mapping leads to. -/
theorem OwnBut.kfree_last (h : OwnBut pa G s) (hpa : IsPage pa) (hu : G.use pa ≠ .free)
    (ht : ¬ (G.use pa).IsTable)
    (hm : ∀ r v, (r, v) ∈ G.maps → PTE2PA (leaf s.mem r v) ≠ pa) (hf : ∀ r, (r, pa) ∉ G.flight) :
    Own (G.setUse pa .free) { s with
      freelist := pa :: s.freelist
      referCount := update s.referCount (refIdx pa) 0
      mem := fill s.mem pa PGSIZE 1 } := by
  refine h.setUse (u := .free) hpa ht (by simp [Use.IsTable]) (by simp) hm hf
    (fill_table h.pages hpa ht 1) (fun q => ?_) (List.nodup_cons.2 ⟨fun hc => ?_, h.pages.nodup⟩)
  · by_cases e : q = pa <;> simp [e]
  · exact hu ((h.pages.free_mem pa).1 hc).2

/-- **`kfree` of a held page.** -/
theorem kfree_held (h : Own G s) (hu : G.use pa = .held) :
    ∃ s', kfree pa s = .ok ((), s') ∧ Own (G.setUse pa .free) s' ∧
      Frame X {pa} G (G.setUse pa .free) s s' ∧ s'.freelist = pa :: s.freelist := by
  have hpa : IsPage pa := h.isPage (by simp [hu])
  have ht : ¬ (G.use pa).IsTable := by simp [hu, Use.IsTable]
  have hc : s.referCount (refIdx pa) = 1 := by rw [h.ref pa hpa]; simp [Ghost.refs, hu]
  have hm : ∀ r v, (r, v) ∈ G.maps → PTE2PA (leaf s.mem r v) ≠ pa :=
    fun r v => h.leaves.not_mapped (by simp [hu])
  exact ⟨_, Xv6.kfree_last hpa hc, (h.but pa).kfree_last hpa (by simp [hu]) ht hm
    (fun r => h.leaves.not_flight (by simp [hu])), Frame.setUse h hpa ht (by simp [Use.IsTable]) hm,
    rfl⟩

end Xv6
