import Mathlib.Data.Finset.Card
import Mathlib.Data.Finset.Prod
import Xv6.Vm.Tables

/-!
# Vm/Own — who owns each physical page

A `Ghost` says what every page is used for, which user pages are mapped where, and which references
to user pages are held by a `cow_alloc` between its new mapping and its last `kfree`.  `Own G s`
ties it to the kernel state: the free list is the free pages, the reference count of a page is the
number of owners the ghost gives it, and the valid leaves of the page tables are the mappings.
-/

namespace Xv6

open Act Bytes Function Finset

/-- The ghost state: uses of pages, user mappings `(root, page number)`, the trampoline and
trapframe mappings, and references in flight `(root, page)`. -/
structure Ghost where
  use : Nat → Use
  maps : Finset (Nat × Nat)
  spec : Finset (Nat × Nat)
  flight : Finset (Nat × Nat)

namespace Ghost

/-- Change the use of a page. -/
def setUse (G : Ghost) (pa : Nat) (u : Use) : Ghost := { G with use := update G.use pa u }

variable {G : Ghost} {pa q : Nat} {u : Use}

@[simp] theorem setUse_self : (G.setUse pa u).use pa = u := update_self ..
theorem setUse_ne (h : q ≠ pa) : (G.setUse pa u).use q = G.use q := update_of_ne h ..
theorem setUse_setUse {w : Use} : (G.setUse pa u).setUse pa w = G.setUse pa w := by
  simp [setUse]
@[simp] theorem setUse_maps : (G.setUse pa u).maps = G.maps := rfl
@[simp] theorem setUse_flight : (G.setUse pa u).flight = G.flight := rfl

/-- The number of references to a user page. -/
def tokens (G : Ghost) (lf : Nat → Nat → Pte) (pa : Nat) : Nat :=
  (G.maps.filter fun x => PTE2PA (lf x.1 x.2) = pa).card +
    (G.flight.filter fun x => x.2 = pa).card

/-- The reference count a page must have. -/
def refs (G : Ghost) (lf : Nat → Nat → Pte) (pa : Nat) : Nat :=
  match G.use pa with
  | .free => 0
  | .user => G.tokens lf pa
  | _ => 1

end Ghost

/-! ## Pages -/

section

variable [Layout]

/-- A page the allocator manages. -/
def IsPage (pa : Nat) : Prop := ¬ badPage pa

theorem isPage_iff {pa : Nat} : IsPage pa ↔ pa % 4096 = 0 ∧ kend ≤ pa ∧ pa < 2281701376 := by
  unfold IsPage badPage
  simp only [PGSIZE_eq, PHYSTOP_eq]
  omega

theorem IsPage.bounds {pa : Nat} (h : IsPage pa) :
    pa % 4096 = 0 ∧ 2147483648 ≤ pa ∧ pa < 2281701376 := by
  have h1 := isPage_iff.1 h
  have h2 := Layout.kend_ge
  rw [KERNBASE_eq] at h2
  omega

theorem refIdx_inj {pa pb : Nat} (ha : IsPage pa) (hb : IsPage pb) (h : refIdx pa = refIdx pb) :
    pa = pb := by
  have h1 := ha.bounds
  have h2 := hb.bounds
  simp only [refIdx, KERNBASE_eq, PGSIZE_eq] at h
  omega

theorem refIdx_lt {pa : Nat} (ha : IsPage pa) : refIdx pa < 32768 := by
  have h1 := ha.bounds
  simp only [refIdx, KERNBASE_eq, PGSIZE_eq]
  omega

/-! ## The invariant -/

/-- The free list is the free pages, each once; other pages are allocator pages. -/
structure Pages (G : Ghost) (s : KState) : Prop where
  free_mem : ∀ pa, pa ∈ s.freelist ↔ IsPage pa ∧ G.use pa = .free
  nodup : s.freelist.Nodup
  page : ∀ pa, G.use pa ≠ .free → IsPage pa
  wrapped : s.wrapped = false
  byte : ∀ i, s.referCount i < 256

end

/-- The valid leaves `lf` of the page tables are the mappings of the ghost. -/
structure Leaves (G : Ghost) (lf : Nat → Nat → Pte) : Prop where
  map_root : ∀ r v, (r, v) ∈ G.maps → G.use r = .root
  map_lt : ∀ r v, (r, v) ∈ G.maps → v < 2 ^ 26 - 2
  map_V : ∀ r v, (r, v) ∈ G.maps → (lf r v).has PTE_V = true
  map_R : ∀ r v, (r, v) ∈ G.maps → (lf r v).has PTE_R = true
  map_user : ∀ r v, (r, v) ∈ G.maps → G.use (PTE2PA (lf r v)) = .user
  spec_root : ∀ r v, (r, v) ∈ G.spec → G.use r = .root
  spec_lt : ∀ r v, (r, v) ∈ G.spec → 2 ^ 26 - 2 ≤ v ∧ v < 2 ^ 26
  spec_V : ∀ r v, (r, v) ∈ G.spec → (lf r v).has PTE_V = true
  spec_R : ∀ r v, (r, v) ∈ G.spec → (lf r v).has PTE_R = true
  spec_U : ∀ r v, (r, v) ∈ G.spec → (lf r v).has PTE_U = false
  spec_COW : ∀ r v, (r, v) ∈ G.spec → (lf r v).has PTE_RSW_COW = false
  only : ∀ r v, G.use r = .root → v < 2 ^ 27 → lf r v ≠ 0#64 →
    (r, v) ∈ G.maps ∨ (r, v) ∈ G.spec
  inj : ∀ r v w, (r, v) ∈ G.maps → (r, w) ∈ G.maps → PTE2PA (lf r v) = PTE2PA (lf r w) → v = w
  flight_root : ∀ r pa, (r, pa) ∈ G.flight → G.use r = .root
  flight_user : ∀ r pa, (r, pa) ∈ G.flight → G.use pa = .user
  flight_ne : ∀ r pa v, (r, pa) ∈ G.flight → (r, v) ∈ G.maps → PTE2PA (lf r v) ≠ pa

/-- A leaf that maps a user page… -/
def MapLeaf (G : Ghost) (r v : Nat) (x : Pte) : Prop :=
  G.use r = .root ∧ v < 2 ^ 26 - 2 ∧ x.has PTE_V = true ∧ x.has PTE_R = true ∧
    G.use (PTE2PA x) = .user

/-- …and one at the addresses of the trampoline and the trapframe. -/
def SpecLeaf (G : Ghost) (r v : Nat) (x : Pte) : Prop :=
  G.use r = .root ∧ (2 ^ 26 - 2 ≤ v ∧ v < 2 ^ 26) ∧ x.has PTE_V = true ∧ x.has PTE_R = true ∧
    x.has PTE_U = false ∧ x.has PTE_RSW_COW = false

namespace Leaves

variable {G : Ghost} {lf : Nat → Nat → Pte} {r v : Nat}

theorem map (h : Leaves G lf) (hx : (r, v) ∈ G.maps) : MapLeaf G r v (lf r v) :=
  ⟨h.map_root r v hx, h.map_lt r v hx, h.map_V r v hx, h.map_R r v hx, h.map_user r v hx⟩

theorem special (h : Leaves G lf) (hx : (r, v) ∈ G.spec) : SpecLeaf G r v (lf r v) :=
  ⟨h.spec_root r v hx, h.spec_lt r v hx, h.spec_V r v hx, h.spec_R r v hx, h.spec_U r v hx,
    h.spec_COW r v hx⟩

/-- The mappings, leaf by leaf. -/
theorem of (hm : ∀ r v, (r, v) ∈ G.maps → MapLeaf G r v (lf r v))
    (hs : ∀ r v, (r, v) ∈ G.spec → SpecLeaf G r v (lf r v))
    (ho : ∀ r v, G.use r = .root → v < 2 ^ 27 → lf r v ≠ 0#64 → (r, v) ∈ G.maps ∨ (r, v) ∈ G.spec)
    (hi : ∀ r v w, (r, v) ∈ G.maps → (r, w) ∈ G.maps → PTE2PA (lf r v) = PTE2PA (lf r w) → v = w)
    (hf : ∀ r pa, (r, pa) ∈ G.flight → G.use r = .root ∧ G.use pa = .user)
    (hn : ∀ r pa v, (r, pa) ∈ G.flight → (r, v) ∈ G.maps → PTE2PA (lf r v) ≠ pa) : Leaves G lf where
  map_root r v hx := (hm r v hx).1
  map_lt r v hx := (hm r v hx).2.1
  map_V r v hx := (hm r v hx).2.2.1
  map_R r v hx := (hm r v hx).2.2.2.1
  map_user r v hx := (hm r v hx).2.2.2.2
  spec_root r v hx := (hs r v hx).1
  spec_lt r v hx := (hs r v hx).2.1
  spec_V r v hx := (hs r v hx).2.2.1
  spec_R r v hx := (hs r v hx).2.2.2.1
  spec_U r v hx := (hs r v hx).2.2.2.2.1
  spec_COW r v hx := (hs r v hx).2.2.2.2.2
  only := ho
  inj := hi
  flight_root r p hx := (hf r p hx).1
  flight_user r p hx := (hf r p hx).2
  flight_ne := hn

end Leaves

/-- **The ownership invariant.** -/
structure Own [Layout] (G : Ghost) (s : KState) : Prop where
  pages : Pages G s
  tables : Tables G.use s.mem
  leaves : Leaves G (leaf s.mem)
  ref : ∀ pa, IsPage pa → s.referCount (refIdx pa) = G.refs (leaf s.mem) pa
  user_pos : ∀ pa, G.use pa = .user → 0 < G.tokens (leaf s.mem) pa

section

variable [Layout] {G G' : Ghost} {s s' : KState} {lf lf' : Nat → Nat → Pte} {pa r v : Nat} {u : Use}

theorem Pages.paged (h : Pages G s) : Paged G.use := fun p hp => by
  have := (h.page p hp).bounds
  omega

theorem Own.paged (h : Own G s) : Paged G.use := h.pages.paged

theorem Own.isPage (h : Own G s) (hu : G.use pa ≠ .free) : IsPage pa := h.pages.page pa hu

end

/-! ## Counting references -/

section

variable {G G' : Ghost} {lf lf' : Nat → Nat → Pte} {pa r v : Nat} {u : Use}

/-- References only depend on the pages the mappings lead to. -/
theorem Ghost.tokens_congr (hm : G'.maps = G.maps) (hf : G'.flight = G.flight)
    (h : ∀ r v, (r, v) ∈ G.maps → PTE2PA (lf' r v) = PTE2PA (lf r v)) :
    G'.tokens lf' pa = G.tokens lf pa := by
  unfold Ghost.tokens
  rw [hm, hf, filter_congr fun x hx => by rw [h x.1 x.2 hx]]

theorem Ghost.refs_congr (hu : G'.use pa = G.use pa)
    (ht : G.use pa = .user → G'.tokens lf' pa = G.tokens lf pa) :
    G'.refs lf' pa = G.refs lf pa := by
  unfold Ghost.refs
  rw [hu]
  cases hc : G.use pa <;> simp only
  exact ht hc

theorem Ghost.refs_user (h : G.use pa = .user) : G.refs lf pa = G.tokens lf pa := by
  simp [Ghost.refs, h]

/-- **A user page has at most one reference from each page table**, so a bound on the number of
page tables bounds the count. -/
theorem Leaves.tokens_le (h : Leaves G lf) (R : Finset Nat) (hR : ∀ r, G.use r = .root → r ∈ R) :
    G.tokens lf pa ≤ R.card := by
  classical
  have h1 : (G.maps.filter fun x => PTE2PA (lf x.1 x.2) = pa).card =
      ((G.maps.filter fun x => PTE2PA (lf x.1 x.2) = pa).image Prod.fst).card := by
    refine (card_image_of_injOn ?_).symm
    rintro ⟨r, v⟩ hx ⟨r', w⟩ hy (rfl : r = r')
    simp only [coe_filter, Set.mem_ofPred_eq] at hx hy
    rw [h.inj r v w hx.1 hy.1 (hx.2.trans hy.2.symm)]
  have h2 : (G.flight.filter fun x => x.2 = pa).card =
      ((G.flight.filter fun x => x.2 = pa).image Prod.fst).card := by
    refine (card_image_of_injOn ?_).symm
    rintro ⟨r, p⟩ hx ⟨r', p'⟩ hy (rfl : r = r')
    simp only [coe_filter, Set.mem_ofPred_eq] at hx hy
    rw [hx.2, hy.2]
  unfold Ghost.tokens
  rw [h1, h2, ← card_union_of_disjoint]
  · refine card_le_card fun r hr => hR r ?_
    rcases mem_union.1 hr with hr | hr <;> obtain ⟨⟨r', v⟩, hx, rfl⟩ := mem_image.1 hr
    · exact h.map_root _ v (mem_filter.1 hx).1
    · exact h.flight_root _ v (mem_filter.1 hx).1
  · refine disjoint_left.2 fun r hr hr' => ?_
    obtain ⟨⟨r1, v⟩, hx, rfl⟩ := mem_image.1 hr
    obtain ⟨⟨r2, p⟩, hy, (e : r2 = r1)⟩ := mem_image.1 hr'
    subst e
    obtain ⟨hx1, hx2⟩ := mem_filter.1 hx
    obtain ⟨hy1, (hy2 : p = pa)⟩ := mem_filter.1 hy
    subst hy2
    exact h.flight_ne r2 p v hy1 hx1 hx2

/-- **Memory is smaller than the address space**: `n` pages mapped from 0 are `n` different
allocator pages. -/
theorem Own.size_le [Layout] {s : KState} (h : Own G s) {n : Nat}
    (hn : ∀ v < n, (r, v) ∈ G.maps) : n ≤ 32768 := by
  have hinj : Set.InjOn (fun v => refIdx (PTE2PA (leaf s.mem r v))) (Finset.range n) := by
    intro v hv w hw e
    have hv' := hn v (by simpa using hv)
    have hw' := hn w (by simpa using hw)
    have hp : ∀ x, (r, x) ∈ G.maps → IsPage (PTE2PA (leaf s.mem r x)) := fun x hx =>
      h.isPage (by rw [h.leaves.map_user r x hx]; simp)
    exact h.leaves.inj r v w hv' hw' (refIdx_inj (hp v hv') (hp w hw') e)
  have hsub : (Finset.range n).image (fun v => refIdx (PTE2PA (leaf s.mem r v))) ⊆
      Finset.range 32768 := by
    intro x hx
    obtain ⟨v, hv, rfl⟩ := mem_image.1 hx
    refine mem_range.2 (refIdx_lt (h.isPage ?_))
    rw [h.leaves.map_user r v (hn v (mem_range.1 hv))]
    simp
  have := card_le_card hsub
  rwa [card_image_of_injOn hinj, card_range, card_range] at this

end

/-! ## Changes the parts of the invariant do not see -/

section

variable {G G' : Ghost} {s s' : KState} {m m' : Nat → UInt8} {use : Nat → Use}
  {lf lf' : Nat → Nat → Pte} {pa r v : Nat} {u : Use}

/-- The trees only see which pages are tables. -/
theorem Tables.congr_use {use' : Nat → Use} (h : Tables use m)
    (hu : ∀ p, (use p).IsTable ∨ (use' p).IsTable → use' p = use p) : Tables use' m := by
  have up : ∀ (p : Nat) (w : Use), w.IsTable → (use' p = w ↔ use p = w) := fun p w hw =>
    ⟨fun e => by rw [← hu p (.inr (e ▸ hw)), e], fun e => by rw [hu p (.inl (e ▸ hw)), e]⟩
  refine ⟨fun p r i hu => ?_, fun p r q hu => ?_, fun r i hu hi => ?_, fun t r i j hu hj => ?_⟩
  · rw [up p (.mid r i) trivial] at hu
    obtain ⟨h1, h2, h3⟩ := h.mid_parent p r i hu
    exact ⟨h1, (up r .root trivial).2 h2, h3⟩
  · rw [up p (.low r q) trivial] at hu
    obtain ⟨t, h1, h2⟩ := h.low_parent p r q hu
    exact ⟨t, (up t (.mid r _) trivial).2 h1, h2⟩
  · rw [up r .root trivial] at hu
    rcases h.root_child r i hu hi with h1 | ⟨p, h1, h2⟩
    · exact .inl h1
    · exact .inr ⟨p, (up p (.mid r i) trivial).2 h1, h2⟩
  · rw [up t (.mid r i) trivial] at hu
    rcases h.mid_child t r i j hu hj with h1 | ⟨p, h1, h2⟩
    · exact .inl h1
    · exact .inr ⟨p, (up p (.low r _) trivial).2 h1, h2⟩

/-- A page that is no table before and after may change its use. -/
theorem Tables.setUse (h : Tables use m) (hold : ¬ (use pa).IsTable) (hnew : ¬ u.IsTable) :
    Tables (update use pa u) m := by
  refine h.congr_use fun p hp => ?_
  by_cases e : p = pa
  · subst e
    rw [update_self] at hp
    exact absurd hp (by simp [hold, hnew])
  · exact update_of_ne e ..

section

variable (h : Leaves G lf)

include h

/-- A page of another use is not mapped… -/
theorem Leaves.not_mapped (hu : G.use pa ≠ .user) (hm : (r, v) ∈ G.maps) :
    PTE2PA (lf r v) ≠ pa := fun e => hu (e ▸ h.map_user r v hm)

/-- …and no reference to it is in flight. -/
theorem Leaves.not_flight (hu : G.use pa ≠ .user) : (r, pa) ∉ G.flight :=
  fun hx => hu (h.flight_user r pa hx)

/-- The mappings only see roots and the pages they lead to. -/
theorem Leaves.setUse (hr : G.use pa ≠ .root) (hr' : u ≠ .root)
    (hm : ∀ r v, (r, v) ∈ G.maps → PTE2PA (lf r v) ≠ pa) (hf : ∀ r, (r, pa) ∉ G.flight) :
    Leaves (G.setUse pa u) lf := by
  have root : ∀ {p}, (G.setUse pa u).use p = .root ↔ G.use p = .root := by
    intro p
    by_cases hp : p = pa
    · subst hp; simp [hr, hr']
    · rw [Ghost.setUse_ne hp]
  refine .of (fun r v hx => ⟨root.2 (h.map hx).1, (h.map hx).2.1, (h.map hx).2.2.1,
    (h.map hx).2.2.2.1, ?_⟩) (fun r v hx => ⟨root.2 (h.special hx).1, (h.special hx).2⟩)
    (fun r v hx => h.only r v (root.1 hx)) h.inj (fun r p hx => ⟨root.2 (h.flight_root r p hx), ?_⟩)
    h.flight_ne
  · rw [Ghost.setUse_ne (hm r v hx)]
    exact h.map_user r v hx
  · rw [Ghost.setUse_ne (by rintro rfl; exact hf r hx)]
    exact h.flight_user r p hx

/-- The mappings only see the flags `V` and `R` and the page of a valid user leaf. -/
theorem Leaves.congr (hV : ∀ r v, G.use r = .root → v < 2 ^ 27 → (lf' r v).has PTE_V =
    (lf r v).has PTE_V) (h0 : ∀ r v, G.use r = .root → v < 2 ^ 27 → lf' r v ≠ 0#64 → lf r v ≠ 0#64)
    (hR : ∀ r v, (r, v) ∈ G.maps → (lf' r v).has PTE_R = (lf r v).has PTE_R)
    (hs : ∀ r v, (r, v) ∈ G.spec → lf' r v = lf r v)
    (hpa : ∀ r v, (r, v) ∈ G.maps → PTE2PA (lf' r v) = PTE2PA (lf r v)) : Leaves G lf' := by
  refine .of (fun r v hx => ?_) (fun r v hx => by rw [hs r v hx]; exact h.special hx)
    (fun r v hr hv hx => h.only r v hr hv (h0 r v hr hv hx))
    (fun r v w hx hy e => h.inj r v w hx hy (by rw [← hpa r v hx, ← hpa r w hy]; exact e))
    (fun r p hx => ⟨h.flight_root r p hx, h.flight_user r p hx⟩)
    fun r p v hx hy => by rw [hpa r v hy]; exact h.flight_ne r p v hx hy
  have hm := h.map hx
  have := hm.2.1
  rw [MapLeaf, hV r v hm.1 (by omega), hR r v hx, hpa r v hx]
  exact hm

theorem Leaves.lt (hx : (r, v) ∈ G.maps) : v < 2 ^ 27 := by
  have := h.map_lt r v hx
  omega

theorem Leaves.spec_lt' (hx : (r, v) ∈ G.spec) : v < 2 ^ 27 := by
  have := h.spec_lt r v hx
  omega

section

variable (he : ∀ r v, G.use r = .root → v < 2 ^ 27 → lf' r v = lf r v)

include he

/-- The same leaves at every page of every root give the same mappings. -/
theorem Leaves.congr_leaf : Leaves G lf' :=
  h.congr (fun r v hr hv => by rw [he r v hr hv]) (fun r v hr hv hx => by rwa [← he r v hr hv])
    (fun r v hx => by rw [he r v (h.map_root r v hx) (h.lt hx)])
    (fun r v hx => he r v (h.spec_root r v hx) (h.spec_lt' hx))
    fun r v hx => by rw [he r v (h.map_root r v hx) (h.lt hx)]

theorem Leaves.tokens_congr_leaf : G.tokens lf' pa = G.tokens lf pa :=
  Ghost.tokens_congr rfl rfl fun r v hx => by rw [he r v (h.map_root r v hx) (h.lt hx)]

theorem Leaves.refs_congr_leaf : G.refs lf' pa = G.refs lf pa :=
  Ghost.refs_congr rfl fun _ => h.tokens_congr_leaf he

end

end

end

end Xv6
