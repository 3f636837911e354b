import Xv6.Vm.Space

/-!
# Vm/Forest — page tables as a set of trees

The trees alone, whatever their leaves hold and whatever the other pages are used for: `Forest use
s` says that the page-table pages form trees, that none of them is on the free list, and that each
has one reference.  What the walk finds is a partial map from page numbers to entries (`entry`);
`walk`, `mappages` and `uvmunmap` are described by what they do to it, and `freewalk` by the pages
it frees.
-/

namespace Xv6

open Act Bytes Function

variable {use use' : Nat → Use} {m m' : Nat → UInt8} {r r' v v' p q a : Nat}

/-! ## Entries -/

/-- The entry of page `v`, `none` if there is no level-0 page for it. -/
def entry (m : Nat → UInt8) (r v : Nat) : Option Pte := (leafAddr m r v).map (pteAt m)

namespace Tables

section

variable (ht : Tables use m) (hp : Paged use)

include ht hp

theorem entry_low (h : use p = .low r (v / 512)) :
    entry m r v = some (pteAt m (p + 8 * (v % 512))) := by
  have e := ht.leafAddr_low hp h (Nat.mod_lt v (by decide))
  rw [Nat.div_add_mod] at e
  rw [entry, e]
  rfl

theorem entry_none (hr : use r = .root) (hv : v < 2 ^ 27)
    (h : ∀ p, use p ≠ .low r (v / 512)) : entry m r v = none := by
  rw [entry, ht.leafAddr_none hp hr hv h]
  rfl

theorem entry_eq_none (hr : use r = .root) (hv : v < 2 ^ 27) :
    entry m r v = none ↔ ∀ p, use p ≠ .low r (v / 512) := by
  refine ⟨fun h p hlow => ?_, ht.entry_none hp hr hv⟩
  rw [ht.entry_low hp hlow] at h
  cases h

end

/-- **An entry depends on one level-0 page.** -/
theorem entry_congr (ht : Tables use m) (ht' : Tables use' m') (hp : Paged use) (hp' : Paged use')
    (hr : use r = .root) (hr' : use' r = .root) (hv : v < 2 ^ 27)
    (hlow : ∀ p, use' p = .low r (v / 512) ↔ use p = .low r (v / 512))
    (hm : ∀ p, use p = .low r (v / 512) → pteAt m' (p + 8 * (v % 512)) =
      pteAt m (p + 8 * (v % 512))) :
    entry m' r v = entry m r v := by
  by_cases hex : ∃ p, use p = .low r (v / 512)
  · obtain ⟨p, h⟩ := hex
    rw [ht.entry_low hp h, ht'.entry_low hp' ((hlow p).2 h), hm p h]
  · have hnone : ∀ p, use p ≠ .low r (v / 512) := fun p h => hex ⟨p, h⟩
    rw [ht.entry_none hp hr hv hnone, ht'.entry_none hp' hr' hv fun p h => hnone p ((hlow p).1 h)]

end Tables

/-- **Entries that appear are empty**: those of the level-0 pages for `W` in the tree at `r`. -/
def Created (r : Nat) (W : Nat → Prop) (E E' : Nat → Nat → Option Pte) (r' v : Nat) : Prop :=
  E' r' v = E r' v ∨ (r' = r ∧ ∃ w, W w ∧ w / 512 = v / 512) ∧ E r' v = none ∧ E' r' v = some 0#64

section

variable {E E' E'' : Nat → Nat → Option Pte} {W W' : Nat → Prop}

theorem Created.mono (h : Created r W E E' r' v) (hW : ∀ w, W w → W' w) : Created r W' E E' r' v :=
  h.imp_right fun ⟨⟨hr, w, hw, e⟩, h⟩ => ⟨⟨hr, w, hW w hw, e⟩, h⟩

theorem Created.trans (h : Created r W E E' r' v) (h' : Created r W E' E'' r' v) :
    Created r W E E'' r' v := by
  rcases h with e | ⟨hw, h1, h2⟩
  · rcases h' with e' | ⟨hw, h1, h2⟩
    · exact .inl (e'.trans e)
    · exact .inr ⟨hw, e.symm.trans h1, h2⟩
  · rcases h' with e' | ⟨-, h3, -⟩
    · exact .inr ⟨hw, h1, e'.trans h2⟩
    · rw [h2] at h3
      cases h3

end

/-! ## The invariant -/

variable [Layout] {s s' : KState} {t j c i k va pa : Nat} {w : Use} {x perm : Pte}

/-- **The page-table pages form trees of pages that are in use.**  Pages with other uses are all
`free` here. -/
structure Forest (use : Nat → Use) (s : KState) : Prop where
  tables : Tables use s.mem
  table : ∀ p, use p ≠ .free → (use p).IsTable
  page : ∀ p, use p ≠ .free → IsPage p
  free : ∀ p ∈ s.freelist, IsPage p ∧ use p = .free
  nodup : s.freelist.Nodup
  ref : ∀ p, use p ≠ .free → s.referCount (refIdx p) = 1
  byte : ∀ i, s.referCount i < 256

namespace Forest

section

variable (h : Forest use s)

include h

theorem paged : Paged use := fun p hp => by
  have := (h.page p hp).bounds
  omega

/-- A page that is no table does not meet one. -/
theorem outside (hpa : IsPage pa) (hu : use pa = .free) (hp : use p ≠ .free) {y : Nat}
    (h1 : p ≤ y) (h2 : y < p + 4096) : y < pa ∨ pa + 4096 ≤ y := by
  have hne : p ≠ pa := fun e => hp (e ▸ hu)
  have h3 := (h.page p hp).bounds
  have h4 := hpa.bounds
  omega

/-- Everything but the table pages may change. -/
theorem congr (hm : ∀ p, use p ≠ .free → ∀ y, p ≤ y → y < p + 4096 → s'.mem y = s.mem y)
    (hf : ∀ p ∈ s'.freelist, IsPage p ∧ use p = .free) (hn : s'.freelist.Nodup)
    (hr : ∀ p, use p ≠ .free → s'.referCount (refIdx p) = s.referCount (refIdx p))
    (hb : ∀ i, s'.referCount i < 256) : Forest use s' where
  tables := h.tables.congr_mem fun p hp => hm p hp.ne_free
  table := h.table
  page := h.page
  free := hf
  nodup := hn
  ref p hp := (hr p hp).trans (h.ref p hp)
  byte := hb

/-- …and then all entries are as they were. -/
theorem entry_congr (h' : Forest use s')
    (hm : ∀ p, use p ≠ .free → ∀ y, p ≤ y → y < p + 4096 → s'.mem y = s.mem y) (hr : use r = .root)
    (hv : v < 2 ^ 27) : entry s'.mem r v = entry s.mem r v := by
  refine h.tables.entry_congr h'.tables h.paged h'.paged hr hr hv (fun _ => Iff.rfl) fun p hp => ?_
  exact pteAt_congr fun y h1 h2 => hm p (by simp [hp]) y (by omega) (by omega)

/-- The count of another page may change. -/
theorem ref_update (hpa : IsPage pa) (hu : use pa = .free) (c : Nat) (p : Nat)
    (hp : use p ≠ .free) : update s.referCount (refIdx pa) c (refIdx p) =
      s.referCount (refIdx p) := by
  refine update_of_ne (fun e => hp ?_) ..
  rwa [refIdx_inj (h.page p hp) hpa e]

theorem byte_update {c : Nat} (hc : c < 256) (j i : Nat) : update s.referCount j c i < 256 := by
  by_cases e : i = j
  · rw [e, update_self]
    exact hc
  · rw [update_of_ne e]
    exact h.byte i

/-- **`kfree` of a page that is no table.** -/
theorem kfree (hpa : IsPage pa) (hu : use pa = .free) (hf : pa ∉ s.freelist)
    (hc : 0 < s.referCount (refIdx pa)) : ∃ s', Xv6.kfree pa s = .ok ((), s') ∧ Forest use s' ∧
      (∀ p, use p ≠ .free → ∀ y, p ≤ y → y < p + 4096 → s'.mem y = s.mem y) ∧
      s'.freelist = (if s.referCount (refIdx pa) = 1 then [pa] else []) ++ s.freelist ∧
      s'.referCount = update s.referCount (refIdx pa) (s.referCount (refIdx pa) - 1) := by
  have hlt := h.byte (refIdx pa)
  have hm : ∀ p, use p ≠ .free → ∀ y, p ≤ y → y < p + 4096 → fill s.mem pa PGSIZE 1 y = s.mem y :=
    fun p hp y h1 h2 => fill_out (by simpa using h.outside hpa hu hp h1 h2)
  by_cases h1 : s.referCount (refIdx pa) = 1
  · refine ⟨_, kfree_last hpa h1, h.congr hm (fun p hp => ?_) (List.nodup_cons.2 ⟨hf, h.nodup⟩)
      (h.ref_update hpa hu 0) (h.byte_update (by omega) _), hm, by rw [if_pos h1]; rfl, by rw [h1]⟩
    rcases List.mem_cons.1 hp with rfl | hp
    · exact ⟨hpa, hu⟩
    · exact h.free p hp
  · have h2 : s.referCount (refIdx pa) - 1 < 256 := by omega
    have hr := h.ref_update hpa hu (s.referCount (refIdx pa) - 1)
    have hb := h.byte_update h2 (refIdx pa)
    refine ⟨_, kfree_shared hpa (by omega) hlt, h.congr (fun _ _ _ _ _ => rfl) h.free h.nodup ?_ ?_,
      fun _ _ _ _ _ => rfl, by rw [if_neg h1]; rfl, rfl⟩
    · exact hr
    · exact hb

/-! ## Creating tables -/

/-- **`kalloc` and `memset`**: a page of zeros that is no table, nor on the free list any more. -/
theorem zalloc {α : Type} {f : Nat → Kern α} {e : Kern α} :
    (s.freelist = [] ∧ (kalloc >>= fun o => match o with
      | none => e
      | some c => memset c 0 PGSIZE >>= fun _ => f c) s = e s) ∨
    ∃ c s', (kalloc >>= fun o => match o with
      | none => e
      | some c => memset c 0 PGSIZE >>= fun _ => f c) s = f c s' ∧ IsPage c ∧ use c = .free ∧
      Forest use s' ∧ s.freelist = c :: s'.freelist ∧ s'.referCount (refIdx c) = 1 ∧
      (∀ o < 4096, s'.mem (c + o) = 0) ∧ ∀ y, y < c ∨ c + 4096 ≤ y → s'.mem y = s.mem y := by
  cases hl : s.freelist with
  | nil => exact .inl ⟨rfl, by rw [bind_ok (kalloc_nil hl)]⟩
  | cons c rest =>
    obtain ⟨hc, hu⟩ := h.free c (hl ▸ List.mem_cons_self)
    have hnd : c ∉ rest ∧ rest.Nodup := List.nodup_cons.1 (hl ▸ h.nodup)
    have hout : ∀ y, y < c ∨ c + 4096 ≤ y →
        fill (fill s.mem c PGSIZE 5) c PGSIZE 0 y = s.mem y := by
      intro y hy
      rw [fill_out (by simpa using hy), fill_out (by simpa using hy)]
    refine .inr ⟨c, { s with
      freelist := rest
      referCount := update s.referCount (refIdx c) 1
      mem := fill (fill s.mem c PGSIZE 5) c PGSIZE 0 }, ?_, hc, hu, ?_, rfl,
        update_self .., ?_, hout⟩
    · rw [bind_ok (kalloc_cons hl)]
      rfl
    · refine h.congr (fun p hp y h1 h2 => hout y (h.outside hc hu hp h1 h2))
        (fun p hp => h.free p (hl ▸ List.mem_cons_of_mem c hp)) hnd.2 (h.ref_update hc hu 1)
        (h.byte_update (by omega) _)
    · exact fun o ho => fill_in (Nat.le_add_right c o) (by simpa using ho)

/-- A page that is not in use becomes a table. -/
theorem setUse (hc : IsPage c) (hf : c ∉ s.freelist) (h1 : s.referCount (refIdx c) = 1)
    (hw : w.IsTable) {m : Nat → UInt8} (ht : Tables (update use c w) m) :
    Forest (update use c w) { s with mem := m } where
  tables := ht
  table p hp := by
    by_cases e : p = c
    · subst e
      rwa [update_self]
    · rw [update_of_ne e] at hp ⊢
      exact h.table p hp
  page p hp := by
    by_cases e : p = c
    · exact e ▸ hc
    · rw [update_of_ne e] at hp
      exact h.page p hp
  free p hp := by
    rw [update_of_ne (ne_of_mem_of_not_mem hp hf)]
    exact h.free p hp
  nodup := h.nodup
  ref p hp := by
    by_cases e : p = c
    · exact e ▸ h1
    · rw [update_of_ne e] at hp
      exact h.ref p hp
  byte := h.byte

end

end Forest

/-- **Trees that have grown**: tables stay where they are, and level-0 pages keep their entries; new
ones are in the region `q` of the tree at `r`, and empty. -/
structure Grown (r q : Nat) (use use' : Nat → Use) (m m' : Nat → UInt8) : Prop where
  old : ∀ p, use p ≠ .free → use' p = use p
  root : ∀ p, use' p = .root → use p = .root
  new : ∀ p r' q', use' p = .low r' q' → use p = .low r' q' ∨
    (r' = r ∧ q' = q) ∧ ∀ k < 512, pteAt m' (p + 8 * k) = 0#64
  low : ∀ p r' q', use p = .low r' q' → ∀ k < 512, pteAt m' (p + 8 * k) = pteAt m (p + 8 * k)

namespace Grown

variable {use'' : Nat → Use} {m'' : Nat → UInt8}

omit [Layout] in
theorem refl : Grown r q use use m m :=
  ⟨fun _ _ => rfl, fun _ h => h, fun _ _ _ h => .inl h, fun _ _ _ _ _ _ => rfl⟩

omit [Layout] in
theorem trans (h : Grown r q use use' m m') (h' : Grown r q use' use'' m' m'') :
    Grown r q use use'' m m'' where
  old p hp := by
    have e := h.old p hp
    rw [h'.old p (e ▸ hp), e]
  root p hp := h.root p (h'.root p hp)
  new p r' q' hp := by
    rcases h'.new p r' q' hp with hp' | hp'
    · rcases h.new p r' q' hp' with h1 | ⟨h1, h2⟩
      · exact .inl h1
      · exact .inr ⟨h1, fun k hk => (h'.low p r' q' hp' k hk).trans (h2 k hk)⟩
    · exact .inr hp'
  low p r' q' hp k hk := by
    have e := h.old p (by simp [hp])
    rw [h'.low p r' q' (e ▸ hp) k hk, h.low p r' q' hp k hk]

/-- **What appears in the map is empty.** -/
theorem created (h : Grown r q use use' s.mem s'.mem) (hF : Forest use s) (hF' : Forest use' s')
    (hr : use r' = .root) (hv : v < 2 ^ 27) (hq : q = va / 512) :
    Created r (· = va) (entry s.mem) (entry s'.mem) r' v := by
  have hr' : use' r' = .root := (h.old r' (by simp [hr])).trans hr
  by_cases hex : ∃ p, use p = .low r' (v / 512)
  · obtain ⟨p, hp⟩ := hex
    have hp' : use' p = .low r' (v / 512) := (h.old p (by simp [hp])).trans hp
    rw [Created, hF.tables.entry_low hF.paged hp, hF'.tables.entry_low hF'.paged hp',
      h.low p r' _ hp _ (Nat.mod_lt v (by decide))]
    exact .inl rfl
  · have hnone := hF.tables.entry_none hF.paged hr hv fun p hp => hex ⟨p, hp⟩
    by_cases hex' : ∃ p, use' p = .low r' (v / 512)
    · obtain ⟨p, hp'⟩ := hex'
      obtain ⟨⟨e1, e2⟩, h0⟩ := (h.new p r' _ hp').resolve_left fun hp => hex ⟨p, hp⟩
      refine .inr ⟨⟨e1, va, rfl, by rw [e2, hq]⟩, hnone, ?_⟩
      rw [hF'.tables.entry_low hF'.paged hp', h0 _ (Nat.mod_lt v (by decide))]
    · rw [Created, hnone, hF'.tables.entry_none hF'.paged hr' hv fun p hp => hex' ⟨p, hp⟩]
      exact .inl rfl

end Grown

namespace Forest

/-- **Linking a fresh table** into entry `j` of table `t`. -/
theorem link (f : Nat → Kern (Option Nat)) (h : Forest use s) (hP : Parent use t j w)
    (hw : w = .mid r (q / 512) ∨ w = .low r q)
    (hinv : (pteAt s.mem (t + 8 * j)).has PTE_V = false) :
    linkTable (t + 8 * j) f s = .ok (none, s) ∧ s.freelist = [] ∨ ∃ c s' use',
    linkTable (t + 8 * j) f s = f c s' ∧ use' c = w ∧ Forest use' s' ∧
      Grown r q use use' s.mem s'.mem ∧ s.freelist.length = s'.freelist.length + 1 := by
  rcases h.zalloc (e := pure none) (f := fun c => writePte (t + 8 * j) (PA2PTE c ||| PTE_V) >>=
    fun _ => f c) with
    ⟨hf, hk⟩ | ⟨c, s1, hk, hpa, hu, h1, hfl, hc1, hz, hmem⟩
  · exact .inl ⟨hk, hf⟩
  · have ht := h.page t hP.table.ne_free
    have htc : t ≠ c := fun e => hP.table.ne_free (e ▸ hu)
    have hb1 := ht.bounds
    have hb2 := hpa.bounds
    have hj := hP.1
    have hinv1 : (pteAt s1.mem (t + 8 * j)).has PTE_V = false := by
      rwa [pteAt_congr fun y _ _ => hmem y (by omega)]
    have hcf : c ∉ s1.freelist := (List.nodup_cons.1 (hfl ▸ h.nodup)).1
    have htable : w.IsTable := by
      rcases hw with rfl | rfl <;> trivial
    have hlink := h1.tables.link h1.paged hP hinv1 (by simp [hu, Use.IsTable]) hb2.1 hz
    refine .inr ⟨c, { s1 with mem := setPte s1.mem (t + 8 * j) (tableEntry c) }, _, hk,
      update_self .., h1.setUse hpa hcf hc1 htable hlink, ⟨fun p hp => ?_, fun p hp => ?_,
      fun p r' q' hp => ?_, fun p r' q' hp k hk => ?_⟩, by rw [hfl, List.length_cons]⟩
    · exact update_of_ne (by rintro rfl; exact hp hu) ..
    · by_cases e : p = c
      · rw [e, update_self] at hp
        exact absurd hp hP.kernel.2
      · rwa [update_of_ne e] at hp
    · by_cases e : p = c
      · subst e
        rw [update_self] at hp
        refine .inr ⟨?_, fun k hk => ?_⟩
        · rcases hw with rfl | rfl <;> cases hp
          exact ⟨rfl, rfl⟩
        rw [pteAt_entry_ne hb1.1 hb2.1 hj hk fun e => htc (Prod.mk.inj e).1.symm]
        exact pteAt_zero hz hk
      · rw [update_of_ne e] at hp
        exact .inl hp
    · have hpc : p ≠ c := by
        rintro rfl
        rw [hu] at hp
        cases hp
      have hp' := (h.page p (by simp [hp])).bounds
      rw [pteAt_entry_ne hb1.1 hp'.1 hj hk fun e => hP.not_low r' q' ((Prod.mk.inj e).1 ▸ hp)]
      exact pteAt_congr fun y _ _ => hmem y (by omega)

/-- **`walk` grows the trees.** -/
theorem linking : Linking Forest (fun use s use' s' => Grown r q use use' s.mem s'.mem)
    (fun use => use) r q where
  tables h := ⟨h.tables, h.paged⟩
  refl _ _ := .refl
  trans _ h h' := h.trans h'
  link f h hP hw hinv := h.link f hP hw hinv

end Forest

end Xv6
