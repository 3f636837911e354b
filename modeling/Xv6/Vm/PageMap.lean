import Mathlib.Data.List.Basic
import Xv6.Vm.Forest

/-!
# Vm/PageMap — what the operations on page tables do to the map

`mappages` sets the entries of a range of pages and `uvmunmap` clears them, one store at a time.
With `do_free`, `uvmunmap` also drops a reference to each page that was mapped; the caller must hold
as many (`Droppable`).
-/

namespace Xv6

open Act Bytes Function List Option

/-! ## Mapping and unmapping a range -/

/-- **The map after `n` pages from `v` on have been mapped**, to consecutive physical pages. -/
def Mapped (r v n pa : Nat) (perm : Pte) (E E' : Nat → Nat → Option Pte) (r' v' : Nat) : Prop :=
  if r' = r ∧ v ≤ v' ∧ v' < v + n then
    E' r' v' = some (PA2PTE (pa + 4096 * (v' - v)) ||| perm ||| PTE_V)
  else Created r (fun w => v ≤ w ∧ w < v + n) E E' r' v'

/-- **…and after they have been unmapped.** -/
def Cleared (r v n : Nat) (E E' : Nat → Nat → Option Pte) (r' v' : Nat) : Prop :=
  E' r' v' = if r' = r ∧ v ≤ v' ∧ v' < v + n then some 0#64 else E r' v'

variable [Layout] {use use' : Nat → Use} {s s' : KState} {r r' v v' p q k n pa : Nat}
  {x perm : Pte} {f : Bool}

namespace Forest

/-- **A store to an entry of a level-0 page** changes one entry of the map. -/
theorem store (h : Forest use s) (hlow : use p = .low r q) (hk : k < 512) (x : Pte) :
    Forest use { s with mem := setPte s.mem (p + 8 * k) x } ∧
      ∀ r' v', use r' = .root → v' < 2 ^ 27 → entry (setPte s.mem (p + 8 * k) x) r' v' =
        if r' = r ∧ v' = 512 * q + k then some x else entry s.mem r' v' := by
  have ht := h.tables.setPte_low (x := x) h.paged hlow hk
  refine ⟨⟨ht, h.table, h.page, h.free, h.nodup, h.ref, h.byte⟩, fun r' v' hr' hv' => ?_⟩
  have hp := h.page p (by simp [hlow])
  by_cases hex : ∃ p', use p' = .low r' (v' / 512)
  · obtain ⟨p', hlow'⟩ := hex
    have hp' := h.page p' (by simp [hlow'])
    rw [h.tables.entry_low h.paged hlow', ht.entry_low h.paged hlow']
    split
    next e =>
      obtain ⟨rfl, rfl⟩ := e
      rw [show (512 * q + k) / 512 = q by omega] at hlow'
      rw [h.tables.low_unique h.paged hlow' hlow, show (512 * q + k) % 512 = k by omega,
        pteAt_setPte]
    next hne =>
      rw [pteAt_entry_ne hp.bounds.1 hp'.bounds.1 hk (Nat.mod_lt _ (by decide)) fun e => hne ?_]
      obtain ⟨rfl, hk'⟩ := Prod.mk.inj e
      obtain ⟨rfl, hq⟩ := Use.low.inj (hlow'.symm.trans hlow)
      exact ⟨rfl, by omega⟩
  · have hnone : ∀ p', use p' ≠ .low r' (v' / 512) := fun p' hp' => hex ⟨p', hp'⟩
    rw [h.tables.entry_none h.paged hr' hv' hnone, ht.entry_none h.paged hr' hv' hnone, if_neg]
    rintro ⟨rfl, rfl⟩
    rw [show (512 * q + k) / 512 = q by omega] at hnone
    exact hnone p hlow

/-- The entry that is found in a level-0 page. -/
theorem entry_at (h : Forest use s) (hlow : use p = .low r (v / 512)) :
    entry s.mem r v = some (pteAt s.mem (p + 8 * (v % 512))) :=
  h.tables.entry_low h.paged hlow

end Forest

/-! ## `mappages` -/

/-- What comes of a loop of `mappages` over `k + 1` pages: it stops at an address that is too high
or at a page that was mapped, or it maps all pages, or as many as there are tables for. -/
def MapEnd (use : Nat → Use) (s : KState) (r v k pa : Nat) (perm : Pte)
    (res : Except Panic (Int × KState)) : Prop :=
  (res = .error .walk ∧ 2 ^ 26 ≤ v + k) ∨
  (res = .error .mappagesRemap ∧
    ∃ w x, (v ≤ w ∧ w ≤ v + k ∧ w < 2 ^ 26) ∧ entry s.mem r w = some x ∧ x.has PTE_V = true) ∨
  ∃ n ret s' use', res = .ok (ret, s') ∧
    (ret = 0 ∧ n = k + 1 ∧ v + k < 2 ^ 26 ∨ ret = -1 ∧ n ≤ k ∧ v + n < 2 ^ 26 ∧ s'.freelist = []) ∧
    Forest use' s' ∧ (∀ p, use' p = .root ↔ use p = .root) ∧
    ∀ r' v', use r' = .root → v' < 2 ^ 27 → Mapped r v n pa perm (entry s.mem) (entry s'.mem) r' v'

omit [Layout] in
/-- One page is mapped, and then `n` more. -/
theorem Mapped.cons {E E₁ E₂ E' : Nat → Nat → Option Pte} (hc : Created r (· = v) E E₁ r' v')
    (hs : E₂ r' v' = if r' = r ∧ v' = v then some (PA2PTE pa ||| perm ||| PTE_V) else E₁ r' v')
    (hm : Mapped r (v + 1) n (pa + PGSIZE) perm E₂ E' r' v') :
    Mapped r v (n + 1) pa perm E E' r' v' := by
  unfold Mapped at hm ⊢
  by_cases h1 : r' = r ∧ v' = v
  · obtain ⟨rfl, rfl⟩ := h1
    rw [if_pos ⟨rfl, rfl⟩] at hs
    rw [if_neg (by omega)] at hm
    rw [if_pos ⟨rfl, by omega, by omega⟩, Nat.sub_self, Nat.mul_zero, Nat.add_zero]
    rcases hm with e | ⟨-, e, -⟩
    · rw [e, hs]
    · rw [hs] at e
      cases e
  · rw [if_neg h1] at hs
    by_cases h2 : r' = r ∧ v + 1 ≤ v' ∧ v' < v + 1 + n
    · rw [if_pos h2] at hm
      rw [if_pos ⟨h2.1, by omega, by omega⟩, hm, PGSIZE_eq,
        show pa + 4096 + 4096 * (v' - (v + 1)) = pa + 4096 * (v' - v) by omega]
    · rw [if_neg h2] at hm
      rw [if_neg (by omega)]
      have hm' : Created r (fun w => v + 1 ≤ w ∧ w < v + 1 + n) E₁ E' r' v' := by
        unfold Created at hm ⊢
        rwa [hs] at hm
      refine (hc.mono fun w e => ?_).trans (hm'.mono fun w hw => ?_)
      · exact ⟨e.ge, by omega⟩
      · exact ⟨by omega, by omega⟩

omit [Layout] in
/-- No page is mapped. -/
theorem Mapped.zero {E E' : Nat → Nat → Option Pte} (h : E' r' v' = E r' v') :
    Mapped r v 0 pa perm E E' r' v' := by
  rw [Mapped, if_neg (by omega)]
  exact .inl h

/-- One page is mapped, and the loop goes on. -/
theorem MapEnd.cons {E : Nat → Nat → Option Pte} {res : Except Panic (Int × KState)}
    (hr : use r = .root) (hroot : ∀ p, use' p = .root ↔ use p = .root)
    (hE : ∀ r' v', use r' = .root → v' < 2 ^ 27 → Created r (· = v) (entry s.mem) E r' v' ∧
      entry s'.mem r' v' = if r' = r ∧ v' = v then some (PA2PTE pa ||| perm ||| PTE_V) else E r' v')
    (h : MapEnd use' s' r (v + 1) k (pa + PGSIZE) perm res) :
    MapEnd use s r v (k + 1) pa perm res := by
  rcases h with ⟨e, h⟩ | ⟨e, w, x, hw, hx, hV⟩ | ⟨n, ret, s2, use2, e, hret, h2, hroot2, hm⟩
  · exact .inl ⟨e, by omega⟩
  · refine .inr (.inl ⟨e, w, x, ⟨by omega, by omega, hw.2.2⟩, ?_, hV⟩)
    -- what is valid later was valid before: pages that appear are empty
    obtain ⟨hc, hs⟩ := hE r w hr (by omega)
    rw [if_neg (by omega), hx] at hs
    rcases hc with e1 | ⟨-, -, e1⟩
    · rw [← e1, ← hs]
    · rw [e1] at hs
      rw [some.inj hs] at hV
      exact absurd rfl (Pte.ne_zero_of_has hV)
  · refine .inr (.inr ⟨n + 1, ret, s2, use2, e, ?_, h2, fun p => (hroot2 p).trans (hroot p), ?_⟩)
    · rcases hret with ⟨h0, hn, hlt⟩ | ⟨h1, hn, hlt, hf⟩
      · exact .inl ⟨h0, by omega, by omega⟩
      · exact .inr ⟨h1, by omega, by omega, hf⟩
    · intro r' v' hr' hv'
      obtain ⟨hc, hs⟩ := hE r' v' hr' hv'
      exact .cons hc hs (hm r' v' ((hroot r').2 hr') hv')

namespace Forest

omit [Layout] in
theorem walk_high {va : Nat} {b : Bool} (hva : MAXVA ≤ va) : walk r va b s = .error .walk := by
  rw [walk, if_pos hva]
  rfl

/-- Where the walk fails nothing is created. -/
theorem walk_fail (h : Forest use s) (h' : Forest use' s')
    (hG : Grown r (v / 512) use use' s.mem s'.mem) (hno : ∀ p, use' p ≠ .low r (v / 512))
    (hr' : use r' = .root) (hv' : v' < 2 ^ 27) : entry s'.mem r' v' = entry s.mem r' v' := by
  rcases hG.created h h' hr' hv' rfl with e | ⟨⟨rfl, w, rfl, e⟩, -, -⟩
  · exact e
  · rw [e] at hno
    have hnone : ∀ p, use p ≠ .low r' (v' / 512) :=
      fun p hp => hno p (by rw [hG.old p (by simp [hp]), hp])
    rw [h.tables.entry_none h.paged hr' hv' hnone,
      h'.tables.entry_none h'.paged ((hG.old r' (by simp [hr'])).trans hr') hv' hno]

/-- **One page of `mappages`**, and `f` for the pages after it. -/
theorem mapPage (h : Forest use s) (hr : use r = .root) (hv : v < 2 ^ 26) (pa : Nat) (perm : Pte)
    (f : Kern Int) : let res := (do
      match ← walk r (4096 * v) true with
      | none => pure (-1)
      | some pte => do
        let x ← readPte pte
        if x.has PTE_V then stop .mappagesRemap
        else do
          writePte pte (PA2PTE pa ||| perm ||| PTE_V)
          f : Kern Int) s
    (res = .error .mappagesRemap ∧ ∃ x, entry s.mem r v = some x ∧ x.has PTE_V = true) ∨
    (∃ s' use', res = .ok (-1, s') ∧ s'.freelist = [] ∧ Forest use' s' ∧
      (∀ p, use' p = .root ↔ use p = .root) ∧ ∀ r' v', use r' = .root → v' < 2 ^ 27 →
      entry s'.mem r' v' = entry s.mem r' v') ∨
    ∃ s' use' E, res = f s' ∧ Forest use' s' ∧ (∀ p, use' p = .root ↔ use p = .root) ∧
      ∀ r' v', use r' = .root → v' < 2 ^ 27 → Created r (· = v) (entry s.mem) E r' v' ∧
        entry s'.mem r' v' = if r' = r ∧ v' = v then some (PA2PTE pa ||| perm ||| PTE_V)
        else E r' v' := by
  intro res
  obtain ⟨o, s1, use1, e1, h1, hG, hsome, hnone, -⟩ :=
    linking.walk h hr (show 4096 * v < MAXVA by rw [MAXVA_eq]; omega)
  rw [Nat.mul_div_cancel_left v (by decide : 0 < 4096)] at hG hsome hnone
  have hroot : ∀ p, use1 p = .root ↔ use p = .root := fun p =>
    ⟨hG.root p, fun hp => (hG.old p (by simp [hp])).trans hp⟩
  cases o with
  | none =>
    exact .inr (.inl ⟨s1, use1, bind_ok e1, (hnone rfl).2.1, h1, hroot, fun r' v' hr' hv' =>
      h.walk_fail h1 hG (hnone rfl).2.2 hr' hv'⟩)
  | some a =>
    obtain ⟨p, hlow, rfl⟩ := hsome a rfl
    have hentry := h1.entry_at (v := v) hlow
    have hres : res = (do
        if (pteAt s1.mem (p + 8 * (v % 512))).has PTE_V then stop .mappagesRemap
        else do
          writePte (p + 8 * (v % 512)) (PA2PTE pa ||| perm ||| PTE_V)
          f : Kern Int) s1 :=
      (bind_ok e1).trans (bind_ok rfl)
    by_cases hV : (pteAt s1.mem (p + 8 * (v % 512))).has PTE_V = true
    · rw [if_pos hV] at hres
      refine .inl ⟨hres, _, ?_, hV⟩
      rcases hG.created h h1 hr (show v < 2 ^ 27 by omega) rfl with e | ⟨-, -, e⟩
      · rw [← e, hentry]
      · rw [hentry] at e
        rw [some.inj e] at hV
        exact absurd rfl (Pte.ne_zero_of_has hV)
    · rw [if_neg hV] at hres
      obtain ⟨h2, he⟩ := h1.store hlow (Nat.mod_lt v (by decide)) (PA2PTE pa ||| perm ||| PTE_V)
      rw [Nat.div_add_mod] at he
      exact .inr (.inr ⟨_, use1, entry s1.mem, hres.trans (bind_ok rfl), h2, hroot,
        fun r' v' hr' hv' =>
        ⟨hG.created h h1 hr' hv' rfl, he r' v' ((hroot r').2 hr') hv'⟩⟩)

/-- **The loop of `mappages`**: one page, and then the pages after it. -/
theorem mappagesLoop (h : Forest use s) (hr : use r = .root) (pa : Nat) (perm : Pte) :
    MapEnd use s r v k pa perm (Xv6.mappagesLoop r perm k (4096 * v) pa s) := by
  -- on the pages left; the map after the first page is the map before the others
  induction k generalizing use s v pa with
  | zero =>
    rw [Xv6.mappagesLoop]
    rcases Nat.lt_or_ge v (2 ^ 26) with hv | hv
    · rcases h.mapPage hr hv pa perm (pure 0) with
        ⟨e, x, hx, hV⟩ | ⟨s', use', e, hf, h', hroot, hE⟩ | ⟨s', use', E, e, h', hroot, hE⟩
      · exact .inr (.inl ⟨e, v, x, ⟨le_rfl, le_rfl, hv⟩, hx, hV⟩)
      · exact .inr (.inr ⟨0, -1, s', use', e, .inr ⟨rfl, le_rfl, hv, hf⟩, h', hroot,
          fun r' v' hr' hv' =>
          .zero (hE r' v' hr' hv')⟩)
      · exact .inr (.inr ⟨1, 0, s', use', e, .inl ⟨rfl, rfl, hv⟩, h', hroot, fun r' v' hr' hv' =>
          .cons (hE r' v' hr' hv').1 (hE r' v' hr' hv').2 (.zero rfl)⟩)
    · exact .inl ⟨bind_error (walk_high (by rw [MAXVA_eq]; omega)), by omega⟩
  | succ k ih =>
    rw [Xv6.mappagesLoop]
    rcases Nat.lt_or_ge v (2 ^ 26) with hv | hv
    · have ha : (4096 * v + PGSIZE) % 2 ^ 64 = 4096 * (v + 1) := by rw [PGSIZE_eq]; omega
      rcases h.mapPage hr hv pa perm (Xv6.mappagesLoop r perm k ((4096 * v + PGSIZE) % 2 ^ 64)
        (pa + PGSIZE)) with
        ⟨e, x, hx, hV⟩ | ⟨s', use', e, hf, h', hroot, hE⟩ | ⟨s1, use1, E, e, h1, hroot, hE⟩
      · exact .inr (.inl ⟨e, v, x, ⟨le_rfl, by omega, hv⟩, hx, hV⟩)
      · exact .inr (.inr ⟨0, -1, s', use', e, .inr ⟨rfl, Nat.zero_le _, hv, hf⟩, h', hroot,
          fun r' v' hr' hv' =>
          .zero (hE r' v' hr' hv')⟩)
      · have hrest := ih (v := v + 1) h1 ((hroot r).2 hr) (pa + PGSIZE)
        rw [← ha, ← e] at hrest
        exact hrest.cons hr hroot hE
    · exact .inl ⟨bind_error (walk_high (by rw [MAXVA_eq]; omega)), by omega⟩

/-- **`mappages`** of a range of any size: the pages from the first byte's to the last one's. -/
theorem mappages {size : Nat} (h : Forest use s) (hr : use r = .root) (hv : v < 2 ^ 26)
    (h0 : 0 < size) (hsize : size < 2 ^ 64) (pa : Nat) (perm : Pte) :
    MapEnd use s r v ((size - 1) / 4096) pa perm (Xv6.mappages r (4096 * v) size pa perm s) := by
  have ha : PGROUNDDOWN (4096 * v) = 4096 * v := by rw [PGROUNDDOWN, PGSIZE_eq]; omega
  have hk : (PGROUNDDOWN ((4096 * v + size - 1) % 2 ^ 64) + 2 ^ 64 - 4096 * v) % 2 ^ 64 / PGSIZE =
      (size - 1) / 4096 := by
    rw [PGROUNDDOWN, PGSIZE_eq]
    omega
  rw [Xv6.mappages, if_neg h0.ne', ha, hk]
  exact h.mappagesLoop hr pa perm

end Forest

/-! ## `uvmunmap` -/

/-- A page that `uvmunmap` accepts. -/
def Unmappable (f : Bool) (E : Nat → Option Pte) (w : Nat) : Prop :=
  w < 2 ^ 26 ∧ ∃ x, E w = some x ∧ x.has PTE_V = true ∧ PTE_FLAGS x ≠ PTE_V ∧
    (f = true → IsPage (PTE2PA x))

/-- **The caller holds a reference for each mapping that goes away**: what is mapped in the range is
no table, nor free, and counted at least as often as it is mapped there. -/
def Droppable (use : Nat → Use) (s : KState) (r v k : Nat) : Prop :=
  ∀ w ∈ List.range' v k, IsPage (PTE2PA (leaf s.mem r w)) →
    use (PTE2PA (leaf s.mem r w)) = .free ∧ PTE2PA (leaf s.mem r w) ∉ s.freelist ∧
    (List.range' v k).countP (fun u => PTE2PA (leaf s.mem r u) = PTE2PA (leaf s.mem r w)) ≤
      s.referCount (refIdx (PTE2PA (leaf s.mem r w)))

omit [Layout] in
theorem leaf_of_entry {m : Nat → UInt8} (h : entry m r v = some x) : leaf m r v = x := by
  unfold entry at h
  unfold leaf
  cases hl : leafAddr m r v with
  | none => simp [hl] at h
  | some a => simpa [hl] using h

omit [Layout] in
theorem leaf_congr {m m' : Nat → UInt8} (h : entry m' r v = entry m r v) :
    leaf m' r v = leaf m r v := by
  cases he : entry m r v with
  | some x => rw [leaf_of_entry he, leaf_of_entry (h.trans he)]
  | none =>
    rw [he] at h
    rw [entry, map_eq_none_iff] at he h
    rw [leaf, leaf, he, h]

namespace Forest

/-- **One page of `uvmunmap`**, and `g` for the pages after it. -/
theorem unmapPage (h : Forest use s) (hr : use r = .root) (hv : v < 2 ^ 26) (g : Kern Unit)
    (hd : f = true → IsPage (PTE2PA (leaf s.mem r v)) → use (PTE2PA (leaf s.mem r v)) = .free ∧
      PTE2PA (leaf s.mem r v) ∉ s.freelist ∧ 0 < s.referCount (refIdx (PTE2PA (leaf s.mem r v)))) :
    let pa := PTE2PA (leaf s.mem r v)
    let res := (do
      match ← walk r (4096 * v) false with
      | none => stop .uvmunmapWalk
      | some pte => do
        let x ← readPte pte
        if ¬ x.has PTE_V then stop .uvmunmapMapped
        else if PTE_FLAGS x = PTE_V then stop .uvmunmapLeaf
        else do
          if f then Xv6.kfree (PTE2PA x) else pure ()
          writePte pte 0#64
          g : Kern Unit) s
    (¬ Unmappable f (entry s.mem r) v ∧ ∃ e, res = .error e) ∨
    Unmappable f (entry s.mem r) v ∧ ∃ s', res = g s' ∧ Forest use s' ∧
      (∀ r' v', use r' = .root → v' < 2 ^ 27 →
        entry s'.mem r' v' = if r' = r ∧ v' = v then some 0#64 else entry s.mem r' v') ∧
      (f = true → s'.freelist = (if s.referCount (refIdx pa) = 1 then [pa] else []) ++ s.freelist ∧
        s'.referCount = update s.referCount (refIdx pa) (s.referCount (refIdx pa) - 1)) := by
  intro pa res
  have hw := walk_false (s := s) (r := r) (show 4096 * v < MAXVA by rw [MAXVA_eq]; omega)
  rw [Nat.mul_div_cancel_left v (by decide : 0 < 4096)] at hw
  by_cases hex : ∃ p, use p = .low r (v / 512)
  · obtain ⟨p, hlow⟩ := hex
    have ha := h.tables.leafAddr_low h.paged hlow (Nat.mod_lt v (by decide))
    rw [Nat.div_add_mod] at ha
    have hx := h.entry_at hlow
    have hpa : PTE2PA (pteAt s.mem (p + 8 * (v % 512))) = pa := by rw [← leaf_of_entry hx]
    rw [ha] at hw
    have hres : res = (do
        if ¬ (pteAt s.mem (p + 8 * (v % 512))).has PTE_V then stop .uvmunmapMapped
        else if PTE_FLAGS (pteAt s.mem (p + 8 * (v % 512))) = PTE_V then stop .uvmunmapLeaf
        else do
          if f then Xv6.kfree (PTE2PA (pteAt s.mem (p + 8 * (v % 512)))) else pure ()
          writePte (p + 8 * (v % 512)) 0#64
          g : Kern Unit) s :=
      (bind_ok hw).trans (bind_ok rfl)
    rw [hpa] at hres
    have hun : Unmappable f (entry s.mem r) v ↔ (pteAt s.mem (p + 8 * (v % 512))).has PTE_V = true ∧
        PTE_FLAGS (pteAt s.mem (p + 8 * (v % 512))) ≠ PTE_V ∧ (f = true → IsPage pa) := by
      constructor
      · rintro ⟨-, x, e, h1⟩
        rw [hx] at e
        obtain rfl := some.inj e
        rwa [hpa] at h1
      · exact fun h1 => ⟨hv, _, hx, h1.1, h1.2.1, hpa ▸ h1.2.2⟩
    rw [hun]
    split at hres
    next hV => exact .inl ⟨fun h1 => hV h1.1, _, hres⟩
    next hV =>
    split at hres
    next hF => exact .inl ⟨fun h1 => h1.2.1 hF, _, hres⟩
    next hF =>
    rw [not_not] at hV
    cases f with
    | false =>
      obtain ⟨h1, hE⟩ := h.store hlow (Nat.mod_lt v (by decide)) 0#64
      rw [Nat.div_add_mod] at hE
      exact .inr ⟨⟨hV, hF, (by simp)⟩, _, hres, h1, hE, (by simp)⟩
    | true =>
      by_cases hp : IsPage pa
      · obtain ⟨hu, hfl, hc⟩ := hd rfl hp
        obtain ⟨s1, e1, h1, hm, hl, hrc⟩ := h.kfree hp hu hfl hc
        obtain ⟨h2, hE⟩ := h1.store hlow (Nat.mod_lt v (by decide)) 0#64
        rw [Nat.div_add_mod] at hE
        refine .inr ⟨⟨hV, hF, fun _ => hp⟩, _, hres.trans (bind_ok e1), h2, fun r' v' hr' hv' => ?_,
          fun _ => ⟨hl, hrc⟩⟩
        rw [hE r' v' hr' hv', h.entry_congr h1 hm hr' hv']
      · refine .inl ⟨fun h1 => hp (h1.2.2 rfl), .kfree, hres.trans (bind_error ?_)⟩
        rw [Xv6.kfree, if_pos (not_not.1 hp)]
        rfl
  · have hnone : ∀ p, use p ≠ .low r (v / 512) := fun p hp => hex ⟨p, hp⟩
    rw [h.tables.leafAddr_none h.paged hr (by omega) hnone] at hw
    refine .inl ⟨?_, _, bind_ok hw⟩
    rintro ⟨-, x, hx, -⟩
    rw [h.tables.entry_none h.paged hr (by omega) hnone] at hx
    cases hx

/-- **The references for the pages after the first one are still there** when its own is dropped. -/
theorem droppable_tail (hd : Droppable use s r v (k + 1)) (hp : IsPage (PTE2PA (leaf s.mem r v)))
    (hleaf : ∀ w ∈ List.range' (v + 1) k, leaf s'.mem r w = leaf s.mem r w)
    (hf : s'.freelist =
      (if s.referCount (refIdx (PTE2PA (leaf s.mem r v))) = 1 then [PTE2PA (leaf s.mem r v)] else
        []) ++
      s.freelist)
    (hc : s'.referCount = update s.referCount (refIdx (PTE2PA (leaf s.mem r v)))
      (s.referCount (refIdx (PTE2PA (leaf s.mem r v))) - 1)) :
    Droppable use s' r (v + 1) k := by
  intro w hw
  have hcount : (List.range' (v + 1) k).countP (fun u => PTE2PA (leaf s'.mem r u) =
      PTE2PA (leaf s.mem r w)) = (List.range' (v + 1) k).countP (fun u => PTE2PA (leaf s.mem r u) =
        PTE2PA (leaf s.mem r w)) :=
    countP_congr fun u hu => by rw [hleaf u hu]
  rw [hleaf w hw, hcount]
  intro hpw
  obtain ⟨hu, hnf, hle⟩ := hd w (mem_cons_of_mem v hw) hpw
  rw [List.range'_succ, countP_cons] at hle
  by_cases e : PTE2PA (leaf s.mem r v) = PTE2PA (leaf s.mem r w)
  · have hpos : 0 < (List.range' (v + 1) k).countP fun u => PTE2PA (leaf s.mem r u) =
        PTE2PA (leaf s.mem r w) :=
      countP_pos_iff.2 ⟨w, hw, by simp⟩
    rw [e] at hf hc
    simp only [e, decide_true, if_true] at hle
    rw [hf, hc, update_self, if_neg (by omega)]
    exact ⟨hu, hnf, by omega⟩
  · have hne : refIdx (PTE2PA (leaf s.mem r w)) ≠ refIdx (PTE2PA (leaf s.mem r v)) := fun h =>
      e (refIdx_inj hp hpw h.symm)
    rw [hf, hc, update_of_ne hne]
    refine ⟨hu, fun hm => ?_, by omega⟩
    rcases mem_append.1 hm with hm | hm
    · split at hm
      · exact e (mem_singleton.1 hm).symm
      · cases hm
    · exact hnf hm

/-- A range that reaches above `MAXVA` stops the loop. -/
theorem uvmunmapLoop_high (hv : v ≤ 2 ^ 26) (hk : 2 ^ 26 < v + k) :
    ∃ e, Xv6.uvmunmapLoop r f k (4096 * v) s = .error e := by
  induction k generalizing s v with
  | zero => omega
  | succ k ih =>
    rw [Xv6.uvmunmapLoop]
    rcases Nat.lt_or_ge v (2 ^ 26) with hlt | hge
    · rw [bind_ok (walk_false (by rw [MAXVA_eq]; omega))]
      cases leafAddr s.mem r (4096 * v / 4096) with
      | none => exact ⟨_, rfl⟩
      | some a =>
        simp only
        rw [readPte_bind]
        split_ifs
        · exact ⟨_, rfl⟩
        · cases hk : Xv6.kfree (PTE2PA (pteAt s.mem a)) s with
          | error e => exact ⟨e, bind_error hk⟩
          | ok o =>
            obtain ⟨e, he⟩ := ih (s := { o.2 with mem := setPte o.2.mem a 0#64 }) (v := v + 1)
              (by omega) (by omega)
            refine ⟨e, (bind_ok hk).trans ?_⟩
            rw [show 4096 * (v + 1) = 4096 * v + PGSIZE by rw [PGSIZE_eq]; omega] at he
            exact he
        · obtain ⟨e, he⟩ := ih (s := { s with mem := setPte s.mem a 0#64 }) (v := v + 1)
            (by omega) (by omega)
          rw [show 4096 * (v + 1) = 4096 * v + PGSIZE by rw [PGSIZE_eq]; omega] at he
          exact ⟨e, he⟩
        · exact ⟨_, rfl⟩
    · exact ⟨.walk, bind_error (walk_high (by rw [MAXVA_eq]; omega))⟩

/-- **The loop of `uvmunmap`** below `MAXVA`. -/
theorem uvmunmapLoop (h : Forest use s) (hr : use r = .root) (hvk : v + k ≤ 2 ^ 26)
    (hd : f = true → Droppable use s r v k) :
    let res := Xv6.uvmunmapLoop r f k (4096 * v) s
    (¬ (∀ w, v ≤ w → w < v + k → Unmappable f (entry s.mem r) w) ∧ ∃ e, res = .error e) ∨
    (∀ w, v ≤ w → w < v + k → Unmappable f (entry s.mem r) w) ∧ ∃ s',
    res = .ok ((), s') ∧ Forest use s' ∧
      ∀ r' v', use r' = .root → v' < 2 ^ 27 → Cleared r v k (entry s.mem) (entry s'.mem) r' v' := by
  intro res
  induction k generalizing s v with
  | zero =>
    refine .inr ⟨fun w _ _ => by omega, s, rfl, h, fun r' v' _ _ => ?_⟩
    rw [Cleared, if_neg (by omega)]
  | succ k ih =>
    have hfirst : v ∈ List.range' v (k + 1) := mem_cons_self
    have hv : v < 2 ^ 26 := by omega
    rcases h.unmapPage hr hv (Xv6.uvmunmapLoop r f k (4096 * v + PGSIZE)) fun hf hp => by
        obtain ⟨h1, h2, h3⟩ := hd hf v hfirst hp
        exact ⟨h1, h2, (countP_pos_iff.2 ⟨v, hfirst, by simp⟩).trans_le h3⟩ with
      ⟨hno, e, he⟩ | ⟨hun, s1, e1, h1, hE, hdrop⟩
    · exact .inl ⟨fun hall => hno (hall v le_rfl (by omega)), e, he⟩
    · -- the entries after the first one are as before
      have hsame : ∀ w, v + 1 ≤ w → w < v + 1 + k → entry s1.mem r w = entry s.mem r w :=
        fun w hw hw' => by
        rw [hE r w hr (by omega), if_neg (by omega)]
      have hall : (∀ w, v ≤ w → w < v + (k + 1) → Unmappable f (entry s.mem r) w) ↔
          ∀ w, v + 1 ≤ w → w < v + 1 + k → Unmappable f (entry s1.mem r) w := by
        constructor
        · intro hall w hw hw'
          rw [Unmappable, hsame w hw hw']
          exact hall w (by omega) (by omega)
        · intro hall w hw hw'
          rcases Nat.eq_or_lt_of_le hw with rfl | hw
          · exact hun
          · have := hall w hw (by omega)
            rwa [Unmappable, hsame w hw (by omega)] at this
      have hd1 : f = true → Droppable use s1 r (v + 1) k := fun hf => by
        obtain ⟨-, x, hx, -, -, hp⟩ := hun
        refine droppable_tail (hd hf) (leaf_of_entry hx ▸ hp hf) (fun w hw => leaf_congr ?_)
          (hdrop hf).1 (hdrop hf).2
        obtain ⟨h3, h4⟩ := mem_range'_1.1 hw
        exact hsame w h3 h4
      have hres : res = Xv6.uvmunmapLoop r f k (4096 * (v + 1)) s1 := by
        rw [show 4096 * (v + 1) = 4096 * v + PGSIZE by rw [PGSIZE_eq]; omega]
        exact e1
      rw [hres, hall]
      refine (ih h1 (by omega) hd1).imp_right fun ⟨hl, s2, e2, h2, hE2⟩ => ⟨hl, s2, e2, h2,
        fun r' v' hr' hv' => ?_⟩
      have h3 := hE2 r' v' hr' hv'
      rw [Cleared, hE r' v' hr' hv'] at h3
      rw [Cleared, h3]
      grind

/-- **`uvmunmap`** of a range that does not wrap around. -/
theorem uvmunmap (h : Forest use s) (hr : use r = .root) (hv : v < 2 ^ 26)
    (hn : 4096 * v + n * 4096 < 2 ^ 64) (hd : f = true → v + n ≤ 2 ^ 26 → Droppable use s r v n) :
    let res := Xv6.uvmunmap r (4096 * v) n f s
    (¬ (∀ w, v ≤ w → w < v + n → Unmappable f (entry s.mem r) w) ∧ ∃ e, res = .error e) ∨
    (∀ w, v ≤ w → w < v + n → Unmappable f (entry s.mem r) w) ∧ ∃ s',
    res = .ok ((), s') ∧ Forest use s' ∧
      ∀ r' v', use r' = .root → v' < 2 ^ 27 → Cleared r v n (entry s.mem) (entry s'.mem) r' v' := by
  intro res
  have hres : res = Xv6.uvmunmapLoop r f n (4096 * v) s := by
    have ha : ¬ 4096 * v % PGSIZE ≠ 0 := by rw [PGSIZE_eq]; omega
    have hk : ((4096 * v + n * PGSIZE) % 2 ^ 64 - 4096 * v) / PGSIZE = n := by rw [PGSIZE_eq]; omega
    change Xv6.uvmunmap r (4096 * v) n f s = _
    rw [Xv6.uvmunmap, if_neg ha, hk]
  rw [hres]
  rcases Nat.lt_or_ge (2 ^ 26) (v + n) with hk | hk
  · exact .inl ⟨fun hall => absurd (hall (2 ^ 26) (by omega) hk).1 (by omega),
      uvmunmapLoop_high (by omega) hk⟩
  · exact h.uvmunmapLoop hr hk fun hf => hd hf hk

/-! ## `uvmcreate` -/

/-- **`uvmcreate`** adds an empty tree, or runs out of memory. -/
theorem uvmcreate (h : Forest use s) :
    (s.freelist = [] ∧ Xv6.uvmcreate s = .ok (0, s)) ∨
    ∃ c s', Xv6.uvmcreate s = .ok (c, s') ∧ IsPage c ∧ use c = .free ∧
    s.freelist = c :: s'.freelist ∧
      Forest (update use c .root) s' ∧ (∀ v < 2 ^ 27, entry s'.mem c v = none) ∧
      ∀ r v, use r = .root → v < 2 ^ 27 → entry s'.mem r v = entry s.mem r v := by
  rcases h.zalloc (f := pure) (e := pure 0) with
    ⟨hf, e⟩ | ⟨c, s', e, hc, hu, h', hl, href, hz, hout⟩
  · exact .inl ⟨hf, e⟩
  · have hnf : c ∉ s'.freelist := (nodup_cons.1 (hl ▸ h.nodup)).1
    have h2 :=
      h'.setUse (w := .root) hc hnf href trivial (h'.tables.newRoot (by simp [hu, Use.IsTable]) hz)
    refine .inr ⟨c, s', e, hc, hu, hl, h2, fun v hv => ?_, fun r v hr hv => ?_⟩
    · refine h2.tables.entry_none h2.paged (update_self ..) hv fun p hp => ?_
      have hpc : p ≠ c := by
        rintro rfl
        simp at hp
      rw [update_of_ne hpc] at hp
      have := h.tables.low_root hp
      simp [hu] at this
    · exact h.entry_congr h' (fun p hp y h1 h2 => hout y (h.outside hc hu hp h1 h2)) hr hv

end Forest

/-! ## `freewalk` -/

/-- **Table pages that have been freed**: those of the list, once each. -/
structure Pruned (use use' : Nat → Use) (s s' : KState) (L : List Nat) : Prop where
  freelist : s'.freelist = L ++ s.freelist
  nodup : L.Nodup
  table : ∀ p ∈ L, use p ≠ .free
  free : ∀ p ∈ L, use' p = .free
  rest : ∀ p, p ∉ L → use' p = use p
  low : ∀ p r q, use' p = .low r q → ∀ k < 512, pteAt s'.mem (p + 8 * k) = pteAt s.mem (p + 8 * k)

namespace Pruned

variable {use'' : Nat → Use} {s'' : KState} {L L' : List Nat}

omit [Layout] in
theorem refl : Pruned use use s s [] :=
  ⟨rfl, nodup_nil, nofun, nofun, fun _ _ => rfl, fun _ _ _ _ _ _ => rfl⟩

omit [Layout] in
theorem old (h : Pruned use use' s s' L) (hp : use' p ≠ .free) : use p = use' p :=
  (h.rest p fun hL => hp (h.free p hL)).symm

omit [Layout] in
theorem trans (h : Pruned use use' s s' L) (h' : Pruned use' use'' s' s'' L') :
    Pruned use use'' s s'' (L' ++ L) where
  freelist := by rw [h'.freelist, h.freelist, append_assoc]
  nodup := nodup_append.2 ⟨h'.nodup, h.nodup, fun p hp q hq e => h'.table p hp (h.free p (e ▸ hq))⟩
  table p hp := by
    rcases mem_append.1 hp with hp | hp
    · rw [h.old (h'.table p hp)]
      exact h'.table p hp
    · exact h.table p hp
  free p hp := by
    by_cases hp' : p ∈ L'
    · exact h'.free p hp'
    · rw [h'.rest p hp', h.free p ((mem_append.1 hp).resolve_left hp')]
  rest p hp := by
    rw [mem_append, not_or] at hp
    rw [h'.rest p hp.1, h.rest p hp.2]
  low p r q hp k hk := by
    rw [h'.low p r q hp k hk, h.low p r q ((h'.old (by simp [hp])).trans hp) k hk]

end Pruned

namespace Forest

variable {t j c i : Nat} {L : List Nat}

/-- A table page goes out of use. -/
theorem clearUse (h : Forest use s) {m : Nat → UInt8} (ht : Tables (update use c .free) m) :
    Forest (update use c .free) { s with mem := m } := by
  have hne : ∀ p, update use c .free p ≠ .free → use p ≠ .free ∧ update use c .free p = use p := by
    intro p hp
    have e : p ≠ c := by
      rintro rfl
      exact hp (update_self ..)
    rw [update_of_ne e] at hp ⊢
    exact ⟨hp, rfl⟩
  refine ⟨ht, fun p hp => ?_, fun p hp => h.page p (hne p hp).1, fun p hp => ⟨(h.free p hp).1, ?_⟩,
    h.nodup, fun p hp => h.ref p (hne p hp).1, h.byte⟩
  · rw [(hne p hp).2]
    exact h.table p (hne p hp).1
  · by_contra hu
    exact (hne p hu).1 (h.free p hp).2

/-- **`kfree` of a page that was a table.** -/
theorem kfree_table (h : Forest use s) (hc : use c ≠ .free) {m : Nat → UInt8}
    (ht : Tables (update use c .free) m)
    (hlow : ∀ p r q, use p = .low r q → p ≠ c → ∀ k < 512, pteAt m (p + 8 * k) =
      pteAt s.mem (p + 8 * k)) :
    ∃ s', Xv6.kfree c { s with mem := m } = .ok ((), s') ∧ Forest (update use c .free) s' ∧
      Pruned use (update use c .free) s s' [c] := by
  have hnf : c ∉ s.freelist := fun hf => hc (h.free c hf).2
  have href := h.ref c hc
  have h1 := h.clearUse ht
  obtain ⟨s', e, h', hm, hl, -⟩ := h1.kfree (h.page c hc) (update_self ..) hnf (by
    change 0 < s.referCount (refIdx c)
    omega)
  refine ⟨s', e, h', ⟨?_, nodup_singleton c, ?_, ?_, ?_, ?_⟩⟩
  · rw [hl]
    change (if s.referCount (refIdx c) = 1 then [c] else []) ++ s.freelist = _
    rw [if_pos href]
  · intro p hp
    rwa [mem_singleton.1 hp]
  · intro p hp
    rw [mem_singleton.1 hp, update_self]
  · intro p hp
    rw [update_of_ne fun e => hp (mem_singleton.2 e)]
  · intro p r q hp k hk
    have hpc : p ≠ c := by
      rintro rfl
      simp at hp
    rw [pteAt_congr fun y h2 h3 => hm p (by simp [hp]) y (by omega) (by omega)]
    rw [update_of_ne hpc] at hp
    exact hlow p r q hp hpc k hk

/-- **A table page with nothing below it is freed**, and the entry that pointed to it cleared. -/
theorem freeChild (h : Forest use s) (hP : Parent use t j (use c))
    (hB : ∀ r i, use c = .mid r i → ∀ p q, use p = .low r q → q / 512 ≠ i) :
    ∃ s', (Xv6.kfree c >>= fun _ => writePte (t + 8 * j) 0#64) s = .ok ((), s') ∧
      Forest (update use c .free) s' ∧ Pruned use (update use c .free) s s' [c] := by
  have hcf : use c ≠ .free := hP.kernel.1.1
  have hpc := h.page c hcf
  have hpt := h.page t hP.table.ne_free
  have hb1 := hpc.bounds
  have hb2 := hpt.bounds
  have hj := hP.1
  have htc := hP.ne
  rw [kfree_writePte hpc (by omega)]
  refine h.kfree_table hcf (h.tables.unlink h.paged hP hB id) fun p r q hp _ k hk => ?_
  refine pteAt_entry_ne hb2.1 (h.page p (by simp [hp])).bounds.1 hj hk fun e => ?_
  exact hP.not_low r q ((Prod.mk.inj e).1 ▸ hp)

/-- A tree whose level-0 pages have no valid entry. -/
def Leafless (use : Nat → Use) (m : Nat → UInt8) (r : Nat) : Prop :=
  ∀ p q, use p = .low r q → ∀ k < 512, (pteAt m (p + 8 * k)).has PTE_V = false

/-- **Table pages below `r` have been freed**, and nothing else has happened. -/
def Trimmed (r : Nat) (use : Nat → Use) (s : KState) (use' : Nat → Use) (s' : KState) : Prop :=
  ∃ L, Pruned use use' s s' L ∧ ∀ p ∈ L, (∃ j, use p = .mid r j) ∨ ∃ q, use p = .low r q

omit [Layout] in
theorem Trimmed.refl : Trimmed r use s use s := ⟨[], .refl, nofun⟩

omit [Layout] in
theorem Trimmed.trans {use'' : Nat → Use} {s'' : KState} (h : Trimmed r use s use' s')
    (h' : Trimmed r use' s' use'' s'') : Trimmed r use s use'' s'' := by
  obtain ⟨L, hp, hL⟩ := h
  obtain ⟨L', hp', hL'⟩ := h'
  refine ⟨L' ++ L, hp.trans hp', fun p hm => ?_⟩
  rcases mem_append.1 hm with hm | hm
  · rw [hp.old (hp'.table p hm)]
    exact hL' p hm
  · exact hL p hm

omit [Layout] in
theorem Trimmed.single (h : Pruned use use' s s' [c])
    (hc : (∃ j, use c = .mid r j) ∨ ∃ q, use c = .low r q) : Trimmed r use s use' s' :=
  ⟨[c], h, fun p hp => by rwa [mem_singleton.1 hp]⟩

omit [Layout] in
theorem Trimmed.old {u : Use} (h : Trimmed r use s use' s') (hp : use' p = u) (hu : u ≠ .free) :
    use p = u := by
  obtain ⟨L, h, -⟩ := h
  rw [h.old (by rwa [hp]), hp]

omit [Layout] in
theorem Trimmed.leafless (h : Trimmed r use s use' s') (hU : Leafless use s.mem r) :
    Leafless use' s'.mem r := by
  intro p q hp k hk
  have hp' := h.old hp nofun
  obtain ⟨L, h, -⟩ := h
  rw [h.low p r q hp k hk]
  exact hU p q hp' k hk

/-- **`freewalk` takes the tables out**, one by one. -/
theorem felling : Felling (fun use s => Forest use s ∧ Leafless use s.mem r) (Trimmed r)
    (fun use => use) r where
  tables h := ⟨h.1.tables, h.1.paged⟩
  refl _ _ := .refl
  trans _ := .trans
  old := Trimmed.old
  leafless h hc := h.2 _ _ hc
  free := by
    rintro use s t j c ⟨h, hU⟩ hP hc
    obtain ⟨s1, e1, h1, hp1⟩ := h.freeChild hP fun r' i' e' => by
      rcases hc with ⟨q, hc⟩ | ⟨i, hc, hno⟩
      · cases hc.symm.trans e'
      · obtain ⟨rfl, rfl⟩ := Use.mid.inj (hc.symm.trans e')
        exact hno
    have hT : Trimmed r use s _ s1 := .single hp1 (hc.symm.imp_left fun ⟨i, hc, _⟩ => ⟨i, hc⟩)
    exact ⟨_, s1, e1, ⟨h1, hT.leafless hU⟩, hT, rfl⟩

/-- **`freewalk` of a tree without leaves** frees each of its table pages, once, and no other
page. -/
theorem freewalk (h : Forest use s) (hU : Leafless use s.mem r) (hr : use r = .root) :
    ∃ s' use' L, Xv6.freewalk r s = .ok ((), s') ∧ Forest use' s' ∧ Pruned use use' s s' L ∧
      ∀ p, p ∈ L ↔ p = r ∨ (∃ j, use p = .mid r j) ∨ ∃ q, use p = .low r q := by
  obtain ⟨use1, s1, e1, ⟨⟨h1, -⟩, hr1⟩, ⟨L1, hp1, hL1⟩, hnone⟩ := felling.root ⟨h, hU⟩ hr
  obtain ⟨s2, e2, h2, hp2⟩ := h1.kfree_table (c := r) (by simp [hr1])
    (h1.tables.freeRoot hr1 hnone id) fun _ _ _ _ _ _ _ => rfl
  refine ⟨s2, _, [r] ++ L1, e1.trans e2, h2, hp1.trans hp2, fun p => ⟨fun hp => ?_, fun hp => ?_⟩⟩
  · exact (mem_cons.1 hp).imp_right fun hp => hL1 p hp
  · rcases hp with rfl | hp
    · exact mem_cons_self
    · -- a table of the tree that is left would have a level-1 page above it
      refine mem_cons_of_mem r ?_
      by_contra hL
      rw [← hp1.rest p hL] at hp
      rcases hp with ⟨j, hj⟩ | ⟨q, hq⟩
      · exact hnone p j hj
      · obtain ⟨t, ht, -⟩ := h1.tables.low_parent p r q hq
        exact hnone t _ ht

end Forest

end Xv6
