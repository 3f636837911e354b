import Mathlib.Data.Finset.Insert
import Mathlib.Order.Interval.Finset.Nat
import Xv6.Lib.LTS
import Xv6.Vm.PageMap

/-!
# Vm/Trees — a three-level page table is a map from page numbers to entries

Trees are built by `uvmcreate`, `walk`, `mappages` and `uvmunmap`, in any order, and taken down by
`freewalk`, while the rest of the kernel does what it likes with the pages that are not theirs
(`treeSystem`).  `mapSystem` says what that is for: a tree is a map from page numbers to entries,
partial because entries come into being 512 at a time.  Two inputs:

* the pages of the trees are pairwise different (`Sound.place_inj`), so that a store to one entry is
  a store to no other;
* each operation changes the map as `mapSystem` says (`refines_step`).
-/

namespace Xv6

open Act Bytes Function Option Finset

/-! ## Where the table pages are -/

/-- A place in a tree: the root, a level-1 page, or a level-0 page. -/
inductive Place
  | root
  | mid (i : Fin 512)
  | low (i j : Fin 512)
deriving DecidableEq

/-- The page that entry `j` of the table `t` points to. -/
def child (m : Nat → UInt8) (t j : Nat) : Option Nat :=
  if (pteAt m (t + 8 * j)).has PTE_V then some (PTE2PA (pteAt m (t + 8 * j))) else none

/-- The table page at a place of the tree at `r`. -/
def pageAt (m : Nat → UInt8) (r : Nat) : Place → Option Nat
  | .root => some r
  | .mid i => child m r i
  | .low i j => (child m r i).bind fun t => child m t j

/-- The use of the page at a place. -/
def Place.use (r : Nat) : Place → Use
  | .root => .root
  | .mid i => .mid r i
  | .low i j => .low r (512 * i + j)

/-! ## The trees -/

/-- The kernel's memory, and the roots of the trees in it. -/
structure Trees where
  kern : KState
  roots : Finset Nat

variable [Layout]

namespace Trees

/-- A page of one of the trees. -/
def IsTable (x : Trees) (p : Nat) : Prop := ∃ r ∈ x.roots, ∃ P, pageAt x.kern.mem r P = some p

/-- What is mapped in a range of pages may be freed: `kfree` takes no table page, and the references
that it drops are there. -/
def Held (x : Trees) (r v n : Nat) : Prop :=
  ∀ w ∈ List.range' v n, IsPage (PTE2PA (leaf x.kern.mem r w)) →
    ¬ x.IsTable (PTE2PA (leaf x.kern.mem r w)) ∧ PTE2PA (leaf x.kern.mem r w) ∉ x.kern.freelist ∧
    (List.range' v n).countP (fun u => PTE2PA (leaf x.kern.mem r u) =
      PTE2PA (leaf x.kern.mem r w)) ≤ x.kern.referCount (refIdx (PTE2PA (leaf x.kern.mem r w)))

/-- No level-0 page of the tree has a valid entry. -/
def Leafless (x : Trees) (r : Nat) : Prop :=
  ∀ i j p, pageAt x.kern.mem r (.low i j) = some p → ∀ k < 512,
    (pteAt x.kern.mem (p + 8 * k)).has PTE_V = false

/-- What the rest of the kernel may do: anything that leaves the table pages alone. -/
structure Other (x y : Trees) : Prop where
  roots : y.roots = x.roots
  mem : ∀ p, x.IsTable p → ∀ o < 4096, y.kern.mem (p + o) = x.kern.mem (p + o)
  ref : ∀ p, x.IsTable p → y.kern.referCount (refIdx p) = x.kern.referCount (refIdx p)
  free : ∀ p ∈ y.kern.freelist, IsPage p ∧ ¬ x.IsTable p
  nodup : y.kern.freelist.Nodup
  byte : ∀ i, y.kern.referCount i < 256

end Trees

/-- A call, and what is seen of its result: of `walk` the entry that it points to. -/
inductive Event
  | uvmcreate (pagetable : Nat)
  | walk (pagetable va : Nat) (alloc : Bool) (pte : Option Pte)
  | mappages (pagetable va size pa : Nat) (perm : Pte) (ret : Int)
  | uvmunmap (pagetable va npages : Nat) (doFree : Bool)
  | freewalk (pagetable : Nat)
  | other

/-- **The system of trees.**  Virtual addresses are page-aligned and below `MAXVA`, and a range that
is unmapped does not wrap around. -/
def treeSystem : LTS Trees Event where
  init x := x.roots = ∅ ∧ (∀ p ∈ x.kern.freelist, IsPage p) ∧ x.kern.freelist.Nodup ∧ ∀ i,
    x.kern.referCount i < 256
  step x
    | .uvmcreate c, y =>
      uvmcreate x.kern = .ok (c, y.kern) ∧ y.roots = if c = 0 then x.roots else insert c x.roots
    | .walk r va alloc pte, y => r ∈ x.roots ∧ va % 4096 = 0 ∧ va < MAXVA ∧
        (∃ o, walk r va alloc x.kern = .ok (o, y.kern) ∧ pte = o.map (pteAt y.kern.mem)) ∧
        y.roots = x.roots
    | .mappages r va size pa perm ret, y =>
      r ∈ x.roots ∧ va % 4096 = 0 ∧ va < MAXVA ∧ size < 2 ^ 64 ∧
        mappages r va size pa perm x.kern = .ok (ret, y.kern) ∧ y.roots = x.roots
    | .uvmunmap r va n f, y => r ∈ x.roots ∧ va % 4096 = 0 ∧ va < MAXVA ∧ va + n * 4096 < 2 ^ 64 ∧
        (f = true → x.Held r (va / 4096) n) ∧ uvmunmap r va n f x.kern = .ok ((), y.kern) ∧
        y.roots = x.roots
    | .freewalk r, y =>
      r ∈ x.roots ∧ x.Leafless r ∧ freewalk r x.kern = .ok ((), y.kern) ∧ y.roots = x.roots.erase r
    | .other, y => x.Other y

/-! ## The maps -/

/-- For each root a partial map from page numbers to entries. -/
structure PageMaps where
  roots : Finset Nat
  entry : Nat → Nat → Option Pte

section

omit [Layout]

/-- Entries for the regions of 512 pages that the pages `v`, …, `v + n - 1` are in, empty where
there were none. -/
def create (E : Nat → Nat → Option Pte) (r v n : Nat) (r' v' : Nat) : Option Pte :=
  if (r' = r ∧ ∃ w ∈ Finset.Ico v (v + n), w / 512 = v' / 512) ∧
    E r' v' = none then some 0#64 else E r' v'

/-- …and these pages mapped to consecutive physical pages from `pa` on. -/
def mapRange (E : Nat → Nat → Option Pte) (r v n pa : Nat) (perm : Pte) (r' v' : Nat) :
    Option Pte :=
  if r' = r ∧ v ≤ v' ∧ v' < v + n then some (PA2PTE (pa + 4096 * (v' - v)) ||| perm ||| PTE_V)
  else create E r v n r' v'

/-- …or unmapped. -/
def clearRange (E : Nat → Nat → Option Pte) (r v n : Nat) (r' v' : Nat) : Option Pte :=
  if r' = r ∧ v ≤ v' ∧ v' < v + n then some 0#64 else E r' v'

end

/-- A page that is mapped. -/
def PageMaps.Valid (M : PageMaps) (r v : Nat) : Prop :=
  ∃ x, M.entry r v = some x ∧ x.has PTE_V = true

/-- **The system of maps.** -/
def mapSystem : LTS PageMaps Event where
  init M := M.roots = ∅
  step M
    | .uvmcreate c, N => (c = 0 ∧ N = M) ∨
        (c ≠ 0 ∧ c ∉ M.roots ∧ N = ⟨insert c M.roots, update M.entry c fun _ => none⟩)
    | .walk r va false pte, N => r ∈ M.roots ∧ pte = M.entry r (va / 4096) ∧ N = M
    | .walk r va true pte, N => r ∈ M.roots ∧ pte = N.entry r (va / 4096) ∧
        ((pte = none ∧ N = M) ∨
          (pte ≠ none ∧ N = { M with entry := create M.entry r (va / 4096) 1 }))
    | .mappages r va size pa perm ret, N => r ∈ M.roots ∧
        ((ret = 0 ∧ va + size ≤ MAXVA ∧
            N = { M with entry := mapRange M.entry r (va / 4096) ((size + 4095) / 4096) pa perm }) ∨
          (ret = -1 ∧ ∃ n < (size + 4095) / 4096,
            N = { M with entry := mapRange M.entry r (va / 4096) n pa perm }))
    | .uvmunmap r va n f, N => r ∈ M.roots ∧
        (∀ w, va / 4096 ≤ w → w < va / 4096 + n → Unmappable f (M.entry r) w) ∧
        N = { M with entry := clearRange M.entry r (va / 4096) n }
    | .freewalk r, N =>
      r ∈ M.roots ∧ (∀ v < 2 ^ 27, ¬ M.Valid r v) ∧ N = { M with roots := M.roots.erase r }
    | .other, N => N = M

/-- **The trees hold the maps.** -/
structure Refines (x : Trees) (M : PageMaps) : Prop where
  roots : x.roots = M.roots
  entry : ∀ r ∈ x.roots, ∀ v < 2 ^ 27, entry x.kern.mem r v = M.entry r v

/-! ## The invariant -/

/-- The table pages form trees with the given roots. -/
def Sound (x : Trees) : Prop := ∃ use, Forest use x.kern ∧ ∀ r, r ∈ x.roots ↔ use r = .root

variable {use use' : Nat → Use} {s s' : KState} {x y : Trees} {M : PageMaps} {r p v n : Nat}

namespace Forest

omit [Layout] in
theorem child_iff {t : Nat} {w : Use} {i : Fin 512}
    (h : (pteAt s.mem (t + 8 * i)).has PTE_V = false ∧ (∀ p, use p ≠ w) ∨
      ∃ c, use c = w ∧ pteAt s.mem (t + 8 * i) = tableEntry c ∧ PTE2PA (tableEntry c) = c)
    (hu : ∀ {p q}, use p = w → use q = w → p = q) : child s.mem t i = some p ↔ use p = w := by
  unfold child
  rcases h with ⟨hinv, hno⟩ | ⟨c, hc, e, e'⟩
  · simp [hinv, hno p]
  · rw [e, if_pos (tableEntry_V c), e']
    exact ⟨fun h => some.inj h ▸ hc, fun hp => congrArg some (hu hc hp)⟩

theorem child_root (h : Forest use s) (hr : use r = .root) (i : Fin 512) :
    child s.mem r i = some p ↔ use p = .mid r i :=
  child_iff (h.tables.root_read h.paged hr i.2) (h.tables.mid_unique h.paged)

theorem child_mid {t i : Nat} (h : Forest use s) (ht : use t = .mid r i) (j : Fin 512) :
    child s.mem t j = some p ↔ use p = .low r (512 * i + j) :=
  child_iff (h.tables.mid_read h.paged ht j.2) (h.tables.low_unique h.paged)

/-- **The page at a place is the one with that use.** -/
theorem pageAt_iff (h : Forest use s) (hr : use r = .root) (P : Place) :
    pageAt s.mem r P = some p ↔ use p = P.use r ∧ (P = .root → p = r) := by
  cases P with
  | root =>
    constructor
    · intro e
      obtain rfl := some.inj e
      exact ⟨hr, fun _ => rfl⟩
    · exact fun e => congrArg some (e.2 rfl).symm
  | mid i => simp [pageAt, Place.use, h.child_root hr]
  | low i j =>
    simp only [pageAt, bind_eq_some_iff, h.child_root hr, Place.use, reduceCtorEq,
      false_imp_iff, and_true]
    constructor
    · rintro ⟨t, ht, hp⟩
      exact (h.child_mid ht j).1 hp
    · intro hp
      obtain ⟨t, ht, -⟩ := h.tables.low_parent p r _ hp
      rw [show (512 * (i : Nat) + j) / 512 = i by omega] at ht
      exact ⟨t, ht, (h.child_mid ht j).2 hp⟩

/-- Level-0 pages have places. -/
theorem place_low {q : Nat} (h : Forest use s) (hp : use p = .low r q) :
    ∃ i j : Fin 512, use p = (Place.low i j).use r ∧ q = 512 * i + j := by
  have hq := h.tables.low_lt hp
  refine ⟨⟨q / 512, by omega⟩, ⟨q % 512, by omega⟩, ?_, by simp only; omega⟩
  rw [hp, Place.use]
  congr 1
  simp only
  omega

/-- **The pages that are tables are those of the trees.** -/
theorem isTable_iff (h : Forest use x.kern) (hr : ∀ r, r ∈ x.roots ↔ use r = .root) :
    x.IsTable p ↔ use p ≠ .free := by
  constructor
  · rintro ⟨r, hx, P, hP⟩
    rw [((h.pageAt_iff ((hr r).1 hx) P).1 hP).1]
    cases P <;> simp [Place.use]
  · intro hp
    have ht := h.table p hp
    cases hu : use p with
    | root => exact ⟨p, (hr p).2 hu, .root, rfl⟩
    | mid r i =>
      obtain ⟨hi, hroot, -⟩ := h.tables.mid_parent p r i hu
      exact ⟨r, (hr r).2 hroot, .mid ⟨i, hi⟩, (h.pageAt_iff hroot _).2 ⟨hu, nofun⟩⟩
    | low r q =>
      have hroot := h.tables.low_root hu
      obtain ⟨i, j, hu', -⟩ := h.place_low hu
      exact ⟨r, (hr r).2 hroot, .low i j, (h.pageAt_iff hroot _).2 ⟨hu', nofun⟩⟩
    | _ => simp [hu, Use.IsTable] at ht

theorem droppable (h : Forest use x.kern) (hr : ∀ r, r ∈ x.roots ↔ use r = .root)
    (hh : x.Held r v n) : Droppable use x.kern r v n := fun w hw hp => by
  obtain ⟨h1, h2, h3⟩ := hh w hw hp
  exact ⟨not_not.1 (mt (h.isTable_iff hr).2 h1), h2, h3⟩

theorem leafless (h : Forest use x.kern) (hr : use r = .root) (hl : x.Leafless r) :
    Leafless use x.kern.mem r :=
  fun p q hp => by
    obtain ⟨i, j, hp', -⟩ := h.place_low hp
    exact hl i j p ((h.pageAt_iff hr _).2 ⟨hp', nofun⟩)

/-- Entries come into being by regions. -/
theorem entry_region {w : Nat} (h : Forest use s) (hr : use r = .root) (hv : v < 2 ^ 27)
    (hw : w < 2 ^ 27) (e : w / 512 = v / 512) :
    entry s.mem r w = none ↔ entry s.mem r v = none := by
  rw [h.tables.entry_eq_none h.paged hr hv, h.tables.entry_eq_none h.paged hr hw, e]

variable {r' v' pa : Nat} {perm : Pte} {E : Nat → Nat → Option Pte} {W : Nat → Prop}

theorem create_eq (h : Forest use s) (hr' : use r' = .root) (hv' : v' < 2 ^ 27)
    (hn : v + n ≤ 2 ^ 27) (hW : ∀ w, W w ↔ v ≤ w ∧ w < v + n)
    (hc : Created r W E (entry s.mem) r' v')
    (hsome : ∀ w, v ≤ w → w < v + n → entry s.mem r w ≠ none) :
    entry s.mem r' v' = create E r v n r' v' := by
  rw [create]
  split_ifs with hcr
  · obtain ⟨⟨rfl, w, hw, e⟩, hnone⟩ := hcr
    obtain ⟨h1, h2⟩ := mem_Ico.1 hw
    rcases hc with hc | ⟨-, -, hc⟩
    · exact absurd ((h.entry_region hr' hv' (by omega) e).2 (hc.trans hnone)) (hsome w h1 h2)
    · exact hc
  · rcases hc with hc | ⟨⟨rfl, w, hw, e⟩, hnone, -⟩
    · exact hc
    · exact absurd ⟨⟨rfl, w, mem_Ico.2 ((hW w).1 hw), e⟩, hnone⟩ hcr

theorem mapRange_eq (h : Forest use s) (hr : use r = .root) (hr' : use r' = .root)
    (hv' : v' < 2 ^ 27) (hn : v + n ≤ 2 ^ 27)
    (hm : ∀ r' v', use r' = .root → v' < 2 ^ 27 → Mapped r v n pa perm E (entry s.mem) r' v') :
    entry s.mem r' v' = mapRange E r v n pa perm r' v' := by
  have hm' := hm r' v' hr' hv'
  rw [Mapped] at hm'
  rw [mapRange]
  split_ifs at hm' ⊢ with hin
  · exact hm'
  · refine h.create_eq hr' hv' hn (fun _ => Iff.rfl) hm' fun w h1 h2 => ?_
    have := hm r w hr (by omega)
    rw [Mapped, if_pos ⟨rfl, h1, h2⟩] at this
    simp [this]

end Forest

/-! ## Each operation does to the maps what it is for -/

omit [Layout] in
theorem Refines.mem (hR : Refines x M) (hr : r ∈ x.roots) : r ∈ M.roots := hR.roots ▸ hr

omit [Layout] in
theorem create_congr {E E' : Nat → Nat → Option Pte} {r' v' : Nat} (h : E r' v' = E' r' v') :
    create E r v n r' v' = create E' r v n r' v' := by
  rw [create, create, h]

/-- A step of the trees is a step of the maps. -/
def Matched (M : PageMaps) (e : Event) (y : Trees) : Prop :=
  Sound y ∧ ∃ N, mapSystem.step M e N ∧ Refines y N

section

variable {va size pa : Nat} {perm : Pte} {ret : Int} {f alloc : Bool} {pte : Option Pte}
  (hS : Sound x) (hR : Refines x M)

include hS hR

theorem matched_uvmcreate {c : Nat} (hs : treeSystem.step x (.uvmcreate c) y) :
    Matched M (.uvmcreate c) y := by
  obtain ⟨use, h, hroot⟩ := hS
  obtain ⟨hs, hroots⟩ := hs
  rcases h.uvmcreate with ⟨-, e⟩ | ⟨c', s', e, hc, hu, -, h', hnew, hold⟩
  · obtain ⟨rfl, e⟩ := ok_inj (e.symm.trans hs)
    rw [if_pos rfl] at hroots
    refine ⟨⟨use, e ▸ h, hroots ▸ hroot⟩, M, .inl ⟨rfl, rfl⟩, hroots ▸ hR.roots, ?_⟩
    rw [hroots, ← e]
    exact hR.entry
  · obtain ⟨rfl, rfl⟩ := ok_inj (e.symm.trans hs)
    have hc0 : c' ≠ 0 := by
      have := hc.bounds
      omega
    have hnot : c' ∉ x.roots := fun hx => by
      rw [hroot, hu] at hx
      cases hx
    rw [if_neg hc0] at hroots
    refine ⟨⟨_, h', fun p => ?_⟩, _, .inr ⟨hc0, hR.roots ▸ hnot, rfl⟩, by rw [hroots, hR.roots],
      fun r hr v hv => ?_⟩
    · rw [hroots, mem_insert, hroot]
      by_cases e : p = c'
      · simp [e]
      · simp [e]
    · simp only
      by_cases e : r = c'
      · rw [e, update_self, hnew v hv]
      · rw [hroots, mem_insert] at hr
        have hr := hr.resolve_left e
        rw [update_of_ne e, hold r v ((hroot r).1 hr) hv, hR.entry r hr v hv]

theorem matched_walk (hs : treeSystem.step x (.walk r va alloc pte) y) :
    Matched M (.walk r va alloc pte) y := by
  obtain ⟨use, h, hroot⟩ := hS
  obtain ⟨hr, -, hva, ⟨o, hw, rfl⟩, hroots⟩ := hs
  have hur := (hroot r).1 hr
  have hv : va / 4096 < 2 ^ 26 := by
    rw [MAXVA_eq] at hva
    omega
  cases alloc with
  | false =>
    obtain ⟨rfl, e⟩ := Prod.mk.inj (Except.ok.inj ((walk_false hva).symm.trans hw))
    have hE := hR.entry r hr _ (show va / 4096 < 2 ^ 27 by omega)
    refine ⟨⟨use, e ▸ h, hroots ▸ hroot⟩, M, ⟨hR.mem hr, ?_, rfl⟩, hroots ▸ hR.roots, ?_⟩
    · rw [← hE, ← e, entry]
    · rw [hroots, ← e]
      exact hR.entry
  | true =>
    obtain ⟨o', s', use', e, h', hG, hsome, hnone, -⟩ := Forest.linking.walk h hur hva
    obtain ⟨rfl, rfl⟩ := ok_inj (e.symm.trans hw)
    have hroot' : ∀ p, p ∈ y.roots ↔ use' p = .root := fun p => by
      rw [hroots, hroot]
      exact ⟨fun hp => (hG.old p (by simp [hp])).trans hp, hG.root p⟩
    have hur' := (hroot' r).1 (hroots ▸ hr)
    cases o' with
    | none =>
      have hsame : ∀ r ∈ y.roots, ∀ v < 2 ^ 27, entry y.kern.mem r v = M.entry r v :=
        fun r' hr' v' hv' => by
        rw [hroots] at hr'
        rw [h.walk_fail h' hG (hnone rfl).2.2 ((hroot r').1 hr') hv', hR.entry r' hr' v' hv']
      refine ⟨⟨use', h', hroot'⟩, M, ⟨hR.mem hr, ?_, .inl ⟨rfl, rfl⟩⟩, hroots ▸ hR.roots, hsame⟩
      rw [← hsame r (hroots ▸ hr) _ (by omega), h'.tables.entry_none h'.paged hur' (by omega)
        (hnone rfl).2.2]
      rfl
    | some a =>
      obtain ⟨p, hlow, rfl⟩ := hsome a rfl
      have he := h'.entry_at hlow
      have hE : ∀ r' ∈ y.roots, ∀ v' < 2 ^ 27, entry y.kern.mem r' v' =
          create M.entry r (va / 4096) 1 r' v' := by
        intro r' hr' v' hv'
        rw [hroots] at hr'
        rw [← create_congr (hR.entry r' hr' v' hv')]
        refine h'.create_eq ((hroot' r').1 (hroots ▸ hr')) hv' (by omega) (fun w => ?_)
          (hG.created h h' ((hroot r').1 hr') hv' rfl) fun w h1 h2 => ?_
        · omega
        · obtain rfl : w = va / 4096 := by omega
          simp [he]
      refine ⟨⟨use', h', hroot'⟩, _, ⟨hR.mem hr, ?_, .inr ⟨by simp, rfl⟩⟩, hroots ▸ hR.roots, hE⟩
      simp only
      rw [← hE r (hroots ▸ hr) _ (by omega), he]
      rfl

theorem matched_mappages (hs : treeSystem.step x (.mappages r va size pa perm ret) y) :
    Matched M (.mappages r va size pa perm ret) y := by
  obtain ⟨use, h, hroot⟩ := hS
  obtain ⟨hr, hal, hva, hsize, hm, hroots⟩ := hs
  have hur := (hroot r).1 hr
  rw [MAXVA_eq] at hva
  have h0 : 0 < size := by
    rcases Nat.eq_zero_or_pos size with rfl | h0
    · rw [mappages, if_pos rfl] at hm
      cases hm
    · exact h0
  have hend := h.mappages (v := va / 4096) hur (by omega) h0 hsize pa perm
  rw [show 4096 * (va / 4096) = va by omega, hm] at hend
  rcases hend with ⟨e, -⟩ | ⟨e, -⟩ | ⟨n, ret', s', use', e, hret, h', hroot', hmap⟩
  · cases e
  · cases e
  obtain ⟨rfl, rfl⟩ := ok_inj e
  have hrooty : ∀ p, p ∈ y.roots ↔ use' p = .root := fun p => by rw [hroots, hroot, hroot']
  have hn : va / 4096 + n ≤ 2 ^ 27 := by omega
  have hE : ∀ r' ∈ y.roots, ∀ v' < 2 ^ 27, entry y.kern.mem r' v' = mapRange M.entry r (va / 4096) n
      pa perm r' v' := by
    intro r' hr' v' hv'
    have hx : r' ∈ x.roots := hroots ▸ hr'
    rw [h'.mapRange_eq (E := entry x.kern.mem) ((hroot' r).2 hur) ((hrooty r').1 hr') hv' hn
      fun r' v' hr' hv' =>
      hmap r' v' ((hroot' r').1 hr') hv', mapRange, mapRange, create_congr (hR.entry r' hx v' hv')]
  rcases hret with ⟨rfl, hk, hlt⟩ | ⟨rfl, hk, -⟩
  · refine ⟨⟨use', h', hrooty⟩, _, ⟨hR.mem hr, .inl ⟨rfl, by rw [MAXVA_eq]; omega, rfl⟩⟩,
      hroots ▸ hR.roots, ?_⟩
    rw [show (size + 4095) / 4096 = n by omega]
    exact hE
  · exact ⟨⟨use', h', hrooty⟩, _, ⟨hR.mem hr, .inr ⟨rfl, n, by omega, rfl⟩⟩, hroots ▸ hR.roots, hE⟩

theorem matched_uvmunmap (hs : treeSystem.step x (.uvmunmap r va n f) y) :
    Matched M (.uvmunmap r va n f) y := by
  obtain ⟨use, h, hroot⟩ := hS
  obtain ⟨hr, hal, hva, hwrap, hheld, hm, hroots⟩ := hs
  have hur := (hroot r).1 hr
  rw [MAXVA_eq] at hva
  have hend :=
    h.uvmunmap (v := va / 4096) hur (by omega) (by omega) fun hf _ => h.droppable hroot (hheld hf)
  rw [show 4096 * (va / 4096) = va by omega] at hend
  rcases hend with ⟨-, e, he⟩ | ⟨hall, s', he, h', hE⟩
  · cases hm.symm.trans he
  · obtain ⟨-, e⟩ := ok_inj (hm.symm.trans he)
    subst e
    refine ⟨⟨use, h', hroots ▸ hroot⟩, _, ⟨hR.mem hr, fun w h1 h2 => ?_, rfl⟩, hroots ▸ hR.roots,
      fun r' hr' v' hv' => ?_⟩
    · have hw := hall w h1 h2
      rwa [Unmappable, hR.entry r hr w (by have := hw.1; omega)] at hw
    · rw [hroots] at hr'
      rw [hE r' v' ((hroot r').1 hr') hv', hR.entry r' hr' v' hv']
      rfl

theorem matched_freewalk (hs : treeSystem.step x (.freewalk r) y) : Matched M (.freewalk r) y := by
  obtain ⟨use, h, hroot⟩ := hS
  obtain ⟨hr, hleaf, hm, hroots⟩ := hs
  have hur := (hroot r).1 hr
  have hU := h.leafless hur hleaf
  obtain ⟨s', use', L, e, h', hpr, hL⟩ := h.freewalk hU hur
  obtain ⟨-, e⟩ := ok_inj (hm.symm.trans e)
  subst e
  have hrL : use' r = .free := hpr.free r ((hL r).2 (.inl rfl))
  have hroot' : ∀ p, p ∈ y.roots ↔ use' p = .root := fun p => by
    rw [hroots, mem_erase, hroot]
    constructor
    · rintro ⟨hne, hp⟩
      rw [hpr.rest p fun hpL => ?_, hp]
      rcases (hL p).1 hpL with e | ⟨j, e⟩ | ⟨q, e⟩
      · exact hne e
      · simp [hp] at e
      · simp [hp] at e
    · intro hp
      refine ⟨?_, (hpr.old (by simp [hp])).trans hp⟩
      rintro rfl
      simp [hrL] at hp
  refine ⟨⟨use', h', hroot'⟩, _, ⟨hR.mem hr, fun v hv => ?_, rfl⟩, by rw [hroots, hR.roots],
    fun r' hr' v' hv' => ?_⟩
  · rintro ⟨z, hz, hV⟩
    rw [← hR.entry r hr v hv] at hz
    by_cases hex : ∃ p, use p = .low r (v / 512)
    · obtain ⟨p, hp⟩ := hex
      rw [h.entry_at hp] at hz
      rw [← some.inj hz, hU p _ hp _ (Nat.mod_lt v (by decide))] at hV
      cases hV
    · rw [h.tables.entry_none h.paged hur hv fun p hp => hex ⟨p, hp⟩] at hz
      cases hz
  · -- the level-0 pages of the other trees are still there, with what they held
    have hy := (hroot' r').1 hr'
    rw [hroots, mem_erase] at hr'
    rw [← hR.entry r' hr'.2 v' hv']
    have hlow : ∀ p q, use p = .low r' q → use' p = .low r' q := fun p q hp => by
      rw [hpr.rest p fun hpL => ?_, hp]
      rcases (hL p).1 hpL with e | ⟨j, e⟩ | ⟨q, e⟩
      · rw [e, hur] at hp
        cases hp
      · simp [hp] at e
      · exact hr'.1 (Use.low.inj (hp.symm.trans e)).1
    refine h.tables.entry_congr h'.tables h.paged h'.paged ((hroot r').1 hr'.2) hy hv'
      (fun p => ?_) fun p hp => ?_
    · exact ⟨fun hp => (hpr.old (by simp [hp])).trans hp, hlow p _⟩
    · exact hpr.low p r' _ (hlow p _ hp) _ (Nat.mod_lt v' (by decide))

theorem matched_other (hs : treeSystem.step x .other y) : Matched M .other y := by
  obtain ⟨use, h, hroot⟩ := hS
  have ht : ∀ p, use p ≠ .free → x.IsTable p := fun p hp => (h.isTable_iff hroot).2 hp
  have hm : ∀ p, use p ≠ .free → ∀ a, p ≤ a → a < p + 4096 → y.kern.mem a = x.kern.mem a :=
    fun p hp a h1 h2 => by
    rw [show a = p + (a - p) by omega]
    exact hs.mem p (ht p hp) _ (by omega)
  have h' : Forest use y.kern := h.congr hm
    (fun p hp => ⟨(hs.free p hp).1, not_not.1 (mt (ht p) (hs.free p hp).2)⟩) hs.nodup
    (fun p hp => hs.ref p (ht p hp)) hs.byte
  refine ⟨⟨use, h', hs.roots ▸ hroot⟩, M, rfl, hs.roots ▸ hR.roots, fun r hr v hv => ?_⟩
  rw [hs.roots] at hr
  rw [h.entry_congr h' hm ((hroot r).1 hr) hv, hR.entry r hr v hv]

/-- **Each step of the trees is a step of the maps.** -/
theorem refines_step {e : Event} (hs : treeSystem.step x e y) : Matched M e y := by
  cases e with
  | uvmcreate c => exact matched_uvmcreate hS hR hs
  | walk r va alloc pte => exact matched_walk hS hR hs
  | mappages r va size pa perm ret => exact matched_mappages hS hR hs
  | uvmunmap r va n f => exact matched_uvmunmap hS hR hs
  | freewalk r => exact matched_freewalk hS hR hs
  | other => exact matched_other hS hR hs

end

/-- A memory without trees. -/
theorem sound_init (h : treeSystem.init x) : Sound x := by
  obtain ⟨hroots, hfree, hnodup, hbyte⟩ := h
  refine ⟨fun _ => .free, ⟨⟨nofun, nofun, nofun, nofun⟩, fun p hp => absurd rfl hp,
    fun p hp => absurd rfl hp, fun p hp => ⟨hfree p hp, rfl⟩, hnodup, fun p hp => absurd rfl hp,
    hbyte⟩, fun r => ?_⟩
  simp [hroots]

/-! ## What holds in every state -/

/-- **A forest of page tables that is a map**, for each of its roots. -/
structure IsMap (x : Trees) (M : PageMaps) : Prop where
  refines : Refines x M
  /-- The table pages are different pages, in use. -/
  distinct : ∀ r ∈ x.roots, ∀ P p, pageAt x.kern.mem r P = some p → IsPage p ∧ p ∉ x.kern.freelist ∧
    ∀ r' ∈ x.roots, ∀ P', pageAt x.kern.mem r' P' = some p → r' = r ∧ P' = P
  /-- `walk(va, 0)` returns the entry of the page, in the level-0 page for it. -/
  lookup : ∀ r ∈ x.roots, ∀ va < MAXVA, ∃ o, walk r va false x.kern = .ok (o, x.kern) ∧
    o.map (pteAt x.kern.mem) = M.entry r (va / 4096) ∧
    ∀ a, o = some a → ∃ i j : Fin 512, 512 * (i : Nat) + j = va / 4096 / 512 ∧
      ∃ p, pageAt x.kern.mem r (.low i j) = some p ∧ a = p + 8 * (va / 4096 % 512)
  /-- Entries stay while the tree does. -/
  stays : ∀ r ∈ x.roots, ∀ v < 2 ^ 27, M.entry r v ≠ none → ∀ e y, treeSystem.step x e y →
    e ≠ .freewalk r → r ∈ y.roots ∧ entry y.kern.mem r v ≠ none
  /-- `mappages` of pages that are not mapped succeeds unless it runs out of memory. -/
  maps : ∀ r ∈ x.roots, ∀ va size pa perm, va % 4096 = 0 → 0 < size → va + size ≤ MAXVA →
    (∀ v, va / 4096 ≤ v → 4096 * v < va + size → ¬ M.Valid r v) →
    ∃ ret s', mappages r va size pa perm x.kern = .ok (ret, s') ∧ (ret = 0 ∨ s'.freelist = [])
  /-- `uvmunmap` of leaf mappings succeeds. -/
  unmaps : ∀ r ∈ x.roots, ∀ va n f, va % 4096 = 0 → va < MAXVA → va + n * 4096 ≤ MAXVA →
    (f = true → x.Held r (va / 4096) n) →
    (∀ w, va / 4096 ≤ w → w < va / 4096 + n → Unmappable f (M.entry r) w) → ∃ s',
    uvmunmap r va n f x.kern = .ok ((), s')
  /-- `freewalk` of a tree without leaves frees each of its pages once, and nothing else. -/
  frees : ∀ r ∈ x.roots, x.Leafless r → ∃ s' L, freewalk r x.kern = .ok ((), s') ∧
    s'.freelist = L ++ x.kern.freelist ∧ L.Nodup ∧ ∀ p, p ∈ L ↔ ∃ P, pageAt x.kern.mem r P = some p

/-- Maps lose no entry. -/
theorem mapSystem_stays {N : PageMaps} {e : Event} (hs : mapSystem.step M e N) (hr : r ∈ M.roots)
    (hne : e ≠ .freewalk r) (hv : M.entry r v ≠ none) : r ∈ N.roots ∧ N.entry r v ≠ none := by
  have hcreate : ∀ r' w n, create M.entry r' w n r v ≠ none := fun r' w n => by
    rw [create]
    split
    · simp
    · exact hv
  cases e with
  | uvmcreate c =>
    rcases hs with ⟨-, rfl⟩ | ⟨-, hc, rfl⟩
    · exact ⟨hr, hv⟩
    · refine ⟨mem_insert_of_mem hr, ?_⟩
      simp only
      rwa [update_of_ne (ne_of_mem_of_not_mem hr hc)]
  | walk r' va alloc pte =>
    cases alloc with
    | false =>
      obtain ⟨-, -, rfl⟩ := hs
      exact ⟨hr, hv⟩
    | true =>
      obtain ⟨-, -, ⟨-, rfl⟩ | ⟨-, rfl⟩⟩ := hs
      · exact ⟨hr, hv⟩
      · exact ⟨hr, hcreate _ _ _⟩
  | mappages r' va size pa perm ret =>
    have hmap : ∀ n, mapRange M.entry r' (va / 4096) n pa perm r v ≠ none := fun n => by
      rw [mapRange]
      split
      · simp
      · exact hcreate _ _ _
    obtain ⟨-, ⟨-, -, rfl⟩ | ⟨-, n, -, rfl⟩⟩ := hs
    · exact ⟨hr, hmap _⟩
    · exact ⟨hr, hmap _⟩
  | uvmunmap r' va n f =>
    obtain ⟨-, -, rfl⟩ := hs
    refine ⟨hr, ?_⟩
    simp only [clearRange]
    split
    · simp
    · exact hv
  | freewalk r' =>
    obtain ⟨-, -, rfl⟩ := hs
    exact ⟨mem_erase.2 ⟨fun e => hne (by rw [e]), hr⟩, hv⟩
  | other =>
    obtain rfl : N = M := hs
    exact ⟨hr, hv⟩

/-- **No two places share a page.** -/
theorem Sound.place_inj {r' : Nat} {P P' : Place} (h : Sound x) (hr : r ∈ x.roots)
    (hr' : r' ∈ x.roots) (hP : pageAt x.kern.mem r P = some p)
    (hP' : pageAt x.kern.mem r' P' = some p) : r' = r ∧ P' = P := by
  obtain ⟨use, h, hroot⟩ := h
  obtain ⟨h1, h2⟩ := (h.pageAt_iff ((hroot r).1 hr) P).1 hP
  obtain ⟨h3, h4⟩ := (h.pageAt_iff ((hroot r').1 hr') P').1 hP'
  rw [h1] at h3
  cases P <;> cases P' <;> simp only [Place.use, reduceCtorEq] at h3
  case root.root => exact ⟨(h4 rfl).symm.trans (h2 rfl), rfl⟩
  case mid.mid i i' =>
    obtain ⟨rfl, e⟩ := Use.mid.inj h3
    exact ⟨rfl, by rw [Fin.ext e]⟩
  case low.low i j i' j' =>
    obtain ⟨rfl, e⟩ := Use.low.inj h3
    have hi : i = i' := Fin.ext (by omega)
    have hj : j = j' := Fin.ext (by omega)
    exact ⟨rfl, by rw [hi, hj]⟩

theorem Sound.isMap (hS : Sound x) (hR : Refines x M) : IsMap x M where
  refines := hR
  distinct r hr P p hP := by
    refine ⟨?_, ?_, fun r' hr' P' hP' => hS.place_inj hr hr' hP hP'⟩
    all_goals
      obtain ⟨use, h, hroot⟩ := hS
      have hp := (h.isTable_iff hroot).1 ⟨r, hr, P, hP⟩
    · exact h.page p hp
    · exact fun hf => hp (h.free p hf).2
  lookup r hr va hva := by
    obtain ⟨use, h, hroot⟩ := hS
    refine ⟨_, walk_false hva, ?_, fun a ha => ?_⟩
    · rw [MAXVA_eq] at hva
      exact hR.entry r hr _ (by omega)
    · rw [MAXVA_eq] at hva
      by_cases hex : ∃ p, use p = .low r (va / 4096 / 512)
      · obtain ⟨p, hp⟩ := hex
        have e := h.tables.leafAddr_low h.paged hp (Nat.mod_lt (va / 4096) (by decide))
        rw [Nat.div_add_mod, ha] at e
        obtain ⟨i, j, hp', hq⟩ := h.place_low hp
        exact ⟨i, j, hq.symm, p, (h.pageAt_iff ((hroot r).1 hr) _).2 ⟨hp', (by simp)⟩, some.inj e⟩
      · rw [h.tables.leafAddr_none h.paged ((hroot r).1 hr) (by omega)
          fun p hp => hex ⟨p, hp⟩] at ha
        cases ha
  stays r hr v hv he e y hs hne := by
    obtain ⟨-, N, hN, hRy⟩ := refines_step hS hR hs
    obtain ⟨h1, h2⟩ := mapSystem_stays hN (hR.mem hr) hne he
    rw [← hRy.roots] at h1
    exact ⟨h1, by rwa [hRy.entry r h1 v hv]⟩
  maps r hr va size pa perm hal h0 hva hun := by
    obtain ⟨use, h, hroot⟩ := hS
    rw [MAXVA_eq] at hva
    have hend := h.mappages (v := va / 4096) ((hroot r).1 hr) (by omega) h0 (by omega) pa perm
    rw [show 4096 * (va / 4096) = va by omega] at hend
    rcases hend with ⟨-, hk⟩ | ⟨-, w, z, hw, hz, hV⟩ | ⟨n, ret, s', use', e, hret, -⟩
    · omega
    · exact absurd ⟨z, by rw [← hR.entry r hr w (by omega), hz], hV⟩ (hun w hw.1 (by omega))
    · exact ⟨ret, s', e, hret.imp (·.1) (·.2.2.2)⟩
  unmaps r hr va n f hal hva hend hheld hun := by
    obtain ⟨use, h, hroot⟩ := hS
    rw [MAXVA_eq] at hva hend
    have hu := h.uvmunmap (v := va / 4096) (n := n) (f := f) ((hroot r).1 hr) (by omega)
      (by omega) fun hf _ =>
      h.droppable hroot (hheld hf)
    rw [show 4096 * (va / 4096) = va by omega] at hu
    rcases hu with ⟨hno, -⟩ | ⟨-, s', e, -⟩
    · refine absurd (fun w h1 h2 => ?_) hno
      rw [Unmappable, hR.entry r hr w (by omega)]
      exact hun w h1 h2
    · exact ⟨s', e⟩
  frees r hr hleaf := by
    obtain ⟨use, h, hroot⟩ := hS
    have hur := (hroot r).1 hr
    obtain ⟨s', use', L, e, -, hpr, hL⟩ := h.freewalk (h.leafless hur hleaf) hur
    refine ⟨s', L, e, hpr.freelist, hpr.nodup, fun p => (hL p).trans ⟨?_, ?_⟩⟩
    · rintro (rfl | ⟨i, hp⟩ | ⟨q, hp⟩)
      · exact ⟨.root, rfl⟩
      · exact ⟨.mid ⟨i, (h.tables.mid_parent p r i hp).1⟩, (h.pageAt_iff hur _).2 ⟨hp, (by simp)⟩⟩
      · obtain ⟨i, j, hp', -⟩ := h.place_low hp
        exact ⟨.low i j, (h.pageAt_iff hur _).2 ⟨hp', (by simp)⟩⟩
    · rintro ⟨P, hP⟩
      obtain ⟨h1, h2⟩ := (h.pageAt_iff hur P).1 hP
      cases P with
      | root => exact .inl (h2 rfl)
      | mid i => exact .inr (.inl ⟨i, h1⟩)
      | low i j => exact .inr (.inr ⟨_, h1⟩)

/-- **A page table is a map.**  Whatever calls of `uvmcreate`, `walk`, `mappages`, `uvmunmap` and
`freewalk` have been made, with whatever results, maps that start empty take the same calls with the
same results, and the trees hold these maps in pages that are pairwise different. -/
theorem page_table_is_map {x₀ : Trees} {l : List Event} (h0 : treeSystem.init x₀)
    (hp : LTS.Path treeSystem x₀ l x) : ∃ M, LTS.Path mapSystem ⟨∅, fun _ _ => none⟩ l M ∧
    IsMap x M := by
  have hrun : Sound x ∧ ∃ M, LTS.Path mapSystem ⟨∅, fun _ _ => none⟩ l M ∧ Refines x M := by
    induction hp with
    | nil => exact ⟨sound_init h0, _, .nil, h0.1, fun r hr => absurd hr (by simp [h0.1])⟩
    | snoc _ hs ih =>
      obtain ⟨hS, M, hM, hR⟩ := ih
      obtain ⟨hS', N, hN, hR'⟩ := refines_step hS hR hs
      exact ⟨hS', N, .snoc hM hN, hR'⟩
  obtain ⟨hS, M, hM, hR⟩ := hrun
  exact ⟨M, hM, hS.isMap hR⟩

section

omit [Layout]

/-- Four free pages. -/
def fourPages : Trees where
  kern :=
    { mem := fun _ => 0, freelist := [0x80030000, 0x80031000, 0x80032000, 0x80033000]
      referCount := fun _ => 0, wrapped := false, procs := fun _ => {}, initproc := 0, nextpid := 1
      kheld := [] }
  roots := ∅

/-- The result of a call, and the state after it. -/
def resultOf {α : Type} (f : Kern α) (s : KState) : Option α :=
  match f s with
  | .ok (a, _) => some a
  | .error _ => none

@[inherit_doc resultOf]
def stateOf {α : Type} (f : Kern α) (s : KState) : KState :=
  match f s with
  | .ok (_, s') => s'
  | .error _ => s

theorem ok_of_resultOf {α : Type} {f : Kern α} {a : α} (h : resultOf f s = some a) :
    f s = .ok (a, stateOf f s) := by
  unfold resultOf at h
  unfold stateOf
  cases e : f s with
  | error p => simp [e] at h
  | ok o =>
    simp only [e, Option.some.injEq] at h
    simp only [← h]

end

omit [Layout] in
/-- The last page of a region and the first one of the next are mapped, and the second is found. -/
theorem page_table_is_map_two : ∃ x M, LTS.Path (@treeSystem sampleLayout) fourPages
      [.uvmcreate 0x80030000, .mappages 0x80030000 0x1ff000 8192 0x80100000 PTE_R 0,
        .walk 0x80030000 0x200000 false (some (PA2PTE 0x80101000 ||| PTE_R ||| PTE_V))] x ∧
        @IsMap sampleLayout x M := by
  have hfree : ∀ p ∈ fourPages.kern.freelist, p % 4096 = 0 ∧ 0x80022000 ≤ p ∧
      p < 2281701376 := by decide +kernel
  let _ : Layout := sampleLayout
  have h0 : treeSystem.init fourPages :=
    ⟨rfl, fun p hp => isPage_iff.2 (hfree p hp), by decide +kernel, fun _ => Nat.succ_pos 255⟩
  let s₁ := stateOf uvmcreate fourPages.kern
  let s₂ := stateOf (mappages 0x80030000 0x1ff000 8192 0x80100000 PTE_R) s₁
  have h1 : uvmcreate fourPages.kern = .ok (0x80030000, s₁) := ok_of_resultOf (by decide +kernel)
  have h2 : mappages 0x80030000 0x1ff000 8192 0x80100000 PTE_R s₁ = .ok (0, s₂) :=
    ok_of_resultOf (by decide +kernel)
  have h3 : (leafAddr s₂.mem 0x80030000 0x200).map (pteAt s₂.mem) =
      some (PA2PTE 0x80101000 ||| PTE_R ||| PTE_V) := by
    decide +kernel
  have hp : LTS.Path treeSystem fourPages [.uvmcreate 0x80030000, .mappages 0x80030000 0x1ff000 8192
      0x80100000 PTE_R 0, .walk 0x80030000 0x200000 false
      (some (PA2PTE 0x80101000 ||| PTE_R ||| PTE_V))] ⟨s₂, {0x80030000}⟩ := by
    refine .snoc (l := [_, _]) (t := ⟨s₂, {0x80030000}⟩)
      (.snoc (l := [_]) (t := ⟨s₁, {0x80030000}⟩) (.snoc (l := []) .nil ?_) ?_) ?_
    · exact ⟨h1, rfl⟩
    · exact ⟨by simp, by decide, by decide, by decide, h2, rfl⟩
    · exact ⟨by simp, by decide, by decide, ⟨_, walk_false (by decide), h3.symm⟩, rfl⟩
  obtain ⟨M, -, hM⟩ := page_table_is_map h0 hp
  exact ⟨_, M, hp, hM⟩

end Xv6
