import Xv6.Vm.Cow
import Xv6.Vm.Space

/-!
# Vm/Resolve — `cow_alloc`

A page with one reference becomes writable in place.  A shared page is copied: the entry gets
`PTE_W` at once, then a page is allocated and filled, the entry is moved to it, and the old
reference is dropped.  Without a free page the function gives up after the first of these steps.
-/

namespace Xv6

open Act Bytes Function Finset Ghost

variable [Layout] {G G' : Ghost} {s s' : KState} {r v va a c pa : Nat} {x : Pte}
  {X : Set (Nat × Nat)} {Y : Set Nat}

/-! ## Entries -/

/-- The entry of a page made writable in place. -/
def soleEntry (x : Pte) : Pte := (x ||| PTE_W) &&& ~~~PTE_RSW_COW

/-- The entry of the copy of a shared page; it keeps the copy-on-write mark. -/
def copyEntry (x : Pte) (new : Nat) : Pte := PA2PTE new ||| PTE_FLAGS (x ||| PTE_W) ||| PTE_V

section

omit [Layout]

@[simp] theorem soleEntry_V : (soleEntry x).has PTE_V = x.has PTE_V := by simp [soleEntry]
@[simp] theorem soleEntry_R : (soleEntry x).has PTE_R = x.has PTE_R := by simp [soleEntry]
@[simp] theorem soleEntry_U : (soleEntry x).has PTE_U = x.has PTE_U := by simp [soleEntry]
@[simp] theorem soleEntry_W : (soleEntry x).has PTE_W = true := by simp [soleEntry]
@[simp] theorem PTE2PA_soleEntry : PTE2PA (soleEntry x) = PTE2PA x := by
  rw [soleEntry, Pte.PTE2PA_andNot Pte.isFlags_COW, Pte.PTE2PA_or Pte.isFlags_W]

@[simp] theorem copyEntry_V : (copyEntry x c).has PTE_V = true := by simp [copyEntry]
@[simp] theorem copyEntry_R : (copyEntry x c).has PTE_R = x.has PTE_R := by simp [copyEntry]
@[simp] theorem copyEntry_U : (copyEntry x c).has PTE_U = x.has PTE_U := by simp [copyEntry]
@[simp] theorem copyEntry_W : (copyEntry x c).has PTE_W = true := by simp [copyEntry]

end

theorem PTE2PA_copyEntry (h : IsPage c) : PTE2PA (copyEntry x c) = c := by
  have hb := h.bounds
  unfold copyEntry
  rw [Pte.PTE2PA_or Pte.isFlags_V]
  exact Pte.PTE2PA_mk (by rw [PGSIZE_eq]; omega) (by omega) (Pte.isFlags_FLAGS _)

/-! ## Up to `kalloc` -/

omit [Layout] in
theorem walk_map (hlt : v < 2 ^ 26 - 2) (hva : va / 4096 = v)
    (ha : leafAddr s.mem r v = some a) (b : Bool) : walk r va b s = .ok (some a, s) :=
  walk_found (by rw [MAXVA_eq]; omega) (by rwa [hva]) b

theorem getRefcount_ok (hp : IsPage pa) : getRefcount pa s = .ok (s.referCount (refIdx pa), s) := by
  unfold getRefcount
  rw [if_neg hp]
  rfl

/-- **The first step of `cow_alloc`.** -/
theorem cowShare_eq (h : Own G s) (hm : (r, v) ∈ G.maps) (hva : va / 4096 = v)
    (ha : leafAddr s.mem r v = some a) :
    cowShare r va s =
      if s.referCount (refIdx (PTE2PA (leaf s.mem r v))) = 1 then
        .ok (.sole (PTE2PA (leaf s.mem r v)),
          { s with mem := setPte s.mem a (soleEntry (leaf s.mem r v)) })
      else .ok (.shared a (PTE2PA (leaf s.mem r v)) (PTE_FLAGS (leaf s.mem r v ||| PTE_W)),
          { s with mem := setPte s.mem a (leaf s.mem r v ||| PTE_W) }) := by
  unfold cowShare
  rw [bind_ok (walk_map (h.leaves.map_lt r v hm) hva ha false)]
  simp only
  rw [readPte_bind, leaf_of_addr ha,
    bind_ok (getRefcount_ok (h.mapped hm))]
  split
  · rfl
  · rw [Pte.PTE2PA_or Pte.isFlags_W]
    rfl

/-- Both of its stores only change flags. -/
theorem Own.flag_store (h : Own G s) (hm : (r, v) ∈ G.maps) (ha : leafAddr s.mem r v = some a)
    (hx : x = soleEntry (leaf s.mem r v) ∨ x = leaf s.mem r v ||| PTE_W) :
    Own G { s with mem := setPte s.mem a x } ∧
      Frame {(r, v)} Y G G s { s with mem := setPte s.mem a x } ∧
      leaf (setPte s.mem a x) r v = x ∧
      ∀ o < 4096, setPte s.mem a x (PTE2PA (leaf s.mem r v) + o) =
        s.mem (PTE2PA (leaf s.mem r v) + o) := by
  have hr := h.leaves.map_root r v hm
  have hv := h.leaves.lt hm
  have hu := h.leaves.map_user r v hm
  refine ⟨h.setFlags hm ha ?_ ?_ ?_,
    Frame.store (c := s.referCount) h hr hv ha (Set.mem_singleton _), ?_, fun o ho => ?_⟩
  · rcases hx with rfl | rfl <;> simp
  · rcases hx with rfl | rfl <;> simp
  · rcases hx with rfl | rfl
    · rw [PTE2PA_soleEntry]
    · rw [Pte.PTE2PA_or Pte.isFlags_W]
  · rw [h.leaf_store hr hv ha hr hv, setLeaf_self]
  · exact h.store_out hr hv ha (h.mapped hm) (by simp [hu, Use.IsTable]) (by omega) (by omega)

/-! ## The new mapping -/

/-- The ghost state once the mapping leads to the copy: the old reference is in flight. -/
def Ghost.remap (G : Ghost) (r v old new : Nat) : Ghost :=
  (((G.delMap r v).addFlight r old).setUse new .user).addMap r v

omit [Layout] in
theorem Ghost.remap_maps (hm : (r, v) ∈ G.maps) : (G.remap r v pa c).maps = G.maps := by
  simp [Ghost.remap, insert_erase hm]

omit [Layout] in
@[simp] theorem Ghost.remap_flight : (G.remap r v pa c).flight = insert (r, pa) G.flight := rfl

omit [Layout] in
@[simp] theorem Ghost.remap_self : (G.remap r v pa c).use c = .user := update_self ..

omit [Layout] in
theorem Ghost.remap_ne {q : Nat} (h : q ≠ c) : (G.remap r v pa c).use q = G.use q :=
  update_of_ne h ..

/-- **The mapping moves to a held page.** -/
theorem Own.remap (h : Own G s) (hm : (r, v) ∈ G.maps) (ha : leafAddr s.mem r v = some a)
    (hc : G.use c = .held) (hR : x.has PTE_R = true) :
    Own (G.remap r v (PTE2PA (leaf s.mem r v)) c)
      { s with mem := setPte s.mem a (copyEntry x c) } := by
  have hr := h.leaves.map_root r v hm
  have hpte : PTE2PA (copyEntry x c) = c := PTE2PA_copyEntry (h.isPage (by simp [hc]))
  -- clear `V`, then map the held page
  have h1 := h.unmap (x := 0#64) hm ha rfl
  have ha1 := h.addr_store (x := 0#64) hr (h.leaves.lt hm) ha
  have h2 := h1.mapHeld (x := copyEntry x c) (r := r) (v := v) hr (h.leaves.map_lt r v hm) ha1
    (by simp) (by rw [hpte]; exact hc) copyEntry_V (by rw [copyEntry_R]; exact hR)
  rw [hpte] at h2
  have e : setPte (setPte s.mem a 0#64) a (copyEntry x c) = setPte s.mem a (copyEntry x c) :=
    setPte_setPte _
  rw [← e]
  exact h2

theorem Frame.remap (h : Own G s) (hm : (r, v) ∈ G.maps) (ha : leafAddr s.mem r v = some a)
    (hc : G.use c = .held) (hX : (r, v) ∈ X) (hY : PTE2PA (Xv6.leaf s.mem r v) ∈ Y) (hY' : c ∈ Y) :
    Frame X Y G (G.remap r v (PTE2PA (Xv6.leaf s.mem r v)) c) s
      { s with mem := setPte s.mem a x } := by
  refine (Frame.store (c := s.referCount) h (h.leaves.map_root r v hm) (h.leaves.lt hm) ha hX).trans
    h.leaves (Frame.ghost (fun q => ?_) (fun r' v' _ => ?_) (fun _ _ _ => Iff.rfl)
      (fun r' q hq => ?_) fun q hq => ?_)
  · by_cases e : q = c
    · subst e; simp [hc]
    · rw [remap_ne e]
  · rw [remap_maps hm]
  · rw [remap_flight, mem_insert, or_iff_right fun e => hq ?_]
    rw [(Prod.mk.inj e).2]
    exact hY
  · exact remap_ne (ne_of_mem_of_not_mem hY' hq).symm

/-- **`cow_alloc` moves the mapping to the copy**, and this cannot fail. -/
theorem cowRemap_eq (h : Own G s) (hm : (r, v) ∈ G.maps) (hva : va = 4096 * v)
    (ha : leafAddr s.mem r v = some a) :
    cowRemap r va a c (PTE_FLAGS (x ||| PTE_W)) s =
      .ok (0, { s with mem := setPte s.mem a (copyEntry x c) }) := by
  have hr := h.leaves.map_root r v hm
  have hlt := h.leaves.map_lt r v hm
  have hdiv : va / 4096 = v := by omega
  have hloop : mappages r va PGSIZE c (PTE_FLAGS (x ||| PTE_W)) =
      mappagesLoop r (PTE_FLAGS (x ||| PTE_W)) 0 va c := by
    rw [mappages, if_neg (by decide : ¬ PGSIZE = 0)]
    simp only [PGROUNDDOWN, PGSIZE_eq]
    congr 1 <;> omega
  have e : setPte (setPte s.mem a (leaf s.mem r v &&& ~~~PTE_V)) a (copyEntry x c) =
      setPte s.mem a (copyEntry x c) := setPte_setPte _
  let s1 : KState := { s with mem := setPte s.mem a (leaf s.mem r v &&& ~~~PTE_V) }
  have hw : writePte a (leaf s.mem r v &&& ~~~PTE_V) s = .ok ((), s1) := rfl
  have hr1 : readPte a s1 = .ok (leaf s.mem r v &&& ~~~PTE_V, s1) := by
    rw [readPte, gets_apply]
    exact congrArg (fun y => Except.ok (y, s1)) pteAt_setPte
  have ha1 : leafAddr s1.mem r v = some a := h.addr_store hr (by omega) ha
  have hwalk : walk r va true s1 = .ok (some a, s1) := walk_map hlt hdiv ha1 true
  unfold cowRemap
  rw [readPte_bind, leaf_of_addr ha, bind_ok hw,
    hloop, mappagesLoop, bind_ok hwalk]
  simp only
  rw [bind_ok hr1, if_neg (by simp), ← e]
  rfl

/-! ## `cow_alloc` -/

/-- How `cow_alloc` ends: in place, with a copy, or without memory. -/
inductive CowEnd (G : Ghost) (s : KState) (r v : Nat) : Nat → Ghost → KState → Prop
  | sole {a : Nat} (one : s.referCount (refIdx (PTE2PA (leaf s.mem r v))) = 1)
      (addr : leafAddr s.mem r v = some a) :
      CowEnd G s r v (PTE2PA (leaf s.mem r v)) G
        { s with mem := setPte s.mem a (soleEntry (leaf s.mem r v)) }
  | full {a : Nat} (many : s.referCount (refIdx (PTE2PA (leaf s.mem r v))) ≠ 1)
      (addr : leafAddr s.mem r v = some a) (empty : s.freelist = []) :
      CowEnd G s r v 0 G { s with mem := setPte s.mem a (leaf s.mem r v ||| PTE_W) }
  | copied {new : Nat} {G' : Ghost} {s' : KState}
      (many : s.referCount (refIdx (PTE2PA (leaf s.mem r v))) ≠ 1)
      (page : IsPage new) (free : G.use new = .free) (list : s.freelist = new :: s'.freelist)
      (maps : G'.maps = G.maps) (entry : leaf s'.mem r v = copyEntry (leaf s.mem r v) new)
      (bytes : ∀ o < 4096, s'.mem (new + o) = s.mem (PTE2PA (leaf s.mem r v) + o))
      (sole : ∀ r' w, (r', w) ∈ G'.maps → PTE2PA (leaf s'.mem r' w) = new → r' = r ∧ w = v)
      (old : ∀ o < 4096, s'.mem (PTE2PA (leaf s.mem r v) + o) =
        s.mem (PTE2PA (leaf s.mem r v) + o)) :
      CowEnd G s r v new G' s'

/-- A page with a count other than 1 has more than one reference. -/
theorem Own.many (h : Own G s) (hm : (r, v) ∈ G.maps)
    (hc : s.referCount (refIdx (PTE2PA (leaf s.mem r v))) ≠ 1) :
    2 ≤ G.tokens (leaf s.mem) (PTE2PA (leaf s.mem r v)) := by
  have hu := h.leaves.map_user r v hm
  have h1 := h.user_pos _ hu
  rw [h.ref _ (h.mapped hm), Ghost.refs_user hu] at hc
  omega

/-- `kfree` of a reference that is not the last leaves the memory and the free list alone. -/
theorem kfree_many (h : Own G s) (hf : (r, pa) ∈ G.flight) (h2 : 2 ≤ G.tokens (leaf s.mem) pa) :
    ∃ c, kfree pa s = .ok ((), { s with referCount := c }) ∧
      Own (G.delFlight r pa) { s with referCount := c } ∧
      Frame X {pa} G (G.delFlight r pa) s { s with referCount := c } := by
  have hu := h.leaves.flight_user r pa hf
  have hpa : IsPage pa := h.isPage (by simp [hu])
  have href : s.referCount (refIdx pa) = G.tokens (leaf s.mem) pa := by
    rw [h.ref pa hpa, refs_user hu]
  have e := kfree_shared (s := s) hpa (by omega) (h.pages.byte _)
  obtain ⟨s', e', h', hF, -⟩ := kfree_flight (X := X) h hf
  rw [e'] at e
  obtain ⟨-, rfl⟩ := ok_inj e
  rw [Ghost.dropRef, if_neg (by omega)] at h' hF
  exact ⟨_, e', h', hF⟩

/-- Entries stay where they are while table pages keep their use. -/
theorem Own.addr_keep (h : Own G s) (h' : Own G' s') (hr : G.use r = .root) (hv : v < 2 ^ 27)
    (ha : leafAddr s.mem r v = some a) (hu : ∀ p, (G.use p).IsTable → G'.use p = G.use p) :
    leafAddr s'.mem r v = some a := by
  obtain ⟨p, hp, e⟩ := h.low_of_addr hr hv ha
  have hp' : G'.use p = .low r (v / 512) := by rw [hu p (by rw [hp]; trivial), hp]
  have e' := h'.tables.leafAddr_low h'.paged hp' (Nat.mod_lt v (by decide : 512 > 0))
  rwa [Nat.div_add_mod, ← e] at e'

/-- **A page is taken for the copy and filled**: `cow_alloc` between its first and last step. -/
theorem cow_fill (h : Own G s) (hm : (r, v) ∈ G.maps) :
    (s.freelist = [] ∧ kalloc s = .ok (none, s)) ∨
    ∃ c s1 s2, kalloc s = .ok (some c, s1) ∧
      memmove c (PTE2PA (leaf s.mem r v)) PGSIZE s1 = .ok ((), s2) ∧ IsPage c ∧ G.use c = .free ∧
      Own (G.setUse c .held) s2 ∧ Frame X {c} G (G.setUse c .held) s s2 ∧
      s.freelist = c :: s2.freelist ∧
      (∀ o < 4096, s2.mem (c + o) = s.mem (PTE2PA (leaf s.mem r v) + o)) ∧
      ∀ y, y < c ∨ c + 4096 ≤ y → s2.mem y = s.mem y := by
  rcases kalloc_spec (X := X) h with hk | ⟨c, s1, hk, hpc, hfree, h1, hF1, hfl, hmem⟩
  · exact .inl hk
  · right
    have ht : ¬ ((G.setUse c .held).use c).IsTable := by simp [Use.IsTable]
    have hne := h.leaves.not_mapped (show G.use c ≠ .user by simp [hfree]) hm
    have hb := hpc.bounds
    have hb' := (h.mapped hm).bounds
    refine ⟨c, s1, { s1 with mem := copy s1.mem c (PTE2PA (leaf s.mem r v)) PGSIZE }, hk, rfl, hpc,
      hfree, h1.overlay hpc ht le_rfl (by simp), hF1.trans h.leaves
        (Frame.overlay h1 hpc ht le_rfl (by simp)
          (fun r v hm e => absurd e (h1.leaves.not_mapped (by simp) hm)) fun _ => rfl), hfl,
      fun o ho => ?_, fun y hy => ?_⟩
    · exact (copy_in (by simpa using ho)).trans (hmem _ (by omega))
    · exact (copy_out (by simpa using hy)).trans (hmem y hy)

/-- **`cow_alloc`.** -/
theorem cowAlloc_spec (h : Own G s) (hm : (r, v) ∈ G.maps) (hva : va = 4096 * v) :
    ∃ ret s' G', cowAlloc r va s = .ok (ret, s') ∧ Own G' s' ∧ Frame {(r, v)} ∅ G G' s s' ∧
      CowEnd G s r v ret G' s' := by
  obtain ⟨a, ha⟩ := h.addr_of_map hm
  have hr := h.leaves.map_root r v hm
  have hv := h.leaves.lt hm
  have hu := h.leaves.map_user r v hm
  have hpa := h.mapped hm
  have heq := cowShare_eq h hm (show va / 4096 = v by omega) ha
  unfold cowAlloc
  by_cases hone : s.referCount (refIdx (PTE2PA (leaf s.mem r v))) = 1
  · rw [if_pos hone] at heq
    obtain ⟨h1, hF1, -, -⟩ := h.flag_store (Y := ∅) hm ha (.inl rfl)
    exact ⟨_, _, G, by rw [bind_ok heq]; rfl, h1, hF1, .sole hone ha⟩
  rw [if_neg hone] at heq
  obtain ⟨h1, hF1, hl1, hb1⟩ := h.flag_store (Y := ∅) hm ha (.inr rfl)
  let s1 : KState := { s with mem := setPte s.mem a (leaf s.mem r v ||| PTE_W) }
  have hl1' : leaf s1.mem r v = leaf s.mem r v ||| PTE_W := hl1
  have hp1 : PTE2PA (leaf s1.mem r v) = PTE2PA (leaf s.mem r v) := by
    rw [hl1', Pte.PTE2PA_or Pte.isFlags_W]
  rw [bind_ok heq]
  simp only
  rcases cow_fill (X := ∅) h1 hm with ⟨hnil, hk⟩ | ⟨c, s2, s3, hk, hmv, hpc, hfree, h3,
    hF3, hfl, hcp, hout⟩
  · exact ⟨0, s1, G, by rw [bind_ok hk]; rfl, h1, hF1, .full hone ha hnil⟩
  have hf3 : (G.setUse c .held).use c = .held := setUse_self
  have hcp' : ∀ o < 4096, s3.mem (c + o) = s.mem (PTE2PA (leaf s.mem r v) + o) := fun o ho => by
    rw [hcp o ho, hp1]
    exact hb1 o ho
  have hl3 : ∀ r' w, (r', w) ∈ G.maps → leaf s3.mem r' w = leaf s1.mem r' w :=
    fun r' w hw => hF3.leaf r' w (Set.notMem_empty _) (h.leaves.map_root r' w hw) (h.leaves.lt hw)
  have hp3 : PTE2PA (leaf s3.mem r v) = PTE2PA (leaf s.mem r v) := by rw [hl3 r v hm, hp1]
  have hrc : ∀ p, (G.use p).IsTable → (G.setUse c .held).use p = G.use p := fun p hp =>
    setUse_ne (by rintro rfl; simp [hfree, Use.IsTable] at hp)
  have ha3 : leafAddr s3.mem r v = some a := h.addr_keep h3 hr hv ha hrc
  have hR := h.leaves.map_R r v hm
  have hpac : PTE2PA (leaf s.mem r v) ≠ c := h.leaves.not_mapped (by simp [hfree]) hm
  -- the mapping moves, and the old reference is not the last
  have h4 := h3.remap (x := leaf s.mem r v) hm ha3 hf3 hR
  have hF4 := Frame.remap (x := copyEntry (leaf s.mem r v) c) (X := {(r, v)})
    (Y := insert c (insert (PTE2PA (leaf s.mem r v)) ∅)) h3 hm ha3 hf3 (Set.mem_singleton _)
    (by rw [hp3]; simp) (by simp)
  rw [hp3] at h4 hF4
  have hu4 : ((G.setUse c .held).remap r v (PTE2PA (leaf s.mem r v)) c).use
      (PTE2PA (leaf s.mem r v)) = .user := by
    rw [remap_ne hpac, setUse_ne hpac, hu]
  have e31 : (G.setUse c .held).tokens (leaf s3.mem) (PTE2PA (leaf s.mem r v)) =
      G.tokens (leaf s1.mem) (PTE2PA (leaf s.mem r v)) :=
    tokens_congr rfl rfl fun r' w hw => by rw [hl3 r' w hw]
  have e4 := (((refs_user hu4).symm.trans (h4.ref _ hpa).symm).trans
    ((h3.ref _ hpa).trans (refs_user (by rw [setUse_ne hpac, hu])))).trans
    (e31.trans ((refs_user hu).symm.trans (h1.ref _ hpa).symm))
  have hge : 2 ≤ s.referCount (refIdx (PTE2PA (leaf s.mem r v))) := by
    rw [h.ref _ hpa, refs_user hu]
    exact h.many hm hone
  obtain ⟨n, e5, h5, hF5⟩ := kfree_many (X := {(r, v)}) h4 (mem_insert_self _ _)
    (by rw [e4]; exact hge)
  have hl4 : ∀ r' w, (r', w) ∈ G.maps → leaf (setPte s3.mem a (copyEntry (leaf s.mem r v) c)) r' w =
      setLeaf (leaf s3.mem) r v (copyEntry (leaf s.mem r v) c) r' w := fun r' w hw =>
    h3.leaf_store (h3.leaves.map_root r v hm) hv ha3 (h3.leaves.map_root r' w hw) (h.leaves.lt hw)
  have hF : Frame {(r, v)} (insert c (insert (PTE2PA (leaf s.mem r v)) ∅)) G
      (((G.setUse c .held).remap r v (PTE2PA (leaf s.mem r v)) c).delFlight r
        (PTE2PA (leaf s.mem r v))) s _ :=
    (((hF1.mono subset_rfl (Set.empty_subset _)).trans h.leaves
      (hF3.mono (Set.empty_subset _) (by simp))).trans h.leaves hF4).trans h.leaves
      (hF5.mono subset_rfl (by simp))
  have hfl0 : (r, PTE2PA (leaf s.mem r v)) ∉ G.flight := fun hc =>
    h.leaves.flight_ne r _ v hc hm rfl
  have hmaps : (((G.setUse c .held).remap r v (PTE2PA (leaf s.mem r v)) c).delFlight r
      (PTE2PA (leaf s.mem r v))).maps = G.maps := remap_maps hm
  have hflight : (((G.setUse c .held).remap r v (PTE2PA (leaf s.mem r v)) c).delFlight r
      (PTE2PA (leaf s.mem r v))).flight = G.flight := by
    rw [delFlight_flight, remap_flight, setUse_flight, erase_insert hfl0]
  have hb := hpc.bounds
  have hb' := hpa.bounds
  refine ⟨c, _, _, ?_, h5, (hF.drop ?_ ?_ fun r' => by rw [hflight]).drop ?_ ?_ fun r' => by
    rw [hflight], .copied hone hpc hfree hfl hmaps ?_ (fun o ho => ?_) (fun r' w hw e => ?_)
    fun o ho => ?_⟩
  · rw [bind_ok hk]
    simp only
    rw [bind_ok (hp1 ▸ hmv), bind_ok (cowRemap_eq h3 hm hva ha3), if_neg (by decide), bind_ok e5]
    rfl
  · simp [hfree, Use.Stays]
  · simp [Use.Stays]
  · simp [hu, Use.Stays]
  · rw [delFlight_use, hu4]
    simp [Use.Stays]
  · exact (hl4 r v hm).trans setLeaf_self
  · refine (h3.store_out (h3.leaves.map_root r v hm) hv ha3 hpc (by simp [Use.IsTable])
      (Nat.le_add_right c o) (by omega)).trans (hcp' o ho)
  · rw [hmaps] at hw
    by_cases heq : (r', w) = (r, v)
    · exact Prod.mk.inj heq
    · have e' : PTE2PA (leaf s3.mem r' w) = c := by
        rw [← e]
        refine congrArg PTE2PA ?_
        exact ((hl4 r' w hw).trans (setLeaf_ne heq)).symm
      exact absurd e' (h3.leaves.not_mapped (by simp) hw)
  · refine (h3.store_out (h3.leaves.map_root r v hm) hv ha3 hpa (by
      rw [setUse_ne hpac, hu]; simp [Use.IsTable]) (Nat.le_add_right _ o) (by omega)).trans ?_
    rw [hout _ (by omega)]
    exact hb1 o ho

end Xv6
