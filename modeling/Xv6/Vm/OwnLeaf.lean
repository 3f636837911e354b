import Xv6.Vm.OwnMap

/-!
# Vm/OwnLeaf — the stores to leaf entries that the kernel makes

Each lemma takes the entry `a` at which `walk` found page `v` of table `r`, and gives the invariant
and the frame after the store.
-/

namespace Xv6

open Act Bytes Function Finset Ghost

variable [Layout] {G G' : Ghost} {s s' : KState} {pa r v a : Nat} {x : Pte}
  {X : Set (Nat × Nat)} {Y : Set Nat}

/-! ## The store -/

section

variable (h : Own G s) (hr : G.use r = .root) (hv : v < 2 ^ 27) (ha : leafAddr s.mem r v = some a)

include h hr hv ha

/-- The entry `walk` finds is an entry of a level-0 page. -/
theorem Own.low_of_addr : ∃ p, G.use p = .low r (v / 512) ∧ a = p + 8 * (v % 512) := by
  by_cases hex : ∃ p, G.use p = .low r (v / 512)
  · obtain ⟨p, hp⟩ := hex
    have e := h.tables.leafAddr_low h.paged hp (Nat.mod_lt v (by decide : 512 > 0))
    rw [Nat.div_add_mod, ha] at e
    exact ⟨p, hp, Option.some.inj e⟩
  · rw [h.tables.leafAddr_none h.paged hr hv fun p hp => hex ⟨p, hp⟩] at ha
    exact absurd ha (by simp)

theorem Own.tables_store : Tables G.use (setPte s.mem a x) := by
  obtain ⟨p, hp, rfl⟩ := h.low_of_addr hr hv ha
  exact h.tables.setPte_low h.paged hp (Nat.mod_lt _ (by decide))

theorem Own.leaf_store {r' v' : Nat} (hr' : G.use r' = .root) (hv' : v' < 2 ^ 27) :
    leaf (setPte s.mem a x) r' v' = setLeaf (leaf s.mem) r v x r' v' := by
  obtain ⟨p, hp, rfl⟩ := h.low_of_addr hr hv ha
  rw [h.tables.leaf_setPte h.paged hp (Nat.mod_lt _ (by decide)) hr' hv', Nat.div_add_mod]
  rfl

/-- The store touches no page that is not a table. -/
theorem Own.store_out {q y : Nat} (hq : IsPage q) (hu : ¬ (G.use q).IsTable)
    (h1 : q ≤ y) (h2 : y < q + 4096) : setPte s.mem a x y = s.mem y := by
  obtain ⟨p, hp, rfl⟩ := h.low_of_addr hr hv ha
  have hp' : IsPage p := h.isPage (by simp [hp])
  have hne : p ≠ q := fun e => hu (by rw [← e, hp]; trivial)
  have h3 := hp'.bounds
  have h4 := hq.bounds
  have h5 : v % 512 < 512 := Nat.mod_lt _ (by decide)
  exact setPte_out (by omega)

end

omit [Layout] in
theorem leaf_of_addr {m : Nat → UInt8} (ha : leafAddr m r v = some a) : pteAt m a = leaf m r v := by
  simp [leaf, ha]

section

variable (h : Own G s) (hr : G.use r = .root) (hv : v < 2 ^ 27) (ha : leafAddr s.mem r v = some a)

include h hr hv ha

theorem Own.addr_store : leafAddr (setPte s.mem a x) r v = some a := by
  have ht := h.tables_store (x := x) hr hv ha
  obtain ⟨p, hp, e⟩ := h.low_of_addr hr hv ha
  have e' := ht.leafAddr_low h.paged hp (Nat.mod_lt v (by decide : 512 > 0))
  rwa [Nat.div_add_mod, ← e] at e'

/-- **The invariant after a store to a leaf**, from what it says about the mappings and counts. -/
theorem Own.store {c : Nat → Nat}
    (hp : Pages G' { s with mem := setPte s.mem a x, referCount := c })
    (hu : ∀ p, (G.use p).IsTable ∨ (G'.use p).IsTable → G'.use p = G.use p)
    (hl : Leaves G' (setLeaf (leaf s.mem) r v x))
    (href : ∀ q, IsPage q → c (refIdx q) = G'.refs (setLeaf (leaf s.mem) r v x) q)
    (hpos : ∀ q, G'.use q = .user → 0 < G'.tokens (setLeaf (leaf s.mem) r v x) q) :
    Own G' { s with mem := setPte s.mem a x, referCount := c } := by
  have hlf : ∀ r' v', G'.use r' = .root → v' < 2 ^ 27 →
      leaf (setPte s.mem a x) r' v' = setLeaf (leaf s.mem) r v x r' v' := fun r' v' hr' hv' =>
    h.leaf_store hr hv ha (by rw [← hu r' (.inr (by rw [hr']; trivial))]; exact hr') hv'
  refine ⟨hp, (h.tables_store hr hv ha).congr_use hu, hl.congr_leaf hlf, fun q hq => ?_,
    fun q hq => ?_⟩
  · rw [hl.refs_congr_leaf hlf]
    exact href q hq
  · rw [hl.tokens_congr_leaf hlf]
    exact hpos q hq

/-! ## Frames -/

/-- The store changes one leaf and no page of data. -/
theorem Frame.store (hX : (r, v) ∈ X) {c : Nat → Nat} :
    Frame X Y G G s { s with mem := setPte s.mem a x, referCount := c } where
  procs := rfl
  initproc := rfl
  nextpid := rfl
  kheld := rfl
  root _ _ _ := Iff.rfl
  maps _ _ _ := Iff.rfl
  spec _ _ _ := Iff.rfl
  leaf r' v' hx hr' hv' := by
    rw [h.leaf_store hr hv ha hr' hv', setLeaf_ne (ne_of_mem_of_not_mem hX hx).symm]
  bytes r' v' _ hm o ho :=
    h.store_out hr hv ha (h.mapped hm) (by rw [h.leaves.map_user r' v' hm]; simp [Use.IsTable])
      (by omega) (by omega)
  flight _ _ _ := Iff.rfl
  keep q _ hs := ⟨rfl, fun o ho => h.store_out hr hv ha (h.isPage hs.ne_free)
    (by rcases hs with e | ⟨p, e⟩ <;> simp [e, Use.IsTable]) (by omega) (by omega)⟩
  fresh _ _ _ := rfl

end

omit [Layout] in
/-- Ghost changes, with the state unchanged. -/
theorem Frame.ghost (hroot : ∀ r, G'.use r = .root ↔ G.use r = .root)
    (hmaps : ∀ r v, (r, v) ∉ X → ((r, v) ∈ G'.maps ↔ (r, v) ∈ G.maps))
    (hspec : ∀ r v, (r, v) ∉ X → ((r, v) ∈ G'.spec ↔ (r, v) ∈ G.spec))
    (hflight : ∀ r pa, pa ∉ Y → ((r, pa) ∈ G'.flight ↔ (r, pa) ∈ G.flight))
    (huse : ∀ q, q ∉ Y → G'.use q = G.use q) : Frame X Y G G' s s where
  procs := rfl
  initproc := rfl
  nextpid := rfl
  kheld := rfl
  root r _ _ := hroot r
  maps := hmaps
  spec := hspec
  leaf _ _ _ _ _ := rfl
  bytes _ _ _ _ _ _ := rfl
  flight := hflight
  keep q hq _ := ⟨huse q hq, fun _ _ => rfl⟩
  fresh q hq _ := (huse q hq).symm

omit [Layout] in
theorem Ghost.setUse_root {u : Use} (hu : G.use pa ≠ .root) (hu' : u ≠ .root) (q : Nat) :
    (G.setUse pa u).use q = .root ↔ G.use q = .root := by
  by_cases e : q = pa
  · subst e; simp [hu, hu']
  · rw [setUse_ne e]

/-! ## Mapping a held page -/

omit [Layout] in
theorem Leaves.tokens_zero {lf : Nat → Nat → Pte} (h : Leaves G lf) (hu : G.use pa ≠ .user) :
    G.tokens lf pa = 0 := by
  unfold Ghost.tokens
  have h1 : (G.maps.filter fun x => PTE2PA (lf x.1 x.2) = pa) = ∅ :=
    filter_eq_empty_iff.2 fun x hx => h.not_mapped (r := x.1) (v := x.2) hu hx
  have h2 : (G.flight.filter fun x => x.2 = pa) = ∅ :=
    filter_eq_empty_iff.2 fun x hx e => hu (e ▸ h.flight_user x.1 x.2 hx)
  rw [h1, h2]
  rfl

section

variable (h : Own G s) (hr : G.use r = .root) (hv : v < 2 ^ 26 - 2)
  (ha : leafAddr s.mem r v = some a)

include h hr hv ha

/-- **A held page becomes a user page of table `r`.** -/
theorem Own.mapHeld (hm : (r, v) ∉ G.maps) (hu : G.use (PTE2PA x) = .held)
    (hV : x.has PTE_V = true) (hR : x.has PTE_R = true) :
    Own ((G.setUse (PTE2PA x) .user).addMap r v) { s with mem := setPte s.mem a x } := by
  have hl1 : Leaves (G.setUse (PTE2PA x) .user) (leaf s.mem) :=
    h.leaves.setUse (by simp [hu]) (by simp) (fun _ _ => h.leaves.not_mapped (by simp [hu]))
      fun _ => h.leaves.not_flight (by simp [hu])
  have htok : ∀ q, ((G.setUse (PTE2PA x) .user).addMap r v).tokens (setLeaf (leaf s.mem) r v x) q =
      G.tokens (leaf s.mem) q + if PTE2PA x = q then 1 else 0 := fun q => tokens_addMap hm
  refine h.store (c := s.referCount) hr (by omega) ha
    ⟨fun q => ?_, h.pages.nodup, fun q hq => ?_, h.pages.wrapped, h.pages.byte⟩ (fun p hp => ?_)
    (hl1.addMap ?_ hv hV hR setUse_self hm (fun w hw => h.leaves.not_mapped (by simp [hu]) hw)
      (h.leaves.not_flight (by simp [hu]))) (fun q hq => ?_) fun q hq => ?_
  · rw [addMap_use]
    by_cases e : q = PTE2PA x
    · subst e
      simp only [setUse_self, reduceCtorEq, and_false, iff_false]
      exact fun hc => by simpa [hu] using ((h.pages.free_mem _).1 hc).2
    · rw [setUse_ne e]; exact h.pages.free_mem q
  · by_cases e : q = PTE2PA x
    · exact e ▸ h.isPage (by simp [hu])
    · rw [addMap_use, setUse_ne e] at hq; exact h.pages.page q hq
  · by_cases e : p = PTE2PA x
    · subst e; simp [hu, Use.IsTable] at hp
    · exact setUse_ne e
  · rw [setUse_ne (by rintro rfl; simp [hr] at hu)]; exact hr
  · rw [h.ref q hq]
    by_cases e : q = PTE2PA x
    · subst e
      have hz := h.leaves.tokens_zero (show G.use (PTE2PA x) ≠ .user by simp [hu])
      have hu' : ((G.setUse (PTE2PA x) .user).addMap r v).use (PTE2PA x) = .user :=
        setUse_self
      rw [refs_user hu', htok, if_pos rfl, hz]
      simp [Ghost.refs, hu]
    · refine (refs_congr (by simp [setUse_ne e]) fun _ => ?_).symm
      rw [htok, if_neg fun hc => e hc.symm]; rfl
  · rw [htok]
    by_cases e : q = PTE2PA x
    · rw [if_pos e.symm]; omega
    · have := h.user_pos q (by simpa [setUse_ne e] using hq)
      omega

theorem Frame.mapHeld (hu : G.use (PTE2PA x) = .held) (hX : (r, v) ∈ X) (hY : PTE2PA x ∈ Y) :
    Frame X Y G ((G.setUse (PTE2PA x) .user).addMap r v) s { s with mem := setPte s.mem a x } := by
  refine (Frame.store (c := s.referCount) h hr (by omega) ha hX).trans h.leaves (Frame.ghost
    (setUse_root (by simp [hu]) (by simp)) (fun r' v' hx => ?_) (fun _ _ _ => Iff.rfl)
    (fun _ _ _ => Iff.rfl) fun q hq => setUse_ne (ne_of_mem_of_not_mem hY hq).symm)
  rw [addMap_maps, mem_insert,
    or_iff_right (ne_of_mem_of_not_mem hX hx).symm]
  rfl

end

/-! ## Sharing a mapped page -/

/-- The page pool does not see mappings or bytes. -/
theorem Pages.congr (h : Pages G s) (hu : G'.use = G.use) {m : Nat → UInt8} {c : Nat → Nat}
    (hc : ∀ i, c i < 256) : Pages G' { s with mem := m, referCount := c } :=
  ⟨fun q => by rw [hu]; exact h.free_mem q, h.nodup, fun q => by rw [hu]; exact h.page q,
    h.wrapped, hc⟩

theorem increaseRefer_ok (hp : IsPage pa) (hc : s.referCount (refIdx pa) + 1 < 256) :
    increaseRefer pa s = .ok ((), { s with
      referCount := update s.referCount (refIdx pa) (s.referCount (refIdx pa) + 1) }) := by
  have e0 : (s.referCount (refIdx pa) == 255) = false := by
    rw [beq_eq_false_iff_ne]
    omega
  unfold increaseRefer
  rw [if_neg hp, modify_apply]
  simp only [incRef, Nat.mod_eq_of_lt hc, e0, Bool.or_false]

section

variable (h : Own G s)

include h

/-- **Table `r` shares a user page**, with one more reference. -/
theorem Own.share (hr : G.use r = .root) (hv : v < 2 ^ 26 - 2)
    (ha : leafAddr s.mem r v = some a) (hm : (r, v) ∉ G.maps) (hu : G.use (PTE2PA x) = .user)
    (hno : ∀ w, (r, w) ∈ G.maps → PTE2PA (leaf s.mem r w) ≠ PTE2PA x)
    (hf : (r, PTE2PA x) ∉ G.flight) (hV : x.has PTE_V = true) (hR : x.has PTE_R = true)
    (hc : s.referCount (refIdx (PTE2PA x)) + 1 < 256) :
    Own (G.addMap r v) { s with
      mem := setPte s.mem a x
      referCount := update s.referCount (refIdx (PTE2PA x))
        (s.referCount (refIdx (PTE2PA x)) + 1) } := by
  have hpa : IsPage (PTE2PA x) := h.isPage (by simp [hu])
  refine h.store hr (by omega) ha (h.pages.congr (by rfl) fun i => ?_) (fun _ _ => rfl)
    (h.leaves.addMap hr hv hV hR hu hm hno hf) (fun q hq => ?_) fun q hq => ?_
  · by_cases e : i = refIdx (PTE2PA x)
    · rwa [e, update_self]
    · rw [update_of_ne e]; exact h.pages.byte i
  · by_cases e : q = PTE2PA x
    · subst e
      rw [update_self, h.ref _ hq, refs_user hu, refs_user (by exact hu),
        tokens_addMap hm, if_pos rfl]
    · rw [update_of_ne fun hc => e (refIdx_inj hq hpa hc), h.ref q hq]
      refine (refs_congr (by rfl) fun _ => ?_).symm
      rw [tokens_addMap hm, if_neg fun hc => e hc.symm]
      rfl
  · rw [tokens_addMap hm]
    have := h.user_pos q hq
    omega

theorem Frame.share (hr : G.use r = .root) (hv : v < 2 ^ 27)
    (ha : leafAddr s.mem r v = some a) (hX : (r, v) ∈ X) {c : Nat → Nat} :
    Frame X Y G (G.addMap r v) s { s with mem := setPte s.mem a x, referCount := c } := by
  refine (Frame.store h hr hv ha hX).trans h.leaves (Frame.ghost (fun _ => Iff.rfl)
    (fun r' v' hx => ?_) (fun _ _ _ => Iff.rfl) (fun _ _ _ => Iff.rfl) fun _ _ => rfl)
  rw [addMap_maps, mem_insert, or_iff_right (ne_of_mem_of_not_mem hX hx).symm]

/-! ## Stores that keep the counts -/

theorem Own.store_same (hr : G.use r = .root) (hv : v < 2 ^ 27)
    (ha : leafAddr s.mem r v = some a) (hu : G'.use = G.use)
    (hl : Leaves G' (setLeaf (leaf s.mem) r v x))
    (htok : ∀ q, G'.tokens (setLeaf (leaf s.mem) r v x) q = G.tokens (leaf s.mem) q) :
    Own G' { s with mem := setPte s.mem a x } := by
  refine h.store (c := s.referCount) hr hv ha (h.pages.congr hu h.pages.byte)
    (fun p _ => congrFun hu p) hl (fun q hq => ?_) fun q hq => ?_
  · rw [h.ref q hq]
    exact (refs_congr (congrFun hu q) fun _ => htok q).symm
  · rw [htok]
    exact h.user_pos q (by rwa [← hu])

section

variable (hm : (r, v) ∈ G.maps) (ha : leafAddr s.mem r v = some a)

include hm ha

/-- **A leaf keeps its page, `V` and `R`.** -/
theorem Own.setFlags (hV : x.has PTE_V = (leaf s.mem r v).has PTE_V)
    (hR : x.has PTE_R = (leaf s.mem r v).has PTE_R) (hpa : PTE2PA x = PTE2PA (leaf s.mem r v)) :
    Own G { s with mem := setPte s.mem a x } := by
  have htok : ∀ q, G.tokens (setLeaf (leaf s.mem) r v x) q = G.tokens (leaf s.mem) q := fun q =>
    tokens_congr rfl rfl fun r' v' _ => by
      by_cases e : (r', v') = (r, v)
      · obtain ⟨rfl, rfl⟩ := Prod.mk.inj e
        rw [setLeaf_self, hpa]
      · rw [setLeaf_ne e]
  exact h.store_same (h.leaves.map_root r v hm) (h.leaves.lt hm) ha rfl
    (h.leaves.setLeaf hm hV hR hpa) htok

/-! ## Unmapping -/

/-- **A mapping is cleared**, and its reference is in flight. -/
theorem Own.unmap (h0 : x = 0#64) :
    Own ((G.delMap r v).addFlight r (PTE2PA (leaf s.mem r v)))
      { s with mem := setPte s.mem a x } := by
  have hf : (r, PTE2PA (leaf s.mem r v)) ∉ G.flight := fun hc => h.leaves.flight_ne r _ v hc hm rfl
  have htok : ∀ q, ((G.delMap r v).addFlight r (PTE2PA (leaf s.mem r v))).tokens
      (setLeaf (leaf s.mem) r v x) q = G.tokens (leaf s.mem) q := fun q => by
    rw [tokens_addFlight (G := G.delMap r v) hf, tokens_setLeaf (by simp), ← tokens_delMap hm]
  exact h.store_same (h.leaves.map_root r v hm) (h.leaves.lt hm) ha rfl (h.leaves.unmap hm h0) htok

theorem Frame.unmap (hX : (r, v) ∈ X) (hY : PTE2PA (Xv6.leaf s.mem r v) ∈ Y) :
    Frame X Y G ((G.delMap r v).addFlight r (PTE2PA (Xv6.leaf s.mem r v))) s
      { s with mem := setPte s.mem a x } := by
  refine (Frame.store (c := s.referCount) h (h.leaves.map_root r v hm) (h.leaves.lt hm) ha hX).trans
    h.leaves (Frame.ghost (fun _ => Iff.rfl) (fun r' v' hx => ?_) (fun _ _ _ => Iff.rfl)
      (fun r' q hq => ?_) fun _ _ => rfl)
  · rw [addFlight_maps, delMap_maps, mem_erase,
      and_iff_right (ne_of_mem_of_not_mem hX hx).symm]
  · rw [addFlight_flight, mem_insert, or_iff_right fun e => hq ?_]
    · rfl
    · rw [(Prod.mk.inj e).2]; exact hY

end

/-! ## The trampoline and trapframe mappings -/

theorem Own.addSpec (hr : G.use r = .root) (hv : 2 ^ 26 - 2 ≤ v ∧ v < 2 ^ 26)
    (ha : leafAddr s.mem r v = some a) (hV : x.has PTE_V = true) (hR : x.has PTE_R = true)
    (hU : x.has PTE_U = false) (hC : x.has PTE_RSW_COW = false) :
    Own (G.addSpec r v) { s with mem := setPte s.mem a x } := by
  have hm : (r, v) ∉ G.maps := fun hc => by have := h.leaves.map_lt r v hc; omega
  exact h.store_same hr (by omega) ha rfl (h.leaves.addSpec hr hv hV hR hU hC)
    fun q => tokens_setLeaf (G := G.addSpec r v) hm

theorem Frame.addSpec (hr : G.use r = .root) (hv : v < 2 ^ 27) (ha : leafAddr s.mem r v = some a)
    (hX : (r, v) ∈ X) : Frame X Y G (G.addSpec r v) s { s with mem := setPte s.mem a x } := by
  refine (Frame.store (c := s.referCount) h hr hv ha hX).trans h.leaves (Frame.ghost
    (fun _ => Iff.rfl) (fun _ _ _ => Iff.rfl) (fun r' v' hx => ?_) (fun _ _ _ => Iff.rfl)
    fun _ _ => rfl)
  rw [addSpec_spec, mem_insert, or_iff_right (ne_of_mem_of_not_mem hX hx).symm]

theorem Own.delSpec (hs : (r, v) ∈ G.spec) (ha : leafAddr s.mem r v = some a)
    (h0 : x = 0#64) : Own (G.delSpec r v) { s with mem := setPte s.mem a x } := by
  have hm : (r, v) ∉ G.maps := fun hc => by
    have := h.leaves.map_lt r v hc
    have := h.leaves.spec_lt r v hs
    omega
  exact h.store_same (h.leaves.spec_root r v hs) (h.leaves.spec_lt' hs) ha rfl
    (h.leaves.delSpec hs h0) fun q => tokens_setLeaf (G := G.delSpec r v) hm

theorem Frame.delSpec (hs : (r, v) ∈ G.spec) (ha : leafAddr s.mem r v = some a)
    (hX : (r, v) ∈ X) : Frame X Y G (G.delSpec r v) s { s with mem := setPte s.mem a x } := by
  refine (Frame.store (c := s.referCount) h (h.leaves.spec_root r v hs) (h.leaves.spec_lt' hs) ha
    hX).trans h.leaves (Frame.ghost (fun _ => Iff.rfl) (fun _ _ _ => Iff.rfl) (fun r' v' hx => ?_)
      (fun _ _ _ => Iff.rfl) fun _ _ => rfl)
  rw [delSpec_spec, mem_erase, and_iff_right (ne_of_mem_of_not_mem hX hx).symm]

end

/-! ## Dropping a reference -/

/-- The ghost state after `kfree` of a reference in flight. -/
def Ghost.dropRef (G : Ghost) (lf : Nat → Nat → Pte) (r pa : Nat) : Ghost :=
  if G.tokens lf pa = 1 then (G.delFlight r pa).setUse pa .free else G.delFlight r pa

omit [Layout] in
@[simp] theorem Ghost.dropRef_maps {lf : Nat → Nat → Pte} : (G.dropRef lf r pa).maps = G.maps := by
  unfold Ghost.dropRef
  split <;> rfl

omit [Layout] in
@[simp] theorem Ghost.dropRef_flight {lf : Nat → Nat → Pte} :
    (G.dropRef lf r pa).flight = G.flight.erase (r, pa) := by
  unfold Ghost.dropRef
  split <;> rfl

omit [Layout] in
/-- …and a user page is in no tree. -/
theorem Growth.dropRef {lf : Nat → Nat → Pte} (h : G.use pa = .user) :
    Growth X G (G.dropRef lf r pa) := by
  unfold Ghost.dropRef
  split
  · exact Growth.setUse (G := G.delFlight r pa) (by rw [delFlight_use, h]; trivial) trivial
  · exact Growth.of_use rfl

/-- **`kfree` of a reference in flight**: the page stays with its other owners, or is free. -/
theorem kfree_flight (h : Own G s) (hf : (r, pa) ∈ G.flight) :
    ∃ s', kfree pa s = .ok ((), s') ∧ Own (G.dropRef (leaf s.mem) r pa) s' ∧
      Frame X {pa} G (G.dropRef (leaf s.mem) r pa) s s' ∧
      s.freelist.length ≤ s'.freelist.length := by
  have hu := h.leaves.flight_user r pa hf
  have hpa : IsPage pa := h.isPage (by simp [hu])
  have ht : ¬ (G.use pa).IsTable := by simp [hu, Use.IsTable]
  have href : s.referCount (refIdx pa) = G.tokens (leaf s.mem) pa := by
    rw [h.ref pa hpa, refs_user hu]
  have htok : ∀ q, G.tokens (leaf s.mem) q =
      (G.delFlight r pa).tokens (leaf s.mem) q + if pa = q then 1 else 0 :=
    fun q => tokens_delFlight hf
  have hpa1 := htok pa
  rw [if_pos rfl] at hpa1
  have htok' : ∀ q, q ≠ pa → (G.delFlight r pa).tokens (leaf s.mem) q = G.tokens (leaf s.mem) q :=
    fun q e => by rw [htok q, if_neg fun hc => e hc.symm]; rfl
  have hdrop : Frame X {pa} G (G.delFlight r pa) s s := Frame.ghost (fun _ => Iff.rfl)
    (fun _ _ _ => Iff.rfl) (fun _ _ _ => Iff.rfl) (fun r' q hq => by
      rw [delFlight_flight, mem_erase, and_iff_right fun e => hq (Prod.mk.inj e).2])
    fun _ _ => rfl
  have hb : OwnBut pa (G.delFlight r pa) s :=
    ⟨⟨h.pages.free_mem, h.pages.nodup, h.pages.page, h.pages.wrapped, h.pages.byte⟩, h.tables,
      h.leaves.delFlight,
      fun q e hq => by
        rw [h.ref q hq]
        exact (refs_congr (by rfl) fun _ => htok' q e).symm,
      fun q e hq => by rw [htok' q e]; exact h.user_pos q hq⟩
  by_cases h1 : G.tokens (leaf s.mem) pa = 1
  · -- the last reference
    obtain ⟨hm, hfl⟩ := tokens_eq_zero (show (G.delFlight r pa).tokens (leaf s.mem) pa = 0 by omega)
    refine ⟨_, kfree_last hpa (by omega), ?_, ?_, Nat.le_succ _⟩
    · rw [Ghost.dropRef, if_pos h1]
      exact hb.kfree_last hpa (by simp [hu]) ht hm hfl
    · rw [Ghost.dropRef, if_pos h1]
      exact (Frame.setUse (u := .free) h hpa ht (by simp [Use.IsTable]) hm).trans h.leaves
        (Frame.ghost (fun _ => Iff.rfl) (fun _ _ _ => Iff.rfl) (fun _ _ _ => Iff.rfl) hdrop.flight
          fun _ _ => rfl)
  · have hpos := h.user_pos pa hu
    refine ⟨_, kfree_shared hpa (by omega) (h.pages.byte _), ?_, ?_, le_rfl⟩
    · rw [Ghost.dropRef, if_neg h1]
      refine hb.close hpa (by have := h.pages.byte (refIdx pa); omega) ?_ fun _ => by omega
      rw [refs_user (by exact hu)]
      omega
    · rw [Ghost.dropRef, if_neg h1]
      exact { hdrop with }

end Xv6
