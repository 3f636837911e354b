import Xv6.Vm.OwnAlloc

/-!
# Vm/OwnMap — ownership across stores to leaf entries

One store to a level-0 entry changes one leaf.  Around it the ghost state gains or loses a mapping:
a held page is mapped (`mapHeld`), a mapped page is shared (`share`), remapped to a copy (`remap`)
or unmapped (`unmap`), and the trampoline and trapframe mappings come and go (`addSpec`,
`delSpec`).  A reference that has lost its mapping is in flight until `kfree` takes it
(`kfree_flight`).
-/

namespace Xv6

open Act Bytes Finset

/-! ## Changing one leaf -/

/-- The leaves with one changed. -/
def setLeaf (lf : Nat → Nat → Pte) (r v : Nat) (x : Pte) : Nat → Nat → Pte :=
  fun r' v' => if r' = r ∧ v' = v then x else lf r' v'

namespace Ghost

def addMap (G : Ghost) (r v : Nat) : Ghost := { G with maps := insert (r, v) G.maps }
def delMap (G : Ghost) (r v : Nat) : Ghost := { G with maps := G.maps.erase (r, v) }
def addSpec (G : Ghost) (r v : Nat) : Ghost := { G with spec := insert (r, v) G.spec }
def delSpec (G : Ghost) (r v : Nat) : Ghost := { G with spec := G.spec.erase (r, v) }
def addFlight (G : Ghost) (r pa : Nat) : Ghost := { G with flight := insert (r, pa) G.flight }
def delFlight (G : Ghost) (r pa : Nat) : Ghost := { G with flight := G.flight.erase (r, pa) }

end Ghost

section

variable {G : Ghost} {lf : Nat → Nat → Pte} {pa q r v r' v' : Nat} {x : Pte} {u : Use}

@[simp] theorem setLeaf_self : setLeaf lf r v x r v = x := by simp [setLeaf]

theorem setLeaf_ne (h : (r', v') ≠ (r, v)) : setLeaf lf r v x r' v' = lf r' v' :=
  if_neg fun e => h (by rw [e.1, e.2])

theorem setLeaf_id : setLeaf lf r v (lf r v) = lf := by
  funext r' v'
  unfold setLeaf
  split
  · rename_i h; rw [h.1, h.2]
  · rfl

namespace Ghost

@[simp] theorem addMap_use : (G.addMap r v).use = G.use := rfl
@[simp] theorem addMap_maps : (G.addMap r v).maps = insert (r, v) G.maps := rfl
@[simp] theorem addMap_flight : (G.addMap r v).flight = G.flight := rfl
@[simp] theorem delMap_use : (G.delMap r v).use = G.use := rfl
@[simp] theorem delMap_maps : (G.delMap r v).maps = G.maps.erase (r, v) := rfl
@[simp] theorem delMap_flight : (G.delMap r v).flight = G.flight := rfl
@[simp] theorem addSpec_use : (G.addSpec r v).use = G.use := rfl
@[simp] theorem addSpec_spec : (G.addSpec r v).spec = insert (r, v) G.spec := rfl
@[simp] theorem delSpec_use : (G.delSpec r v).use = G.use := rfl
@[simp] theorem delSpec_maps : (G.delSpec r v).maps = G.maps := rfl
@[simp] theorem delSpec_spec : (G.delSpec r v).spec = G.spec.erase (r, v) := rfl
@[simp] theorem addFlight_use : (G.addFlight r pa).use = G.use := rfl
@[simp] theorem addFlight_maps : (G.addFlight r pa).maps = G.maps := rfl
@[simp] theorem addFlight_flight : (G.addFlight r pa).flight = insert (r, pa) G.flight := rfl
@[simp] theorem delFlight_use : (G.delFlight r pa).use = G.use := rfl
@[simp] theorem delFlight_flight : (G.delFlight r pa).flight = G.flight.erase (r, pa) := rfl

/-! ## Counting -/

/-- A new mapping is one more reference to its page. -/
theorem tokens_addMap (h : (r, v) ∉ G.maps) :
    (G.addMap r v).tokens (setLeaf lf r v x) pa =
      G.tokens lf pa + if PTE2PA x = pa then 1 else 0 := by
  have hold : G.maps.filter (fun y => PTE2PA (setLeaf lf r v x y.1 y.2) = pa) =
      G.maps.filter fun y => PTE2PA (lf y.1 y.2) = pa :=
    filter_congr fun y hy => by rw [setLeaf_ne fun e => h (e ▸ hy)]
  unfold tokens
  simp only [addMap_maps, addMap_flight, filter_insert, setLeaf_self, hold]
  split
  · rw [card_insert_of_notMem fun hc => h (mem_filter.1 hc).1]
    omega
  · rfl

theorem addMap_delMap (h : (r, v) ∈ G.maps) : (G.delMap r v).addMap r v = G := by
  simp [addMap, delMap, insert_erase h]

/-- A mapping given up is one reference less… -/
theorem tokens_delMap (h : (r, v) ∈ G.maps) :
    G.tokens lf pa =
      (G.delMap r v).tokens lf pa + if PTE2PA (lf r v) = pa then 1 else 0 := by
  have e : ((G.delMap r v).addMap r v).tokens (setLeaf lf r v (lf r v)) pa = _ :=
    tokens_addMap (by simp)
  rwa [addMap_delMap h, setLeaf_id] at e

/-- …and what its leaf then holds does not matter. -/
theorem tokens_setLeaf (h : (r, v) ∉ G.maps) :
    G.tokens (setLeaf lf r v x) pa = G.tokens lf pa :=
  tokens_congr rfl rfl fun r' v' hy => by rw [setLeaf_ne fun e => h (e ▸ hy)]

theorem tokens_addFlight (h : (r, q) ∉ G.flight) :
    (G.addFlight r q).tokens lf pa = G.tokens lf pa + if q = pa then 1 else 0 := by
  unfold tokens
  simp only [addFlight_maps, addFlight_flight, filter_insert]
  split
  · rw [card_insert_of_notMem fun hc => h (mem_filter.1 hc).1]
    omega
  · rfl

theorem tokens_delFlight (h : (r, q) ∈ G.flight) :
    G.tokens lf pa = (G.delFlight r q).tokens lf pa + if q = pa then 1 else 0 := by
  have e : ((G.delFlight r q).addFlight r q).tokens lf pa = _ := tokens_addFlight (by simp)
  rwa [show (G.delFlight r q).addFlight r q = G by
    simp [addFlight, delFlight, insert_erase h]] at e

/-- A page without references is neither mapped nor in flight. -/
theorem tokens_eq_zero (h : G.tokens lf pa = 0) :
    (∀ r v, (r, v) ∈ G.maps → PTE2PA (lf r v) ≠ pa) ∧ ∀ r, (r, pa) ∉ G.flight := by
  unfold tokens at h
  obtain ⟨h1, h2⟩ := Nat.add_eq_zero_iff.1 h
  rw [card_eq_zero, filter_eq_empty_iff] at h1 h2
  exact ⟨fun r v hx => h1 (x := (r, v)) hx, fun r hx => h2 (x := (r, pa)) hx rfl⟩

end Ghost

/-! ## The mappings -/

namespace Leaves

/-- **Mapping a user page**, that this table does not map or hold a reference to yet. -/
theorem addMap (h : Leaves G lf) (hr : G.use r = .root) (hv : v < 2 ^ 26 - 2)
    (hV : x.has PTE_V = true) (hR : x.has PTE_R = true) (hu : G.use (PTE2PA x) = .user)
    (hm : (r, v) ∉ G.maps) (hno : ∀ w, (r, w) ∈ G.maps → PTE2PA (lf r w) ≠ PTE2PA x)
    (hf : (r, PTE2PA x) ∉ G.flight) : Leaves (G.addMap r v) (setLeaf lf r v x) := by
  have hs : (r, v) ∉ G.spec := fun hc => by have := h.spec_lt r v hc; omega
  have old : ∀ {r' v'}, (r', v') ∈ G.maps → setLeaf lf r v x r' v' = lf r' v' :=
    fun hx => setLeaf_ne fun e => hm (e ▸ hx)
  have old' : ∀ {r' v'}, (r', v') ∈ G.spec → setLeaf lf r v x r' v' = lf r' v' :=
    fun hx => setLeaf_ne fun e => hs (e ▸ hx)
  have cases : ∀ {r' v'}, (r', v') ∈ (G.addMap r v).maps → (r' = r ∧ v' = v) ∨ (r', v') ∈ G.maps :=
    fun hx => by simpa using hx
  refine .of (fun r' v' hx => ?_) (fun r' v' hx => by rw [old' hx]; exact h.special hx)
    (fun r' v' hr' hv' hx => ?_) (fun r' v' w hx hy e => ?_)
    (fun r' p hx => ⟨h.flight_root r' p hx, h.flight_user r' p hx⟩) fun r' p v' hx hy => ?_
  · rcases cases hx with ⟨rfl, rfl⟩ | hx
    · rw [setLeaf_self]
      exact ⟨hr, hv, hV, hR, hu⟩
    · rw [old hx]
      exact h.map hx
  · by_cases e : (r', v') = (r, v)
    · left; rw [Ghost.addMap_maps, e]; exact mem_insert_self _ _
    · rw [setLeaf_ne e] at hx
      exact (h.only r' v' hr' hv' hx).imp_left fun hx => mem_insert_of_mem hx
  · rcases cases hx with ⟨rfl, rfl⟩ | hx' <;> rcases cases hy with ⟨e1, rfl⟩ | hy'
    · rfl
    · rw [setLeaf_self, old hy'] at e
      exact absurd e.symm (hno w hy')
    · subst e1
      rw [setLeaf_self, old hx'] at e
      exact absurd e (hno v' hx')
    · rw [old hx', old hy'] at e
      exact h.inj r' v' w hx' hy' e
  · rcases cases hy with ⟨rfl, rfl⟩ | hy
    · rw [setLeaf_self]
      rintro rfl
      exact hf hx
    · rw [old hy]
      exact h.flight_ne r' p v' hx hy

/-- A leaf that is not empty is not the one that has been cleared. -/
theorem ne_of_setLeaf {r' v' : Nat} (h0 : x = 0#64) (hx : setLeaf lf r v x r' v' ≠ 0#64) :
    (r', v') ≠ (r, v) ∧ lf r' v' ≠ 0#64 := by
  have e : (r', v') ≠ (r, v) := fun e => by
    obtain ⟨rfl, rfl⟩ := Prod.mk.inj e
    rw [setLeaf_self] at hx
    exact hx h0
  rw [setLeaf_ne e] at hx
  exact ⟨e, hx⟩

section

variable (h : Leaves G lf)

include h

/-- **Giving a mapping up**, with its reference now in flight. -/
theorem unmap (hm : (r, v) ∈ G.maps) (h0 : x = 0#64) :
    Leaves ((G.delMap r v).addFlight r (PTE2PA (lf r v))) (setLeaf lf r v x) := by
  have hs : (r, v) ∉ G.spec := fun hc => by
    have := h.spec_lt r v hc
    have := h.map_lt r v hm
    omega
  have sub : ∀ {r' v'}, (r', v') ∈ G.maps.erase (r, v) →
      (r', v') ∈ G.maps ∧ setLeaf lf r v x r' v' = lf r' v' := fun hx =>
    ⟨mem_of_mem_erase hx, setLeaf_ne (ne_of_mem_erase hx)⟩
  have old' : ∀ {r' v'}, (r', v') ∈ G.spec → setLeaf lf r v x r' v' = lf r' v' :=
    fun hx => setLeaf_ne fun e => hs (e ▸ hx)
  have cases : ∀ {r' p}, (r', p) ∈ insert (r, PTE2PA (lf r v)) G.flight →
      (r' = r ∧ p = PTE2PA (lf r v)) ∨ (r', p) ∈ G.flight := fun hx => by simpa using hx
  refine .of (fun r' v' hx => by rw [(sub hx).2]; exact h.map (sub hx).1)
    (fun r' v' hx => by rw [old' hx]; exact h.special hx) (fun r' v' hr' hv' hx => ?_)
    (fun r' v' w hx hy e => ?_) (fun r' p hx => ?_) fun r' p v' hx hy => ?_
  · obtain ⟨e, hx⟩ := ne_of_setLeaf h0 hx
    exact (h.only r' v' hr' hv' hx).imp_left fun hx => mem_erase.2 ⟨e, hx⟩
  · rw [(sub hx).2, (sub hy).2] at e
    exact h.inj r' v' w (sub hx).1 (sub hy).1 e
  · rcases cases hx with ⟨rfl, rfl⟩ | hx
    exacts [⟨h.map_root r' v hm, h.map_user r' v hm⟩,
      ⟨h.flight_root r' p hx, h.flight_user r' p hx⟩]
  · rw [(sub hy).2]
    rcases cases hx with ⟨rfl, rfl⟩ | hx
    · exact fun e => ne_of_mem_erase hy (by rw [h.inj r' v' v (sub hy).1 hm e])
    · exact h.flight_ne r' p v' hx (sub hy).1

theorem delFlight : Leaves (G.delFlight r pa) lf :=
  { h with
    flight_root := fun r' p hx => h.flight_root r' p (mem_of_mem_erase hx)
    flight_user := fun r' p hx => h.flight_user r' p (mem_of_mem_erase hx)
    flight_ne := fun r' p v' hx => h.flight_ne r' p v' (mem_of_mem_erase hx) }

/-- A leaf that is no mapping changes with the special pages. -/
theorem setSpec {S : Finset (Nat × Nat)} (hm : (r, v) ∉ G.maps)
    (hs : ∀ r' v', (r', v') ∈ S → SpecLeaf G r' v' (setLeaf lf r v x r' v'))
    (ho : ∀ r' v', setLeaf lf r v x r' v' ≠ 0#64 → (r', v') ∉ S → lf r' v' ≠ 0#64 ∧
      (r', v') ∉ G.spec) :
    Leaves { G with spec := S } (setLeaf lf r v x) := by
  have old : ∀ {r' v'}, (r', v') ∈ G.maps → setLeaf lf r v x r' v' = lf r' v' :=
    fun hx => setLeaf_ne fun e => hm (e ▸ hx)
  refine .of (fun r' v' hx => by rw [old hx]; exact h.map hx) hs (fun r' v' hr' hv' hx => ?_)
    (fun r' v' w hx hy e => h.inj r' v' w hx hy (by rwa [old hx, old hy] at e))
    (fun r' p hx => ⟨h.flight_root r' p hx, h.flight_user r' p hx⟩)
    fun r' p v' hx hy => by rw [old hy]; exact h.flight_ne r' p v' hx hy
  by_cases hS : (r', v') ∈ S
  · exact .inr hS
  · obtain ⟨h1, h2⟩ := ho r' v' hx hS
    exact .inl ((h.only r' v' hr' hv' h1).resolve_right h2)

theorem addSpec (hr : G.use r = .root) (hv : 2 ^ 26 - 2 ≤ v ∧ v < 2 ^ 26)
    (hV : x.has PTE_V = true) (hR : x.has PTE_R = true) (hU : x.has PTE_U = false)
    (hC : x.has PTE_RSW_COW = false) :
    Leaves (G.addSpec r v) (setLeaf lf r v x) := by
  refine h.setSpec (fun hc => by have := h.map_lt r v hc; omega)
    (fun r' v' hx => ?_) fun r' v' hx hS => ?_
  · by_cases e : (r', v') = (r, v)
    · obtain ⟨rfl, rfl⟩ := Prod.mk.inj e
      rw [setLeaf_self]
      exact ⟨hr, hv, hV, hR, hU, hC⟩
    · rw [setLeaf_ne e]
      exact h.special (mem_of_mem_insert_of_ne hx e)
  · rw [mem_insert, not_or] at hS
    rw [setLeaf_ne hS.1] at hx
    exact ⟨hx, hS.2⟩

theorem delSpec (hs : (r, v) ∈ G.spec) (h0 : x = 0#64) :
    Leaves (G.delSpec r v) (setLeaf lf r v x) := by
  refine h.setSpec (fun hc => ?_) (fun r' v' hx => ?_) fun r' v' hx hS => ?_
  · have := h.map_lt r v hc
    have := h.spec_lt r v hs
    omega
  · rw [setLeaf_ne (ne_of_mem_erase hx)]
    exact h.special (mem_of_mem_erase hx)
  · obtain ⟨e, hx⟩ := ne_of_setLeaf h0 hx
    exact ⟨hx, fun hc => hS (mem_erase.2 ⟨e, hc⟩)⟩

/-- Changing the flags of a leaf, other than `V` and `R`. -/
theorem setLeaf (hm : (r, v) ∈ G.maps) (hV : x.has PTE_V = (lf r v).has PTE_V)
    (hR : x.has PTE_R = (lf r v).has PTE_R) (hpa : PTE2PA x = PTE2PA (lf r v)) :
    Leaves G (setLeaf lf r v x) := by
  have e : ∀ {α : Type} (f : Pte → α), f x = f (lf r v) → ∀ r' v',
      f (Xv6.setLeaf lf r v x r' v') = f (lf r' v') := fun f hf r' v' => by
    unfold Xv6.setLeaf
    split
    · rename_i h; rw [h.1, h.2, hf]
    · rfl
  refine h.congr (fun r' v' _ _ => e (·.has PTE_V) hV r' v') (fun r' v' _ _ hx => ?_)
    (fun r' v' _ => e (·.has PTE_R) hR r' v') (fun r' v' hs => setLeaf_ne fun he => ?_)
    fun r' v' _ => e PTE2PA hpa r' v'
  · by_cases he : (r', v') = (r, v)
    · obtain ⟨rfl, rfl⟩ := Prod.mk.inj he
      exact Pte.ne_zero_of_has (h.map_V r' v' hm)
    · rwa [setLeaf_ne he] at hx
  obtain ⟨rfl, rfl⟩ := Prod.mk.inj he
  have h1 := h.spec_lt r' v' hs
  have h2 := h.map_lt r' v' hm
  omega

end

end Leaves

end

end Xv6
