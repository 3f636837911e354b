import Xv6.Vm.OwnLeaf

/-!
# Vm/OwnTable — ownership across changes to the trees

`walk` with allocation links a fresh page into a table (`Own.link`), `freewalk` unlinks empty ones
(`Own.unlink`), `uvmcreate` turns a zeroed page into a root and the last step of `freewalk` turns a
bare root into a page to be freed.
-/

namespace Xv6

open Act Bytes Ghost

variable [Layout] {G G' : Ghost} {s s' : KState} {t j c r v p : Nat} {w : Use}
  {X : Set (Nat × Nat)} {Y : Set Nat} {m : Nat → UInt8}

/-! ## Pages owned by the kernel -/

omit [Layout] in
theorem Ghost.refs_kernel {lf : Nat → Nat → Pte} (h : (G.use p).Kernel) : G.refs lf p = 1 := by
  unfold Ghost.refs
  obtain ⟨h1, h2⟩ := h
  cases hu : G.use p <;> simp_all

/-- **A kernel page changes hands inside the kernel.** -/
theorem Own.reuse (h : Own G s) (hc : (G.use c).Kernel) (hw : w.Kernel)
    (ht : Tables (G.setUse c w).use m) (hl : Leaves (G.setUse c w) (leaf m))
    (hpa : ∀ r v, (r, v) ∈ G.maps → PTE2PA (leaf m r v) = PTE2PA (leaf s.mem r v)) :
    Own (G.setUse c w) { s with mem := m } := by
  have htok : ∀ q, (G.setUse c w).tokens (leaf m) q = G.tokens (leaf s.mem) q := fun q =>
    tokens_congr rfl rfl hpa
  refine ⟨⟨fun q => ?_, h.pages.nodup, fun q hq => ?_, h.pages.wrapped, h.pages.byte⟩, ht, hl,
    fun q hq => ?_, fun q hq => ?_⟩
  · by_cases e : q = c
    · subst e
      rw [setUse_self, h.pages.free_mem q]
      exact ⟨fun hx => absurd hx.2 hc.1, fun hx => absurd hx.2 hw.1⟩
    · rw [setUse_ne e]; exact h.pages.free_mem q
  · by_cases e : q = c
    · exact e ▸ h.isPage hc.1
    · rw [setUse_ne e] at hq; exact h.pages.page q hq
  · by_cases e : q = c
    · subst e
      rw [show s.referCount (refIdx q) = _ from h.ref q hq, refs_kernel hc,
        refs_kernel (by rwa [setUse_self])]
    · rw [show s.referCount (refIdx q) = _ from h.ref q hq]
      exact (refs_congr (setUse_ne e) fun _ => htok q).symm
  · have e : q ≠ c := by rintro rfl; exact hw.2 (by simpa using hq)
    rw [htok]
    exact h.user_pos q (by rwa [setUse_ne e] at hq)

/-- A held page becomes a trapframe, and back. -/
theorem Own.retype (h : Own G s) (hc : (G.use c).Stays) (hw : w.Stays) : Own (G.setUse c w) s := by
  have hk : ∀ {u : Use}, u.Stays → u.Kernel ∧ ¬ u.IsTable := fun hu => by
    rcases hu with rfl | ⟨p, rfl⟩ <;> simp [Use.Kernel, Use.IsTable]
  have hroot : ∀ {u : Use}, u.Stays → u ≠ .root := fun hu => by
    rcases hu with rfl | ⟨p, rfl⟩ <;> simp
  exact h.reuse (hk hc).1 (hk hw).1 (h.tables.setUse (hk hc).2 (hk hw).2)
    (h.leaves.setUse (hroot hc) (hroot hw) (fun _ _ => h.leaves.not_mapped (hk hc).1.2)
      fun _ => h.leaves.not_flight (hk hc).1.2) fun _ _ _ => rfl

omit [Layout] in
theorem Frame.retype (hc : (G.use c).Stays) (hw : w.Stays) (hY : c ∈ Y) :
    Frame X Y G (G.setUse c w) s s := by
  have hroot : ∀ {u : Use}, u.Stays → u ≠ .root := fun hu => by
    rcases hu with rfl | ⟨p, rfl⟩ <;> simp
  exact Frame.ghost (setUse_root (hroot hc) (hroot hw)) (fun _ _ _ => Iff.rfl)
    (fun _ _ _ => Iff.rfl) (fun _ _ _ => Iff.rfl)
    fun q hq => setUse_ne (ne_of_mem_of_not_mem hY hq).symm

/-! ## Linking a table -/

/-- A store to an entry of one table page leaves the entries of the others. -/
theorem Own.entry_ne (h : Own G s) (ht : (G.use t).IsTable) (hj : j < 512) {k : Nat}
    (hp : G.use p ≠ .free) (hk : k < 512) {x : Pte} (hne : (p, k) ≠ (t, j)) :
    pteAt (setPte s.mem (t + 8 * j) x) (p + 8 * k) = pteAt s.mem (p + 8 * k) := by
  exact pteAt_entry_ne (h.paged t ht.ne_free).1 (h.paged p hp).1 hj hk hne

theorem Own.link_tables (h : Own G s) (hP : Parent G.use t j w)
    (hinv : (pteAt s.mem (t + 8 * j)).has PTE_V = false) (hc : G.use c = .held)
    (hz : ∀ o < 4096, s.mem (c + o) = 0) :
    Tables (G.setUse c w).use (setPte s.mem (t + 8 * j) (tableEntry c)) :=
  h.tables.link h.paged hP hinv (by simp [hc, Use.IsTable]) (h.paged c (by simp [hc])).1 hz

/-- Linking an empty table changes no leaf. -/
theorem Own.link_leaf (h : Own G s) (hP : Parent G.use t j w)
    (hinv : (pteAt s.mem (t + 8 * j)).has PTE_V = false) (hc : G.use c = .held)
    (hz : ∀ o < 4096, s.mem (c + o) = 0) (hr : G.use r = .root) (hv : v < 2 ^ 27) :
    leaf (setPte s.mem (t + 8 * j) (tableEntry c)) r v = leaf s.mem r v := by
  have ht := h.link_tables hP hinv hc hz
  have hp' : Paged (G.setUse c w).use := fun p hp => by
    by_cases e : p = c
    · exact e ▸ h.paged c (by simp [hc])
    · rw [setUse_ne e] at hp; exact h.paged p hp
  have hk : v % 512 < 512 := Nat.mod_lt _ (by decide)
  have hrc : r ≠ c := by rintro rfl; simp [hr] at hc
  by_cases hex : ∃ p, (G.setUse c w).use p = .low r (v / 512)
  · obtain ⟨p, hp⟩ := hex
    have e' := ht.leaf_low hp' hp hk
    rw [Nat.div_add_mod] at e'
    rw [e']
    by_cases hpc : p = c
    · -- the new page covers `v`: no page did before
      subst hpc
      rw [setUse_self] at hp
      have hct : (p, v % 512) ≠ (t, j) := fun e => by
        have htt := hP.table
        rw [← (Prod.mk.inj e).1, hc] at htt
        exact htt
      rw [h.entry_ne hP.table hP.1 (by simp [hc]) hk hct, h.tables.leaf_none h.paged hr hv]
      · exact pteAt_zero hz hk
      · intro q hq
        obtain ⟨t', h1, h2⟩ := h.tables.low_parent q r _ hq
        rcases hP.2 with ⟨-, hw⟩ | ⟨r', i', h3, hw⟩
        · simp [hw] at hp
        · obtain ⟨rfl, hvi⟩ : r' = r ∧ 512 * i' + j = v / 512 := by simpa [hw] using hp
          have hj := hP.1
          rw [← hvi, show (512 * i' + j) / 512 = i' by omega] at h1
          rw [← hvi, show (512 * i' + j) % 512 = j by omega,
            h.tables.mid_unique h.paged h1 h3] at h2
          rw [h2, tableEntry_V] at hinv
          exact Bool.noConfusion hinv
    · rw [setUse_ne hpc] at hp
      have e := h.tables.leaf_low h.paged hp hk
      rw [Nat.div_add_mod] at e
      rw [e, h.entry_ne hP.table hP.1 (by simp [hp]) hk fun e => ?_]
      exact hP.not_low r (v / 512) ((Prod.mk.inj e).1 ▸ hp)
  · have hex' : ∀ p, (G.setUse c w).use p ≠ .low r (v / 512) := fun p hp => hex ⟨p, hp⟩
    rw [ht.leaf_none hp' (by rw [setUse_ne hrc]; exact hr) hv hex',
      h.tables.leaf_none h.paged hr hv fun p hp => hex' p ?_]
    rw [setUse_ne (by rintro rfl; simp [hp] at hc)]
    exact hp

/-- **A zeroed page becomes a table page.** -/
theorem Own.link (h : Own G s) (hP : Parent G.use t j w)
    (hinv : (pteAt s.mem (t + 8 * j)).has PTE_V = false) (hc : G.use c = .held)
    (hz : ∀ o < 4096, s.mem (c + o) = 0) :
    Own (G.setUse c w) { s with mem := setPte s.mem (t + 8 * j) (tableEntry c) } := by
  have hl : ∀ r v, G.use r = .root → v < 2 ^ 27 →
      leaf (setPte s.mem (t + 8 * j) (tableEntry c)) r v = leaf s.mem r v :=
    fun r v hr hv => h.link_leaf hP hinv hc hz hr hv
  refine h.reuse (by simp [hc, Use.Kernel]) hP.kernel.1 (h.link_tables hP hinv hc hz)
    ((h.leaves.congr_leaf hl).setUse (by simp [hc]) hP.kernel.2 (fun r v hm => ?_)
      fun r => h.leaves.not_flight (by simp [hc]))
    fun r v hm => by rw [hl r v (h.leaves.map_root r v hm) (h.leaves.lt hm)]
  rw [hl r v (h.leaves.map_root r v hm) (h.leaves.lt hm)]
  exact h.leaves.not_mapped (by simp [hc]) hm

/-- What a store to the table pages leaves alone. -/
theorem Frame.table (h : Own G s)
    (hm : ∀ q, IsPage q → ¬ (G.use q).IsTable → ∀ o < 4096, m (q + o) = s.mem (q + o))
    (hl : ∀ r v, (r, v) ∉ X → G.use r = .root → v < 2 ^ 27 →
      Xv6.leaf m r v = Xv6.leaf s.mem r v) :
    Frame X Y G G s { s with mem := m } where
  procs := rfl
  initproc := rfl
  nextpid := rfl
  kheld := rfl
  root _ _ _ := Iff.rfl
  maps _ _ _ := Iff.rfl
  spec _ _ _ := Iff.rfl
  leaf := hl
  bytes r v _ hx := hm _ (h.mapped hx) (by rw [h.leaves.map_user r v hx]; simp [Use.IsTable])
  flight _ _ _ := Iff.rfl
  keep q _ hs := ⟨rfl, hm q (h.isPage hs.ne_free)
    (by rcases hs with e | ⟨p, e⟩ <;> simp [e, Use.IsTable])⟩
  fresh _ _ _ := rfl

theorem Own.entry_out (h : Own G s) (ht : (G.use t).IsTable) (hj : j < 512) {x : Pte} {q o : Nat}
    (hq : IsPage q) (hne : ¬ (G.use q).IsTable) (ho : o < 4096) :
    setPte s.mem (t + 8 * j) x (q + o) = s.mem (q + o) := by
  have ht' : IsPage t := h.isPage (by intro e; simp [e, Use.IsTable] at ht)
  have hqt : q ≠ t := fun e => hne (e ▸ ht)
  have h1 := ht'.bounds
  have h2 := hq.bounds
  exact setPte_out (by omega)

theorem Frame.link (h : Own G s) (hP : Parent G.use t j w)
    (hinv : (pteAt s.mem (t + 8 * j)).has PTE_V = false) (hc : G.use c = .held)
    (hz : ∀ o < 4096, s.mem (c + o) = 0) (hY : c ∈ Y) :
    Frame X Y G (G.setUse c w) s { s with mem := setPte s.mem (t + 8 * j) (tableEntry c) } :=
  (Frame.table h (fun q hq hne o ho => h.entry_out hP.table hP.1 hq hne ho)
    fun r v _ hr hv => h.link_leaf hP hinv hc hz hr hv).trans h.leaves
    (Frame.ghost (setUse_root (by simp [hc]) hP.kernel.2) (fun _ _ _ => Iff.rfl)
      (fun _ _ _ => Iff.rfl) (fun _ _ _ => Iff.rfl)
      fun q hq => setUse_ne (ne_of_mem_of_not_mem hY hq).symm)

/-! ## Unlinking a table -/

/-- Nothing hangs from table page `c`: no table, and no valid leaf. -/
def Bare (G : Ghost) (m : Nat → UInt8) (c : Nat) : Prop :=
  match G.use c with
  | .root => ∀ p i, G.use p ≠ .mid c i
  | .mid r i => ∀ p q, G.use p = .low r q → q / 512 ≠ i
  | .low r q => ∀ k < 512, (leaf m r (512 * q + k)).has PTE_V = false
  | _ => True

theorem Own.unlink_tables (h : Own G s) (hP : Parent G.use t j (G.use c)) (hB : Bare G s.mem c) :
    Tables (G.setUse c .held).use (setPte s.mem (t + 8 * j) 0#64) := by
  refine h.tables.unlink h.paged hP (fun r i hc p q hp => ?_) id
  unfold Bare at hB
  rw [hc] at hB
  exact hB p q hp

/-- Unlinking a bare table changes no valid leaf. -/
theorem Own.unlink_leaf (h : Own G s) (hP : Parent G.use t j (G.use c)) (hB : Bare G s.mem c)
    (hr : G.use r = .root) (hv : v < 2 ^ 27) :
    leaf (setPte s.mem (t + 8 * j) 0#64) r v = leaf s.mem r v ∨
      (leaf s.mem r v).has PTE_V = false ∧ leaf (setPte s.mem (t + 8 * j) 0#64) r v = 0#64 ∧
        G.use c = .low r (v / 512) := by
  have ht := h.unlink_tables hP hB
  have hcf : G.use c ≠ .free := hP.kernel.1.1
  have hp' : Paged (G.setUse c .held).use := fun p hp => by
    by_cases e : p = c
    · exact e ▸ h.paged c hcf
    · rw [setUse_ne e] at hp; exact h.paged p hp
  have hk : v % 512 < 512 := Nat.mod_lt _ (by decide)
  have hr' : (G.setUse c .held).use r = .root := by
    rw [setUse_ne (by rintro rfl; exact hP.kernel.2 hr)]; exact hr
  by_cases hex : ∃ p, G.use p = .low r (v / 512)
  · obtain ⟨p, hp⟩ := hex
    have e := h.tables.leaf_low h.paged hp hk
    rw [Nat.div_add_mod] at e
    by_cases hpc : p = c
    · subst hpc
      refine .inr ⟨?_, ht.leaf_none hp' hr' hv fun q hq => ?_, hp⟩
      · unfold Bare at hB
        rw [hp] at hB
        have := hB _ hk
        rwa [Nat.div_add_mod] at this
      · have hqp : q ≠ p := by rintro rfl; simp at hq
        rw [setUse_ne hqp] at hq
        exact hqp (h.tables.low_unique h.paged hq hp)
    · left
      have e' := ht.leaf_low hp' (p := p) (by rw [setUse_ne hpc]; exact hp) hk
      rw [Nat.div_add_mod] at e'
      rw [e, e', h.entry_ne hP.table hP.1 (by simp [hp]) hk fun e => ?_]
      exact hP.not_low r (v / 512) ((Prod.mk.inj e).1 ▸ hp)
  · left
    rw [h.tables.leaf_none h.paged hr hv fun p hp => hex ⟨p, hp⟩,
      ht.leaf_none hp' hr' hv fun p hp => ?_]
    have hpc : p ≠ c := by rintro rfl; simp at hp
    exact hex ⟨p, by rwa [setUse_ne hpc] at hp⟩

/-- **A bare table page is taken out of its tree.** -/
theorem Own.unlink (h : Own G s) (hP : Parent G.use t j (G.use c)) (hB : Bare G s.mem c) :
    Own (G.setUse c .held) { s with mem := setPte s.mem (t + 8 * j) 0#64 } := by
  have hk : (G.use c).Kernel := hP.kernel.1
  have hsame : ∀ r v, G.use r = .root → v < 2 ^ 27 → (leaf s.mem r v).has PTE_V = true →
      leaf (setPte s.mem (t + 8 * j) 0#64) r v = leaf s.mem r v := fun r v hr hv hV =>
    (h.unlink_leaf hP hB hr hv).resolve_right fun hc => by simp [hc.1] at hV
  have hmap : ∀ r v, (r, v) ∈ G.maps → leaf (setPte s.mem (t + 8 * j) 0#64) r v = leaf s.mem r v :=
    fun r v hm => hsame r v (h.leaves.map_root r v hm) (h.leaves.lt hm) (h.leaves.map_V r v hm)
  refine h.reuse hk (by simp [Use.Kernel]) (h.unlink_tables hP hB)
    ((h.leaves.congr (fun r v hr hv => ?_) (fun r v hr hv hx => ?_)
      (fun r v hm => by rw [hmap r v hm]) (fun r v hm =>
      hsame r v (h.leaves.spec_root r v hm) (h.leaves.spec_lt' hm) (h.leaves.spec_V r v hm))
      fun r v hm => by rw [hmap r v hm]).setUse hP.kernel.2 (by simp) (fun r v hm => ?_)
      fun r => h.leaves.not_flight hk.2) fun r v hm => by rw [hmap r v hm]
  · rcases h.unlink_leaf hP hB hr hv with e | ⟨e1, e2, -⟩
    · rw [e]
    · rw [e1, e2, Pte.has_zero]
  · rcases h.unlink_leaf hP hB hr hv with e | ⟨-, e2, -⟩
    · rwa [← e]
    · exact absurd e2 hx
  · rw [hmap r v hm]
    exact h.leaves.not_mapped hk.2 hm

theorem Frame.unlink (h : Own G s) (hP : Parent G.use t j (G.use c)) (hB : Bare G s.mem c)
    (hX : ∀ r q v, G.use c = .low r q → (r, v) ∈ X) (hY : c ∈ Y) :
    Frame X Y G (G.setUse c .held) s { s with mem := setPte s.mem (t + 8 * j) 0#64 } := by
  refine (Frame.table h (fun q hq hne o ho => h.entry_out hP.table hP.1 hq hne ho)
    fun r v hx hr hv => ?_).trans h.leaves
    (Frame.ghost (Ghost.setUse_root hP.kernel.2 (by simp)) (fun _ _ _ => Iff.rfl)
      (fun _ _ _ => Iff.rfl) (fun _ _ _ => Iff.rfl)
      fun q hq => Ghost.setUse_ne (ne_of_mem_of_not_mem hY hq).symm)
  exact (h.unlink_leaf hP hB hr hv).resolve_right fun hc => hx (hX r _ v hc.2.2)

/-! ## Roots -/

/-- No mapping and no reference belongs to `r`. -/
structure Unmapped (G : Ghost) (r : Nat) : Prop where
  maps : ∀ v, (r, v) ∉ G.maps
  spec : ∀ v, (r, v) ∉ G.spec
  flight : ∀ pa, (r, pa) ∉ G.flight

omit [Layout] in
/-- The mappings do not see a page becoming a root without leaves, or ceasing to be one. -/
theorem Leaves.setRoot {lf : Nat → Nat → Pte} (h : Leaves G lf) (hU : Unmapped G c)
    (hu : G.use c ≠ .user)
    (hroot : w = .root → ∀ v < 2 ^ 27, lf c v = 0#64) : Leaves (G.setUse c w) lf := by
  have ne_of : ∀ {r}, (∃ v, (r, v) ∈ G.maps) ∨ (∃ v, (r, v) ∈ G.spec) ∨ (∃ p, (r, p) ∈ G.flight) →
      r ≠ c := by
    rintro r hx rfl
    rcases hx with ⟨v, hx⟩ | ⟨v, hx⟩ | ⟨p, hx⟩
    exacts [hU.maps v hx, hU.spec v hx, hU.flight p hx]
  have user : ∀ {p}, G.use p = .user → (G.setUse c w).use p = .user := fun {p} hp => by
    rw [setUse_ne (by rintro rfl; exact hu hp)]; exact hp
  have root : ∀ {r}, r ≠ c → G.use r = .root → (G.setUse c w).use r = .root := fun hne hr => by
    rw [setUse_ne hne]; exact hr
  refine .of (fun r v hx => ?_) (fun r v hx => ⟨root (ne_of (.inr (.inl ⟨v, hx⟩))) (h.special hx).1,
    (h.special hx).2⟩) (fun r v hr hv hV => ?_) h.inj
    (fun r p hx => ⟨root (ne_of (.inr (.inr ⟨p, hx⟩))) (h.flight_root r p hx),
      user (h.flight_user r p hx)⟩) h.flight_ne
  · obtain ⟨h1, h2, h3, h4, h5⟩ := h.map hx
    exact ⟨root (ne_of (.inl ⟨v, hx⟩)) h1, h2, h3, h4, user h5⟩
  · by_cases e : r = c
    · subst e
      exact absurd (hroot (by simpa using hr) v hv) hV
    · rw [setUse_ne e] at hr
      exact h.only r v hr hv hV

theorem Own.unmapped (h : Own G s) (hr : G.use r ≠ .root) : Unmapped G r :=
  ⟨fun v hx => hr (h.leaves.map_root r v hx), fun v hx => hr (h.leaves.spec_root r v hx),
    fun p hx => hr (h.leaves.flight_root r p hx)⟩

/-- **A zeroed page becomes a root without mappings.** -/
theorem Own.newRoot (h : Own G s) (hc : G.use c = .held) (hz : ∀ o < 4096, s.mem (c + o) = 0) :
    Own (G.setUse c .root) s := by
  have ht : Tables (G.setUse c .root).use s.mem := h.tables.newRoot (by simp [hc, Use.IsTable]) hz
  have hp' : Paged (G.setUse c .root).use := fun p hp => by
    by_cases e : p = c
    · exact e ▸ h.paged c (by simp [hc])
    · rw [setUse_ne e] at hp; exact h.paged p hp
  refine h.reuse (m := s.mem) (by simp [hc, Use.Kernel]) (by simp [Use.Kernel]) ht
    (h.leaves.setRoot (h.unmapped (by simp [hc])) (by simp [hc]) fun _ v hv => ?_)
    fun _ _ _ => rfl
  refine ht.leaf_none hp' setUse_self hv fun p hp => ?_
  have hpc : p ≠ c := by rintro rfl; simp at hp
  rw [setUse_ne hpc] at hp
  have := h.tables.low_root hp
  simp [hc] at this

/-- **A root without tables and mappings is a page again.** -/
theorem Own.freeRoot (h : Own G s) (hr : G.use r = .root) (hU : Unmapped G r)
    (hB : Bare G s.mem r) : Own (G.setUse r .held) s := by
  unfold Bare at hB
  rw [hr] at hB
  exact h.reuse (m := s.mem) (by simp [hr, Use.Kernel]) (by simp [Use.Kernel])
    (h.tables.freeRoot hr hB id) (h.leaves.setRoot hU (by simp [hr]) fun hc => absurd hc (by simp))
    fun _ _ _ => rfl

omit [Layout] in
/-- Becoming or ceasing to be a root only concerns that root. -/
theorem Frame.setRoot (hX : ∀ v, (c, v) ∈ X) (hY : c ∈ Y) : Frame X Y G (G.setUse c w) s s where
  procs := rfl
  initproc := rfl
  nextpid := rfl
  kheld := rfl
  root r v hx := by rw [setUse_ne (by rintro rfl; exact hx (hX v))]
  maps _ _ _ := Iff.rfl
  spec _ _ _ := Iff.rfl
  leaf _ _ _ _ _ := rfl
  bytes _ _ _ _ _ _ := rfl
  flight _ _ _ := Iff.rfl
  keep q hq _ := ⟨setUse_ne (ne_of_mem_of_not_mem hY hq).symm, fun _ _ => rfl⟩
  fresh q hq _ := (setUse_ne (ne_of_mem_of_not_mem hY hq).symm).symm

end Xv6
