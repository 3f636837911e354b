import Xv6.Vm.Free

/-!
# Vm/Inv — the process table and the ownership of pages

`KInv` ties the ghost state to the process table: the page tables are those of the processes, each
spans its process's size, trapframes and the pages other kernel code holds are accounted for.  What
is between owners is listed in a `Transit`: page tables and pages a system call has in its hands,
slots it is filling or emptying, and references it has taken out of a page table and not yet
dropped. Between system calls nothing is in transit.
-/

namespace Xv6

open Act Bytes Function Finset

/-- What a system call has in its hands. -/
structure Transit where
  roots : Set Nat
  pages : Set Nat
  slots : Set Nat
  flight : Finset (Nat × Nat)

/-- Nothing in transit. -/
def Transit.none : Transit := ⟨∅, ∅, ∅, ∅⟩

/-- Slots are bound to the table: each holds its page table, its trapframe and no one else's. -/
structure KInv [Layout] (T : Transit) (G : Ghost) (s : KState) : Prop where
  own : Own G s
  flight : G.flight = T.flight
  root : ∀ r, G.use r = .root ↔
    r ∈ T.roots ∨ ∃ p < NPROC, (s.procs p).pagetable = r ∧ r ≠ 0
  inj : ∀ p q, p < NPROC → q < NPROC → (s.procs p).pagetable = (s.procs q).pagetable →
    (s.procs p).pagetable ≠ 0 → p = q
  roots : ∀ p < NPROC, (s.procs p).pagetable ∉ T.roots
  spans : ∀ p < NPROC, (s.procs p).pagetable ≠ 0 →
    Spans G (s.procs p).pagetable (npages (s.procs p).sz)
  spec : ∀ p < NPROC, (s.procs p).pagetable ≠ 0 → SpecFull G (s.procs p).pagetable
  trap : ∀ pa p, G.use pa = .trap p ↔ p < NPROC ∧ (s.procs p).trapframe = pa ∧ pa ≠ 0
  held : ∀ pa, G.use pa = .held ↔ pa ∈ s.kheld ∨ pa ∈ T.pages
  pages : ∀ pa ∈ T.pages, pa ∉ s.kheld
  nodup : s.kheld.Nodup
  unused : ∀ p < NPROC, p ∉ T.slots → (s.procs p).state = .unused → s.procs p = {}
  live : ∀ p < NPROC, p ∉ T.slots → (s.procs p).state ≠ .unused →
    (s.procs p).pagetable ≠ 0 ∧ (s.procs p).trapframe ≠ 0

/-- Ownership does not depend on the process table. -/
theorem Own.setProcs [Layout] {G : Ghost} {s : KState} (h : Own G s) {f : Nat → Proc} :
    Own G { s with procs := f } :=
  ⟨⟨h.pages.free_mem, h.pages.nodup, h.pages.page, h.pages.wrapped, h.pages.byte⟩, h.tables,
    h.leaves, h.ref, h.user_pos⟩

namespace KInv

variable [Layout] {T : Transit} {G G' : Ghost} {s s' : KState} {p q r v pa : Nat}
  {X : Set (Nat × Nat)} {f : Nat → Proc}

section

variable (h : KInv T G s)

include h

theorem use_pagetable (hp : p < NPROC) (hne : (s.procs p).pagetable ≠ 0) :
    G.use (s.procs p).pagetable = .root := (h.root _).2 (.inr ⟨p, hp, rfl, hne⟩)

theorem no_flight (hT : (r, pa) ∉ T.flight) : (r, pa) ∉ G.flight := by
  rwa [h.flight]

/-- The page tables in transit come on top of `NPROC` others: counts stay far below 255. -/
theorem fewRoots (hT : ∃ R : Finset Nat, (∀ r ∈ T.roots, r ∈ R) ∧ R.card ≤ 100) :
    ∃ R : Finset Nat, (∀ r, G.use r = .root → r ∈ R) ∧ R.card ≤ 200 := by
  obtain ⟨R, h1, h2⟩ := hT
  refine ⟨R ∪ (Finset.range NPROC).image fun p => (s.procs p).pagetable, fun r hr => ?_, ?_⟩
  · rcases (h.root r).1 hr with hr | ⟨p, hp, e, -⟩
    · exact mem_union_left _ (h1 r hr)
    · exact mem_union_right _ (mem_image.2 ⟨p, mem_range.2 hp, e⟩)
  · have h3 := card_union_le R ((Finset.range NPROC).image fun p => (s.procs p).pagetable)
    have h4 : ((Finset.range NPROC).image fun p => (s.procs p).pagetable).card ≤ NPROC :=
      card_image_le.trans (card_range _).le
    have h5 : NPROC = 64 := rfl
    omega

/-- **User pages change, and sizes with them.**  Page tables, trapframes and states stay. -/
theorem reshape (ho : Own G' s') (hS : Shape X ∅ G G' s s')
    (hX : ∀ r v, (r, v) ∈ X → v < 2 ^ 26 - 2)
    (hpt : ∀ q < NPROC, (f q).pagetable = (s.procs q).pagetable)
    (htf : ∀ q < NPROC, (f q).trapframe = (s.procs q).trapframe) (hst : ∀ q < NPROC, q ∉ T.slots →
      f q = s.procs q ∨ ((f q).state ≠ .unused ∧ (s.procs q).state ≠ .unused))
    (hsp : ∀ q < NPROC, (f q).pagetable ≠ 0 → Spans G' (f q).pagetable (npages (f q).sz)) :
    KInv T G' { s' with procs := f } := by
  have hX' : ∀ r v, 2 ^ 26 - 2 ≤ v → (r, v) ∉ X := fun r v hv hx => by
    have := hX r v hx
    omega
  have hroot : ∀ r, G'.use r = .root ↔ G.use r = .root := fun r =>
    hS.root r (2 ^ 26) (hX' r _ (by omega))
  refine
    { own := ho.setProcs
      flight := hS.flight_eq.trans h.flight
      root := fun r => ?_
      inj := fun p q hp hq => ?_
      roots := fun p hp => by rw [hpt p hp]; exact h.roots p hp
      spans := hsp
      spec := fun p hp hne => ?_
      trap := fun pa p => ?_
      held := fun pa => ?_
      pages := fun pa hpa => by rw [hS.kheld]; exact h.pages pa hpa
      nodup := by rw [hS.kheld]; exact h.nodup
      unused := fun p hp hT hu => ?_
      live := fun p hp hT hu => ?_ }
  · rw [hroot, h.root]
    refine or_congr_right ⟨fun ⟨p, hp, e, hne⟩ => ⟨p, hp, by rw [hpt p hp, e], hne⟩,
      fun ⟨p, hp, e, hne⟩ => ⟨p, hp, by rw [← hpt p hp, e], hne⟩⟩
  · rw [hpt p hp, hpt q hq]
    exact h.inj p q hp hq
  · rw [hpt p hp] at hne ⊢
    obtain ⟨h1, h2⟩ := h.spec p hp hne
    exact ⟨(hS.spec _ _ (hX' _ _ (by unfold trampolinePage; omega))).2 h1,
      (hS.spec _ _ (hX' _ _ (by unfold trapframePage; omega))).2 h2⟩
  · rw [hS.stays_iff (.inr ⟨p, rfl⟩), h.trap]
    refine ⟨fun ⟨hp, e, hne⟩ => ⟨hp, by rw [htf p hp, e], hne⟩,
      fun ⟨hp, e, hne⟩ => ⟨hp, by rw [← htf p hp, e], hne⟩⟩
  · rw [hS.stays_iff (.inl rfl), hS.kheld]
    exact h.held pa
  · rcases hst p hp hT with e | ⟨hc, -⟩
    · change (f p).state = _ at hu
      show f p = {}
      rw [e] at hu ⊢
      exact h.unused p hp hT hu
    · exact absurd hu hc
  · rw [hpt p hp, htf p hp]
    rcases hst p hp hT with e | ⟨-, hc⟩
    · change (f p).state ≠ _ at hu
      rw [e] at hu
      exact h.live p hp hT hu
    · exact h.live p hp hT hc

/-- Fields of processes that the memory does not depend on. -/
theorem setProcs (hpt : ∀ q < NPROC, (f q).pagetable = (s.procs q).pagetable)
    (htf : ∀ q < NPROC, (f q).trapframe = (s.procs q).trapframe)
    (hsz : ∀ q < NPROC, (f q).pagetable ≠ 0 → (f q).sz = (s.procs q).sz)
    (hst : ∀ q < NPROC, q ∉ T.slots →
      f q = s.procs q ∨ ((f q).state ≠ .unused ∧ (s.procs q).state ≠ .unused)) :
    KInv T G { s with procs := f } := by
  refine h.reshape h.own (Frame.refl ∅ ∅ G s).toShape (fun r v hx => absurd hx (Set.notMem_empty _))
    hpt htf hst fun q hq hne => ?_
  rw [hsz q hq hne]
  rw [hpt q hq] at hne ⊢
  exact h.spans q hq hne

/-- User pages of one process change, its size not. -/
theorem keepSize (ho : Own G' s') (hS : Shape X ∅ G G' s s')
    (hX : ∀ r v, (r, v) ∈ X → v < 2 ^ 26 - 2) (hm : G'.maps = G.maps) : KInv T G' s' := by
  have hproc : s'.procs = s.procs := hS.procs
  have h' := h.reshape (f := s'.procs) ho hS hX (fun q _ => by rw [hproc])
    (fun q _ => by rw [hproc]) (fun q _ _ => .inl (by rw [hproc]))
    (fun q hq hne v => by
      rw [hproc] at hne ⊢
      rw [hm]
      exact h.spans q hq hne v)
  exact h'

/-- The roots, seen from slot `p`. -/
theorem root_split (hp : p < NPROC) (r : Nat) :
    G.use r = .root ↔ r ∈ T.roots ∨ (r = (s.procs p).pagetable ∧ r ≠ 0) ∨
      (G.use r = .root ∧ r ≠ (s.procs p).pagetable ∧ r ∉ T.roots) := by
  constructor
  · intro hr
    by_cases h1 : r ∈ T.roots
    · exact .inl h1
    · by_cases h2 : r = (s.procs p).pagetable
      · refine .inr (.inl ⟨h2, fun h0 => ?_⟩)
        rcases (h.root r).1 hr with h3 | ⟨_, _, _, h3⟩
        exacts [h1 h3, h3 h0]
      · exact .inr (.inr ⟨hr, h2, h1⟩)
  · rintro (h1 | ⟨h1, h2⟩ | ⟨h1, -⟩)
    · exact (h.root r).2 (.inl h1)
    · exact (h.root r).2 (.inr ⟨p, hp, h1.symm, h2⟩)
    · exact h1

/-- The trapframes, seen from slot `p`. -/
theorem trap_split (hp : p < NPROC) (pa q : Nat) :
    G.use pa = .trap q ↔ (q = p ∧ (s.procs p).trapframe = pa ∧ pa ≠ 0) ∨
      (q ≠ p ∧ G.use pa = .trap q) := by
  by_cases hqp : q = p
  · subst hqp
    rw [h.trap]
    exact ⟨fun hx => .inl ⟨rfl, hx.2⟩, fun hx => hx.elim (fun hx => ⟨hp, hx.2⟩)
      fun hx => absurd rfl hx.1⟩
  · exact ⟨fun hx => .inr ⟨hqp, hx⟩, fun hx => hx.elim (fun hx => absurd hx.1 hqp) And.right⟩

/-- **One slot changes hands.**  The other slots keep what they have. -/
theorem change (hp : p < NPROC) {b : Proc} {T' : Transit} (ho : Own G' s')
    (hs' : s'.procs = update s.procs p b) (hfl : G'.flight = T'.flight)
    (hmaps : ∀ q < NPROC, q ≠ p → (s.procs q).pagetable ≠ 0 → ∀ v,
      ((s.procs q).pagetable, v) ∈ G'.maps ↔ ((s.procs q).pagetable, v) ∈ G.maps)
    (hspec : ∀ q < NPROC, q ≠ p → (s.procs q).pagetable ≠ 0 → ∀ v,
      ((s.procs q).pagetable, v) ∈ G'.spec ↔ ((s.procs q).pagetable, v) ∈ G.spec)
    (hroot : ∀ r, G'.use r = .root ↔ r ∈ T'.roots ∨ (r = b.pagetable ∧ r ≠ 0) ∨
      (G.use r = .root ∧ r ≠ (s.procs p).pagetable ∧ r ∉ T.roots))
    (hT : ∀ q < NPROC, q ≠ p → (s.procs q).pagetable ∉ T'.roots) (hbT : b.pagetable ∉ T'.roots)
    (hb : b.pagetable ≠ 0 → (∀ q < NPROC, q ≠ p → (s.procs q).pagetable ≠ b.pagetable) ∧
      Spans G' b.pagetable (npages b.sz) ∧ SpecFull G' b.pagetable)
    (htrap : ∀ pa q, G'.use pa = .trap q ↔
      (q = p ∧ b.trapframe = pa ∧ pa ≠ 0) ∨ (q ≠ p ∧ G.use pa = .trap q))
    (hheld : ∀ pa, G'.use pa = .held ↔ pa ∈ s'.kheld ∨ pa ∈ T'.pages)
    (hpages : ∀ pa ∈ T'.pages, pa ∉ s'.kheld) (hnd : s'.kheld.Nodup)
    (hslots : ∀ q < NPROC, q ≠ p → q ∉ T'.slots → q ∉ T.slots)
    (hunused : p ∉ T'.slots → b.state = .unused → b = {})
    (hlive : p ∉ T'.slots → b.state ≠ .unused → b.pagetable ≠ 0 ∧ b.trapframe ≠ 0) :
    KInv T' G' s' := by
  have hpp : s'.procs p = b := by rw [hs', update_self]
  have hpq : ∀ {q}, q ≠ p → s'.procs q = s.procs q := fun hq => by
    rw [hs', update_of_ne hq]
  refine
    { own := ho
      flight := hfl
      root := fun r => ?_
      inj := fun q q' hq hq' e hne => ?_
      roots := fun q hq => ?_
      spans := fun q hq hne => ?_
      spec := fun q hq hne => ?_
      trap := fun pa q => ?_
      held := hheld
      pages := hpages
      nodup := hnd
      unused := fun q hq hqT hu => ?_
      live := fun q hq hqT hu => ?_ }
  · rw [hroot]
    refine or_congr_right ⟨?_, ?_⟩
    · rintro (⟨rfl, hr⟩ | ⟨hr, hne, hrT⟩)
      · exact ⟨p, hp, by rw [hpp], hr⟩
      · rcases (h.root r).1 hr with hr | ⟨q, hq, e, hr0⟩
        · exact absurd hr hrT
        · have hqp : q ≠ p := by rintro rfl; exact hne e.symm
          exact ⟨q, hq, by rw [hpq hqp, e], hr0⟩
    · rintro ⟨q, hq, e, hr0⟩
      by_cases hqp : q = p
      · subst hqp
        rw [hpp] at e
        exact .inl ⟨e.symm, hr0⟩
      · rw [hpq hqp] at e
        have hq0 : (s.procs q).pagetable ≠ 0 := by rw [e]; exact hr0
        refine .inr ⟨e ▸ h.use_pagetable hq hq0, fun hc => hqp ?_, e ▸ h.roots q hq⟩
        exact h.inj q p hq hp (e.trans hc) hq0
  · by_cases h1 : q = p <;> by_cases h2 : q' = p
    · rw [h1, h2]
    · subst h1
      rw [hpp, hpq h2] at e
      rw [hpp] at hne
      exact absurd e.symm ((hb hne).1 q' hq' h2)
    · subst h2
      rw [hpp, hpq h1] at e
      rw [hpq h1, e] at hne
      exact absurd e ((hb hne).1 q hq h1)
    · rw [hpq h1, hpq h2] at e
      rw [hpq h1] at hne
      exact h.inj q q' hq hq' e hne
  · by_cases hqp : q = p
    · subst hqp; rw [hpp]; exact hbT
    · rw [hpq hqp]; exact hT q hq hqp
  · by_cases hqp : q = p
    · subst hqp
      rw [hpp] at hne ⊢
      exact (hb hne).2.1
    · rw [hpq hqp] at hne ⊢
      intro v
      rw [hmaps q hq hqp hne]
      exact h.spans q hq hne v
  · by_cases hqp : q = p
    · subst hqp
      rw [hpp] at hne ⊢
      exact (hb hne).2.2
    · rw [hpq hqp] at hne ⊢
      obtain ⟨h1, h2⟩ := h.spec q hq hne
      exact ⟨(hspec q hq hqp hne _).2 h1, (hspec q hq hqp hne _).2 h2⟩
  · rw [htrap]
    by_cases hqp : q = p
    · subst hqp
      rw [hpp]
      exact ⟨fun hx => hx.elim (fun hx => ⟨hp, hx.2⟩) fun hx => absurd rfl hx.1,
        fun hx => .inl ⟨rfl, hx.2⟩⟩
    · rw [hpq hqp, ← h.trap]
      exact ⟨fun hx => hx.elim (fun hx => absurd hx.1 hqp) And.right, fun hx => .inr ⟨hqp, hx⟩⟩
  · by_cases hqp : q = p
    · subst hqp
      rw [hpp] at hu ⊢
      exact hunused hqT hu
    · rw [hpq hqp] at hu ⊢
      exact h.unused q hq (hslots q hq hqp hqT) hu
  · by_cases hqp : q = p
    · subst hqp
      rw [hpp] at hu ⊢
      exact hlive hqT hu
    · rw [hpq hqp] at hu ⊢
      exact h.live q hq (hslots q hq hqp hqT) hu

end

end KInv

end Xv6
