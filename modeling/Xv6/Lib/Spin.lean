import Mathlib.Data.Finset.Card
import Mathlib.Logic.Function.Basic

/-!
# Lib/Spin — spinlocks held by processors

A spinlock remembers the processor that holds it, and a processor counts the locks it holds.  Code
on a processor *claims* the locks it has acquired: `Claims` is kept by its own operations, in step
with the list of claims, and by every operation of another processor (`Claims.other`).
-/

/-- Who holds which lock, and how many locks each processor holds. -/
structure Spin (L : Type) where
  holder : L → Option Nat
  noff : Nat → Nat

namespace Spin

open Function Option

variable {L : Type} [DecidableEq L]

/-- One operation on the locks. -/
inductive Op (L : Type)
  | skip
  | acquire (l : L)
  | release (l : L)

/-- Processor `c` performs an operation: it waits for a lock that is held, and stops on the release
of one it does not hold. -/
def step (k : Spin L) (c : Nat) : Op L → Option (Spin L)
  | .skip => some k
  | .acquire l =>
    if k.holder l = none then
      some ⟨update k.holder l (some c), update k.noff c (k.noff c + 1)⟩
    else none
  | .release l =>
    if k.holder l = some c then
      some ⟨update k.holder l none, update k.noff c (k.noff c - 1)⟩
    else none

/-- No lock is held. -/
def free : Spin L := ⟨fun _ => none, fun _ => 0⟩

variable {k k' : Spin L} {c d : Nat} {l l' : L} {o : Op L} {ls : List L}

theorem step_acquire (h : k.step c (.acquire l) = some k') : k.holder l = none ∧
    k' = ⟨update k.holder l (some c), update k.noff c (k.noff c + 1)⟩ := by
  rw [step] at h
  split at h
  next hn => exact ⟨hn, (some.inj h).symm⟩
  next => cases h

theorem step_release (h : k.step c (.release l) = some k') : k.holder l = some c ∧
    k' = ⟨update k.holder l none, update k.noff c (k.noff c - 1)⟩ := by
  rw [step] at h
  split at h
  next hn => exact ⟨hn, (some.inj h).symm⟩
  next => cases h

/-- **What another processor holds** is its own business. -/
theorem step_other (h : k.step c o = some k') (hd : d ≠ c) :
    k'.holder l = some d ↔ k.holder l = some d := by
  cases o with
  | skip => rw [← some.inj h]
  | acquire l' =>
    obtain ⟨hn, rfl⟩ := step_acquire h
    by_cases e : l = l'
    · subst e
      simp [hn, hd.symm]
    · simp [e]
  | release l' =>
    obtain ⟨hn, rfl⟩ := step_release h
    by_cases e : l = l'
    · subst e
      simp [hn, hd.symm]
    · simp [e]

/-- An operation touches one lock. -/
theorem step_ne (h : k.step c o = some k') (ha : o ≠ .acquire l) (hr : o ≠ .release l) :
    k'.holder l = k.holder l := by
  cases o with
  | skip => rw [← some.inj h]
  | acquire l' =>
    obtain ⟨-, rfl⟩ := step_acquire h
    have hne : l ≠ l' := fun e => ha (congrArg _ e.symm)
    exact update_of_ne hne ..
  | release l' =>
    obtain ⟨-, rfl⟩ := step_release h
    have hne : l ≠ l' := fun e => hr (congrArg _ e.symm)
    exact update_of_ne hne ..

/-! ## Counting -/

/-- Each processor has counted its locks. -/
def Counted (k : Spin L) : Prop :=
  ∃ H : Nat → Finset L, (∀ c l, l ∈ H c ↔ k.holder l = some c) ∧ ∀ c, (H c).card = k.noff c

omit [DecidableEq L] in
theorem counted_free : (free : Spin L).Counted :=
  ⟨fun _ => ∅, fun _ _ => iff_of_false (Finset.notMem_empty _) nofun, fun _ => rfl⟩

theorem Counted.step (hk : k.Counted) (h : k.step c o = some k') : k'.Counted := by
  obtain ⟨H, hH, hn⟩ := hk
  cases o with
  | skip => exact ⟨H, by rw [← Option.some.inj h]; exact hH, by rw [← Option.some.inj h]; exact hn⟩
  | acquire l =>
    have hother : ∀ d ≠ c, ∀ l, k'.holder l = some d ↔ k.holder l = some d :=
      fun d hd _ => step_other h hd
    obtain ⟨hl, rfl⟩ := step_acquire h
    have hnot : l ∉ H c := fun hm => by
      rw [hH, hl] at hm
      cases hm
    refine ⟨update H c (insert l (H c)), fun d l' => ?_, fun d => ?_⟩ <;> by_cases hd : d = c
    · subst hd
      rw [update_self, Finset.mem_insert, hH]
      by_cases e : l' = l
      · simp [e]
      · simp [e]
    · rw [update_of_ne hd, hH, hother d hd]
    · subst hd
      simp [Finset.card_insert_of_notMem hnot, hn]
    · simp [update_of_ne hd, hn]
  | release l =>
    have hother : ∀ d ≠ c, ∀ l, k'.holder l = some d ↔ k.holder l = some d :=
      fun d hd _ => step_other h hd
    obtain ⟨hl, rfl⟩ := step_release h
    refine ⟨update H c ((H c).erase l), fun d l' => ?_, fun d => ?_⟩ <;> by_cases hd : d = c
    · subst hd
      rw [update_self, Finset.mem_erase, hH]
      by_cases e : l' = l
      · simp [e]
      · simp [e]
    · rw [update_of_ne hd, hH, hother d hd]
    · subst hd
      simp [Finset.card_erase_of_mem ((hH d l).2 hl), hn]
    · simp [update_of_ne hd, hn]

omit [DecidableEq L] in
/-- A processor with count 0 holds nothing… -/
theorem Counted.zero (hk : k.Counted) (h : k.noff c = 0) : k.holder l ≠ some c := by
  obtain ⟨H, hH, hn⟩ := hk
  rw [← hn, Finset.card_eq_zero] at h
  rw [Ne, ← hH, h]
  exact Finset.notMem_empty l

omit [DecidableEq L] in
/-- …and one with count 1 holds one lock. -/
theorem Counted.one (hk : k.Counted) (h : k.noff c = 1) (hl : k.holder l = some c)
    (hl' : k.holder l' = some c) : l' = l := by
  obtain ⟨H, hH, hn⟩ := hk
  rw [← hn] at h
  exact Finset.card_le_one.1 h.le _ ((hH c l').2 hl') _ ((hH c l).2 hl)

/-! ## Claims -/

/-- Processor `c` holds the locks `ls`, which are all different. -/
structure Claims (k : Spin L) (c : Nat) (ls : List L) : Prop where
  nodup : ls.Nodup
  held : ∀ l ∈ ls, k.holder l = some c

namespace Claims

omit [DecidableEq L] in
theorem perm {ls' : List L} (h : k.Claims c ls) (hp : ls.Perm ls') : k.Claims c ls' :=
  ⟨hp.nodup_iff.1 h.nodup, fun l hl => h.held l (hp.mem_iff.2 hl)⟩

theorem acquire (h : k.Claims c ls) (hs : k.step c (.acquire l) = some k') :
    k'.Claims c (l :: ls) := by
  obtain ⟨hl, rfl⟩ := step_acquire hs
  have hnot : l ∉ ls := fun hm => by
    have := h.held l hm
    rw [hl] at this
    cases this
  refine ⟨List.nodup_cons.2 ⟨hnot, h.nodup⟩, fun l' hl' => ?_⟩
  rcases List.mem_cons.1 hl' with rfl | hl'
  · exact update_self ..
  · have hne : l' ≠ l := fun e => hnot (e ▸ hl')
    exact (update_of_ne hne ..).trans (h.held l' hl')

theorem release (h : k.Claims c (l :: ls)) (hs : k.step c (.release l) = some k') :
    k'.Claims c ls := by
  obtain ⟨-, rfl⟩ := step_release hs
  obtain ⟨hnot, hnd⟩ := List.nodup_cons.1 h.nodup
  refine ⟨hnd, fun l' hl' => ?_⟩
  have hne : l' ≠ l := fun e => hnot (e ▸ hl')
  exact (update_of_ne hne ..).trans (h.held l' (List.mem_cons_of_mem _ hl'))

/-- **Another processor's operations** leave claims alone. -/
theorem other (h : k.Claims d ls) (hs : k.step c o = some k') (hd : d ≠ c) : k'.Claims d ls :=
  ⟨h.nodup, fun l hl => (step_other hs hd).2 (h.held l hl)⟩

/-- A lock that is not claimed may come and go. -/
theorem unclaimed (h : k.Claims c ls) (hs : k.step c o = some k') (ho : ∀ l ∈ ls, o ≠ .release l) :
    k'.Claims c ls := by
  refine ⟨h.nodup, fun l hl => ?_⟩
  cases o with
  | skip => rw [← some.inj hs]; exact h.held l hl
  | acquire l' => exact (h.acquire hs).held l (List.mem_cons_of_mem _ hl)
  | release l' =>
    obtain ⟨-, rfl⟩ := step_release hs
    have hne : l ≠ l' := fun e => ho l hl (congrArg _ e.symm)
    exact (update_of_ne hne ..).trans (h.held l hl)

omit [DecidableEq L] in
/-- With count 0 nothing is claimed… -/
theorem eq_nil (h : k.Claims c ls) (hk : k.Counted) (hn : k.noff c = 0) : ls = [] :=
  List.eq_nil_iff_forall_not_mem.2 fun l hl => hk.zero hn (h.held l hl)

omit [DecidableEq L] in
/-- …and with count 1 one lock. -/
theorem eq_singleton (h : k.Claims c ls) (hk : k.Counted) (hn : k.noff c = 1) (hl : l ∈ ls) :
    ls = [l] := by
  have hall : ∀ x ∈ ls, x = l := fun x hx => hk.one hn (h.held l hl) (h.held x hx)
  match ls, h.nodup, hl with
  | [x], _, _ => rw [hall x List.mem_cons_self]
  | x :: y :: r, hnd, _ =>
    have hx := hall x List.mem_cons_self
    have hy := hall y (by simp)
    simp [hx, hy] at hnd

end Claims

end Spin
