import Mathlib.Logic.Function.Basic
import Mathlib.Tactic.Common

/-!
# Lib/Ring — a queue in a ring with free-running indices

A writer and a reader share an array of `N` slots.  Each keeps an index that it increments without
bound, except that the index is stored modulo `M`; slot `i % N` belongs to index `i`.  `Queue` says
which list the slots between the two indices hold.  Since `N` divides `M`, the wrap-around of the
indices is invisible: a push adds at the writer's end (`Queue.push`), a pop takes from the reader's
(`Queue.pop`).
-/

/-- The slots from index `lo` up to `hi` hold `l`. -/
structure Queue {α : Type} (M N : Nat) (ring : Nat → α) (lo hi : Nat) (l : List α) : Prop where
  fits : l.length ≤ N
  lo_lt : lo < M
  hi_eq : hi = (lo + l.length) % M
  slot : ∀ k a, l[k]? = some a → ring ((lo + k) % M % N) = a

namespace Queue

open Function List

variable {α : Type} {M N : Nat} {ring : Nat → α} {lo hi : Nat} {l : List α} {a : α}

/-- An index and the slot it stands for. -/
theorem slot_mod (hN : N ∣ M) (i : Nat) : i % M % N = i % N := Nat.mod_mod_of_dvd i hN

/-- **The indices agree exactly when the queue is empty.** -/
theorem eq_iff (h : Queue M N ring lo hi l) (hM : N < M) : lo = hi ↔ l = [] := by
  have hfits := h.fits
  have hlo := h.lo_lt
  rw [h.hi_eq]
  constructor
  · intro e
    by_contra hne
    have hpos := length_pos_iff.2 hne
    rcases Nat.lt_or_ge (lo + l.length) M with hlt | hge
    · rw [Nat.mod_eq_of_lt hlt] at e
      omega
    · rw [Nat.mod_eq_sub_mod hge, Nat.mod_eq_of_lt (by omega)] at e
      omega
  · rintro rfl
    rw [length_nil, Nat.add_zero, Nat.mod_eq_of_lt hlo]

/-- How far one index is ahead of another. -/
theorem offset_mod {n : Nat} (hlo : lo < M) (hn : n < M) : ((lo + n) % M + M - lo) % M = n := by
  rcases Nat.lt_or_ge (lo + n) M with hlt | hge
  · rw [Nat.mod_eq_of_lt hlt, show lo + n + M - lo = n + M by omega, Nat.add_mod_right,
      Nat.mod_eq_of_lt hn]
  · rw [Nat.mod_eq_sub_mod hge, Nat.mod_eq_of_lt (show lo + n - M < M by omega),
      show lo + n - M + M - lo = n by omega, Nat.mod_eq_of_lt hn]

section

variable (h : Queue M N ring lo hi l)

include h

/-- The number of entries, read off the indices. -/
theorem length_eq (hM : N < M) : (hi + M - lo) % M = l.length := by
  rw [h.hi_eq]
  exact offset_mod h.lo_lt (Nat.lt_of_le_of_lt h.fits hM)

/-- **The indices are `N` apart exactly when the queue is full.** -/
theorem full_iff (hM : N < M) : hi = (lo + N) % M ↔ l.length = N := by
  constructor
  · intro e
    rw [← h.length_eq hM, e]
    exact offset_mod h.lo_lt hM
  · intro e
    rw [h.hi_eq, e]

/-- The entries are the slots between the indices. -/
theorem eq_map : l = (List.range l.length).map fun k => ring ((lo + k) % M % N) := by
  refine ext_getElem (by simp) fun k hk _ => ?_
  rw [getElem_map, getElem_range]
  exact (h.slot k _ (getElem?_eq_getElem hk)).symm

/-- A slot that is not in the queue may change. -/
theorem set_free (hN : N ∣ M) (hl : l.length < N) (a : α) :
    Queue M N (update ring (hi % N) a) lo hi l where
  fits := h.fits
  lo_lt := h.lo_lt
  hi_eq := h.hi_eq
  slot k b hk := by
    obtain ⟨hlt, -⟩ := List.getElem?_eq_some_iff.1 hk
    rw [update_of_ne]
    · exact h.slot k b hk
    · -- two indices less than `N` apart are in different slots
      rw [h.hi_eq, slot_mod hN, slot_mod hN]
      intro e
      have hd : (l.length - k) % N = 0 := by
        have := Nat.sub_mod_eq_zero_of_mod_eq e.symm
        rwa [show lo + l.length - (lo + k) = l.length - k by omega] at this
      rw [Nat.mod_eq_of_lt (by omega)] at hd
      omega

/-- **Push**: the writer's slot already holds the entry, and its index moves on. -/
theorem push (hl : l.length < N) (ha : ring (hi % N) = a) :
    Queue M N ring lo ((hi + 1) % M) (l ++ [a]) where
  fits := by
    rw [length_append, length_singleton]
    exact hl
  lo_lt := h.lo_lt
  hi_eq := by rw [h.hi_eq, length_append, length_singleton, Nat.mod_add_mod, Nat.add_assoc]
  slot k b hk := by
    rcases Nat.lt_or_ge k l.length with hlt | hge
    · rw [getElem?_append_left hlt] at hk
      exact h.slot k b hk
    · rw [getElem?_append_right hge] at hk
      obtain ⟨hlt, e⟩ := List.getElem?_eq_some_iff.1 hk
      rw [length_singleton] at hlt
      obtain rfl : k = l.length := by omega
      rw [← h.hi_eq, ha]
      simpa using e

end

/-- **Pop**: the reader's slot holds the first entry, and its index moves on. -/
theorem pop (h : Queue M N ring lo hi (a :: l)) :
    ring (lo % N) = a ∧ Queue M N ring ((lo + 1) % M) hi l := by
  have hlo := h.lo_lt
  have hfits := h.fits
  rw [length_cons] at hfits
  refine ⟨?_, by omega, Nat.mod_lt _ (by omega), ?_, fun k b hk => ?_⟩
  · have := h.slot 0 a rfl
    rwa [Nat.add_zero, Nat.mod_eq_of_lt hlo] at this
  · rw [h.hi_eq, length_cons, Nat.mod_add_mod]
    congr 1
    omega
  · rw [Nat.mod_add_mod, Nat.add_assoc, Nat.add_comm 1 k]
    exact h.slot (k + 1) b hk

/-- **The last entry is taken back**, and the writer's index with it. -/
theorem unpush (h : Queue M N ring lo hi (l ++ [a])) : Queue M N ring lo ((hi + M - 1) % M) l where
  fits := by
    have := h.fits
    rw [length_append] at this
    omega
  lo_lt := h.lo_lt
  hi_eq := by
    have hlo := h.lo_lt
    rw [h.hi_eq, length_append, length_singleton, Nat.add_sub_assoc (by omega), Nat.mod_add_mod,
      show lo + (l.length + 1) + (M - 1) = lo + l.length + M by omega, Nat.add_mod_right]
  slot k b hk := by
    refine h.slot k b ?_
    rw [getElem?_append_left (List.getElem?_eq_some_iff.1 hk).1, hk]

/-- **An index in between** splits a queue in two. -/
theorem split {l' : List α} (h : Queue M N ring lo hi (l ++ l')) :
    Queue M N ring lo ((lo + l.length) % M) l ∧ Queue M N ring ((lo + l.length) % M) hi l' := by
  have hlo := h.lo_lt
  have hfits := h.fits
  rw [length_append] at hfits
  refine ⟨⟨by omega, hlo, rfl, fun k b hk => h.slot k b ?_⟩, by omega, Nat.mod_lt _ (by omega), ?_,
    fun k b hk => ?_⟩
  · rw [getElem?_append_left (List.getElem?_eq_some_iff.1 hk).1, hk]
  · rw [h.hi_eq, length_append, Nat.mod_add_mod, Nat.add_assoc]
  · rw [Nat.mod_add_mod, Nat.add_assoc]
    refine h.slot (l.length + k) b ?_
    rw [getElem?_append_right (Nat.le_add_right ..), Nat.add_sub_cancel_left, hk]

/-- The empty queue. -/
theorem empty (hlo : lo < M) : Queue M N ring lo lo ([] : List α) where
  fits := Nat.zero_le _
  lo_lt := hlo
  hi_eq := by rw [length_nil, Nat.add_zero, Nat.mod_eq_of_lt hlo]
  slot k b hk := by simp at hk

end Queue
