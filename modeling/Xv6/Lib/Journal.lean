import Mathlib.Data.List.Basic
import Mathlib.Logic.Function.Basic

/-!
# Lib/Journal — a redo log and what recovery makes of it

A disk with values at their home places, copies of some of them, and a header that lists for which
places there is a copy.  What counts is the view that recovery gives: the copy where there is one.
Copies may be written while the header is empty; writing the header changes the view at once;
installing copies and dropping a header whose copies are all installed leave it as it is.
-/

/-- Home places, copies, and the places that the header lists. -/
structure Journal (α β : Type) where
  home : α → β
  copy : Nat → β
  n : Nat
  entry : Nat → α

namespace Journal

variable {α β : Type} {J : Journal α β} {a : α} {i : Nat}

/-- No place is listed twice. -/
def Distinct (J : Journal α β) : Prop := ∀ i < J.n, ∀ j < J.n, J.entry i = J.entry j → i = j

/-- All copies are installed. -/
def Settled (J : Journal α β) : Prop := ∀ i < J.n, J.home (J.entry i) = J.copy i

variable [DecidableEq α]

/-- **What recovery makes of it.** -/
def view (J : Journal α β) (a : α) : β :=
  match (List.range J.n).find? fun i => J.entry i = a with
  | some i => J.copy i
  | none => J.home a

theorem view_entry (hd : J.Distinct) (hi : i < J.n) : J.view (J.entry i) = J.copy i := by
  unfold view
  split
  next j hj =>
    have hmem := List.mem_range.1 (List.mem_of_find?_eq_some hj)
    have he := List.find?_some hj
    rw [hd j hmem i hi (by simpa using he)]
  next hn =>
    have := List.find?_eq_none.1 hn i (List.mem_range.2 hi)
    simp at this

theorem view_other (h : ∀ i < J.n, J.entry i ≠ a) : J.view a = J.home a := by
  unfold view
  split
  next j hj =>
    have hmem := List.mem_range.1 (List.mem_of_find?_eq_some hj)
    exact absurd (by simpa using List.find?_some hj) (h j hmem)
  next => rfl

/-- A place is listed, or it is not. -/
theorem listed_or (J : Journal α β) (a : α) : (∃ i < J.n, J.entry i = a) ∨ ∀ i < J.n,
    J.entry i ≠ a := by
  by_cases h : ∃ i < J.n, J.entry i = a
  · exact .inl h
  · exact .inr fun i hi e => h ⟨i, hi, e⟩

theorem view_empty (h : J.n = 0) : J.view a = J.home a :=
  view_other fun i hi => absurd (h ▸ hi) (Nat.not_lt_zero i)

/-- **The view is all there is**, if the header lists what differs. -/
theorem view_eq {f : α → β} (hd : J.Distinct) (hc : ∀ i < J.n, J.copy i = f (J.entry i))
    (ho : (∀ i < J.n, J.entry i ≠ a) → J.home a = f a) : J.view a = f a := by
  rcases J.listed_or a with ⟨i, hi, rfl⟩ | h
  · rw [view_entry hd hi, hc i hi]
  · rw [view_other h, ho h]

theorem Settled.view (h : J.Settled) (hd : J.Distinct) : J.view a = J.home a :=
  view_eq hd (fun i hi => (h i hi).symm) fun _ => rfl

/-- **The view keeps**, while the header and the copies do and only listed places change. -/
theorem view_congr {K : Journal α β} (hd : J.Distinct) (hn : K.n = J.n)
    (he : ∀ i < J.n, K.entry i = J.entry i) (hc : ∀ i < J.n, K.copy i = J.copy i)
    (ho : (∀ i < J.n, J.entry i ≠ a) → K.home a = J.home a) : K.view a = J.view a := by
  have hK : K.Distinct := by
    intro i hi j hj e
    rw [hn] at hi hj
    rw [he i hi, he j hj] at e
    exact hd i hi j hj e
  rcases J.listed_or a with ⟨i, hi, rfl⟩ | h
  · rw [view_entry hd hi, ← he i hi, view_entry hK (hn ▸ hi), hc i hi]
  · rw [view_other h, ← ho h]
    refine view_other fun i hi => ?_
    rw [hn] at hi
    rw [he i hi]
    exact h i hi

end Journal
