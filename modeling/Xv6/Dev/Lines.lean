import Mathlib.Data.List.Induction
import Xv6.Dev.Console

/-!
# Dev/Lines — the line discipline of the console

The ring holds what has been committed and not been read, followed by what can still be edited
(`Lines`).  Editing changes the second part only, and a completed line makes it part of the first.
What readers take comes from the front; how it is divided among the reads is `Reads`.
-/

namespace Xv6.Console

open List

variable {x : State} {b : UInt8} {c u : List UInt8}

theorem INPUT_BUF_SIZE_lt : INPUT_BUF_SIZE < UINT := by decide

theorem INPUT_BUF_SIZE_dvd : INPUT_BUF_SIZE ∣ UINT := by decide

theorem sub_eq {x y : Nat} (h : y < UINT) : sub x y = (x + UINT - y) % UINT := by
  rw [sub]
  congr 1
  omega

/-! ## The ring -/

/-- The ring holds `c`, which is committed, and `u`, which can be edited. -/
structure Lines (x : State) (c u : List UInt8) : Prop where
  queue : Queue UINT INPUT_BUF_SIZE x.buf x.r x.e (c ++ u)
  w_eq : x.w = (x.r + c.length) % UINT
  committed : x.hist.committed = x.hist.consumed.map Prod.snd ++ c

namespace Lines

section

variable (h : Lines x c u)

include h

theorem pending_queue : Queue UINT INPUT_BUF_SIZE x.buf x.r x.w c := h.w_eq ▸ h.queue.split.1

theorem edited_queue : Queue UINT INPUT_BUF_SIZE x.buf x.w x.e u := h.w_eq ▸ h.queue.split.2

theorem sub_pending : sub x.w x.r = c.length :=
  (sub_eq h.queue.lo_lt).trans (h.pending_queue.length_eq INPUT_BUF_SIZE_lt)

theorem sub_edited : sub x.e x.w = u.length :=
  (sub_eq h.edited_queue.lo_lt).trans (h.edited_queue.length_eq INPUT_BUF_SIZE_lt)

theorem sub_all : sub x.e x.r = (c ++ u).length :=
  (sub_eq h.queue.lo_lt).trans (h.queue.length_eq INPUT_BUF_SIZE_lt)

theorem pending_eq : x.pending = c := by
  rw [State.pending, State.slots, h.sub_pending]
  exact h.pending_queue.eq_map.symm

theorem edited_eq : x.edited = u := by
  rw [State.edited, State.slots, h.sub_edited]
  exact h.edited_queue.eq_map.symm

end

/-- **Erasing** takes back the last byte that can be edited. -/
theorem erase (h : Lines x c (u ++ [b])) : Lines x.erase c u where
  queue := by
    have hq := h.queue
    rw [← append_assoc] at hq
    have := hq.unpush
    rwa [← sub_eq (show 1 < UINT by decide)] at this
  w_eq := h.w_eq
  committed := h.committed

/-- The loop for control-U, which goes on no longer than there is something to edit. -/
theorem killLine (h : Lines x c u) : ∃ u', u' <+: u ∧ Lines (x.killLine u.length) c u' ∧
    (x.killLine u.length).r = x.r ∧ (x.killLine u.length).w = x.w ∧
      (x.killLine u.length).hist = x.hist := by
  induction u using List.reverseRecOn generalizing x with
  | nil => exact ⟨[], prefix_rfl, h, rfl, rfl, rfl⟩
  | append_singleton u b ih =>
    rw [length_append, length_singleton, State.killLine]
    split
    · exact ⟨u ++ [b], prefix_rfl, h, rfl, rfl, rfl⟩
    · obtain ⟨u', hu, hl, hr, hw, hh⟩ := ih h.erase
      exact ⟨u', hu.trans (prefix_append ..), hl, hr, hw, hh⟩

/-- **A character is added** where there is room. -/
theorem store (h : Lines x c u) (hroom : (c ++ u).length < INPUT_BUF_SIZE) (b : UInt8) :
    Lines (x.store b) c (u ++ [b]) where
  queue := by
    rw [← append_assoc]
    exact (h.queue.set_free INPUT_BUF_SIZE_dvd hroom b).push hroom (Function.update_self ..)
  w_eq := h.w_eq
  committed := h.committed

/-- **A line is complete.** -/
theorem commit (h : Lines x c u) : Lines x.commit (c ++ u) [] where
  queue := by
    rw [append_nil]
    exact h.queue
  w_eq := h.queue.hi_eq
  committed := by
    change x.hist.committed ++ x.edited = x.hist.consumed.map Prod.snd ++ (c ++ u)
    rw [h.edited_eq, h.committed, append_assoc]

/-- **A reader takes a byte.** -/
theorem take (h : Lines x (b :: c) u) (id : Nat) :
    x.buf (x.r % INPUT_BUF_SIZE) = b ∧ Lines (x.take id) c u := by
  obtain ⟨hb, hq⟩ := Queue.pop (l := c ++ u) h.queue
  refine ⟨hb, hq, ?_, ?_⟩
  · change x.w = ((x.r + 1) % UINT + c.length) % UINT
    rw [h.w_eq, length_cons, Nat.mod_add_mod, Nat.add_assoc, Nat.add_comm 1]
  · change x.hist.committed =
      (x.hist.consumed ++ [(id, x.buf (x.r % INPUT_BUF_SIZE))]).map Prod.snd ++ c
    rw [h.committed, hb, map_append, append_assoc]
    rfl

theorem e_eq_iff (h : Lines x c u) : x.e = x.w ↔ u = [] :=
  eq_comm.trans (h.edited_queue.eq_iff INPUT_BUF_SIZE_lt)

theorem r_eq_iff (h : Lines x c u) : x.r = x.w ↔ c = [] := h.pending_queue.eq_iff INPUT_BUF_SIZE_lt

end Lines

/-- The characters that erase. -/
def erases (b : UInt8) : Prop := b = C 'U' ∨ b = C 'H' ∨ b = 0x7f

/-- **A character that erases** leaves everything up to `w` alone. -/
theorem Lines.erased (h : Lines x c u) (hb : erases b) :
    ∃ u', u' <+: u ∧ Lines (consoleintr x b).1 c u' ∧ (consoleintr x b).1.r = x.r ∧
    (consoleintr x b).1.w = x.w ∧ (consoleintr x b).1.hist = x.hist := by
  have hP : b ≠ C 'P' := by
    rintro rfl
    exact absurd hb (by unfold erases; decide)
  rw [consoleintr, if_neg hP]
  split
  · rw [h.sub_edited]
    exact h.killLine
  next hU =>
    rw [if_pos (hb.resolve_left hU)]
    split
    · exact ⟨u, prefix_rfl, h, rfl, rfl, rfl⟩
    next hne =>
      induction u using List.reverseRecOn with
      | nil => exact absurd (h.e_eq_iff.2 rfl) hne
      | append_singleton u b' _ => exact ⟨u, prefix_append .., h.erase, rfl, rfl, rfl⟩

/-- **Any other character** is ignored, or added and perhaps completes a line. -/
theorem Lines.typed (h : Lines x c u) (hb : ¬erases b) : ∃ c' u', Lines (consoleintr x b).1 c' u' ∧
    x.hist.committed <+: (consoleintr x b).1.hist.committed ∧
    (consoleintr x b).1.hist = { x.hist with committed := (consoleintr x b).1.hist.committed } := by
  obtain ⟨hU, hH⟩ := not_or.1 hb
  rw [consoleintr]
  split
  · exact ⟨c, u, h, prefix_rfl, rfl⟩
  split
  next hc =>
    have hs := h.store (h.sub_all ▸ hc.2) (unifyNewline b)
    dsimp only
    split
    · exact ⟨_, _, hs.commit, prefix_append .., rfl⟩
    · exact ⟨_, _, hs, prefix_rfl, rfl⟩
  · exact ⟨c, u, h, prefix_rfl, rfl⟩

end Xv6.Console
