import Mathlib.Data.List.Basic
import Mathlib.Logic.Function.Basic

/-!
# Lib/DList — circular doubly linked lists

The links are two functions on nodes.  `Linked a l z` says that `l` lies between `a` and `z`,
forwards along `next` and backwards along `prev`; a ring is a list that lies between its head and
itself.  The two list operations of a cache — take a node out, put it back first — act on the list
of nodes, and a loop along the links is a search in that list.
-/

/-- The links of a doubly linked list. -/
structure DList (α : Type) where
  next : α → α
  prev : α → α

namespace DList

open Function List

variable {α : Type} {L : DList α} {a b h x z : α} {l l₁ l₂ : List α}

/-- The nodes `l` are linked between `a` and `z`. -/
def Linked (L : DList α) : α → List α → α → Prop
  | a, [], z => L.next a = z ∧ L.prev z = a
  | a, x :: l, z => L.next a = x ∧ L.prev x = a ∧ L.Linked x l z

/-- **The ring** with head `h` and the nodes `l`. -/
structure Ring (L : DList α) (h : α) (l : List α) : Prop where
  linked : L.Linked h l h
  nodup : (h :: l).Nodup

theorem linked_append : L.Linked a (l₁ ++ x :: l₂) z ↔ L.Linked a l₁ x ∧ L.Linked x l₂ z := by
  induction l₁ generalizing a with
  | nil => exact and_assoc.symm
  | cons y l₁ ih => simp only [cons_append, Linked, ih, and_assoc]

theorem Linked.congr {L' : DList α} (h : L.Linked a l z) (hn : ∀ y ∈ a :: l, L'.next y = L.next y)
    (hp : ∀ y, y ∈ l ∨ y = z → L'.prev y = L.prev y) : L'.Linked a l z := by
  induction l generalizing a with
  | nil => exact ⟨(hn a (by simp)).trans h.1, (hp z (by simp)).trans h.2⟩
  | cons x l ih =>
    refine ⟨(hn a (by simp)).trans h.1, (hp x (by simp)).trans h.2.1, ih h.2.2 (fun y hy => ?_) ?_⟩
    · exact hn y (mem_cons_of_mem _ hy)
    · exact fun y hy => hp y (hy.imp_left (mem_cons_of_mem _))

theorem Linked.prev_mem (h : L.Linked a l z) : L.prev z ∈ a :: l := by
  induction l generalizing a with
  | nil => rw [h.2]; exact mem_cons_self
  | cons x l ih => exact mem_cons_of_mem _ (ih h.2.2)

theorem Linked.next_mem (h : L.Linked a l z) : L.next a ∈ l ∨ L.next a = z := by
  cases l with
  | nil => exact .inr h.1
  | cons x l => exact .inl (by rw [h.1]; exact mem_cons_self)

/-! ## Taking out and putting first -/

variable [DecidableEq α]

/-- Take a node out: `b->next->prev = b->prev; b->prev->next = b->next`. -/
def unlink (L : DList α) (b : α) : DList α where
  next := update L.next (L.prev b) (L.next b)
  prev := update L.prev (L.next b) (L.prev b)

/-- Put a node first: `b->next = h->next; b->prev = h; h->next->prev = b; h->next = b`. -/
def push (L : DList α) (h b : α) : DList α where
  next := update (update L.next b (L.next h)) h b
  prev := update (update L.prev b h) (L.next h) b

omit [DecidableEq α] in
/-- A segment that ends at another node, once its last link goes there. -/
theorem Linked.retarget {L' : DList α} {y : α} (h : L.Linked a l b) (hd : (a :: l).Nodup)
    (hn : ∀ w ∈ a :: l, w ≠ L.prev b → L'.next w = L.next w) (hp : ∀ w ∈ l, L'.prev w = L.prev w)
    (hy : L'.next (L.prev b) = y) (hy' : L'.prev y = L.prev b) : L'.Linked a l y := by
  induction l generalizing a with
  | nil =>
    obtain ⟨-, e⟩ := h
    rw [e] at hy hy'
    exact ⟨hy, hy'⟩
  | cons x l ih =>
    obtain ⟨h1, h2, h3⟩ := h
    rw [nodup_cons] at hd
    have hlast : L.prev b ∈ x :: l := h3.prev_mem
    have hne : a ≠ L.prev b := fun e => hd.1 (e ▸ hlast)
    refine ⟨(hn a (by simp) hne).trans h1, (hp x (by simp)).trans h2,
      ih h3 hd.2 (fun w hw => ?_) ?_⟩
    · exact hn w (mem_cons_of_mem _ hw)
    · exact fun w hw => hp w (mem_cons_of_mem _ hw)

/-- **A ring without one of its nodes.** -/
theorem Ring.unlink (h' : L.Ring h (l₁ ++ b :: l₂)) : (L.unlink b).Ring h (l₁ ++ l₂) := by
  obtain ⟨hl, hd⟩ := h'
  obtain ⟨h1, h2⟩ := linked_append.1 hl
  have hd' : (h :: l₁).Nodup ∧ (b :: l₂).Nodup ∧ ∀ x ∈ h :: l₁, ∀ y ∈ b :: l₂, x ≠ y :=
    nodup_append.1 hd
  have hprev : L.prev b ∈ h :: l₁ := h1.prev_mem
  -- the nodes before `b` end where it went on to
  have hfirst : (L.unlink b).Linked h l₁ (L.next b) := by
    refine h1.retarget hd'.1 (fun w _ hw => ?_) (fun w hw => ?_) ?_ ?_
    · exact update_of_ne hw ..
    · refine update_of_ne (fun e => ?_) ..
      rcases h2.next_mem with hm | hm
      · exact hd'.2.2 w (mem_cons_of_mem _ hw) _ (mem_cons_of_mem _ hm) e
      · exact (nodup_cons.1 hd'.1).1 (hm ▸ e ▸ hw)
    · exact update_self ..
    · exact update_self ..
  refine ⟨?_, hd.sublist (by simp)⟩
  cases l₂ with
  | nil =>
    rw [h2.1] at hfirst
    rwa [append_nil]
  | cons x l₂ =>
    rw [h2.1] at hfirst
    refine linked_append.2 ⟨hfirst, h2.2.2.congr (fun y hy => ?_) fun y hy => ?_⟩
    · refine update_of_ne (fun e => ?_) ..
      exact hd'.2.2 _ hprev y (mem_cons_of_mem _ hy) e.symm
    · refine update_of_ne (fun e => ?_) ..
      rw [h2.1] at e
      have hx := (nodup_cons.1 (nodup_cons.1 hd'.2.1).2).1
      rcases hy with hy | hy
      · exact hx (e ▸ hy)
      · exact hd'.2.2 h mem_cons_self x (by simp) (hy.symm.trans e)

/-- **A ring with a new first node.** -/
theorem Ring.push (h' : L.Ring h l) (hb : b ∉ h :: l) : (L.push h b).Ring h (b :: l) := by
  obtain ⟨hl, hd⟩ := h'
  obtain ⟨hbh, hbl⟩ : b ≠ h ∧ b ∉ l := by simpa using hb
  have hnext : L.next h ≠ b := by
    rcases hl.next_mem with hm | hm
    · exact fun e => hbl (e ▸ hm)
    · exact fun e => hbh (e.symm.trans hm)
  refine ⟨⟨update_self .., ?_, ?_⟩, ?_⟩
  · simp [DList.push, hnext.symm]
  · cases l with
    | nil =>
      obtain ⟨e, -⟩ := hl
      exact ⟨by simp [DList.push, hbh, e], by simp [DList.push, e]⟩
    | cons x l =>
      obtain ⟨e, -, h3⟩ := hl
      rw [nodup_cons, nodup_cons] at hd
      refine ⟨by simp [DList.push, hbh, e], by simp [DList.push, e],
        h3.congr (fun y hy => ?_) fun y hy => ?_⟩
      · have h1 : y ≠ h := fun e => hd.1 (e ▸ hy)
        have h2 : y ≠ b := fun e => hbl (e ▸ hy)
        simp [DList.push, h1, h2]
      · have h1 : y ≠ x := by
          rcases hy with hy | rfl
          · exact fun e => hd.2.1 (e ▸ hy)
          · exact fun e => hd.1 (by simp [e])
        have h2 : y ≠ b := by
          rcases hy with hy | rfl
          · exact fun e => hbl (by simp [← e, hy])
          · exact hbh.symm
        simp [DList.push, e, h1, h2]
  · simpa [nodup_cons, hbl, hbh.symm, and_left_comm] using hd

omit [DecidableEq α] in
/-- The ring with no node. -/
theorem ring_nil : (⟨fun _ => h, fun _ => h⟩ : DList α).Ring h [] := ⟨⟨rfl, rfl⟩, by simp⟩

/-! ## Going round -/

omit [DecidableEq α] in
/-- Forwards and backwards are inverse. -/
theorem Linked.inverse (hl : L.Linked a l z) :
    (∀ y ∈ a :: l, L.prev (L.next y) = y) ∧ ∀ y, y ∈ l ∨ y = z → L.next (L.prev y) = y := by
  induction l generalizing a with
  | nil =>
    obtain ⟨h1, h2⟩ := hl
    refine ⟨fun y hy => ?_, fun y hy => ?_⟩
    · obtain rfl := mem_singleton.1 hy
      rw [h1, h2]
    · obtain rfl : y = z := by simpa using hy
      rw [h2, h1]
  | cons x l ih =>
    obtain ⟨h1, h2, h3⟩ := hl
    refine ⟨fun y hy => ?_, fun y hy => ?_⟩
    · rcases mem_cons.1 hy with rfl | hy
      · rw [h1, h2]
      · exact (ih h3).1 y hy
    · rcases hy with hy | rfl
      · rcases mem_cons.1 hy with rfl | hy
        · rw [h2, h1]
        · exact (ih h3).2 y (.inl hy)
      · exact (ih h3).2 y (.inr rfl)

/-- The loop `for(b = ...; b != h; b = b->f) if(p(b)) return b;`, for at most so many rounds. -/
def scan (f : α → α) (h : α) (p : α → Bool) : Nat → α → Option α
  | 0, _ => none
  | n + 1, b => if b = h then none else if p b then some b else scan f h p n (f b)

/-- **The loop along `next` is a search.** -/
theorem Linked.scan_next {p : α → Bool} {n : Nat} (hl : L.Linked a l h) (hh : h ∉ l)
    (hn : l.length < n) : scan L.next h p n (L.next a) = l.find? p := by
  induction l generalizing a n with
  | nil =>
    obtain ⟨n, rfl⟩ := Nat.exists_eq_add_of_lt hn
    rw [hl.1]
    simp [scan]
  | cons x l ih =>
    cases n with
    | zero => exact absurd hn (Nat.not_lt_zero _)
    | succ n =>
      obtain ⟨h1, -, h3⟩ := hl
      obtain ⟨hx, hh⟩ : h ≠ x ∧ h ∉ l := by simpa using hh
      rw [h1, scan, if_neg hx.symm, find?_cons]
      cases p x with
      | true => rfl
      | false => exact ih h3 hh (by simpa using hn)

omit [DecidableEq α] in
/-- Backwards it is the list reversed. -/
theorem Linked.reverse (hl : L.Linked a l z) :
    (⟨L.prev, L.next⟩ : DList α).Linked z l.reverse a := by
  induction l generalizing a with
  | nil => exact ⟨hl.2, hl.1⟩
  | cons x l ih =>
    rw [reverse_cons]
    exact linked_append.2 ⟨ih hl.2.2, hl.2.1, hl.1⟩

/-- **…and the loop along `prev` is a search from the end.** -/
theorem Linked.scan_prev {p : α → Bool} {n : Nat} (hl : L.Linked h l z) (hh : h ∉ l)
    (hn : l.length < n) : scan L.prev h p n (L.prev z) = l.reverse.find? p :=
  hl.reverse.scan_next (by simpa using hh) (by simpa using hn)

end DList
