import Mathlib.Data.List.Infix
import Xv6.Dev.Lines

/-!
# Dev/Reads — what each read of the console gets

Reads have numbers, and every byte taken from the ring is taken by one of them.  A read that is
going on has got neither a newline nor a ^D so far (`Active`); one that has ended has either got a
^D and nothing else, or it has stopped behind a newline, at its size, or in front of a ^D (`Ended`).
Since the number of a read that goes on is its own, what one read takes is nothing to the others.
-/

namespace Xv6.Console

open Function List

variable {N p q id id' : Nat} {x : State} {s s' : Sys} {h : Hist} {a : Label} {ok : Bool}
  {b : UInt8} {target n : Int} {R : Result}

/-- What read `id` has taken. -/
def Hist.got (h : Hist) (id : Nat) : List UInt8 := (h.consumed.filter (·.1 = id)).map Prod.snd

/-- The read takes a byte. -/
def Hist.take (h : Hist) (id : Nat) (b : UInt8) : Hist :=
  { h with consumed := h.consumed ++ [(id, b)] }

theorem Hist.got_take : (h.take id b).got id = h.got id ++ [b] := by simp [got, take]

theorem Hist.got_take_ne (hq : q ≠ id) :
    (h.take id b).got q = h.got q := by simp [got, take, hq.symm]

/-- A read goes on: `n` of `target` bytes are missing. -/
structure Active (h : Hist) (id : Nat) (target n : Int) : Prop where
  lt : id < h.begun
  fresh : ∀ R ∈ h.results, R.id ≠ id
  plain : ∀ b ∈ h.got id, b ≠ newline ∧ b ≠ C 'D'
  count : ((h.got id).length : Int) = target - n
  bound : 0 ≤ n ∨ n = target

/-- What one read takes is nothing to another… -/
theorem Active.take_ne (hA : Active h id target n) (hid : id ≠ id') :
    Active (h.take id' b) id target n := by
  obtain ⟨h1, h2, h3, h4, h5⟩ := hA
  rw [← Hist.got_take_ne (b := b) hid] at h3 h4
  exact ⟨h1, h2, h3, h4, h5⟩

/-- …nor is its end. -/
theorem Active.finish_ne (hA : Active h id target n) (hid : id ≠ R.id) :
    Active { h with results := h.results ++ [R] } id target n := by
  obtain ⟨h1, h2, h3, h4, h5⟩ := hA
  refine ⟨h1, fun R' hR => ?_, h3, h4, h5⟩
  rcases mem_append.1 hR with hR | hR
  · exact h2 R' hR
  · rw [mem_singleton.1 hR]
    exact hid.symm

/-- **How a read ends**: with a ^D of its own and nothing else; or behind the first newline, at the
size it was given, or in front of a ^D. -/
def Ended (h : Hist) (R : Result) : Prop :=
  h.got R.id = [C 'D'] ∧ R.ret = 0 ∨
    C 'D' ∉ h.got R.id ∧ newline ∉ (h.got R.id).dropLast ∧ R.ret = (h.got R.id).length ∧
      R.ret ≤ max R.target 0 ∧
      (R.ret = max R.target 0 ∨ (h.got R.id).getLast? = some newline ∨
        0 < R.ret ∧ h.committed[R.upto]? = some (C 'D'))

/-- What the reads have got, where `view p` is the read that process `p` is in, if any. -/
structure Reads (h : Hist) (view : Nat → Option (Nat × Int × Int)) : Prop where
  active : ∀ p id target n, view p = some (id, target, n) → Active h id target n
  apart : ∀ p q id x y, view p = some (id, x) → view q = some (id, y) → p = q
  ended : ∀ R ∈ h.results, R.id < h.begun ∧ Ended h R
  taken : ∀ x ∈ h.consumed, x.1 < h.begun
  eof : ∀ id, (id, C 'D') ∈ h.consumed → h.got id = [C 'D'] ∧ ∃ R ∈ h.results, R.id = id ∧ R.ret = 0
  delivered : h.delivered = (h.consumed.map Prod.snd).filter (· ≠ C 'D')

namespace Reads

variable {view view' : Nat → Option (Nat × Int × Int)}

section

variable (H : Reads h view)

include H

/-- Reads may be given up. -/
theorem mono (hv : ∀ q x, view' q = some x → view q = some x) : Reads h view' :=
  { H with
    active := fun p id target n e => H.active p id target n (hv p _ e)
    apart := fun p q id x y e e' => H.apart p q id x y (hv p _ e) (hv q _ e') }

theorem drop (p : Nat) : Reads h (update view p none) := by
  refine H.mono fun q x e => ?_
  by_cases hq : q = p
  · rw [hq, update_self] at e
    cases e
  · rwa [update_of_ne hq] at e

/-- Without the process that is in it, a read is nobody's. -/
theorem drop_ne {x : Int × Int} (hp : view p = some (id, x)) (q : Nat) (y : Int × Int) :
    update view p none q ≠ some (id, y) := by
  intro e
  by_cases hq : q = p
  · rw [hq, update_self] at e
    cases e
  · rw [update_of_ne hq] at e
    exact hq (H.apart q p id y x e hp)

/-- A process is in a read that is nobody else's. -/
theorem add (hA : Active h id target n) (hne : ∀ q x, view q ≠ some (id, x)) :
    Reads h (update view p (some (id, target, n))) := by
  refine { H with active := fun q id' target' n' e => ?_, apart := fun q r id' x y e e' => ?_ }
  · by_cases hq : q = p
    · rw [hq, update_self] at e
      cases e
      exact hA
    · rw [update_of_ne hq] at e
      exact H.active q _ _ _ e
  · by_cases hq : q = p <;> by_cases hr : r = p
    · rw [hq, hr]
    · rw [hq, update_self] at e
      rw [update_of_ne hr] at e'
      cases e
      exact absurd e' (hne r y)
    · rw [update_of_ne hq] at e
      rw [hr, update_self] at e'
      cases e'
      exact absurd e (hne q x)
    · rw [update_of_ne hq] at e
      rw [update_of_ne hr] at e'
      exact H.apart q r id' x y e e'

/-- More may be committed. -/
theorem commit {l : List UInt8} (hl : h.committed <+: l) :
    Reads { h with committed := l } view := by
  refine { H with active := fun p id target n e => ?_, ended := fun R hR => ?_ }
  · exact { H.active p id target n e with }
  · refine ⟨(H.ended R hR).1, (H.ended R hR).2.imp_right fun ⟨h1, h2, h3, h4, h5⟩ =>
      ⟨h1, h2, h3, h4, ?_⟩⟩
    refine h5.imp_right (Or.imp_right fun ⟨h6, h7⟩ => ⟨h6, ?_⟩)
    obtain ⟨m, rfl⟩ := hl
    exact (getElem?_append_left (List.getElem?_eq_some_iff.1 h7).1).trans h7

end

/-- What one read takes leaves the end of another as it was. -/
theorem ended_take (hR : R.id ≠ id) (hE : Ended h R) : Ended (h.take id b) R := by
  unfold Ended at hE ⊢
  rw [Hist.got_take_ne hR]
  exact hE

/-- **A read takes a byte other than ^D**, and has it copied out. -/
theorem take (H : Reads h view) (hne : ∀ q x, view q ≠ some (id, x)) (hA : Active h id target n)
    (hb : b ≠ C 'D') : Reads { h.take id b with delivered := h.delivered ++ [b] } view where
  active p id' target' n' e := by
    have hid : id' ≠ id := fun hid => hne p (target', n') (hid ▸ e)
    obtain ⟨h1, h2, h3, h4, h5⟩ := (H.active p id' target' n' e).take_ne (b := b) hid
    exact ⟨h1, h2, h3, h4, h5⟩
  apart := H.apart
  ended R hR := ⟨(H.ended R hR).1, ended_take (hA.fresh R hR) (H.ended R hR).2⟩
  taken x hx := by
    rcases mem_append.1 hx with hx | hx
    · exact H.taken x hx
    · rw [mem_singleton.1 hx]
      exact hA.lt
  eof id' hx := by
    rcases mem_append.1 hx with hx | hx
    · obtain ⟨hg, R, hR, e, hret⟩ := H.eof id' hx
      have hid : id' ≠ id := e ▸ hA.fresh R hR
      exact ⟨(Hist.got_take_ne hid).trans hg, R, hR, e, hret⟩
    · exact absurd (Prod.ext_iff.1 (mem_singleton.1 hx)).2.symm hb
  delivered := by
    change h.delivered ++ [b] = ((h.consumed ++ [(id, b)]).map Prod.snd).filter (· ≠ C 'D')
    rw [H.delivered, map_append, filter_append]
    simp [hb]

/-- **A read ends.** -/
theorem finish (H : Reads h view) (hne : ∀ q x, view q ≠ some (R.id, x)) (hlt : R.id < h.begun)
    (hE : Ended h R) : Reads { h with results := h.results ++ [R] } view := by
  refine { H with
    active := fun p id target n e => (H.active p id target n e).finish_ne fun hid => hne p
      (target, n) (hid ▸ e)
    ended := fun R' hR => ?_
    eof := fun id hx => ?_ }
  · rcases mem_append.1 hR with hR | hR
    · exact H.ended R' hR
    · rw [mem_singleton.1 hR]
      exact ⟨hlt, hE⟩
  · obtain ⟨hg, R', hR, e⟩ := H.eof id hx
    exact ⟨hg, R', mem_append_left _ hR, e⟩

/-- **A read takes a ^D as its first byte**, and ends with that. -/
theorem takeEof (H : Reads h view) (hne : ∀ q x, view q ≠ some (R.id, x))
    (hA : Active h R.id target n) (hgot : h.got R.id = []) (hret : R.ret = 0) :
    Reads { h.take R.id (C 'D') with results := h.results ++ [R] } view where
  active p id' target' n' e := by
    have hid : id' ≠ R.id := fun hid => hne p (target', n') (hid ▸ e)
    exact ((H.active p id' target' n' e).take_ne hid).finish_ne hid
  apart := H.apart
  ended R' hR := by
    rcases mem_append.1 hR with hR | hR
    · exact ⟨(H.ended R' hR).1, ended_take (hA.fresh R' hR) (H.ended R' hR).2⟩
    · rw [mem_singleton.1 hR]
      refine ⟨hA.lt, .inl ⟨?_, hret⟩⟩
      exact Hist.got_take.trans (by rw [hgot]; rfl)
  taken x hx := by
    rcases mem_append.1 hx with hx | hx
    · exact H.taken x hx
    · rw [mem_singleton.1 hx]
      exact hA.lt
  eof id' hx := by
    rcases mem_append.1 hx with hx | hx
    · obtain ⟨hg, R', hR, e, hr⟩ := H.eof id' hx
      have hid : id' ≠ R.id := e ▸ hA.fresh R' hR
      exact ⟨(Hist.got_take_ne hid).trans hg, R', mem_append_left _ hR, e, hr⟩
    · obtain rfl : id' = R.id := (Prod.ext_iff.1 (mem_singleton.1 hx)).1
      refine ⟨Hist.got_take.trans (by rw [hgot]; rfl), R, ?_, rfl, hret⟩
      exact mem_append_right _ (mem_singleton.2 rfl)
  delivered := by
    change h.delivered = ((h.consumed ++ [(R.id, C 'D')]).map Prod.snd).filter (· ≠ C 'D')
    rw [H.delivered, map_append, filter_append]
    simp

/-- **A read begins.** -/
theorem start (H : Reads h view) (n : Int) :
    Reads { h with begun := h.begun + 1 } (update view p (some (h.begun, n, n))) := by
  have H' : Reads { h with begun := h.begun + 1 } (update view p none) := by
    refine ⟨fun q id target n e => ?_, (H.drop p).apart, fun R hR => ?_, fun x hx => ?_,
      H.eof, H.delivered⟩
    · obtain ⟨h1, h2, h3, h4, h5⟩ := (H.drop p).active q id target n e
      exact ⟨Nat.lt_succ_of_lt h1, h2, h3, h4, h5⟩
    · exact ⟨Nat.lt_succ_of_lt (H.ended R hR).1, (H.ended R hR).2⟩
    · exact Nat.lt_succ_of_lt (H.taken x hx)
  have hgot : h.got h.begun = [] := by
    rw [Hist.got, map_eq_nil_iff, filter_eq_nil_iff]
    intro x hx
    have := H.taken x hx
    simpa using this.ne
  have hA : Active { h with begun := h.begun + 1 } h.begun n n := by
    refine ⟨Nat.lt_succ_self _, fun R hR => ((H.ended R hR).1).ne, fun b hb => ?_, ?_, .inr rfl⟩
    · change b ∈ h.got h.begun at hb
      rw [hgot] at hb
      cases hb
    · change ((h.got h.begun).length : Int) = n - n
      rw [hgot, Int.sub_self]
      rfl
  have := H'.add (p := p) hA fun q x e => ?_
  · rwa [update_idem] at this
  · exact absurd ((H.drop p).active q h.begun x.1 x.2 e).lt (Nat.lt_irrefl _)

end Reads

/-! ## The ends of the loop -/

namespace Active

section

variable (hA : Active h id target n)

include hA

/-- A read that has what it was asked for. -/
theorem endSize (hn : ¬0 < n) (upto : Nat) : Ended h ⟨id, target, target - n, upto⟩ := by
  have hc := hA.count
  refine .inr ⟨fun hm => (hA.plain _ hm).2 rfl, fun hm => (hA.plain _ (mem_of_mem_dropLast hm)).1
    rfl, hc.symm, ?_, .inl ?_⟩ <;> rcases hA.bound with h0 | h0 <;> dsimp only <;> omega

/-- A read that has just got a newline. -/
theorem endNewline (hn : 0 < n) (upto : Nat) :
    Ended (h.take id newline) ⟨id, target, target - (n - 1), upto⟩ := by
  have hc := hA.count
  refine .inr ?_
  rw [Hist.got_take, dropLast_concat, getLast?_concat, length_append]
  refine ⟨fun hm => ?_, fun hm => (hA.plain _ hm).1 rfl, ?_, ?_, .inr (.inl rfl)⟩
  · rcases mem_append.1 hm with hm | hm
    · exact (hA.plain _ hm).2 rfl
    · exact absurd (mem_singleton.1 hm) (by decide)
  · rw [length_singleton]
    dsimp only
    omega
  · dsimp only
    omega

/-- A read that has something, in front of a ^D. -/
theorem endEof (hn : 0 < n) (hlt : n < target) {upto : Nat}
    (hu : h.committed[upto]? = some (C 'D')) : Ended h ⟨id, target, target - n, upto⟩ := by
  have hc := hA.count
  refine .inr ⟨fun hm => (hA.plain _ hm).2 rfl, fun hm => (hA.plain _ (mem_of_mem_dropLast hm)).1
    rfl, hc.symm, ?_, .inr (.inr ⟨?_, hu⟩)⟩ <;> dsimp only <;> omega

/-- A read goes on after a byte. -/
theorem next (hn : 0 < n) (hb : b ≠ newline ∧ b ≠ C 'D') :
    Active { h.take id b with delivered := h.delivered ++ [b] } id target (n - 1) where
  lt := hA.lt
  fresh := hA.fresh
  plain x hx := by
    change x ∈ (h.take id b).got id at hx
    rw [Hist.got_take] at hx
    rcases mem_append.1 hx with hx | hx
    · exact hA.plain x hx
    · rw [mem_singleton.1 hx]
      exact hb
  count := by
    change (((h.take id b).got id).length : Int) = target - (n - 1)
    have hc := hA.count
    rw [Hist.got_take, length_append, length_singleton]
    omega
  bound := .inl (by omega)

end

end Active

/-! ## The system -/

/-- The read a point belongs to, if any. -/
def Point.reading : Point → Option (Nat × Int × Int)
  | .read id target n | .killed id target n => some (id, target, n)
  | .intr _ => none

/-- The read a process is in, if any. -/
def reading : Code Point Chan → Option (Nat × Int × Int)
  | .acquire b | .sleep _ b | .body b => b.reading
  | .wakeup _ _ next => reading next
  | .done _ | .release _ => none

/-- The reads all processes are in. -/
def view (s : Sys) (p : Nat) : Option (Nat × Int × Int) := reading (s.procs p).pc

theorem view_upd {w : Waiter Point Chan} : view (s.upd p w) = update (view s) p (reading w.pc) := by
  funext q
  by_cases hq : q = p
  · subst hq
    simp [view]
  · simp [view, Monitor.upd_ne hq, hq]

/-- The ring does not depend on what the reads have got. -/
theorem Lines.congr {y : State} {c u : List UInt8} (hl : Lines x c u) (hb : y.buf = x.buf)
    (hr : y.r = x.r) (hw : y.w = x.w) (he : y.e = x.e) (hc : y.hist.committed = x.hist.committed)
    (hk : y.hist.consumed = x.hist.consumed) : Lines y c u := by
  refine ⟨?_, ?_, ?_⟩
  · rw [hb, hr, he]
    exact hl.queue
  · rw [hw, hr]
    exact hl.w_eq
  · rw [hc, hk]
    exact hl.committed

/-- The ring and the reads are in order. -/
def Good (x : State) (v : Nat → Option (Nat × Int × Int)) : Prop :=
  (∃ c u, Lines x c u) ∧ Reads x.hist v

namespace Good

variable {v : Nat → Option (Nat × Int × Int)}

theorem drop (hg : Good x v) (p : Nat) : Good x (update v p none) := ⟨hg.1, hg.2.drop p⟩

/-- **One turn of the loop of `consoleread`**, with a copy that succeeds. -/
theorem read (hg : Good x v) (hv : v p = some (id, target, n)) :
    Good (consoleread x true id target n).1
      (update v p (reading (consoleread x true id target n).2)) := by
  obtain ⟨⟨c, u, hl⟩, H⟩ := hg
  have hA := H.active p id target n hv
  have hne := H.drop_ne hv
  rw [consoleread]
  split
  next hn =>
    split
    · refine ⟨⟨c, u, hl⟩, ?_⟩
      change Reads x.hist (update v p (some (id, target, n)))
      rw [← hv, update_eq_self]
      exact H
    next hrw =>
      match c, hl with
      | [], hl => exact absurd (hl.r_eq_iff.2 rfl) hrw
      | b :: c, hl =>
        obtain ⟨hb, hl'⟩ := hl.take id
        dsimp only
        rw [hb]
        have ht : (x.take id).hist = x.hist.take id b := by rw [← hb]; rfl
        split
        next hD =>
          split
          next hlt =>
            refine ⟨⟨b :: c, u, hl.congr rfl rfl rfl rfl rfl rfl⟩, ?_⟩
            refine (H.drop p).finish hne hA.lt (hA.endEof hn hlt ?_)
            rw [hl.committed, hD, getElem?_append_right (by rw [length_map]), length_map,
              Nat.sub_self]
            rfl
          next hlt =>
            refine ⟨⟨c, u, hl'.congr rfl rfl rfl rfl rfl rfl⟩, ?_⟩
            change Reads { (x.take id).hist with results := _ } _
            rw [ht, hD]
            have hc := hA.count
            have h0 : target - n = 0 := by
              rcases hA.bound with h0 | h0 <;> omega
            have hgot : x.hist.got id = [] := by
              rw [← length_eq_zero_iff]
              omega
            exact (H.drop p).takeEof (R := ⟨id, target, target - n, _⟩) hne hA hgot h0
        next hD =>
          rw [if_pos rfl]
          have hrd := (H.drop p).take hne hA hD
          have hh : ((x.take id).copyout b).hist =
              { x.hist.take id b with delivered := x.hist.delivered ++ [b] } := by
            rw [← ht]
            rfl
          split
          next hN =>
            refine ⟨⟨c, u, hl'.congr rfl rfl rfl rfl rfl rfl⟩, ?_⟩
            change Reads { ((x.take id).copyout b).hist with results := _ } _
            rw [hh]
            refine hrd.finish hne hA.lt ?_
            rw [hN]
            exact hA.endNewline hn _
          next hN =>
            refine ⟨⟨c, u, hl'.congr rfl rfl rfl rfl rfl rfl⟩, ?_⟩
            change Reads ((x.take id).copyout b).hist _
            rw [hh]
            have := hrd.add (p := p) (hA.next hn ⟨hN, hD⟩) hne
            rwa [update_idem] at this
  next hn => exact ⟨⟨c, u, hl.congr rfl rfl rfl rfl rfl rfl⟩, (H.drop p).finish hne hA.lt
    (hA.endSize hn _)⟩

/-- **A character arrives.** -/
theorem intr (hg : Good x v) : Good (consoleintr x b).1 v := by
  obtain ⟨⟨c, u, hl⟩, H⟩ := hg
  by_cases hb : erases b
  · obtain ⟨u', -, hl', -, -, hh⟩ := hl.erased hb
    exact ⟨⟨c, u', hl'⟩, hh ▸ H⟩
  · obtain ⟨c', u', hl', hpre, hh⟩ := hl.typed hb
    exact ⟨⟨c', u', hl'⟩, hh ▸ H.commit hpre⟩

end Good

/-- What is left to do after the `switch` is not a read. -/
theorem consoleintr_reading : reading (consoleintr x b).2 = none := by
  unfold consoleintr
  dsimp only
  split_ifs <;> rfl

/-- **The code of the console** keeps the ring and the reads in order. -/
theorem Good.body {v : Nat → Option (Nat × Int × Int)} {pt : Point} {k : Bool} (hg : Good x v)
    (hv : v p = pt.reading) :
    Good (body x k true pt).1 (update v p (reading (body x k true pt).2)) := by
  cases pt with
  | read id target n => exact hg.read hv
  | killed id target n =>
    rw [Console.body]
    split
    · exact hg.drop p
    · have : update v p (some (id, target, n)) = v := by rw [← update_eq_self p v, hv]; simp; rfl
      exact this.symm ▸ hg
  | intr c =>
    rw [Console.body, consoleintr_reading]
    exact hg.intr.drop p

/-- The ring and the reads of a state are in order. -/
def Inv (s : Sys) : Prop := Good s.obj (view s)

/-- A process is somewhere else in the same read, or in none. -/
theorem Inv.upd (hi : Inv s) {w : Waiter Point Chan}
    (hw : reading w.pc = none ∨ reading w.pc = view s p) : Inv (s.upd p w) := by
  refine ⟨hi.1, ?_⟩
  rw [view_upd]
  rcases hw with e | e
  · rw [e]
    exact hi.2.drop p
  · rw [e, update_eq_self]
    exact hi.2

/-- A process goes on, and has changed the console. -/
theorem Inv.move {pc : Code Point Chan} (hg : Good x (update (view s) p (reading pc))) :
    Inv { s.goto p pc with obj := x } := by
  have hv : view (s.goto p pc) = update (view s) p (reading pc) := view_upd
  change Good x (view (s.goto p pc))
  rwa [hv]

/-- The copies to the user succeed. -/
def Copies (_ : Sys) (l : Label) : Prop := ∀ p ok, l = .run p ok → ok = true

/-- **A step at a program point.** -/
theorem Inv.step (hi : Inv s) {pc : Code Point Chan} (hpc : (s.procs p).pc = pc)
    (he : monitor.step N s p true pc = some s') : Inv s' := by
  have hview : view s p = reading pc := congrArg reading hpc
  cases pc with
  | done => cases he
  | acquire b =>
    obtain ⟨-, he⟩ := Option.ite_none_right_eq_some.1 he
    obtain rfl := Option.some.inj he
    exact hi.upd (.inr hview.symm)
  | release ret =>
    obtain rfl := Option.some.inj he
    exact hi.upd (.inl rfl)
  | sleep c b =>
    obtain rfl := Option.some.inj he
    exact hi.upd (.inr hview.symm)
  | wakeup c k next =>
    rw [Monitor.step] at he
    split at he
    · obtain rfl := Option.some.inj he
      unfold Monitor.Sys.pass
      split
      · exact hi.upd (.inr hview.symm)
      next hk =>
        have hi' : Inv (s.upd k ((s.procs k).wake c)) :=
          hi.upd (.inr (congrArg reading Waiter.wake_pc))
        refine hi'.upd (.inr ?_)
        rw [view_upd, update_of_ne (Ne.symm hk), hview]
        rfl
    · obtain rfl := Option.some.inj he
      exact hi.upd (.inr hview.symm)
  | body b =>
    obtain rfl := Option.some.inj he
    exact .move (Good.body hi hview)

theorem Inv.exec (hi : Inv s) (hc : Copies s a) (he : monitor.exec N s a = some s') : Inv s' := by
  cases a with
  | run p ok =>
    obtain rfl := hc p ok rfl
    obtain ⟨-, he⟩ := Option.ite_none_right_eq_some.1 he
    exact hi.step rfl he
  | call p f =>
    obtain ⟨-, -, -, rfl⟩ := Monitor.call_eq he
    cases f with
    | consoleread n =>
      obtain ⟨⟨c, u, hl⟩, H⟩ := hi
      exact .move ⟨⟨c, u, hl.congr rfl rfl rfl rfl rfl rfl⟩, H.start n⟩
    | consoleintr c => exact hi.upd (.inl rfl)
  | kill p =>
    obtain rfl := Option.some.inj he
    exact hi.upd (.inr rfl)

theorem system_inv (h : ((system N).restrict Copies).Reach s) : Inv s := by
  refine h.invariant ?_ fun _ _ _ _ hi hs => hi.exec hs.1 hs.2
  rintro _ ⟨_, rfl, rfl⟩
  exact ⟨⟨[], [], .empty (by decide), rfl, rfl⟩, nofun, nofun, nofun, nofun, nofun, rfl⟩

/-- **The line discipline**, as it shows in one state. -/
structure Discipline (x : State) : Prop where
  /-- The indices are in order, and not further apart than the buffer is long. -/
  bounds : sub x.w x.r ≤ sub x.e x.r ∧ sub x.e x.r ≤ INPUT_BUF_SIZE
  /-- What has been committed has been read, in order, or is still in the buffer as it was. -/
  committed : x.hist.committed = x.hist.consumed.map Prod.snd ++ x.pending
  /-- What users have got is what has been read, without the ^Ds. -/
  delivered : x.hist.delivered = (x.hist.consumed.map Prod.snd).filter (· ≠ C 'D')
  /-- Every read ends as it should. -/
  ended : ∀ R ∈ x.hist.results, Ended x.hist R
  /-- A read that takes a ^D takes nothing else, and returns 0. -/
  eof : ∀ id, (id, C 'D') ∈ x.hist.consumed →
    x.hist.got id = [C 'D'] ∧ ∃ R ∈ x.hist.results, R.id = id ∧ R.ret = 0

/-- …and in one step: what has been committed stays so, and characters that erase leave everything
up to `w` as it is. -/
structure Keeps (s : Sys) (a : Label) (s' : Sys) : Prop where
  committed : s.obj.hist.committed <+: s'.obj.hist.committed
  erased : ∀ p ok b, a = .run p ok → (s.procs p).pc = .body (.intr b) → erases b →
    s'.obj.r = s.obj.r ∧ s'.obj.w = s.obj.w ∧ s'.obj.pending = s.obj.pending ∧
      s'.obj.hist.committed = s.obj.hist.committed ∧ s'.obj.edited <+: s.obj.edited

theorem Inv.discipline (hi : Inv s) : Discipline s.obj := by
  obtain ⟨⟨c, u, hl⟩, H⟩ := hi
  refine ⟨?_, hl.pending_eq.symm ▸ hl.committed, H.delivered, fun R hR => (H.ended R hR).2, H.eof⟩
  rw [hl.sub_pending, hl.sub_all]
  exact ⟨by rw [length_append]; omega, hl.queue.fits⟩

/-- A turn of `consoleread` commits nothing. -/
theorem consoleread_committed : (consoleread x ok id target n).1.hist.committed =
    x.hist.committed := by
  unfold consoleread
  dsimp only
  split_ifs <;> rfl

/-- What has been committed stays so. -/
theorem Lines.body_committed {c u : List UInt8} {k : Bool} {pt : Point} (hl : Lines x c u) :
    x.hist.committed <+: (body x k ok pt).1.hist.committed := by
  cases pt with
  | read id target n =>
    rw [body, consoleread_committed]
  | killed => exact prefix_rfl
  | intr b =>
    rw [body]
    by_cases hb : erases b
    · obtain ⟨-, -, -, -, -, hh⟩ := hl.erased hb
      rw [hh]
    · obtain ⟨-, -, -, hpre, -⟩ := hl.typed hb
      exact hpre

theorem Inv.keeps (hi : Inv s) (he : monitor.exec N s a = some s') : Keeps s a s' where
  committed := by
    obtain ⟨c, u, hl⟩ := hi.1
    rcases Monitor.exec_obj he with e | ⟨p, ok, b, -, -, e⟩ | ⟨p, f, -, e⟩ <;> rw [e]
    · exact hl.body_committed
    · cases f <;> exact prefix_rfl
  erased := by
    rintro p ok b rfl hpc hb
    obtain ⟨-, he⟩ := Option.ite_none_right_eq_some.1 he
    rw [hpc] at he
    obtain rfl := Option.some.inj he
    obtain ⟨⟨c, u, hl⟩, -⟩ := hi
    obtain ⟨u', hu, hl', hr, hw, hh⟩ := hl.erased hb
    refine ⟨hr, hw, ?_, congrArg Hist.committed hh, ?_⟩
    · exact hl'.pending_eq.trans hl.pending_eq.symm
    · change (consoleintr s.obj b).1.edited <+: s.obj.edited
      rw [hl'.edited_eq, hl.edited_eq]
      exact hu

/-- **The console keeps its line discipline**, in every state that is reached with copies that
succeed and in every step from there. -/
theorem console_discipline (N : Nat) (s : Sys) (h : ((system N).restrict Copies).Reach s) :
    Discipline s.obj ∧ ∀ a s', (system N).step s a s' → Keeps s a s' :=
  ⟨(system_inv h).discipline, fun _ _ he => (system_inv h).keeps he⟩

instance {s : Sys} : DecidablePred (Copies s)
  | .run _ false => .isFalse fun h => nomatch h _ _ rfl
  | .run _ true => .isTrue fun _ _ e => by cases e; rfl
  | .call .. | .kill _ => .isTrue nofun

/-- Process `p` takes `n` steps. -/
def steps (p n : Nat) : List Label := List.replicate n (.run p true)

theorem console_discipline_line : ∃ s, ((system 1).restrict Copies).Reach s ∧
    (s.obj.hist.committed == [97, 10] && s.obj.hist.delivered == [97, 10]) = true ∧
    Discipline s.obj ∧ ∀ a s', (system 1).step s a s' → Keeps s a s' := by
  have h : ((system 1).restrict Copies).Reach (.start consoleinit) := .init ⟨_, rfl, rfl⟩
  -- an `a`, a `b` that is erased and a newline are typed, and the line is read
  obtain ⟨s, hs, hP⟩ := h.play_guarded (f := monitor.exec 1) (fun _ _ _ e => e)
    (l := .call 1 (.consoleintr 97) :: steps 1 3 ++ .call 1 (.consoleintr 98) :: steps 1 3 ++
      .call 1 (.consoleintr 8) :: steps 1 3 ++ .call 1 (.consoleintr 13) :: steps 1 5 ++
      .call 0 (.consoleread 5) :: steps 0 3)
    (P := fun s : Sys => s.obj.hist.committed == [97, 10] && s.obj.hist.delivered == [97, 10])
    (by decide +kernel)
  exact ⟨s, hs, hP, console_discipline 1 s hs⟩

end Xv6.Console
