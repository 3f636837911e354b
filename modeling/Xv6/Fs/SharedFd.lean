import Mathlib.Data.List.GetD
import Xv6.Fs.Chunks
import Xv6.Fs.ReadWrite
import Xv6.Lib.LTS

/-!
# Fs/SharedFd — writes through one `struct file` by many processes

Processes that have come by a descriptor through `fork` or `dup` share its offset.  `filewrite`
writes a chunk at a time, each under the lock of the inode; between two chunks of one process any
number of chunks of others may come.  A step here is such a turn, `writeTurn`, or whatever others do
that leaves this file alone.

The log is the list of chunks in the order in which the lock was taken.  `shared_writes` says that
the file has exactly them, one after the other, from where the offset was.
-/

namespace Xv6.Fsys

open Act Bytes Function List

section

variable [Super] {f k i : Nat} {G : Ghost} {s t : Fs} {src : Source} {n c : Nat}

/-- What others do who do not write to the file: it stays open, with its offset and its bytes. -/
def Unaffected (f k i : Nat) (s t : Fs) : Prop :=
  ∀ G, Open f k i G s → ∃ G', Open f k i G' t ∧ (t.ftable f).off = (s.ftable f).off ∧
    (G.ino i).size ≤ (G'.ino i).size ∧ ∀ o b, o / BSIZE < MAXFILE → Placed i G s o b →
    Placed i G' t o b

/-- A call of `filewrite`: how much it has written, and what it has returned. -/
structure WriteCall where
  src : Source
  n : Int
  done : Nat
  ret : Option Int

/-- How much it is to write in its next turn. -/
def WriteCall.next (c : WriteCall) : Nat := min (c.n.toNat - c.done) maxWrite

/-- The call after a turn for which `writei` has returned `r`. -/
def WriteCall.wrote (c : WriteCall) (r : Int) : WriteCall :=
  { c with done := c.done + r.toNat, ret := if r = c.next then none else some (-1) }

/-- The file system; the calls of each process, the last one first; and the chunks. -/
structure Writers where
  fs : Fs
  calls : Nat → List WriteCall
  log : List (Nat × List UInt8)

/-- What can happen. -/
inductive WriteEvent
  | begin (p : Nat) (src : Source) (n : Int)
  | turn (p : Nat)
  | finish (p : Nat)
  | other

/-- A process is in no call. -/
def Writers.Idle (w : Writers) (p : Nat) : Prop := ∀ c ∈ (w.calls p).head?, c.ret ≠ none

/-- A step: a call of `filewrite` begins, has a turn, or ends, or others do something. -/
inductive WriteStep (f k i : Nat) : Writers → WriteEvent → Writers → Prop
  | begin {w : Writers} {p : Nat} (src : Source) (n : Int) (idle : w.Idle p) :
      WriteStep f k i w (.begin p src n)
      { w with calls := update w.calls p (⟨src, n, 0, none⟩ :: w.calls p) }
  | turn {w : Writers} {p : Nat} {c : WriteCall} {rest : List WriteCall} {r : Int} {t : Fs}
      (call : w.calls p = c :: rest) (busy : c.ret = none) (more : c.done < c.n.toNat)
      (run : writeTurn f (fun j => c.src (c.done + j)) c.next w.fs = .ok (r, t)) :
      WriteStep f k i w (.turn p)
        { fs := t
          calls := update w.calls p (c.wrote r :: rest)
          log := w.log ++ [(p, Source.bytes (fun j => c.src (c.done + j)) r.toNat)] }
  | finish {w : Writers} {p : Nat} {c : WriteCall} {rest : List WriteCall}
      (call : w.calls p = c :: rest) (busy : c.ret = none) (all : ¬ c.done < c.n.toNat) :
      WriteStep f k i w (.finish p)
        { w with
          calls := update w.calls p
            ({ c with ret := some (if c.done = c.n then c.n else -1) } :: rest) }
  | other {w : Writers} {t : Fs} (keeps : Unaffected f k i w.fs t) : WriteStep f k i w .other
      { w with fs := t }

/-- **Any number of processes that write through file `f`**, from a state in which none has
begun. -/
def writers (f k i : Nat) (s : Fs) : LTS Writers WriteEvent where
  init w := w = ⟨s, fun _ => [], []⟩
  step := WriteStep f k i

/-- All chunks. -/
def Writers.data (w : Writers) : List UInt8 := w.log.flatMap (·.2)

/-- The chunks of a process. -/
def Writers.dataOf (w : Writers) (p : Nat) : List UInt8 := (w.log.filter (·.1 = p)).flatMap (·.2)

/-- What the calls of a process have written. -/
def Writers.written (w : Writers) (p : Nat) : List UInt8 :=
  (w.calls p).reverse.flatMap fun c => c.src.bytes c.done

/-- **A call writes no more than it was asked to**, and all of it unless it returns `-1`. -/
def WriteCall.Counts (c : WriteCall) : Prop :=
  c.done ≤ c.n.toNat ∧ ∀ r, c.ret = some r → r = c.n ∧ c.done = c.n ∨ r = -1

/-- **The next turn of each call returns**, and writes all it is to write from memory that can be
read, in a range a file can have and unless the disk is full then. -/
def Writers.Served (f i : Nat) (w : Writers) : Prop :=
  ∀ p c rest, w.calls p = c :: rest → ∃ r t, writeTurn f (fun j => c.src (c.done + j)) c.next w.fs =
    .ok (r, t) ∧ ((∀ j < c.next, (c.src (c.done + j)).isSome = true) → (w.fs.ftable f).off ≤
      (w.fs.dino i).size → (w.fs.ftable f).off + c.next ≤ MAXFILE * BSIZE → t.spare ≠ none →
      r = c.next)

omit [Super] in
theorem bytes_add {a b : Nat} :
    src.bytes (a + b) = src.bytes a ++ Source.bytes (fun j => src (a + j)) b := by
  simp [Source.bytes, range_add]

/-- **What holds between turns**, with the offset at `off₀` to begin with. -/
structure Written (f k i off₀ : Nat) (w : Writers) (G : Ghost) : Prop where
  opened : Open f k i G w.fs
  off : (w.fs.ftable f).off = off₀ + w.data.length
  fits : w.data ≠ [] → off₀ + w.data.length ≤ min (G.ino i).size (MAXFILE * BSIZE)
  bytes : ∀ j < w.data.length, Placed i G w.fs (off₀ + j) (w.data.getD j 0)
  order : ∀ p, w.dataOf p = w.written p
  counts : ∀ p, ∀ c ∈ w.calls p, c.Counts

variable {off₀ : Nat} {w w' : Writers} {e : WriteEvent}

omit [Super] in
theorem counts_update {p : Nat} {call : WriteCall} {rest : List WriteCall}
    (h : ∀ q, ∀ c ∈ w.calls q, c.Counts) (hr : ∀ c ∈ rest, c.Counts) (hc : call.Counts) (q : Nat) :
    ∀ c ∈ update w.calls p (call :: rest) q, c.Counts := by
  by_cases hq : q = p
  · rw [hq, update_self]
    exact forall_mem_cons.2 ⟨hc, hr⟩
  · rw [update_of_ne hq]
    exact h q

omit [Super] in
theorem written_update {p q : Nat} {call : WriteCall} {rest : List WriteCall} {fs : Fs}
    {log : List (Nat × List UInt8)} : Writers.written ⟨fs, update w.calls p (call :: rest), log⟩ q =
      if q = p then (rest.reverse.flatMap fun c => c.src.bytes c.done) ++ call.src.bytes call.done
        else w.written q := by
  unfold Writers.written
  dsimp only
  split
  next hq => rw [hq, update_self]; simp
  next hq => rw [update_of_ne hq]

/-- A chunk of process `p` behind the others. -/
theorem Written.chunk {p tot : Nat} {call : WriteCall} {r : Int} {G' : Ghost}
    {rest : List WriteCall} (h : Written f k i off₀ w G) (hcall : w.calls p = call :: rest)
    (hlt : call.done < call.n.toNat)
    (hc : Chunk f k i call.next (fun j => call.src (call.done + j)) G w.fs r tot G' t) :
    Written f k i off₀ ⟨t, update w.calls p (call.wrote r :: rest),
      w.log ++ [(p, Source.bytes (fun j => call.src (call.done + j)) r.toNat)]⟩ G' := by
  have hr : r.toNat = tot := by
    rcases hc.ret with rfl | ⟨rfl, rfl⟩ <;> simp
  unfold WriteCall.wrote
  rw [hr]
  generalize hb : Source.bytes (fun j => call.src (call.done + j)) tot = bs
  have hlen : bs.length = tot := by rw [← hb, length_bytes]
  generalize hw' : Writers.mk _ _ _ = w'
  have hdata : w'.data = w.data ++ bs := by simp [← hw', Writers.data]
  subst hw'
  have hoff := h.off
  refine ⟨hc.opened, ?_, fun hne => ?_, fun j hj => ?_, fun q => ?_, ?_⟩
  · rw [hdata, hc.off, hoff, length_append, hlen]
    omega
  · rw [hdata] at hne ⊢
    rw [length_append, hlen]
    have hgrows := hc.grows
    rcases Nat.eq_zero_or_pos tot with h0 | hpos
    · have hold : w.data ≠ [] :=
        fun h1 => hne (by rw [h1, eq_nil_of_length_eq_zero (hlen.trans h0)]; rfl)
      have := h.fits hold
      omega
    · have := hc.fits hpos
      omega
  · rw [hdata] at hj ⊢
    rw [length_append, hlen] at hj
    by_cases hlt : j < w.data.length
    · -- below the offset nothing changes
      have hfits := h.fits (ne_nil_of_length_pos (by omega))
      rw [getD_append _ _ _ _ hlt]
      exact hc.kept _ _ (by omega)
        (Nat.div_lt_of_lt_mul (by rw [Nat.mul_comm]; omega)) (h.bytes j hlt)
    · have hbyte := hc.bytes (j - w.data.length) (by omega)
      rw [hoff, Nat.add_assoc, Nat.add_sub_cancel' (Nat.not_lt.1 hlt)] at hbyte
      rw [getD_append_right _ _ _ _ (Nat.not_lt.1 hlt), ← hb]
      simpa [Source.bytes, getD_eq_getElem?_getD, show j - w.data.length < tot by omega] using hbyte
  · have hq := h.order q
    rw [written_update]
    unfold Writers.dataOf at hq ⊢
    rw [filter_append, flatMap_append, hq]
    split
    next hqp =>
      rw [hqp, Writers.written, hcall]
      simp [bytes_add, hb]
    next hqp => simp [Ne.symm hqp]
  · have hcs := h.counts p
    rw [hcall] at hcs
    refine counts_update h.counts (fun c hm => hcs c (mem_cons_of_mem _ hm)) ⟨?_, fun r' hr' => ?_⟩
    · have hle := hc.le
      unfold WriteCall.next at hle
      show call.done + tot ≤ call.n.toNat
      omega
    · dsimp only at hr'
      split at hr'
      · cases hr'
      · exact .inr (Option.some.inj hr').symm

/-- **A step keeps it.** -/
theorem Written.step (g : Geometry) (h : Written f k i off₀ w G) (hs : WriteStep f k i w e w') :
    ∃ G', Written f k i off₀ w' G' := by
  cases hs with
  | @begin p src n idle =>
    refine ⟨G, h.opened, h.off, h.fits, h.bytes, fun q => (h.order q).trans ?_,
      counts_update h.counts (h.counts p) ⟨Nat.zero_le _, fun r hr => by cases hr⟩⟩
    rw [written_update]
    split
    next hq => simp [hq, Writers.written, Source.bytes]
    next => rfl
  | turn call busy more run =>
    obtain ⟨tot, G', hc⟩ := (writeTurn_spec g h.opened (min_le_right ..)).of_ok run
    exact ⟨G', h.chunk call more hc⟩
  | @finish p c rest call busy all =>
    have hcs := h.counts p
    rw [call] at hcs
    have hle := (hcs c mem_cons_self).1
    refine ⟨G, h.opened, h.off, h.fits, h.bytes, fun q => (h.order q).trans ?_,
      counts_update h.counts (fun c hm => hcs c (mem_cons_of_mem _ hm)) ⟨hle, fun r hr => ?_⟩⟩
    · rw [written_update]
      split
      next hq =>
        rw [hq, Writers.written, call]
        simp
      next => rfl
    · obtain rfl := Option.some.inj hr
      split
      next hn => exact .inl ⟨rfl, hn⟩
      next => exact .inr rfl
  | other keeps =>
    obtain ⟨G', ho, hoff, hsize, hbytes⟩ := keeps G h.opened
    refine ⟨G', ho, hoff.trans h.off, fun hne => ?_, fun j hj => ?_, h.order, h.counts⟩
    · have := h.fits hne
      show _ + w.data.length ≤ _
      omega
    · have hfits := h.fits (ne_nil_of_length_pos (Nat.zero_lt_of_lt hj))
      have hj : j < w.data.length := hj
      exact hbytes _ _ (Nat.div_lt_of_lt_mul (by rw [Nat.mul_comm]; omega)) (h.bytes j hj)

/-- It holds in every state. -/
theorem Open.written (g : Geometry) (h : Open f k i G s) (hw : (writers f k i s).Reach w) :
    ∃ G', Written f k i (s.ftable f).off w G' := by
  refine hw.invariant (I := fun w => ∃ G', Written f k i (s.ftable f).off w G') ?_ ?_
  · rintro _ rfl
    exact ⟨G, h, rfl, fun hne => absurd rfl hne, fun j hj => absurd hj (Nat.not_lt_zero j),
      fun _ => rfl, fun _ c hc => by cases hc⟩
  · rintro w e w' - ⟨G', hW⟩ hs
    exact hW.step g hs

/-- **The loop of `filewrite` is a run.** -/
theorem exists_loop (g : Geometry) (h : Open f k i G s) (hw : (writers f k i s).Reach w)
    (fuel : Nat) {p : Nat} {c : WriteCall} {rest : List WriteCall} (hc : w.calls p = c :: rest)
    (hret : c.ret = none) (hf : c.n.toNat - c.done ≤ fuel) :
    ∃ d done w', filewriteLoop f c.src c.n.toNat fuel c.done w.fs = .ok (d, w'.fs) ∧
    (writers f k i s).Reach w' ∧
      w'.calls = update w.calls p
      (⟨c.src, c.n, done, some (if (d : Int) = c.n then c.n else -1)⟩ :: rest) := by
  -- the end of the loop
  have hend : ∀ {w c}, (writers f k i s).Reach w → w.calls p = c :: rest → c.ret = none →
      ¬ c.done < c.n.toNat → ∃ d done w', (pure c.done : Act Fs Panic Nat) w.fs = .ok (d, w'.fs) ∧
      (writers f k i s).Reach w' ∧
        w'.calls = update w.calls p
        (⟨c.src, c.n, done, some (if (d : Int) = c.n then c.n else -1)⟩ :: rest) := by
    intro w c hw hc hret hn
    refine ⟨c.done, c.done, _, ?_, hw.step (.finish hc hret hn), rfl⟩
    rfl
  induction fuel generalizing w c with
  | zero => exact hend hw hc hret (by omega)
  | succ fuel ih =>
    rw [filewriteLoop_turn]
    by_cases hlt : c.done < c.n.toNat
    · obtain ⟨G', hW⟩ := h.written g hw
      have hwp : wp (writeTurn f (fun j => c.src (c.done + j)) c.next) _ _ w.fs :=
        writeTurn_spec g hW.opened (min_le_right ..)
      obtain ⟨r, t, hrun, -⟩ := hwp.total
      have hstep := hw.step (.turn hc hret hlt hrun)
      have hnext : min (c.n.toNat - c.done) maxWrite = c.next := rfl
      rw [if_pos hlt, hnext, bind_ok hrun]
      by_cases hr : r = c.next
      · have hpos : 0 < c.next := lt_min (by omega) (by decide)
        subst hr
        rw [if_neg fun hn => hn rfl]
        obtain ⟨d, done, w', hloop, hw', hcalls⟩ := ih hstep (update_self ..) (if_pos rfl)
          (by show c.n.toNat - (c.done + (c.next : Int).toNat) ≤ fuel; omega)
        exact ⟨d, done, w', hloop, hw', by rw [hcalls]; exact update_idem ..⟩
      · rw [if_pos hr]
        refine ⟨c.done, c.done + r.toNat, _, ?_, hstep, ?_⟩
        · rfl
        · rw [WriteCall.wrote, if_neg hr, if_neg (by omega)]
    · rw [if_neg hlt]
      exact hend hw hc hret hlt

/-- **Writes through a shared descriptor do not overlap.**  Whatever the processes, the calls, their
sizes and the interleaving: the file has the chunks of all of them one after the other in the order
of the lock, from where the offset was; the offset is behind them; and the chunks of each process
are what its calls have written, in its order. Each turn writes what it is to write if it can, a
call that returns its `n` has written it, and `filewrite` is such turns. -/
theorem shared_writes (g : Geometry) (h : Open f k i G s) (hw : (writers f k i s).Reach w) :
    (((contents w.fs.blk (w.fs.dino i)).drop (s.ftable f).off).take w.data.length = w.data ∧
      (w.fs.ftable f).off = (s.ftable f).off + w.data.length ∧ ∀ p, w.dataOf p = w.written p) ∧
    (∀ p, ∀ c ∈ w.calls p, c.Counts) ∧ w.Served f i ∧
    ∀ p src n, w.Idle p → (w.fs.ftable f).writable = true → ∃ r done w', filewrite f src n w.fs =
      .ok (r, w'.fs) ∧ (writers f k i s).Reach w' ∧
      w'.calls = update w.calls p (⟨src, n, done, some r⟩ :: w.calls p) := by
  obtain ⟨G', hW⟩ := h.written g hw
  refine ⟨⟨?_, hW.off, hW.order⟩, hW.counts, fun p c rest _ => ?_, fun p src n hidle hwr => ?_⟩
  rotate_left
  · have hwp : wp (writeTurn f (fun j => c.src (c.done + j)) c.next) _ _ w.fs :=
      writeTurn_spec g hW.opened (min_le_right ..)
    obtain ⟨r, t, hrun, tot, G'', hc⟩ := hwp.total
    exact ⟨r, t, hrun, hc.full⟩
  · obtain ⟨d, done, w', hloop, hw', hcalls⟩ :=
      exists_loop g h (hw.step (.begin src n hidle)) n.toNat (update_self ..) rfl (Nat.sub_le ..)
    refine ⟨_, done, w', ?_, hw', by rw [hcalls, update_idem]⟩
    unfold filewrite
    rw [bind_ok (gets_apply ..), if_pos hwr, bind_ok hloop]
    rfl
  rw [hW.opened.good.disk i hW.opened.live.1 (Set.notMem_empty i)]
  refine List.ext_getElem? fun j => ?_
  by_cases hj : j < w.data.length
  · have hfits := hW.fits (List.ne_nil_of_length_pos (Nat.zero_lt_of_lt hj))
    rw [List.getElem?_take_of_lt hj, List.getElem?_drop, getElem?_contents (by omega),
      (hW.bytes j hj).2, List.getElem?_eq_getElem hj, List.getD_eq_getElem _ _ hj]
  · rw [List.getElem?_eq_none (by rw [List.length_take]; omega),
      List.getElem?_eq_none (Nat.not_lt.1 hj)]

end

section

attribute [local instance] mkfsSuper

/-- The state in which a call that returns has left the disk. -/
def left : Except Panic (Int × Fs) → Fs
  | .ok (_, t) => t
  | .error _ => diskOpen

theorem eq_left {x : Except Panic (Int × Fs)} {r : Int} (h : x.toOption.map Prod.fst = some r) :
    x = .ok (r, left x) := by
  rcases x with _ | ⟨r', t⟩
  · cases h
  · rw [← Option.some.inj h]
    rfl

/-- …for instance a call of one process and one of another, each with a turn while the other is in
progress. -/
theorem shared_writes_two : ∃ w : Writers, (writers 0 0 2 diskOpen).Reach w ∧
    w.log = [(7, [1, 2]), (9, [3])] ∧ (contents w.fs.blk (w.fs.dino 2)).take 3 = [1, 2, 3] ∧
    (w.fs.ftable 0).off = 3 ∧ (w.calls 7).map (·.ret) = [some 2] ∧ (w.calls 9).map (·.ret) =
      [some 1] := by
  obtain ⟨hg, hk⟩ := disk_good.unlock disk_loaded.toHeld
  have hopen : Open 0 0 2 ⟨disk.dino, diskOwn, ∅⟩ diskOpen :=
    ⟨hg.congr rfl rfl, rfl, ⟨hk.lt, hk.ref, hk.inum⟩, rfl, disk_live, by decide⟩
  obtain ⟨t1, t2, e1, e2⟩ : ∃ t1 t2, writeTurn 0 (fun j => kernelSrc [1, 2] (0 + j))
    (min (2 - 0) maxWrite) diskOpen =
      .ok (2, t1) ∧ writeTurn 0 (fun j => kernelSrc [3] (0 + j))
        (min (1 - 0) maxWrite) t1 = .ok (1, t2) :=
    ⟨_, _, eq_left (by decide +kernel), eq_left (by decide +kernel)⟩
  have h0 : (writers 0 0 2 diskOpen).Reach ⟨diskOpen, fun _ => [], []⟩ := .init rfl
  have h1 := h0.step (.begin (p := 7) (kernelSrc [1, 2]) 2 (by rintro _ ⟨⟩))
  have h2 := h1.step (.begin (p := 9) (kernelSrc [3]) 1 (by rintro _ ⟨⟩))
  have h3 := h2.step (.turn (p := 7) rfl rfl (by decide) e1)
  have h4 := h3.step (.turn (p := 9) rfl rfl (by decide) e2)
  have h5 := h4.step (.finish (p := 7) rfl rfl (by decide))
  have h6 := h5.step (.finish (p := 9) rfl rfl (by decide))
  obtain ⟨⟨hbytes, hoff, -⟩, -⟩ := shared_writes mkfs_geometry hopen h6
  exact ⟨_, h6, rfl, hbytes, hoff, rfl, rfl⟩

end

end Xv6.Fsys
