import Xv6.Dev.Console
import Xv6.Fs.File
import Xv6.Fs.ReadWrite
import Xv6.Ipc.PipeRead

/-!
# Ipc/FileRead — `fileread` and the buffer it is given

`fileread` passes its `int` on to three readers.  `piperead` and `consoleread` count up to it;
`readi` takes it as an unsigned number and cuts it down to the end of the file.  The first two stay
within the buffer for any `n`; the third does so for a count that is not negative, or that wraps
around when the offset is added, and else it reads as many bytes as the file has left.
-/

namespace Xv6

open Act Bytes Fsys

/-! ## `readi` to user memory -/

/-- What stops code on files and memory. -/
inductive Stop
  | fs (e : Fsys.Panic)
  | kern (e : Panic)

section

variable [Layout] [Fsys.Super]

/-- The loop of `readi` with `user_dst` set: `dst` is an address in page table `r`. -/
def readUserLoop (r k n : Nat) : Nat → Nat → Nat → Nat → Act (Fsys.Fs × KState) Stop Int
  | 0, _, tot, _ => return tot
  | fuel + 1, off, tot, dst =>
    if tot < n then do
      let addr ← onFst .fs (Fsys.bmap k (off / Fsys.BSIZE))
      if addr = 0 then return tot
      let data ← onFst .fs (gets fun s => s.blk addr)
      let m := min (n - tot) (Fsys.BSIZE - off % Fsys.BSIZE)
      let ret ← onSnd .kern (copyout r dst (take data (off % Fsys.BSIZE) m))
      if ret = -1 then return -1
      readUserLoop r k n fuel (off + m) (tot + m) ((dst + m) % 2 ^ 64)
    else return tot

/-- `readi(ip, 1, dst, off, n)`. -/
def readUser (r k dst off n : Nat) : Act (Fsys.Fs × KState) Stop Int := do
  let size ← onFst .fs (gets fun s => (s.itable k).d.size)
  if size < off ∨ (off + n) % 2 ^ 32 < off then return 0
  let n := if size < off + n then size - off else n
  readUserLoop r k n n off 0 dst

variable {G G' G'' : Ghost} {w w' : Fsys.Fs × KState} {r k n fuel off tot addr : Nat} {ret : Int}

/-- **What one turn of the loop comes to**: there is nothing left to read, or no block, or part of a
block has been copied, or the copy has failed. -/
theorem readUserLoop_cases {dst : Nat}
    (h : readUserLoop r k n (fuel + 1) off tot dst w = .ok (ret, w')) :
    (¬ tot < n ∧ ret = tot ∧ w' = w) ∨ (∃ s1, tot < n ∧ bmap k (off / BSIZE) w.1 = .ok (0, s1) ∧
    ret = tot ∧ w' = (s1, w.2)) ∨ ∃ blk s1 ret1 k1, tot < n ∧ bmap k (off / BSIZE) w.1 =
      .ok (blk, s1) ∧ blk ≠ 0 ∧
      copyout r dst (take (s1.blk blk) (off % BSIZE) (min (n - tot) (BSIZE - off % BSIZE))) w.2 =
        .ok (ret1, k1) ∧
      (ret1 = -1 ∧ ret = -1 ∧ w' = (s1, k1) ∨ ret1 ≠ -1 ∧
        readUserLoop r k n fuel (off + min (n - tot) (BSIZE - off % BSIZE))
          (tot + min (n - tot) (BSIZE - off % BSIZE))
          ((dst + min (n - tot) (BSIZE - off % BSIZE)) % 2 ^ 64) (s1, k1) = .ok (ret, w')) := by
  obtain ⟨s0, _⟩ := w
  rw [readUserLoop] at h
  split at h
  next hlt =>
    obtain ⟨blk, ⟨s1, k0⟩, e1, h1⟩ := exists_of_bind h
    obtain ⟨e1, rfl⟩ := exists_of_onFst e1
    split at h1
    next h0 =>
      obtain ⟨rfl, rfl⟩ := ok_inj h1
      exact .inr (.inl ⟨s1, hlt, h0 ▸ e1, rfl, rfl⟩)
    next h0 =>
      rw [onFst_gets_bind] at h1
      obtain ⟨ret1, ⟨_, k1⟩, e3, h2⟩ := exists_of_bind h1
      obtain ⟨e3, rfl⟩ := exists_of_onSnd e3
      refine .inr (.inr ⟨blk, _, ret1, k1, hlt, e1, h0, e3, ?_⟩)
      split at h2
      next hm =>
        obtain ⟨rfl, rfl⟩ := ok_inj h2
        exact .inl ⟨hm, rfl, rfl⟩
      next hm => exact .inr ⟨hm, h2⟩
  next hlt =>
    obtain ⟨rfl, rfl⟩ := ok_inj h
    exact .inl ⟨hlt, rfl, rfl⟩

/-- A turn that finds a block and copies it goes on behind it. -/
theorem readUserLoop_turn {blk m dst : Nat} {s1 : Fsys.Fs} {k1 : KState} (hlt : tot < n)
    (hm : m = min (n - tot) (BSIZE - off % BSIZE)) (eb : bmap k (off / BSIZE) w.1 = .ok (blk, s1))
    (h0 : blk ≠ 0) (ec : copyout r dst (take (s1.blk blk) (off % BSIZE) m) w.2 = .ok (0, k1)) :
    readUserLoop r k n (fuel + 1) off tot dst w =
      readUserLoop r k n fuel (off + m) (tot + m) ((dst + m) % 2 ^ 64) (s1, k1) := by
  subst hm
  obtain ⟨s0, k0⟩ := w
  rw [readUserLoop, if_pos hlt, bind_ok (onFst_ok eb), if_neg h0,
    bind_ok (onFst_ok (gets_apply _ s1)), bind_ok (onSnd_ok ec), if_neg (by decide)]

/-- **The loop stays within the buffer**: it returns at most `n`, or -1, and changes no byte
outside. -/
theorem readUserLoop_bounds (ho : Own G w.2) (hr : G.use r = .root) (ht : tot ≤ n)
    (h : readUserLoop r k n fuel off tot (addr + tot) w = .ok (ret, w')) :
    -1 ≤ ret ∧ ret ≤ n ∧ ∃ G', Edited r (span addr n) G G' w.2 w'.2 := by
  induction fuel generalizing off tot w G with
  | zero =>
    obtain ⟨rfl, rfl⟩ := ok_inj h
    exact ⟨by omega, by omega, G, .refl ho⟩
  | succ fuel ih =>
    rcases readUserLoop_cases h with ⟨-, rfl, rfl⟩ | ⟨s1, -, -, rfl, rfl⟩ | ⟨blk, s1, ret1, k1,
      hlt, -, -, e, hcase⟩
    · exact ⟨by omega, by omega, G, .refl ho⟩
    · exact ⟨by omega, by omega, G, .refl ho⟩
    generalize hm : min (n - tot) (BSIZE - off % BSIZE) = m at e hcase
    obtain ⟨hpos, hle, -⟩ := step_le hm.symm hlt
    obtain ⟨ret2, k2, G2, e2, hR⟩ :=
      copyout_run (addr + tot) (take (s1.blk blk) (off % BSIZE) m) ho hr
    obtain ⟨rfl, rfl⟩ := ok_inj (e.symm.trans e2)
    have hE : Edited r (span addr n) G G2 w.2 k1 := (hR.edited ho).mono fun a ha => by
      have h1 := ha.1
      have h2 := ha.2
      rw [length_take] at h2
      exact ⟨by omega, by omega⟩
    rcases hcase with ⟨-, rfl, rfl⟩ | ⟨hne, hrest⟩
    · exact ⟨by omega, by omega, G2, hE⟩
    -- a copy that succeeds ends below `MAXVA`, so the sum does not wrap
    have hlast :=
      (hR.bytes ho (hR.ret_cases.resolve_right hne) (i := m - 1) (by rw [length_take]; omega)).1
    have hlt := ho.leaves.map_lt r _ hlast
    rw [show (addr + tot + m) % 2 ^ 64 = addr + (tot + m) by omega] at hrest
    obtain ⟨h1, h2, G', hE'⟩ := ih hE.own (hE.root hr) (by omega) hrest
    exact ⟨h1, h2, G', hE.trans hE'⟩

/-- **`readi` stays within the buffer** as far as it reads at all. -/
theorem readUser_bounds (ho : Own G w.2) (hr : G.use r = .root) (hoff : off < 2 ^ 32)
    (hn : n < 2 ^ 32) (h : readUser r k addr off n w = .ok (ret, w')) :
    -1 ≤ ret ∧ ret ≤ readCount (w.1.itable k).d.size off n ∧
      ∃ G', Edited r (span addr (readCount (w.1.itable k).d.size off n)) G G' w.2 w'.2 := by
  unfold readUser at h
  rw [onFst_gets_bind] at h
  split at h
  next hc =>
    obtain ⟨rfl, rfl⟩ := ok_inj h
    exact ⟨by omega, by omega, G, .refl ho⟩
  next hc =>
    have hcount : readCount (w.1.itable k).d.size off n =
        if (w.1.itable k).d.size < off + n then (w.1.itable k).d.size - off else n := by
      unfold readCount
      rw [if_neg (by omega)]
      split <;> omega
    rw [hcount]
    exact readUserLoop_bounds ho hr (Nat.zero_le _)
      (show readUserLoop r k _ _ off 0 (addr + 0) _ = _ from h)

/-! ### …and is `readi` -/

omit [Layout] in
/-- The loop of `readi` only asks about copies still to come. -/
theorem readLoop_congr {ok ok' : Nat → Nat → Bool} {out : List UInt8}
    (h : ∀ t ≥ tot, ∀ m, ok t m = ok' t m) :
    readLoop ok k n fuel off tot out = readLoop ok' k n fuel off tot out := by
  induction fuel generalizing off tot out with
  | zero => rfl
  | succ fuel ih =>
    have hrec : ∀ o l, readLoop ok k n fuel o (tot + min (n - tot) (BSIZE - off % BSIZE)) l =
        readLoop ok' k n fuel o (tot + min (n - tot) (BSIZE - off % BSIZE)) l := fun o l =>
      ih fun t ht => h t (by omega)
    simp only [readLoop, h tot le_rfl, hrec]

/-- **What `readUser` returns, `readi` returns** when its copies end as those of `copyout` do. -/
theorem readUserLoop_readLoop {dst : Nat}
    (h : readUserLoop r k n fuel off tot dst w = .ok (ret, w')) (out : List UInt8) :
    ∃ ok l, readLoop ok k n fuel off tot out w.1 = .ok ((ret, l), w'.1) := by
  induction fuel generalizing off tot dst w out with
  | zero =>
    obtain ⟨rfl, rfl⟩ := ok_inj h
    exact ⟨fun _ _ => true, out, rfl⟩
  | succ fuel ih =>
    rcases readUserLoop_cases h with ⟨hlt, rfl, rfl⟩ | ⟨s1, hlt, e, rfl, rfl⟩ |
      ⟨blk, s1, ret1, k1, hlt, e, h0, -, ⟨-, rfl, rfl⟩ | ⟨-, hrest⟩⟩
    · exact ⟨fun _ _ => true, out, by rw [readLoop, if_neg hlt]; rfl⟩
    · exact ⟨fun _ _ => true, out, by rw [readLoop, if_pos hlt, bind_ok e, if_pos rfl]; rfl⟩
    · exact ⟨fun _ _ => false, out, by rw [readLoop, if_pos hlt, bind_ok e, if_neg h0]; rfl⟩
    · -- this copy succeeds, and those after it as the rest of the run says
      obtain ⟨hpos, -, -⟩ := step_le (m := min (n - tot) (BSIZE - off % BSIZE)) rfl hlt
      obtain ⟨ok, l, hl⟩ := ih hrest (out ++ take (s1.blk blk) (off % BSIZE) _)
      refine ⟨fun t m => t ≤ tot || ok t m, l, ?_⟩
      rw [readLoop, if_pos hlt, bind_ok e, if_neg h0, bind_ok (gets_apply _ _),
        if_pos (by simp), ← hl]
      refine congrFun (readLoop_congr fun t ht m => ?_) _
      have : ¬ t ≤ tot := by omega
      simp [this]

end

section

variable [Layout] {G G1 G2 : Ghost} {k k1 k2 : KState} {r addr : Nat} {R : Set Nat} {n ret : Int}

/-- What others do while a process sleeps. -/
def Undisturbed {σ : Type} (r : Nat) (_ : σ) (k : KState) (_ : σ) (k' : KState) : Prop :=
  Elsewhere r k k'

/-- Only the buffer has been written to since `k`. -/
def Within (r addr : Nat) (n : Int) (G : Ghost) (k k' : KState) : Prop :=
  ∃ G', UserKept r (span addr n.toNat) G G' k k'

theorem Within.others (h : Within r addr n G k k1) (ho : Elsewhere r k1 k2) :
    Within r addr n G k k2 := by
  obtain ⟨G1, h1⟩ := h
  obtain ⟨G2, h2⟩ := ho G1 h1.own h1.root
  exact ⟨G2, h1.trans h2 (Set.empty_subset _)⟩

/-- **A byte copied to the `i`-th place of the buffer**; if that succeeds the next place has an
address too. -/
theorem Within.copyByte {i : Int} {c : UInt8} {user : Option UInt8} (h : Within r addr n G k k1)
    (h0 : 0 ≤ i) (hi : i < n) (ha : addr + i < 2 ^ 64)
    (e : copyByte r (some (((addr + i) % 2 ^ 64).toNat, c)) k1 = .ok (user, k2)) :
    Within r addr n G k k2 ∧ (user.isSome = true → addr + (i + 1) < 2 ^ 64) := by
  obtain ⟨G1, h1⟩ := h
  obtain ⟨ret, k2', G2, e', hR⟩ := copyByte_run h1.own h1.root ((addr + i) % 2 ^ 64).toNat c
  obtain ⟨rfl, rfl⟩ := ok_inj (e.symm.trans e')
  refine ⟨⟨G2, h1.trans ((hR.edited h1.own).userKept h1.root) fun a ha' => ?_⟩, fun hu => ?_⟩
  · have h1 := ha'.1
    have h2 := ha'.2
    rw [List.length_singleton] at h2
    exact ⟨by omega, by omega⟩
  · have hret : ret = 0 := hR.ret_cases.resolve_right fun hc => by
      rw [if_pos hc] at hu
      exact absurd hu Bool.false_ne_true
    have hlt := h1.own.leaves.map_lt r _ (hR.bytes h1.own hret (i := 0) Nat.zero_lt_one).1
    omega

/-- A value that a read may return. -/
def InRange (n ret : Int) : Prop := -1 ≤ ret ∧ ret ≤ max n 0

/-- What holds at the points of `piperead`. -/
def Pipe.Reading (addr : Nat) (n : Int) (K : KState → Prop) (k : KState) : Pipe.Point → Prop
  | .read m | .readKilled m => m = n ∧ K k
  | .copy m i => m = n ∧ 0 ≤ i ∧ i ≤ max n 0 ∧ addr + i < 2 ^ 64 ∧ K k
  | _ => False

theorem Pipe.Reading.others {b : Pipe.Point} (h : Reading addr n (Within r addr n G k) k1 b)
    (ho : Elsewhere r k1 k2) : Reading addr n (Within r addr n G k) k2 b := by
  cases b with
  | read | readKilled => exact ⟨h.1, h.2.others ho⟩
  | copy => exact ⟨h.1, h.2.1, h.2.2.1, h.2.2.2.1, h.2.2.2.2.others ho⟩
  | _ => exact h.elim

/-- **`piperead` stays within the buffer.** -/
theorem Pipe.piperead_bounds {x x' : State} (ho : Own G k) (hr : G.use r = .root)
    (ha : addr < 2 ^ 64)
    (h : Call (userTurn r addr) (Undisturbed r) (.acquire (.read n)) x k ret x' k1) :
    InRange n ret ∧ Within r addr n G k k1 := by
  refine h.rule (I := fun b _ k' => Reading addr n (Within r addr n G k) k' b)
    (J := fun b _ k' => Reading addr n (Within r addr n G k) k' b)
    (R := fun ret _ k' => InRange n ret ∧ Within r addr n G k k') ⟨rfl, G, .refl ho hr⟩ ?_ ?_
  · rintro b x k1 y k2 hb ⟨k3, hel, killed, user, e, rfl⟩
    replace hb := hb.others hel
    cases b with
    | read m =>
      obtain ⟨rfl, hK⟩ := hb
      obtain ⟨-, rfl⟩ := ok_inj e
      rw [body]
      split
      · exact ⟨rfl, hK⟩
      · exact ⟨rfl, le_rfl, le_max_right _ _, by simpa using ha, hK⟩
    | readKilled m =>
      obtain ⟨rfl, hK⟩ := hb
      obtain ⟨-, rfl⟩ := ok_inj e
      rw [body]
      split
      · exact ⟨⟨le_rfl, by omega⟩, hK⟩
      · exact ⟨rfl, hK⟩
    | copy m i =>
      obtain ⟨rfl, h0, hi, hlt, hK⟩ := hb
      rw [want] at e
      rw [body]
      split at e
      next hc =>
        obtain ⟨hK', hnext⟩ := hK.copyByte h0 hc.1 hlt e
        rw [if_pos hc]
        cases hu : user.isSome with
        | true => exact ⟨rfl, by omega, by omega, hnext hu, hK'⟩
        | false => exact ⟨⟨by omega, hi⟩, hK'⟩
      next hc =>
        obtain ⟨-, rfl⟩ := ok_inj e
        rw [if_neg hc]
        exact ⟨⟨by omega, hi⟩, hK⟩
    | _ => exact hb.elim
  · exact fun b x k1 x1 k2 hb hoth => hb.others hoth

namespace Console

/-- The byte that a turn of `consoleread` is to copy, and where to. -/
def want (addr : Nat) (x : State) : Point → Option (Nat × UInt8)
  | .read _ target n =>
    if 0 < n ∧ x.r ≠ x.w ∧ x.buf (x.r % INPUT_BUF_SIZE) ≠ C 'D' then
      some (((addr + (target - n)) % 2 ^ 64).toNat, x.buf (x.r % INPUT_BUF_SIZE))
    else none
  | _ => none

/-- A turn of a process with page table `r`, which reads to `addr`. -/
def userTurn (r addr : Nat) (b : Point) (x : State) (k : KState) (y : State × Code Point Chan)
    (k' : KState) : Prop :=
  ∃ killed user, copyByte r (want addr x b) k = .ok (user, k') ∧ y = body x killed user.isSome b

/-- What holds at the points of `consoleread`. -/
def Reading (addr : Nat) (n : Int) (K : KState → Prop) (k : KState) : Point → Prop
  | .read _ target m | .killed _ target m =>
    target = n ∧ min n 0 ≤ m ∧ m ≤ n ∧ addr + (n - m) < 2 ^ 64 ∧ K k
  | .intr _ => False

/-- **`consoleread` stays within the buffer.** -/
theorem consoleread_bounds {x x' : State} {id : Nat} (ho : Own G k) (hr : G.use r = .root)
    (ha : addr < 2 ^ 64)
    (h : Call (userTurn r addr) (Undisturbed r) (.acquire (.read id n n)) x k ret x' k1) :
    InRange n ret ∧ Within r addr n G k k1 := by
  refine h.rule (I := fun b _ k' => Reading addr n (Within r addr n G k) k' b)
    (J := fun b _ k' => Reading addr n (Within r addr n G k) k' b)
    (R := fun ret _ k' => InRange n ret ∧ Within r addr n G k k')
    ⟨rfl, min_le_left _ _, le_rfl, by simpa using ha, G, .refl ho hr⟩ ?_ ?_
  · rintro b x k1 y k2 hb ⟨killed, user, e, rfl⟩
    cases b with
    | read id target m =>
      obtain ⟨rfl, hm0, hm, hlt, hK⟩ := hb
      have hret : InRange target (target - m) := ⟨by omega, by omega⟩
      rw [want] at e
      rw [body, consoleread]
      by_cases hpos : 0 < m
      · rw [if_pos hpos]
        by_cases hrw : x.r = x.w
        · rw [if_neg fun hc => hc.2.1 hrw] at e
          obtain ⟨-, rfl⟩ := ok_inj e
          rw [if_pos hrw]
          exact ⟨rfl, hm0, hm, hlt, hK⟩
        rw [if_neg hrw]
        by_cases hD : x.buf (x.r % INPUT_BUF_SIZE) = C 'D'
        · rw [if_neg fun hc => hc.2.2 hD] at e
          obtain ⟨-, rfl⟩ := ok_inj e
          simp only [hD, if_true]
          split <;> exact ⟨hret, hK⟩
        · rw [if_pos ⟨hpos, hrw, hD⟩] at e
          obtain ⟨hK', hnext⟩ := hK.copyByte (by omega) (by omega) hlt e
          simp only [hD, if_false]
          cases hu : user.isSome with
          | true =>
            have := hnext hu
            simp only [if_true]
            split
            · exact ⟨⟨by omega, by omega⟩, hK'⟩
            · exact ⟨rfl, by omega, by omega, by omega, hK'⟩
          | false => exact ⟨hret, hK'⟩
      · rw [if_neg fun hc => hpos hc.1] at e
        obtain ⟨-, rfl⟩ := ok_inj e
        rw [if_neg hpos]
        exact ⟨hret, hK⟩
    | killed id target m =>
      obtain ⟨-, rfl⟩ := ok_inj e
      rw [body]
      split
      · exact ⟨⟨le_rfl, by omega⟩, hb.2.2.2.2⟩
      · exact hb
    | intr => exact hb.elim
  · rintro b x k1 x1 k2 hb hoth
    cases b with
    | read | killed => exact ⟨hb.1, hb.2.1, hb.2.2.1, hb.2.2.2.1, hb.2.2.2.2.others hoth⟩
    | intr => exact hb.elim

end Console

end

/-! ## `fileread` -/

/-- The major number of the console, the one device that can be read. -/
def CONSOLE : Int := 1

/-- What `fileread` works on: the file, its pipe, the console, the file system and memory. -/
structure ReadWorld where
  file : Files.File
  pipe : Pipe.State
  cons : Console.State
  fs : Fsys.Fs
  kern : KState

/-- The size of the file in slot `k`, as `ilock` finds it. -/
def Fsys.Fs.sizeOf [Fsys.Super] (s : Fsys.Fs) (k : Nat) : Nat :=
  if (s.itable k).valid = true then (s.itable k).d.size else (s.dino (s.itable k).inum).size

section

variable [Layout] [Fsys.Super]

/-- The branch of `fileread` for files on disk. -/
def filereadInode (r addr : Nat) (n : Int) (f : Files.File) :
    Act (Fsys.Fs × KState) Stop (Int × Files.File) := do
  onFst .fs (Fsys.ilock f.ip)
  -- `n` becomes a `uint`
  let ret ← readUser r f.ip addr f.off (n % 2 ^ 32).toNat
  onFst .fs (Fsys.iunlock f.ip)
  return (ret, if 0 < ret then { f with off := (f.off + ret.toNat) % 2 ^ 32 } else f)

/-- **`fileread(f, addr, n)`** by a process with page table `r`, for every type of file that does
not stop the kernel: what it returns, and what it leaves. -/
inductive Fileread (r addr : Nat) (n : Int) (w : ReadWorld) : Int → ReadWorld → Prop
  | unreadable (no : w.file.readable = false) : Fileread r addr n w (-1) w
  | pipe {ret : Int} {x : Pipe.State} {k : KState} (can : w.file.readable = true)
      (type : w.file.type = .FD_PIPE)
      (call : Call (Pipe.userTurn r addr) (Undisturbed r) (.acquire (.read n)) w.pipe
        w.kern ret x k) :
      Fileread r addr n w ret { w with pipe := x, kern := k }
  | noDevice (can : w.file.readable = true) (type : w.file.type = .FD_DEVICE)
      (major : w.file.major < 0 ∨ Files.NDEV ≤ w.file.major ∨ w.file.major ≠ CONSOLE) :
      Fileread r addr n w (-1) w
  | console {ret : Int} {x : Console.State} {k : KState} (can : w.file.readable = true)
      (type : w.file.type = .FD_DEVICE) (major : w.file.major = CONSOLE)
      (call : Call (Console.userTurn r addr) (Undisturbed r)
        (.acquire (.read w.cons.hist.begun n n)) w.cons.begin w.kern ret x k) :
      Fileread r addr n w ret { w with cons := x, kern := k }
  | inode {ret : Int} {f : Files.File} {s : Fsys.Fs} {k : KState} (can : w.file.readable = true)
      (type : w.file.type = .FD_INODE)
      (call : filereadInode r addr n w.file (w.fs, w.kern) = .ok ((ret, f), (s, k))) :
      Fileread r addr n w ret { w with file := f, fs := s, kern := k }

variable {w w' : ReadWorld} {G : Ghost} {r addr p : Nat} {n ret : Int}

omit [Layout] in
theorem ilock_size {s t : Fsys.Fs} {k : Nat} (h : ilock k s = .ok ((), t)) :
    (t.itable k).d.size = s.sizeOf k := by
  unfold ilock at h
  unfold Fsys.Fs.sizeOf
  simp only at h
  split_ifs at h with h1 h2 h3 h4
  · obtain rfl := (ok_inj h).2
    rw [if_pos h3]
    simp [Fsys.Fs.setIno]
  · obtain rfl := (ok_inj h).2
    rw [if_neg h3]
    simp [Fsys.Fs.setIno]

/-- A read of a file on disk is its three parts one after the other. -/
theorem filereadInode_ok {f : Files.File} {s s1 s2 s3 : Fsys.Fs} {k k' : KState}
    (e1 : ilock f.ip s = .ok ((), s1))
    (e2 : readUser r f.ip addr f.off (n % 2 ^ 32).toNat (s1, k) = .ok (ret, (s2, k')))
    (e3 : iunlock f.ip s2 = .ok ((), s3)) (hret : 0 < ret) :
    filereadInode r addr n f (s, k) =
      .ok ((ret, { f with off := (f.off + ret.toNat) % 2 ^ 32 }), (s3, k')) := by
  rw [filereadInode, bind_ok (onFst_ok e1), bind_ok e2, bind_ok (onFst_ok e3), if_pos hret]
  rfl

/-- **A read of a file on disk stays within the buffer** unless it takes a negative count for a
large one. -/
theorem filereadInode_bounds {f' : Files.File} {s s' : Fsys.Fs} {k k' : KState} {f : Files.File}
    (ho : Own G k) (hr : G.use r = .root) (hn : -2 ^ 31 ≤ n) (hn' : n < 2 ^ 31)
    (hoff : f.off < 2 ^ 32) (hc : 0 ≤ n ∨ -n ≤ f.off ∨ s.sizeOf f.ip ≤ f.off)
    (h : filereadInode r addr n f (s, k) = .ok ((ret, f'), (s', k'))) :
    InRange n ret ∧ Within r addr n G k k' := by
  unfold filereadInode at h
  obtain ⟨_, ⟨s1, k1⟩, e1, h1⟩ := exists_of_bind h
  obtain ⟨ret1, ⟨s2, k2⟩, e2, h2⟩ := exists_of_bind h1
  obtain ⟨_, ⟨s3, k3⟩, e3, h3⟩ := exists_of_bind h2
  obtain ⟨e1, (rfl : k1 = k)⟩ := exists_of_onFst e1
  obtain ⟨-, (rfl : k3 = k2)⟩ := exists_of_onFst e3
  obtain ⟨e, e'⟩ := ok_inj h3
  obtain ⟨rfl, -⟩ := Prod.mk.inj e
  obtain ⟨-, rfl⟩ := Prod.mk.inj e'
  have hsize : (s1.itable f.ip).d.size = s.sizeOf f.ip := ilock_size e1
  obtain ⟨hlo, hhi, G', hE⟩ := readUser_bounds ho hr hoff (by omega) e2
  simp only [hsize] at hhi hE
  have hcount : readCount (s.sizeOf f.ip) f.off (n % 2 ^ 32).toNat ≤ n.toNat := by
    unfold readCount
    split <;> omega
  have hspan : span addr (readCount (s.sizeOf f.ip) f.off (n % 2 ^ 32).toNat) ⊆ span addr n.toNat :=
    fun a ha =>
    ⟨ha.1, ha.2.trans_le (Nat.add_le_add_left hcount _)⟩
  exact ⟨⟨hlo, by omega⟩, G', (hE.mono hspan).userKept hr⟩

/-- A count that does not wrap is cut down to what the file has left. -/
theorem readUser_cut {s : Fsys.Fs} {k : KState} {ip off m : Nat} (hm : off + m < 2 ^ 32)
    (hsize : off ≤ (s.itable ip).d.size) : readUser r ip addr off m (s, k) =
      readUser r ip addr off (min m ((s.itable ip).d.size - off)) (s, k) := by
  unfold readUser
  rw [onFst_gets_bind, onFst_gets_bind]
  simp only
  generalize (s.itable ip).d.size = size at *
  have h1 : ¬ (size < off ∨ (off + m) % 2 ^ 32 < off) := by omega
  have h2 : ¬ (size < off ∨ (off + min m (size - off)) % 2 ^ 32 < off) := by omega
  have h3 : (if size < off + m then size - off else m) = min m (size - off) := by split <;> omega
  have h4 : ¬ size < off + min m (size - off) := by omega
  rw [if_neg h1, if_neg h2, h3, if_neg h4]

/-- The count of a read is taken as it is meant, as far as that matters. -/
def Counted (w : ReadWorld) (n : Int) : Prop :=
  w.file.readable = true → w.file.type = .FD_INODE →
    0 ≤ n ∨ -n ≤ w.file.off ∨ w.fs.sizeOf w.file.ip ≤ w.file.off

/-- **`fileread` stays inside the caller's buffer**, for every kind of file and every `n`, except
that a file on disk takes a negative count, at an offset that is smaller than it and lies within the
file, for a large one: then the call is one that asks for the bytes up to the end of the file, of
which there is at least one. -/
theorem fileread_in_buffer (hk : machine.Reach w.kern) (hp : Runs w.kern p) (ha : addr < 2 ^ 64)
    (hn : -2 ^ 31 ≤ n) (hn' : n < 2 ^ 31) (hoff : w.file.off < 2 ^ 32)
    (h : Fileread (w.kern.procs p).pagetable addr n w ret w') :
    (Counted w n → -1 ≤ ret ∧ ret ≤ max n 0 ∧
      ∀ a < PGROUNDUP (w.kern.procs p).sz, a < addr ∨ addr + n.toNat ≤ a →
        byteAt w'.kern.mem (w.kern.procs p).pagetable a =
          byteAt w.kern.mem (w.kern.procs p).pagetable a) ∧
    (¬ Counted w n → ∃ m : Nat, m = min (n % 2 ^ 32).toNat (w.fs.sizeOf w.file.ip - w.file.off) ∧
      0 < m ∧ Fileread (w.kern.procs p).pagetable addr m w ret w') := by
  refine ⟨fun hc => ?_, fun hc => ?_⟩
  swap
  · obtain ⟨can, hc⟩ := Classical.not_imp.1 hc
    obtain ⟨type, hc⟩ := Classical.not_imp.1 hc
    refine ⟨_, rfl, by omega, ?_⟩
    cases h with
    | inode _ _ call =>
      refine .inode can type ?_
      unfold filereadInode at call ⊢
      obtain ⟨_, ⟨s1, k1⟩, e1, h1⟩ := exists_of_bind call
      have hsize : (s1.itable w.file.ip).d.size = w.fs.sizeOf w.file.ip :=
        ilock_size (exists_of_onFst e1).1
      rw [bind_apply, readUser_cut (by omega) (by omega), hsize] at h1
      rw [bind_ok e1, bind_apply, ← h1]
      congr 3
      omega
    | unreadable no => rw [can] at no; cases no
    | pipe _ type' | noDevice _ type' | console _ type' => rw [type] at type'; cases type'
  obtain ⟨G, hG⟩ := machine_inv hk
  have hne := (hG.runs hp).1
  have hroot := hG.use_pagetable hp.1 hne
  have hs := hG.spans p hp.1 hne
  have hle := hG.own.spans_le hs
  have hres : InRange n ret ∧ Within (w.kern.procs p).pagetable addr n G w.kern w'.kern := by
    cases h with
    | unreadable => exact ⟨⟨le_rfl, by omega⟩, G, .refl hG.own hroot⟩
    | pipe _ _ call => exact Pipe.piperead_bounds hG.own hroot ha call
    | noDevice => exact ⟨⟨le_rfl, by omega⟩, G, .refl hG.own hroot⟩
    | console _ _ _ call => exact Console.consoleread_bounds hG.own hroot ha call
    | inode can type call => exact filereadInode_bounds hG.own hroot hn hn' hoff (hc can type) call
  obtain ⟨⟨h1, h2⟩, G', hK⟩ := hres
  refine ⟨h1, h2, fun a hlt hx => hK.bytes a ((hs _).2 ?_) fun hc => ?_⟩
  · rw [PGROUNDUP_npages (by unfold npages at hle; omega)] at hlt
    omega
  · have h3 := hc.1
    have h4 := hc.2
    omega

end

section

attribute [local instance] Fsys.mkfsSuper

/-- The disk between operations on the file. -/
def idleDisk : Fsys.Fs := Fsys.disk.setIno 0 { Fsys.disk.itable 0 with locked := false }

/-- The file of two bytes, open at its beginning. -/
def twoBytes : Files.File := { type := .FD_INODE, ref := 1, readable := true, ip := 0 }

/-- The file next to an empty pipe and an idle console. -/
def twoBytesWorld (k : KState) : ReadWorld :=
  ⟨twoBytes, Pipe.pipealloc fun _ => 0, Console.consoleinit, idleDisk, k⟩

/-- A read of the two bytes to the page of the first process, for any count that is at least 2 as a
`uint`. -/
theorem exists_fileread [Layout] {G : Ghost} {k : KState} {p : Nat} (hk : Alone G k p) {n : Int}
    (hn : 2 ≤ (n % 2 ^ 32).toNat) :
    ∃ w', Fileread (k.procs p).pagetable 0 n (twoBytesWorld k) 2 w' ∧
      byteAt w'.kern.mem (k.procs p).pagetable 0 = 5 := by
  have hroot := hk.inv.use_pagetable hk.runs.1 (hk.inv.runs hk.runs).1
  obtain ⟨ret, k', G', e, hR⟩ := copyout_run 0 [5, 5] hk.inv.own hroot
  obtain rfl := (hR.ret_iff hk.inv.own hroot (hk.fits (by decide))).2 (hk.accessible (by decide))
  obtain ⟨s1, e1, hsize, eb, hblk⟩ : ∃ s1, ilock 0 idleDisk = .ok ((), s1) ∧
    (s1.itable 0).d.size = 2 ∧
      bmap 0 0 s1 = .ok (47, s1) ∧ take (s1.blk 47) 0 2 = [5, 5] := ⟨_, rfl, rfl, rfl, rfl⟩
  have hloop : readUserLoop (k.procs p).pagetable 0 2 2 0 0 0 (s1, k) = .ok (2, (s1, k')) := by
    rw [readUserLoop_turn (m := 2) (by decide) rfl eb (by decide) (hblk ▸ e)]
    rfl
  have hread : readUser (k.procs p).pagetable 0 0 0 (n % 2 ^ 32).toNat (s1, k) =
      .ok (2, (s1, k')) := by
    rw [readUser, bind_ok (onFst_ok (gets_apply _ s1)), hsize, if_neg (by omega), ← hloop]
    split
    next => rfl
    next h =>
      have h2 : (n % 2 ^ 32).toNat = 2 := by omega
      rw [h2]
  obtain ⟨s2, e2⟩ : ∃ s2, iunlock 0 s1 = .ok ((), s2) := by
    obtain rfl := (ok_inj e1).2
    exact ⟨_, rfl⟩
  have hcall := filereadInode_ok (f := twoBytes) e1 hread e2 (by decide)
  exact ⟨_, .inode rfl rfl hcall, (hR.bytes hk.inv.own rfl (i := 0) (by decide)).2.2⟩

/-- …for instance a read of both bytes. -/
theorem fileread_in_buffer_two :
    ∃ (w w' : ReadWorld) (p : Nat), (@machine sampleLayout).Reach w.kern ∧
    @Fileread sampleLayout _ (w.kern.procs p).pagetable 0 2 w 2 w' ∧
    byteAt w'.kern.mem (w.kern.procs p).pagetable 2 =
      byteAt w.kern.mem (w.kern.procs p).pagetable 2 := by
  let _ : Layout := sampleLayout
  obtain ⟨G, _, k, p, h0, hs, ha, -⟩ := exists_alone (by decide)
  have hreach : machine.Reach k := .step (.init h0) hs
  obtain ⟨w', h, -⟩ := exists_fileread ha (n := 2) (by decide)
  obtain ⟨-, -, hbytes⟩ := (fileread_in_buffer (w := twoBytesWorld k) (n := 2) hreach ha.runs
    (show 0 < 2 ^ 64 by decide) (by decide) (by decide) (show 0 < 2 ^ 32 by decide) h).1 fun _ _ =>
      .inl (by decide)
  have hsz : 2 < PGROUNDUP (k.procs p).sz := by
    rw [ha.size]
    decide
  exact ⟨twoBytesWorld k, w', p, hreach, h, hbytes 2 hsz (.inr (by decide))⟩

/-- **A read of -1 bytes reads the whole file**: it returns 2, and the first byte of the page is no
longer that of `initcode`. -/
theorem fileread_overruns : ∃ (w w' : ReadWorld) (p : Nat), (@machine sampleLayout).Reach w.kern ∧
    Runs w.kern p ∧ @Fileread sampleLayout _ (w.kern.procs p).pagetable 0 (-1) w 2 w' ∧
    byteAt w.kern.mem (w.kern.procs p).pagetable 0 = 0x17 ∧
    byteAt w'.kern.mem (w.kern.procs p).pagetable 0 = 5 := by
  let _ : Layout := sampleLayout
  obtain ⟨G, _, k, p, h0, hs, ha, -⟩ := exists_alone (by decide)
  obtain ⟨w', h, h5⟩ := exists_fileread ha (n := -1) (by decide)
  exact ⟨twoBytesWorld k, w', p, .step (.init h0) hs, ha.runs, h, ha.byteAt (by decide), h5⟩

end

end Xv6
