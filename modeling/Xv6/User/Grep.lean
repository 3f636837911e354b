import Mathlib.Computability.Language
import Mathlib.Data.List.TakeWhile

/-!
# User/Grep — the pattern matcher and the loop of `grep`

`user/grep.c`.  A C string is the list of its bytes before the NUL,
so `*text` is NUL where the list ends.

A pattern is read from left to right into tokens, and each of them stands for a language;
`match_iff` says that the backtracking of `matchhere` and `matchstar` finds what the languages say.
The loop gathers the lines in a buffer of fixed size, whatever the pieces are that `read` returns:
`grep_eq` says what it writes.
-/

open scoped Computability List

namespace Xv6.Grep

open List

/-! ## The matcher -/

/-- The characters `^ . * $` and the newline. -/
abbrev CARET : UInt8 := 94
abbrev DOT : UInt8 := 46
abbrev STAR : UInt8 := 42
abbrev DOLLAR : UInt8 := 36
abbrev NEWLINE : UInt8 := 10

mutual

/-- `matchhere`: search for `re` at the beginning of `text`. -/
def matchhere (re text : List UInt8) : Bool :=
  match re with
  | [] => true
  | c :: re =>
    if re.head? = some STAR then matchstar c re.tail text
    else if c = DOLLAR ∧ re = [] then text = []
    else
      match text with
      | [] => false
      | t :: text => (c = DOT || c = t) && matchhere re text
termination_by (re.length, 0, 0)
decreasing_by
  · exact .left _ _ (by rw [length_tail, length_cons]; omega)
  · exact .left _ _ (by simp)

/-- `matchstar`: search for `c*re` at the beginning of `text`. -/
def matchstar (c : UInt8) (re text : List UInt8) : Bool :=
  matchhere re text ||
    match text with
    | [] => false
    | t :: text => (t = c || c = DOT) && matchstar c re text
termination_by (re.length, 1, text.length)

end

/-- The loop of `match`, which looks at the empty string too. -/
def matchLoop (re : List UInt8) : List UInt8 → Bool
  | [] => matchhere re []
  | t :: text => matchhere re (t :: text) || matchLoop re text

/-- `match`. -/
def matchRe (re text : List UInt8) : Bool :=
  if re.head? = some CARET then matchhere re.tail text else matchLoop re text

/-! ## What a pattern denotes -/

/-- A token of a pattern: one character, a starred one, or the `$` at its end. -/
inductive Tok
  | one (c : UInt8)
  | star (c : UInt8)
  | fin
deriving DecidableEq, Repr

/-- The tokens of a pattern, read from left to right. -/
def tokens : List UInt8 → List Tok
  | [] => []
  | [c] => if c = DOLLAR then [.fin] else [.one c]
  | c :: d :: re => if d = STAR then .star c :: tokens re else .one c :: tokens (d :: re)

/-- The texts of one character that `c` matches. -/
def char (c : UInt8) : Language UInt8 := {w | ∃ t, w = [t] ∧ (c = DOT ∨ t = c)}

/-- The texts a token matches; where they have to stand is `Occurs`. -/
def Tok.lang : Tok → Language UInt8
  | .one c => char c
  | .star c => (char c)∗
  | .fin => 1

/-- The language of a row of tokens. -/
def lang (ts : List Tok) : Language UInt8 := (ts.map Tok.lang).prod

/-- `mid` is matched with `post` behind it: a `$` is matched at the end of the text only. -/
def Occurs (ts : List Tok) (mid post : List UInt8) : Prop := mid ∈ lang ts ∧ (.fin ∈ ts → post = [])

/-- Something that is matched stands at the beginning of `text`. -/
def Here (ts : List Tok) (text : List UInt8) : Prop := ∃ mid post, text = mid ++ post ∧
    Occurs ts mid post

variable {c t : UInt8} {re text w : List UInt8} {ts : List Tok}

theorem lang_cons (k : Tok) :
    lang (k :: ts) = k.lang * lang ts := by rw [lang, map_cons, prod_cons, lang]

/-- **A starred character matches any number of what it matches once.** -/
theorem mem_star : w ∈ (char c)∗ ↔ ∀ t ∈ w, c = DOT ∨ t = c := by
  constructor
  · intro h
    obtain ⟨L, rfl, hL⟩ := Language.mem_kstar.1 h
    intro t ht
    obtain ⟨y, hy, hty⟩ := mem_flatten.1 ht
    obtain ⟨x, rfl, hx⟩ := hL y hy
    rwa [mem_singleton.1 hty]
  · intro h
    have hw : w = (w.map ([·])).flatten :=
      (flatMap_singleton' w).symm.trans (by simp [List.flatMap])
    refine Language.mem_kstar.2 ⟨w.map ([·]), hw, fun y hy => ?_⟩
    obtain ⟨t, ht, rfl⟩ := mem_map.1 hy
    exact ⟨t, rfl, h t ht⟩

/-! ### What stands at the beginning of a text -/

theorem here_nil : Here [] text := ⟨[], text, rfl, rfl, nofun⟩

theorem here_fin : Here [.fin] text ↔ text = [] := by
  constructor
  · rintro ⟨mid, post, rfl, hm, hp⟩
    rw [lang_cons, show lang [] = 1 from rfl, mul_one] at hm
    rw [show mid = [] from hm, hp (by simp)]
    rfl
  · rintro rfl
    exact ⟨[], [], rfl, by simp [lang, Tok.lang], fun _ => rfl⟩

theorem here_one : Here (.one c :: ts) text ↔ ∃ t rest, text = t :: rest ∧ (c = DOT ∨ t = c) ∧
    Here ts rest := by
  constructor
  · rintro ⟨mid, post, rfl, hm, hp⟩
    rw [lang_cons] at hm
    obtain ⟨u, ⟨t, rfl, ht⟩, v, hv, rfl⟩ := Language.mem_mul.1 hm
    exact ⟨t, v ++ post, rfl, ht, v, post, rfl, hv, fun hf => hp (mem_cons_of_mem _ hf)⟩
  · rintro ⟨t, rest, rfl, ht, mid, post, rfl, hm, hp⟩
    refine ⟨t :: mid, post, rfl, ?_, fun hf => hp (by simpa using hf)⟩
    rw [lang_cons]
    exact Language.append_mem_mul (a := [t]) ⟨t, rfl, ht⟩ hm

theorem here_star : Here (.star c :: ts) text ↔
    Here ts text ∨ ∃ t rest, text = t :: rest ∧ (c = DOT ∨ t = c) ∧ Here (.star c :: ts) rest := by
  constructor
  · rintro ⟨mid, post, rfl, hm, hp⟩
    rw [lang_cons] at hm
    obtain ⟨u, hu, v, hv, rfl⟩ := Language.mem_mul.1 hm
    have hts : .fin ∈ ts → post = [] := fun hf => hp (mem_cons_of_mem _ hf)
    cases u with
    | nil => exact .inl ⟨v, post, rfl, hv, hts⟩
    | cons t u =>
      have h := mem_star.1 hu
      refine .inr ⟨t, u ++ v ++ post, rfl, h t (mem_cons_self ..), u ++ v, post, rfl, ?_, hp⟩
      rw [lang_cons]
      exact Language.append_mem_mul (mem_star.2 fun x hx => h x (mem_cons_of_mem _ hx)) hv
  · rintro (⟨mid, post, rfl, hm, hp⟩ | ⟨t, rest, rfl, ht, mid, post, rfl, hm, hp⟩)
    · refine ⟨mid, post, rfl, ?_, fun hf => hp (by simpa using hf)⟩
      rw [lang_cons]
      exact Language.append_mem_mul (a := []) (Language.nil_mem_kstar _) hm
    · rw [lang_cons] at hm
      obtain ⟨u, hu, v, hv, rfl⟩ := Language.mem_mul.1 hm
      refine ⟨t :: u ++ v, post, rfl, ?_, hp⟩
      rw [lang_cons]
      exact Language.append_mem_mul (mem_star.2 (forall_mem_cons.2 ⟨ht, mem_star.1 hu⟩)) hv

/-! ### The matcher finds it -/

theorem matchhere_one (hs : re.head? ≠ some STAR) (hd : ¬ (c = DOLLAR ∧ re = [])) :
    matchhere (c :: re) text = true ↔ ∃ t rest, text = t :: rest ∧ (c = DOT ∨ t = c) ∧
    matchhere re rest = true := by
  rw [matchhere.eq_def]
  simp only [hs, hd, if_false]
  cases text with
  | nil => simp
  | cons t rest => simp [eq_comm (a := c) (b := t)]

theorem matchstar_iff (hre : ∀ text, matchhere re text = true ↔ Here ts text) (text : List UInt8) :
    matchstar c re text = true ↔ Here (.star c :: ts) text := by
  induction text with
  | nil =>
    rw [matchstar, here_star]
    simp [hre]
  | cons t text ih =>
    rw [matchstar, here_star]
    simp [hre, ih, or_comm (a := t = c)]

/-- **`matchhere` finds what the tokens match at the beginning of the text.** -/
theorem matchhere_iff (re text : List UInt8) :
    matchhere re text = true ↔ Here (tokens re) text := by
  induction re using tokens.induct generalizing text with
  | case1 => simp [matchhere, tokens, here_nil]
  | case2 =>
    rw [matchhere.eq_def, tokens, if_pos rfl, here_fin]
    simp
  | case3 c hc =>
    rw [matchhere_one (by simp) fun h => hc h.1, tokens, if_neg hc, here_one]
    simp [matchhere, here_nil]
  | case4 c re ih =>
    rw [matchhere.eq_def, tokens, if_pos rfl]
    exact matchstar_iff ih text
  | case5 c d re hd ih =>
    rw [matchhere_one (by simpa using hd) (by simp), tokens, if_neg hd, here_one]
    simp only [ih]

/-- The pattern without the `^` that anchors it. -/
def body (re : List UInt8) : List UInt8 := if re.head? = some CARET then re.tail else re

theorem matchLoop_iff (re text : List UInt8) :
    matchLoop re text = true ↔ ∃ pre rest, text = pre ++ rest ∧ Here (tokens re) rest := by
  induction text with
  | nil => simp [matchLoop, matchhere_iff]
  | cons t text ih =>
    rw [matchLoop, Bool.or_eq_true, ih, matchhere_iff]
    constructor
    · rintro (h | ⟨pre, rest, rfl, h⟩)
      · exact ⟨[], _, rfl, h⟩
      · exact ⟨t :: pre, rest, rfl, h⟩
    · rintro ⟨pre, rest, e, h⟩
      cases pre with
      | nil => exact .inl (e ▸ h)
      | cons x pre => exact .inr ⟨pre, rest, (List.cons.inj e).2, h⟩

/-- **The matcher is correct**: it terminates on every pattern and text, and it succeeds exactly
where a part of the text, one at its beginning if the pattern starts with `^`, is in the language of
the rest of the pattern. -/
theorem match_iff (re text : List UInt8) : matchRe re text = true ↔
    ∃ pre mid post, text = pre ++ (mid ++ post) ∧ (re.head? = some CARET → pre = []) ∧
      Occurs (tokens (body re)) mid post := by
  unfold matchRe body
  split
  next h =>
    rw [matchhere_iff]
    constructor
    · rintro ⟨mid, post, rfl, ho⟩
      exact ⟨[], mid, post, rfl, fun _ => rfl, ho⟩
    · rintro ⟨pre, mid, post, rfl, hpre, ho⟩
      exact ⟨mid, post, by rw [hpre h, List.nil_append], ho⟩
  next h =>
    rw [matchLoop_iff]
    constructor
    · rintro ⟨pre, _, rfl, mid, post, rfl, ho⟩
      exact ⟨pre, mid, post, rfl, fun e => absurd e h, ho⟩
    · rintro ⟨pre, mid, post, rfl, -, ho⟩
      exact ⟨pre, _, rfl, mid, post, rfl, ho⟩

/-! ## The loop -/

/-- `sizeof(buf)`. -/
def BUFSIZE : Nat := 1024

/-- `strchr`: where `c` first stands in the string at the start of a buffer. -/
def strchr (c : UInt8) : List UInt8 → Option Nat
  | [] => none
  | x :: s => if x = 0 then none else if x = c then some 0 else (strchr c s).map (· + 1)

theorem strchr_lt {c : UInt8} {s : List UInt8} {q : Nat} (h : strchr c s = some q) :
    q < s.length := by
  induction s generalizing q with
  | nil => cases h
  | cons x s ih =>
    rw [strchr] at h
    split at h
    next => cases h
    next =>
      split at h
      next =>
        cases h
        exact Nat.succ_pos _
      next =>
        obtain ⟨q, hq, rfl⟩ := Option.map_eq_some_iff.1 h
        exact Nat.succ_lt_succ (ih hq)

/-- The loop over the lines in the buffer at `p`: what it writes, and what is left of the buffer. -/
def scanLines (pattern p : List UInt8) : List UInt8 × List UInt8 :=
  match _h : strchr NEWLINE p with
  | none => ([], p)
  | some q =>
    let r := scanLines pattern (p.drop (q + 1))
    ((if matchRe pattern (p.take q) then p.take (q + 1) else []) ++ r.1, r.2)
termination_by p.length
decreasing_by
  have := strchr_lt _h
  simp
  omega

/-- `grep` with `buf` in the buffer and `input` still to come.  The call of `read` that is made now
returns `wish i` bytes, but at least one if it can, and not more than there is room for. -/
def grepLoop (pattern : List UInt8) (wish : Nat → Nat) (i : Nat) (buf input : List UInt8) :
    List UInt8 :=
  let n := min (max 1 (wish i)) (BUFSIZE - buf.length - 1)
  if _h : input.take n = [] then []
  else
    let r := scanLines pattern (buf ++ input.take n)
    r.1 ++ grepLoop pattern wish (i + 1) r.2 (input.drop n)
termination_by input.length
decreasing_by
  have := mt take_eq_nil_iff.2 _h
  have : input.length ≠ 0 := by simpa using fun e => this (.inr e)
  grind

/-- What `grep` writes. -/
def grep (pattern : List UInt8) (wish : Nat → Nat) (input : List UInt8) : List UInt8 :=
  grepLoop pattern wish 0 [] input

/-! ## Lines -/

/-- The texts of the lines that end in a newline. -/
def lines (input : List UInt8) : List (List UInt8) := (input.splitOn NEWLINE).dropLast

/-- The matching ones of some lines, one after the other. -/
def report (pattern : List UInt8) (ls : List (List UInt8)) : List UInt8 :=
  (ls.filter (matchRe pattern)).flatMap (· ++ [NEWLINE])

variable {pattern buf input l p : List UInt8} {wish : Nat → Nat}

theorem lines_line (hl : NEWLINE ∉ l) : lines (l ++ NEWLINE :: input) = l :: lines input := by
  rw [lines, splitOn_append_cons_self_of_not_mem hl, dropLast_cons_of_ne_nil (by simp), lines]

theorem lines_open (hl : NEWLINE ∉ l) : lines l = [] := by
  rw [lines, splitOn_eq_singleton hl]
  rfl

/-- **Line by line**: an input is an unfinished line, or a line with an input after it. -/
theorem byLines {P : List UInt8 → Prop} (tail : ∀ l, NEWLINE ∉ l → P l)
    (line : ∀ l input, NEWLINE ∉ l → P input → P (l ++ NEWLINE :: input))
    (input : List UInt8) : P input := by
  induction h : input.length using Nat.strong_induction_on generalizing input with
  | _ n ih =>
    by_cases hi : NEWLINE ∈ input
    · obtain ⟨l, rest, rfl, hl⟩ := eq_append_cons_of_mem hi
      refine line l rest hl (ih rest.length ?_ rest rfl)
      rw [← h]
      simp
      omega
    · exact tail input hi

theorem length_lt_of_mem_lines (h : l ∈ lines p) : l.length < p.length := by
  induction p using byLines with
  | tail p hp => simp [lines_open hp] at h
  | line l' p hl ih =>
    rw [lines_line hl] at h
    simp only [length_append, length_cons]
    rcases mem_cons.1 h with rfl | h
    · omega
    · have := ih h
      omega

/-- What has no newline is the beginning of the first line. -/
theorem length_le_head_lines (hb : NEWLINE ∉ buf) (h : l ∈ (lines (buf ++ input)).head?) :
    buf.length ≤ l.length := by
  induction input using byLines with
  | tail input hi => simp [lines_open (l := buf ++ input) (by simp [hb, hi])] at h
  | line l' input hl _ =>
    rw [← append_assoc, lines_line (by simp [hb, hl])] at h
    obtain rfl : buf ++ l' = l := by simpa using h
    simp

theorem report_cons {ls : List (List UInt8)} :
    report pattern (l :: ls) = (if matchRe pattern l then l ++ [NEWLINE] else []) ++
    report pattern ls := by
  unfold report
  split
  next h => simp [h]
  next h => simp [h]

theorem report_append {ls ls' : List (List UInt8)} :
    report pattern (ls ++ ls') = report pattern ls ++ report pattern ls' := by simp [report]

/-! ## What is written -/

theorem strchr_first (h0 : 0 ∉ l) (hl : NEWLINE ∉ l) : strchr NEWLINE (l ++ NEWLINE :: input) =
    some l.length := by
  induction l with
  | nil => rfl
  | cons x l ih =>
    obtain ⟨h0, h0'⟩ := not_or.1 (mt mem_cons.2 h0)
    obtain ⟨hx, hl⟩ := not_or.1 (mt mem_cons.2 hl)
    rw [cons_append, strchr, if_neg (Ne.symm h0), if_neg (Ne.symm hx), ih h0' hl]
    rfl

theorem strchr_none (hl : NEWLINE ∉ l) : strchr NEWLINE l = none := by
  induction l with
  | nil => rfl
  | cons x l ih =>
    obtain ⟨hx, hl⟩ := not_or.1 (mt mem_cons.2 hl)
    rw [strchr, if_neg (Ne.symm hx), ih hl]
    simp

theorem scanLines_open (hp : NEWLINE ∉ p) : scanLines pattern p = ([], p) := by
  rw [scanLines.eq_def]
  split
  next => rfl
  next e =>
    rw [strchr_none hp] at e
    cases e

theorem scanLines_line (h0 : 0 ∉ l) (hl : NEWLINE ∉ l) : scanLines pattern (l ++ NEWLINE :: p) =
    ((if matchRe pattern l then l ++ [NEWLINE] else []) ++ (scanLines pattern p).1,
      (scanLines pattern p).2) := by
  rw [scanLines.eq_def]
  split
  next e =>
    rw [strchr_first h0 hl] at e
    cases e
  next q e =>
    rw [strchr_first h0 hl] at e
    cases e
    rw [take_left, append_cons, take_left' (by simp), drop_left' (by simp)]

/-- **The lines in the buffer are reported, and what is left of it is an unfinished line.** -/
theorem scanLines_spec (pattern : List UInt8) (h0 : 0 ∉ p) :
    ∃ rest, scanLines pattern p = (report pattern (lines p), rest) ∧ NEWLINE ∉ rest ∧ rest <:+ p ∧
      ∀ input, lines (p ++ input) = lines p ++ lines (rest ++ input) := by
  induction p using byLines with
  | tail p hp =>
    have e : scanLines pattern p = (report pattern (lines p), p) := by
      rw [scanLines_open hp, lines_open hp]; rfl
    exact ⟨p, e, hp, suffix_refl p, by simp [lines_open hp]⟩
  | line l p hl ih =>
    simp only [mem_append, mem_cons, not_or] at h0
    obtain ⟨rest, e, hr, hs, hi⟩ := ih h0.2.2
    refine ⟨rest, ?_, hr, hs.trans ⟨l ++ [NEWLINE], by simp⟩, fun input => ?_⟩
    · rw [scanLines_line h0.1 hl, lines_line hl, report_cons, e]
    · rw [append_assoc, cons_append, lines_line hl, lines_line hl, hi, cons_append]

/-- A line that goes into the buffer with its newline. -/
def Short (l : List UInt8) : Prop := l.length + 1 < BUFSIZE

instance : DecidablePred Short := fun l => inferInstanceAs (Decidable (l.length + 1 < BUFSIZE))

/-- The loop reports the lines up to the first that is too long, from an unfinished line in the
buffer. -/
theorem grepLoop_eq (i : Nat) (h0 : 0 ∉ buf ++ input) (hb : NEWLINE ∉ buf)
    (hlen : buf.length < BUFSIZE) :
    grepLoop pattern wish i buf input =
      report pattern ((lines (buf ++ input)).takeWhile Short) := by
  induction i, buf, input using grepLoop.induct pattern wish with
  | case1 i buf input n h =>
    -- nothing comes: there is no input left, or no room for it
    rw [grepLoop.eq_def, dif_pos h]
    rcases take_eq_nil_iff.1 h with hn | rfl
    · cases hl : lines (buf ++ input) with
      | nil => rfl
      | cons l ls =>
        have := length_le_head_lines hb (l := l) (by rw [hl]; rfl)
        have hroom : min (max 1 (wish i)) (BUFSIZE - buf.length - 1) = 0 := hn
        have hlong : ¬ Short l := by
          unfold Short
          omega
        rw [takeWhile_cons_of_neg (by simpa using hlong)]
        rfl
    · rw [append_nil, lines_open hb]
      rfl
  | case2 i buf input n h r ih =>
    have hn : n ≤ BUFSIZE - buf.length - 1 := min_le_right ..
    have hsplit : buf ++ input = (buf ++ input.take n) ++ input.drop n := by simp
    rw [hsplit] at h0 ⊢
    obtain ⟨rest, e, hr, hs, hi⟩ := scanLines_spec pattern fun hm => h0 (mem_append_left _ hm)
    have hle : (buf ++ input.take n).length < BUFSIZE := by
      simp only [length_append, length_take]
      omega
    have hshort : ∀ l ∈ lines (buf ++ input.take n), Short l := fun l hl => by
      have := length_lt_of_mem_lines hl
      unfold Short
      omega
    have h0' : 0 ∉ rest ++ input.drop n := fun hm => h0 <| (mem_append.1 hm).elim
      (fun h => mem_append_left _ (hs.subset h)) (mem_append_right _)
    have hstep : grepLoop pattern wish i buf input = r.1 ++ grepLoop pattern wish (i + 1) r.2
        (input.drop n) := by
      rw [grepLoop.eq_def, dif_neg h]
    have hr2 : r.2 = rest := congrArg Prod.snd e
    rw [hr2] at ih hstep
    rw [hstep, ih h0' hr (hs.length_le.trans_lt hle), hi, takeWhile_append_of_pos
      (by simpa using hshort), report_append, show r.1 = _ from congrArg Prod.fst e]

/-- **What `grep` writes**, however `read` cuts the input: the matching lines before the first one
that the buffer cannot hold together with its newline. -/
theorem grep_eq (h0 : 0 ∉ input) :
    grep pattern wish input = report pattern ((lines input).takeWhile Short) :=
  grepLoop_eq 0 h0 nofun (by decide)

/-- **`grep` reports the matching lines** exactly if there is none from the first on that the buffer
cannot hold. -/
theorem grep_lines (h0 : 0 ∉ input) : grep pattern wish input = report pattern (lines input) ↔
    ∀ l ∈ (lines input).dropWhile Short, matchRe pattern l = false := by
  have hsplit : report pattern (lines input) = report pattern ((lines input).takeWhile Short) ++
      report pattern ((lines input).dropWhile Short) := by
    rw [report, report, report, ← flatMap_append, ← filter_append, takeWhile_append_dropWhile]
  rw [grep_eq h0, hsplit, self_eq_append_right]
  simp [report]

/-- …for instance those with an `a`, of an input that comes byte by byte. -/
theorem grep_lines_two : grep [97] (fun _ => 1) [98, 97, NEWLINE, 98, NEWLINE, 97] =
    [98, 97, NEWLINE] := by
  have hl : lines [98, 97, NEWLINE, 98, NEWLINE, 97] = [[98, 97], [98]] := by decide
  rw [(grep_lines (by decide)).2 (by rw [hl]; decide), hl]
  have h97 : (97 : UInt8) ≠ CARET ∧ (97 : UInt8) ≠ DOLLAR ∧ (97 : UInt8) ≠ DOT := by decide
  simp [report, matchRe, matchLoop, matchhere, h97]

/-- **A line that the buffer cannot hold ends the search**: the buffer is full, and `read` is asked
for no bytes. -/
theorem grep_stops (h0 : 0 ∉ l ++ NEWLINE :: input) (hl : NEWLINE ∉ l) (hlong : ¬ Short l) :
    grep pattern wish (l ++ NEWLINE :: input) = [] := by
  rw [grep_eq h0, lines_line hl, takeWhile_cons_of_neg (by simpa using hlong)]
  rfl

/-- …for instance one of 1023 characters, which matches. -/
theorem grep_loses : ∃ pattern input wish, 0 ∉ input ∧ input ≠ [] ∧ report pattern (lines input) =
    input ∧ grep pattern wish input = [] := by
  obtain ⟨l, hlen, hall⟩ : ∃ l : List UInt8, l.length = 1023 ∧ ∀ x ∈ l, x = 97 :=
    ⟨.replicate 1023 97, List.length_replicate, fun _ => List.eq_of_mem_replicate⟩
  have hn : NEWLINE ∉ l := fun h => absurd (hall _ h) (by decide)
  have h0 : 0 ∉ l ++ NEWLINE :: [] := fun h => by
    rcases List.mem_append.1 h with h | h
    · exact absurd (hall _ h) (by decide)
    · exact absurd h (by decide)
  have hm : matchRe [97] l = true := by
    cases l with
    | nil => cases hlen
    | cons x l =>
      rw [matchRe, if_neg (by decide), matchLoop, Bool.or_eq_true]
      exact .inl ((matchhere_one (by decide) (by decide)).2
        ⟨x, l, rfl, .inr (hall x (List.mem_cons_self ..)), by rw [matchhere]⟩)
  refine ⟨[97], l ++ NEWLINE :: [], fun _ => 1, h0, by simp, ?_, grep_stops h0 hn ?_⟩
  · rw [lines_line hn, report_cons, if_pos hm]
    simp [lines, report]
  · simp [Short, BUFSIZE, hlen]

end Xv6.Grep
