import Mathlib.Data.List.DropRight
import Mathlib.Data.List.TakeWhile
import Xv6.User.Sh

/-!
# User/Tokens — what the shell's tokeniser reads

`lex` says what the tokens of a text are: white space separates, `>>` is one token, and a word is a
longest run of ordinary characters.  `gettoken` reads the first token of what is left of the text,
and `peek` looks at the character it begins with (`gettoken_cons`, `peek_eq`); a word's two ends
enclose it and the second one stands on no ordinary character (`Run`), which is why a NUL there
damages no other word.
-/

namespace Xv6.Sh

open Scan List

/-! ## Tokens of a text -/

/-- The three redirections. -/
inductive Op where
  | input
  | output
  | append
  deriving DecidableEq, Repr

inductive Tok where
  | word (w : List UInt8)
  | redir (op : Op)
  | bar
  | amp
  | semi
  | lparen
  | rparen
  deriving DecidableEq, Repr

/-- The token of a symbol other than `>`. -/
def Tok.ofSymbol (c : UInt8) : Tok :=
  if c = 124 then .bar
  else if c = 38 then .amp
  else if c = 59 then .semi
  else if c = 40 then .lparen
  else if c = 41 then .rparen
  else .redir .input

/-- What `gettoken` returns for a token. -/
def Tok.code : Tok → UInt8
  | .word _ => 97
  | .redir .input => 60
  | .redir .output => 62
  | .redir .append => 43
  | .bar => 124
  | .amp => 38
  | .semi => 59
  | .lparen => 40
  | .rparen => 41

/-- The symbol a token begins with, and `'a'` for a word. -/
def Tok.mark : Tok → UInt8
  | .redir .append => 62
  | t => t.code

/-- **The tokens of a text.** -/
def lex (cs : List UInt8) : List Tok :=
  match _h : cs.dropWhile (strchr whitespace) with
  | [] => []
  | c :: r =>
    if c = 62 then
      if r.head? = some 62 then .redir .append :: lex r.tail else .redir .output :: lex r
    else if strchr symbols c then Tok.ofSymbol c :: lex r
    else .word (c :: r.takeWhile ordinary) :: lex (r.dropWhile ordinary)
termination_by cs.length
decreasing_by
  all_goals
    have hl := (dropWhile_suffix (l := cs) (strchr whitespace)).length_le
    have hr := (dropWhile_suffix (l := r) ordinary).length_le
    have ht := length_tail (l := r)
    rw [_h, length_cons] at hl
    omega


theorem lex_nil {cs : List UInt8} (h : cs.dropWhile (strchr whitespace) = []) : lex cs = [] := by
  rw [lex]
  split
  · rfl
  · next h' => rw [h] at h'; cases h'

theorem lex_cons {cs r : List UInt8} {c : UInt8} (h : cs.dropWhile (strchr whitespace) = c :: r) :
    lex cs =
      if c = 62 then
        if r.head? = some 62 then .redir .append :: lex r.tail else .redir .output :: lex r
      else if strchr symbols c then Tok.ofSymbol c :: lex r
      else .word (c :: r.takeWhile ordinary) :: lex (r.dropWhile ordinary) := by
  rw [lex]
  split
  · next h' => rw [h] at h'; cases h'
  · next h' =>
    rw [h] at h'
    cases h'
    rfl

/-- Leading white space makes no difference. -/
theorem lex_dropWhile (cs : List UInt8) : lex (cs.dropWhile (strchr whitespace)) = lex cs := by
  have hi : (cs.dropWhile (strchr whitespace)).dropWhile (strchr whitespace)
      = cs.dropWhile (strchr whitespace) := dropWhile_idempotent _ _
  cases h : cs.dropWhile (strchr whitespace) with
  | nil => rw [lex_nil h, lex_nil rfl]
  | cons c r => rw [lex_cons h, lex_cons (h ▸ hi)]

/-- A text that reads as one word. -/
def Word (w : List UInt8) : Prop := w ≠ [] ∧ (∀ c ∈ w, ordinary c = true) ∧ 0 ∉ w

/-- The words among some tokens are words. -/
def Plain (ts : List Tok) : Prop := ∀ w, Tok.word w ∈ ts → Word w

theorem Plain.append {ts us : List Tok} : Plain (ts ++ us) ↔ Plain ts ∧ Plain us := by
  simp only [Plain, mem_append, or_imp, forall_and]

theorem Plain.cons {t : Tok} {ts : List Tok} (h : Plain (t :: ts)) : Plain ts :=
  fun w hw => h w (mem_cons_of_mem _ hw)

theorem plain_cons {t : Tok} {ts : List Tok} (ht : ∀ w, t = .word w → Word w) (h : Plain ts) :
    Plain (t :: ts) :=
  fun w hw => (mem_cons.1 hw).elim (fun he => ht w he.symm) (h w)

theorem ofSymbol_ne_word (c : UInt8) (w : List UInt8) : Tok.ofSymbol c ≠ .word w := by
  unfold Tok.ofSymbol
  split_ifs <;> exact Tok.noConfusion

/-- What is left after the white space is part of the text. -/
theorem dropWhile_rest {cs r : List UInt8} {c : UInt8}
    (h : cs.dropWhile (strchr whitespace) = c :: r) : c ∈ cs ∧ r ⊆ cs ∧ r.length < cs.length := by
  have hs := dropWhile_suffix (l := cs) (strchr whitespace)
  rw [h] at hs
  exact ⟨hs.subset mem_cons_self, fun d hd => hs.subset (mem_cons_of_mem _ hd), hs.length_le⟩

/-- The words of a text are words. -/
theorem lex_plain {cs : List UInt8} (hn : 0 ∉ cs) : Plain (lex cs) := by
  fun_induction lex cs with
  | case1 => exact fun w hw => absurd hw not_mem_nil
  | case2 cs r hgt h ih =>
    exact plain_cons (fun w hw => by cases hw)
      (ih fun hm => hn ((dropWhile_rest h).2.1 (mem_of_mem_tail hm)))
  | case3 cs r hgt h ih =>
    exact plain_cons (fun w hw => by cases hw) (ih fun hm => hn ((dropWhile_rest h).2.1 hm))
  | case4 cs c r h hgt hsym ih =>
    exact plain_cons (fun w hw => absurd hw (ofSymbol_ne_word c w))
      (ih fun hm => hn ((dropWhile_rest h).2.1 hm))
  | case5 cs c r h hgt hsym ih =>
    obtain ⟨hc, hr, -⟩ := dropWhile_rest h
    have hh := head?_dropWhile_not (strchr whitespace) cs
    rw [h] at hh
    have hw : strchr whitespace c = false := by simpa using hh
    refine plain_cons (fun w hw => ?_)
      (ih fun hm => hn (hr ((dropWhile_suffix ordinary).subset hm)))
    cases hw
    refine ⟨cons_ne_nil _ _, forall_mem_cons.2 ⟨?_, fun d hd => mem_takeWhile_imp hd⟩, ?_⟩
    · simpa [ordinary, hw] using hsym
    · intro hm
      rcases mem_cons.1 hm with h0 | h0
      · exact hn (h0 ▸ hc)
      · exact hn (hr ((List.takeWhile_prefix ordinary).subset h0))

/-- A token takes at least one character. -/
theorem length_lex (cs : List UInt8) : (lex cs).length ≤ cs.length := by
  fun_induction lex cs with
  | case1 => exact Nat.zero_le _
  | case2 cs r hgt h ih =>
    exact Nat.lt_of_le_of_lt (ih.trans (length_tail ▸ Nat.sub_le _ _)) (dropWhile_rest h).2.2
  | case3 cs r hgt h ih
  | case4 cs c r h hgt hsym ih => exact Nat.lt_of_le_of_lt ih (dropWhile_rest h).2.2
  | case5 cs c r h hgt hsym ih =>
    exact Nat.lt_of_le_of_lt (ih.trans (length_dropWhile_le ordinary r)) (dropWhile_rest h).2.2

/-! ## The tokeniser on a terminated text

The buffer is the text `l` and its NUL; positions run up to `l.length`. -/

section
variable {l : List UInt8} {s : Nat}

theorem strlen_text (hn : 0 ∉ l) : strlen (l ++ [0]) = l.length := by
  have h : ∀ c ∈ l, decide (c ≠ 0) = true := fun c hc => decide_eq_true (ne_of_mem_of_not_mem hc hn)
  rw [strlen, takeWhile_append_of_pos h]
  simp

section

variable (hs : s ≤ l.length)

include hs

theorem char_text : char (l ++ [0]) s = (l.drop s).head?.getD 0 := by
  rw [char, head?_drop, getD_eq_getElem?_getD]
  rcases Nat.lt_or_ge s l.length with h | h
  · rw [getElem?_append_left h]
  · have he : s = l.length := by omega
    simp [he]

theorem skip_le : skip (l ++ [0]) l.length s ≤ l.length := scan_le hs

theorem drop_skip :
    l.drop (skip (l ++ [0]) l.length s) = (l.drop s).dropWhile (strchr whitespace) := drop_scan hs

theorem lex_skip : lex (l.drop (skip (l ++ [0]) l.length s)) = lex (l.drop s) := by
  rw [drop_skip hs, lex_dropWhile]

end

/-- A word's two ends: ordinary characters between them and none at the second. -/
structure Run (l : List UInt8) (a : Span) : Prop where
  lt : a.1 < a.2
  le : a.2 ≤ l.length
  inside : ∀ i c, a.1 ≤ i → i < a.2 → l[i]? = some c → ordinary c = true
  stop : ∀ c, l[a.2]? = some c → ordinary c = false

end

section
variable {b : List UInt8} {es s : Nat} {c : UInt8}

theorem tokenAt_symbol (hc : char b s = c) (hsym : strchr symbols c = true) (hne : c ≠ 62) :
    tokenAt b es s = ((Tok.ofSymbol c).code, s + 1) := by
  have h : c = 60 ∨ c = 124 ∨ c = 38 ∨ c = 59 ∨ c = 40 ∨ c = 41 := by
    simp only [strchr, symbols, contains_iff_mem, mem_cons, not_mem_nil, or_false] at hsym
    tauto
  unfold tokenAt
  rcases h with rfl | rfl | rfl | rfl | rfl | rfl <;> rw [hc] <;> rfl

theorem tokenAt_gt (hc : char b s = 62) :
    tokenAt b es s = if char b (s + 1) = 62 then (43, s + 2) else (62, s + 1) := by
  unfold tokenAt
  rw [hc]
  rfl

theorem tokenAt_word (hc : char b s = c) (h0 : c ≠ 0) (hsym : strchr symbols c = false) :
    tokenAt b es s = (97, scan ordinary b (es - s) s) := by
  simp only [strchr, symbols, contains_eq_mem, decide_eq_false_iff_not, mem_cons, not_mem_nil,
    or_false, not_or] at hsym
  unfold tokenAt
  rw [hc]
  split <;> simp_all

end

/-! ## Reading a token -/

section
variable {l : List UInt8} {s : Nat} {c : UInt8} {r : List UInt8} {t : Tok} {ts : List Tok}

/-- The text between a word's two ends. -/
def text (l : List UInt8) (a : Span) : List UInt8 := slice l a.1 a.2

/-- What `g` says of the token `t` and the tokens `ts` after it. -/
structure Took (l : List UInt8) (t : Tok) (ts : List Tok) (g : Token) : Prop where
  ret : g.ret = t.code
  le : g.s ≤ l.length
  rest : lex (l.drop g.s) = ts
  word : ∀ w, t = .word w → Run l (g.q, g.eq) ∧ text l (g.q, g.eq) = w

section

variable (h : l.drop s = c :: r)

include h

theorem drop_succ : l.drop (s + 1) = r := by
  rw [← drop_drop, h, drop_one, tail_cons]

theorem lt_of_drop : s < l.length := by
  by_contra hs
  rw [drop_eq_nil_of_le (by omega)] at h
  cases h

theorem char_drop : char (l ++ [0]) s = c := by
  rw [char_text (lt_of_drop h).le, h]
  rfl

/-- A word is read from its first character to the end of the run. -/
theorem run_scan (hc : ordinary c = true) :
    Run l (s, scan ordinary (l ++ [0]) (l.length - s) s) ∧
      text l (s, scan ordinary (l ++ [0]) (l.length - s) s) = c :: r.takeWhile ordinary := by
  have hs := (lt_of_drop h).le
  have hw : (l.drop s).takeWhile ordinary = c :: r.takeWhile ordinary := by
    rw [h, takeWhile_cons_of_pos hc]
  have he := scan_text (p := ordinary) (t := [0]) hs
  have hle := scan_le (p := ordinary) (t := [0]) hs
  have hd := drop_scan (p := ordinary) (t := [0]) hs
  rw [hw, length_cons] at he
  generalize scan ordinary (l ++ [0]) (l.length - s) s = e at *
  refine ⟨⟨by omega, hle, fun i d hi hie hd => ?_, fun d hd' => ?_⟩, ?_⟩
  · have hm : d ∈ (l.drop s).takeWhile ordinary := by
      rw [prefix_iff_eq_take.1 (List.takeWhile_prefix (l := l.drop s) ordinary), hw]
      refine mem_of_getElem? (i := i - s) ?_
      rw [getElem?_take_of_lt (by simp only [length_cons]; omega), getElem?_drop,
        show s + (i - s) = i by omega, hd]
    exact mem_takeWhile_imp hm
  · have hh := head?_dropWhile_not ordinary (l.drop s)
    rw [← hd, head?_drop, hd'] at hh
    simpa using hh
  · have hp := prefix_iff_eq_take.1 (List.takeWhile_prefix (l := l.drop s) ordinary)
    rw [hw] at hp
    rw [text, slice, hp]
    congr 1
    simp only [length_cons]
    omega

end

/-- Where the token after the white space begins. -/
theorem dropWhile_cons (h : (l.drop s).dropWhile (strchr whitespace) = c :: r) (hs : s ≤ l.length) :
    l.drop (skip (l ++ [0]) l.length s) = c :: r ∧ strchr whitespace c = false ∧ c ∈ l := by
  have hq := (drop_skip hs).trans h
  have hh := head?_dropWhile_not (strchr whitespace) (l.drop s)
  rw [h] at hh
  exact ⟨hq, by simpa using hh, mem_of_mem_drop (hq ▸ mem_cons_self)⟩

/-- The `switch`, at the first character of a token. -/
theorem tokenAt_lex (hn : 0 ∉ l) (h : l.drop s = c :: r) (hw : strchr whitespace c = false)
    (hm : c ∈ l) (hl : lex (l.drop s) = t :: ts) :
    let e := (tokenAt (l ++ [0]) l.length s).2
    (tokenAt (l ++ [0]) l.length s).1 = t.code ∧ e ≤ l.length ∧ lex (l.drop e) = ts ∧
      ∀ w, t = .word w → Run l (s, e) ∧ text l (s, e) = w := by
  have hlt := lt_of_drop h
  have hch := char_drop h
  have hr := drop_succ h
  have hid : (l.drop s).dropWhile (strchr whitespace) = c :: r := by
    rw [h, dropWhile_cons_of_neg (by simpa using hw)]
  rw [lex_cons hid] at hl
  by_cases hgt : c = 62
  · subst hgt
    rw [if_pos rfl] at hl
    rw [tokenAt_gt hch, char_text (s := s + 1) (by omega), hr]
    cases hrr : r with
    | nil =>
      rw [hrr, if_neg (by simp)] at hl
      obtain ⟨rfl, rfl⟩ := List.cons.inj hl
      exact ⟨rfl, hlt, by rw [if_neg (by decide), hr, hrr], fun w hw => by cases hw⟩
    | cons d r' =>
      subst hrr
      by_cases hd : d = 62
      · rw [if_pos (by simp [hd])] at hl
        obtain ⟨rfl, rfl⟩ := List.cons.inj hl
        have hlt' := lt_of_drop hr
        rw [if_pos (by simp [hd])]
        exact ⟨rfl, hlt', by rw [drop_succ hr, tail_cons], fun w hw => by cases hw⟩
      · rw [if_neg (by simp [hd])] at hl
        obtain ⟨rfl, rfl⟩ := List.cons.inj hl
        rw [if_neg (by simpa using hd)]
        exact ⟨rfl, hlt, by rw [hr], fun w hw => by cases hw⟩
  · rw [if_neg hgt] at hl
    cases hsym : strchr symbols c with
    | true =>
      rw [hsym, if_pos rfl] at hl
      obtain ⟨rfl, rfl⟩ := List.cons.inj hl
      rw [tokenAt_symbol hch hsym hgt]
      exact ⟨rfl, hlt, by rw [hr], fun w hw => absurd hw (ofSymbol_ne_word c w)⟩
    | false =>
      rw [hsym, if_neg (by decide)] at hl
      obtain ⟨rfl, rfl⟩ := List.cons.inj hl
      have ho : ordinary c = true := by simp [ordinary, hw, hsym]
      rw [tokenAt_word hch (ne_of_mem_of_not_mem hm hn) hsym]
      refine ⟨rfl, scan_le hlt.le, ?_, fun w hw => ?_⟩
      · rw [drop_scan hlt.le, h, dropWhile_cons_of_pos ho]
      · cases hw
        exact run_scan h ho

/-- **`gettoken` reads the first token of what is left.** -/
theorem gettoken_cons (hn : 0 ∉ l) (hs : s ≤ l.length) (h : lex (l.drop s) = t :: ts) :
    Took l t ts (gettoken (l ++ [0]) l.length s) := by
  cases hd : (l.drop s).dropWhile (strchr whitespace) with
  | nil => rw [lex_nil hd] at h; cases h
  | cons c r =>
    obtain ⟨hq, hw, hm⟩ := dropWhile_cons hd hs
    obtain ⟨hret, hle, hrest, hword⟩ := tokenAt_lex hn hq hw hm ((lex_skip hs).trans h)
    exact ⟨hret, skip_le hle, (lex_skip hle).trans hrest, hword⟩

/-- No token is left when white space is all there is. -/
theorem skip_of_nil (hs : s ≤ l.length) (h : lex (l.drop s) = []) :
    skip (l ++ [0]) l.length s = l.length := by
  cases hd : (l.drop s).dropWhile (strchr whitespace) with
  | nil =>
    have hq := drop_eq_nil_iff.1 ((drop_skip hs).trans hd)
    exact le_antisymm (skip_le hs) hq
  | cons c r =>
    rw [lex_cons hd] at h
    split_ifs at h

/-- …and the end of the text is reported as 0. -/
theorem gettoken_nil (hs : s ≤ l.length) (h : lex (l.drop s) = []) :
    (gettoken (l ++ [0]) l.length s).ret = 0 ∧ (gettoken (l ++ [0]) l.length s).s = l.length := by
  have hq := skip_of_nil hs h
  have hc : char (l ++ [0]) l.length = 0 := by simp [char_text le_rfl]
  have ht : tokenAt (l ++ [0]) l.length l.length = (0, l.length) := by
    unfold tokenAt
    rw [hc]
    rfl
  have hend : skip (l ++ [0]) l.length l.length = l.length :=
    skip_of_nil le_rfl (by rw [drop_length]; exact lex_nil rfl)
  simp only [gettoken, hq, ht, hend, and_self]

/-- Whether the first token begins with one of `toks`. -/
def starts (toks : List UInt8) : List Tok → Bool
  | [] => false
  | t :: _ => strchr toks t.mark

/-- A symbol is the mark of its token. -/
theorem lex_mark {cs : List UInt8} (hd : cs.dropWhile (strchr whitespace) = c :: r)
    (h : lex cs = t :: ts) : t.mark = if strchr symbols c then c else 97 := by
  rw [lex_cons hd] at h
  by_cases hgt : c = 62
  · subst hgt
    rw [if_pos rfl] at h
    split_ifs at h <;> obtain ⟨rfl, -⟩ := List.cons.inj h <;> rfl
  · rw [if_neg hgt] at h
    cases hsym : strchr symbols c with
    | true =>
      rw [hsym, if_pos rfl] at h
      obtain ⟨rfl, -⟩ := List.cons.inj h
      simp only [strchr, symbols, contains_iff_mem, mem_cons, not_mem_nil, or_false] at hsym
      rcases hsym with rfl | rfl | rfl | rfl | rfl | rfl | rfl <;>
        first | rfl | exact absurd rfl hgt
    | false =>
      rw [hsym, if_neg (by decide)] at h
      obtain ⟨rfl, -⟩ := List.cons.inj h
      rfl

/-- **`peek` looks at the first token of what is left.** -/
theorem peek_eq (hn : 0 ∉ l) (hs : s ≤ l.length) {toks : List UInt8} (hsub : toks ⊆ symbols) :
    (peek (l ++ [0]) l.length s toks).1 = starts toks (lex (l.drop s)) := by
  cases hd : (l.drop s).dropWhile (strchr whitespace) with
  | nil =>
    have h := lex_nil hd
    simp [peek, skip_of_nil hs h, char_text le_rfl, h, starts]
  | cons c r =>
    obtain ⟨hq, -, hm⟩ := dropWhile_cons hd hs
    have h0 : c ≠ 0 := ne_of_mem_of_not_mem hm hn
    have hlex : ∃ t ts, lex (l.drop s) = t :: ts := by
      rw [lex_cons hd]
      split_ifs <;> exact ⟨_, _, rfl⟩
    obtain ⟨t, ts, h⟩ := hlex
    rw [h, starts, lex_mark hd h]
    simp only [peek, char_drop hq, h0, ne_eq, not_false_eq_true, decide_true, Bool.true_and]
    split_ifs with hsym
    · rfl
    · -- an ordinary character is in no list of symbols, and neither is `'a'`
      have hno : ∀ d, strchr symbols d = false → strchr toks d = false := fun d hd => by
        simp only [strchr, contains_eq_mem, decide_eq_false_iff_not] at hd ⊢
        exact fun hm => hd (hsub hm)
      rw [hno c (by simpa using hsym), hno 97 (by decide)]

theorem peek_rest (hs : s ≤ l.length) (toks : List UInt8) :
    (peek (l ++ [0]) l.length s toks).2 ≤ l.length ∧
      lex (l.drop (peek (l ++ [0]) l.length s toks).2) = lex (l.drop s) :=
  ⟨skip_le hs, lex_skip hs⟩

end

end Xv6.Sh
