import Xv6.User.Parser

/-!
# User/Command — a command line, from its text to its strings

`parsecmd` parses a line, refuses what is left over, and writes the NULs.  They go to the ends of
words, and the end of a word stands on no character of any word, so each string reads back as its
token did.  With the two halves of `User/Parser` this is the contract of the shell's parser,
`parser_grammar`; printing a command and parsing it again is an instance.
-/

namespace Xv6.Sh

open List

section
variable {l : List UInt8} {n s : Nat} {ts : List Tok} {cmd : Cmd Span}

/-! ## Terminators -/

/-- A NUL at each of some positions. -/
def nuls (es : List Nat) (b : List UInt8) : List UInt8 := es.foldl (fun b e => b.set e 0) b

theorem nulterminate_eq (cmd : Cmd Span) (b : List UInt8) :
    nulterminate cmd b = nuls (cmd.strings.map (·.2)) b := by
  induction cmd generalizing b with
  | exec argv => simp only [nulterminate, nuls, Cmd.strings, foldl_map]
  | redir cmd file mode fd ih => simp [nulterminate, nuls, Cmd.strings, ih]
  | pipe left right ihl ihr
  | list left right ihl ihr => simp [nulterminate, nuls, Cmd.strings, ihl, ihr]
  | back cmd ih => exact ih b

@[simp] theorem length_nuls (es : List Nat) (b : List UInt8) : (nuls es b).length = b.length := by
  induction es generalizing b with
  | nil => rfl
  | cons e es ih => simpa [nuls] using ih (b.set e 0)

theorem nuls_other {es : List Nat} {b : List UInt8} {i : Nat} (hi : i ∉ es) :
    (nuls es b)[i]? = b[i]? := by
  induction es generalizing b with
  | nil => rfl
  | cons e es ih =>
    obtain ⟨hne, hes⟩ := not_or.1 (mt mem_cons.2 hi)
    have h := ih (b := b.set e 0) hes
    rwa [getElem?_set_ne (Ne.symm hne)] at h

theorem nuls_at {es : List Nat} {b : List UInt8} {i : Nat} (hi : i ∈ es) (hb : i < b.length) :
    (nuls es b)[i]? = some 0 := by
  induction es generalizing b with
  | nil => cases hi
  | cons e es ih =>
    have hb' : i < (b.set e 0).length := by simpa using hb
    by_cases hes : i ∈ es
    · exact ih hes hb'
    · obtain rfl := (mem_cons.1 hi).resolve_right hes
      have h := nuls_other (b := b.set i 0) hes
      rwa [getElem?_set_self hb] at h

/-- No end of a word lies inside another one. -/
theorem Run.outside {a c : Span} (ha : Run l a) (hc : Run l c) (hl : a.1 ≤ c.2) (hr : c.2 < a.2) :
    False := by
  have hlt : c.2 < l.length := Nat.lt_of_lt_of_le hr ha.le
  have hget := getElem?_eq_getElem hlt
  have hin := ha.inside _ _ hl hr hget
  rw [hc.stop _ hget] at hin
  cases hin

/-- **The string at a word's beginning is the word.** -/
theorem cstring_text (hn : 0 ∉ l) (hg : Good l cmd) {a : Span} (ha : a ∈ cmd.strings) :
    cstring (nulterminate cmd (l ++ [0])) a.1 = text l a := by
  have hrun := hg a ha
  have hlt := hrun.lt
  have hle := hrun.le
  rw [nulterminate_eq]
  set es := cmd.strings.map (·.2) with hes
  have hend : (nuls es (l ++ [0]))[a.2]? = some 0 :=
    nuls_at (mem_map_of_mem ha) (by simp only [length_append, length_singleton]; omega)
  have hin : slice (nuls es (l ++ [0])) a.1 a.2 = text l a := by
    refine ext_getElem? fun i => ?_
    by_cases hi : i < a.2 - a.1
    · have hout : a.1 + i ∉ es := fun hm => by
        obtain ⟨c, hc, he⟩ := mem_map.1 hm
        exact hrun.outside (hg c hc) (by omega) (by omega)
      rw [text, slice, slice, getElem?_take_of_lt hi, getElem?_take_of_lt hi, getElem?_drop,
        getElem?_drop, nuls_other hout, getElem?_append_left (by omega)]
    · rw [text, slice, slice, getElem?_take_eq_none (by omega), getElem?_take_eq_none (by omega)]
  have hsplit : (nuls es (l ++ [0])).drop a.1 = text l a ++ 0 ::
      (nuls es (l ++ [0])).drop (a.2 + 1) := by
    obtain ⟨hb, hget⟩ := List.getElem?_eq_some_iff.1 hend
    have hd := drop_eq_getElem_cons hb
    rw [hget] at hd
    rw [← hd, ← hin, slice]
    conv_lhs => rw [← take_append_drop (a.2 - a.1) ((nuls es (l ++ [0])).drop a.1)]
    rw [drop_drop, show a.1 + (a.2 - a.1) = a.2 by omega]
  have hno : ∀ c ∈ text l a, decide (c ≠ 0) = true := fun c hc =>
    decide_eq_true (ne_of_mem_of_not_mem (mem_of_mem_drop (mem_of_mem_take hc)) hn)
  rw [cstring, hsplit, takeWhile_append_of_pos hno]
  simp

/-- A command is determined by what its strings become. -/
theorem map_congr {σ τ : Type} {f g : σ → τ} {c : Cmd σ} (h : ∀ a ∈ c.strings, f a = g a) :
    c.map f = c.map g := by
  induction c with
  | exec argv => exact congrArg Cmd.exec (map_congr_left h)
  | redir c file mode fd ih =>
    rw [Cmd.map, Cmd.map, ih fun a ha => h a (mem_append_left _ ha),
      h file (mem_append_right _ mem_cons_self)]
  | pipe left right ihl ihr | list left right ihl ihr =>
    rw [Cmd.map, Cmd.map, ihl fun a ha => h a (mem_append_left _ ha),
      ihr fun a ha => h a (mem_append_right _ ha)]
  | back c ih => rw [Cmd.map, Cmd.map, ih h]

/-- The command as it is run is the command as it was read. -/
theorem tree_eq (hn : 0 ∉ l) (hg : Good l cmd) :
    Parsed.tree ⟨cmd, nulterminate cmd (l ++ [0])⟩ = cmd.map (text l) :=
  map_congr fun _ ha => cstring_text hn hg ha

/-! ## The whole line -/

/-- A bound on the depth that every line of `k` characters keeps to. -/
def depth (k : Nat) : Nat := 4 * k + 5

theorem At.start (l : List UInt8) : At l 0 (lex l) := ⟨Nat.zero_le _, rfl⟩

/-- Nothing is left over exactly when no token is. -/
theorem leftovers_iff (h : At l s ts) (toks : List UInt8) :
    (peek (l ++ [0]) l.length s toks).2 = l.length ↔ ts = [] := by
  constructor
  · intro he
    have hr := (peek_rest h.le toks).2
    rw [he, drop_length, lex_nil rfl] at hr
    exact h.toks.symm.trans hr.symm
  · rintro rfl
    exact skip_of_nil h.le h.toks

section

variable (hn : 0 ∉ l)

include hn

/-- A panic of `parseline` is one of `parsecmd`. -/
theorem parsecmd_error {e : Stop} (h : parseline (l ++ [0]) l.length n 0 = .error e) :
    parsecmd n (l ++ [0]) = .error e := by
  simp only [parsecmd, strlen_text hn, h]

/-- What `parseline` returns is the command when no token is left. -/
theorem parsecmd_ok (h : parseline (l ++ [0]) l.length n 0 = .ok (cmd, s)) (hat : At l s []) :
    parsecmd n (l ++ [0]) = .ok ⟨cmd, nulterminate cmd (l ++ [0])⟩ := by
  have hend := (leftovers_iff hat []).2 rfl
  simp only [parsecmd, strlen_text hn, h, hend, ne_eq, not_true_eq_false, if_false]

/-- …and refused otherwise. -/
theorem parsecmd_leftovers (h : parseline (l ++ [0]) l.length n 0 = .ok (cmd, s)) (hat : At l s ts)
    (hne : ts ≠ []) : ∃ rest, parsecmd n (l ++ [0]) = .error (.leftovers rest) := by
  have hend := mt (leftovers_iff hat []).1 hne
  exact ⟨_, by
    simp only [parsecmd, strlen_text hn, h, ne_eq, hend, not_false_eq_true, if_true]; rfl⟩

/-- A command that is returned was derived from the whole line. -/
theorem parsecmd_sound {r : Parsed} (h : parsecmd n (l ++ [0]) = .ok r) :
    Derives .line (lex l) r.tree ∧ Good l r.cmd ∧ r.buf = nulterminate r.cmd (l ++ [0]) := by
  have hs := (sound hn n).line (At.start l)
  match hp : parseline (l ++ [0]) l.length n 0 with
  | .error e => rw [parsecmd_error hn hp] at h; cases h
  | .ok (cmd, s) =>
    rw [hp] at hs
    obtain ⟨us, vs, hts, hat, hd, hg⟩ := hs
    by_cases hvs : vs = []
    · subst hvs
      rw [parsecmd_ok hn hp hat] at h
      cases h
      rw [append_nil] at hts
      exact ⟨hts ▸ tree_eq hn hg ▸ hd, hg, rfl⟩
    · obtain ⟨rest, he⟩ := parsecmd_leftovers hn hp hat hvs
      rw [he] at h
      cases h

/-- The bound is kept to, and so are the arrays. -/
theorem parsecmd_ends (hd : depth l.length ≤ n) :
    parsecmd n (l ++ [0]) ≠ .error .outOfFuel ∧ parsecmd n (l ++ [0]) ≠ .error .outOfBounds := by
  have hs := (sound hn n).line (At.start l)
  have hlen := length_lex l
  unfold depth at hd
  match hp : parseline (l ++ [0]) l.length n 0 with
  | .ok (cmd, s) =>
    rw [hp] at hs
    obtain ⟨us, vs, -, hat, -, -⟩ := hs
    by_cases hvs : vs = []
    · subst hvs
      rw [parsecmd_ok hn hp hat]
      exact ⟨by simp, by simp⟩
    · obtain ⟨rest, he⟩ := parsecmd_leftovers hn hp hat hvs
      rw [he]
      exact ⟨by simp, by simp⟩
  | .error .outOfFuel =>
    rw [hp] at hs
    have hF : n < 4 * (lex l).length + 5 := hs
    omega
  | .error .outOfBounds => rw [hp] at hs; exact hs.elim
  | .error .missingFile | .error .parseblock | .error .missingParen | .error .unexpected
  | .error .tooManyArgs
  | .error (.leftovers _) => rw [parsecmd_error hn hp]; exact ⟨by simp, by simp⟩

/-- Every line that can be derived is parsed, into the tree of the derivation. -/
theorem parsecmd_complete (hd : depth l.length ≤ n) {t : Tree} (h : Derives .line (lex l) t) :
    ∃ r, parsecmd n (l ++ [0]) = .ok r ∧ r.tree = t := by
  have hs := (sound hn n).line (At.start l)
  have hc :=
    complete (n := n) hn h (show At l 0 (lex l ++ []) by rw [append_nil]; exact At.start l) rfl
  obtain ⟨hfuel, -⟩ := parsecmd_ends hn hd
  rw [parse] at hc
  rcases hp : parseline (l ++ [0]) l.length n 0 with e | ⟨cmd, s⟩
  · cases e with
    | outOfFuel => exact absurd (parsecmd_error hn hp) hfuel
    | _ => rw [hp] at hc; exact hc.elim
  · rw [hp] at hc hs
    obtain ⟨hat, rfl⟩ := hc
    obtain ⟨-, -, -, -, -, hg⟩ := hs
    exact ⟨_, parsecmd_ok hn hp hat, tree_eq hn hg⟩

end

/-- **The shell's parser accepts exactly its grammar.**  For every line without NUL, and with room
for a depth that grows with the line:

* the parser ends, with every index of `argv` in bounds;
* it returns a command exactly when the tokens of the line can be derived, and the command is the
  tree of the derivation, as read through the pointers it holds once the NULs are written;
* each of its strings lies in the buffer and reads as the text that was there;
* what it returns can be printed and parsed again, with the same result. -/
theorem parser_grammar (l : List UInt8) (hn : 0 ∉ l) (n : Nat) (hd : depth l.length ≤ n) :
    (parsecmd n (l ++ [0]) ≠ .error .outOfFuel ∧ parsecmd n (l ++ [0]) ≠ .error .outOfBounds) ∧
    (∀ t, (∃ r, parsecmd n (l ++ [0]) = .ok r ∧ r.tree = t) ↔ Derives .line (lex l) t) ∧
    ∀ r, parsecmd n (l ++ [0]) = .ok r →
      (∀ a ∈ r.cmd.strings, a.1 < a.2 ∧ a.2 < r.buf.length ∧ cstring r.buf a.1 = text l a) ∧
      ∀ m, depth (print r.tree).length ≤ m →
        ∃ r', parsecmd m (print r.tree ++ [0]) = .ok r' ∧ r'.tree = r.tree := by
  refine ⟨parsecmd_ends hn hd, fun t => ⟨?_, parsecmd_complete hn hd⟩,
    fun r hr => ⟨fun a ha => ?_, fun m hm => ?_⟩⟩
  · rintro ⟨r, hr, rfl⟩
    exact (parsecmd_sound hn hr).1
  · obtain ⟨-, hg, hbuf⟩ := parsecmd_sound hn hr
    have hrun := hg a ha
    rw [hbuf]
    refine ⟨hrun.lt, ?_, cstring_text hn hg ha⟩
    rw [nulterminate_eq, length_nuls, List.length_append, List.length_singleton]
    exact Nat.lt_succ_of_le hrun.le
  · have hok := (parsecmd_sound hn hr).1.ok (lex_plain hn)
    exact parsecmd_complete (nul_not_mem_print hok) hm (derives_print hok)

end

/-- The line `(a>b|c)&;d<e>>f`. -/
def sampleLine : List UInt8 := [40, 97, 62, 98, 124, 99, 41, 38, 59, 100, 60, 101, 62, 62, 102]

/-- …and the command it is. -/
def sampleTree : Tree :=
  .list (.back (.pipe (.redir (.exec [[97]]) [98] 0x601 1) (.exec [[99]])))
    (.redir (.redir (.exec [[100]]) [101] 0 0) [102] 0x201 1)

theorem parser_grammar_sample :
    (parsecmd (depth 15) (sampleLine ++ [0])).toOption.map Parsed.tree = some sampleTree ∧
      Derives .line (lex sampleLine) sampleTree := by
  have hrun : (parsecmd (depth 15) (sampleLine ++ [0])).toOption.map Parsed.tree =
      some sampleTree := by
    decide +kernel
  obtain ⟨-, hiff, -⟩ := parser_grammar sampleLine (by decide) (depth 15) (by decide)
  refine ⟨hrun, (hiff sampleTree).1 ?_⟩
  match hp : parsecmd (depth 15) (sampleLine ++ [0]) with
  | .ok r => exact ⟨r, rfl, by simpa [hp, Except.toOption] using hrun⟩
  | .error e => simp [hp, Except.toOption] at hrun

end Xv6.Sh
