import Mathlib.Logic.Function.Iterate
import Xv6.User.Tokens

/-!
# User/Grammar — the shell's command language

    line  ::=  pipe '&'* [';' line]
    pipe  ::=  exec ['|' pipe]
    exec  ::=  '(' line ')' redir*  |  redir* (word redir*)*
    redir ::=  ('<' | '>' | '>>') word

with fewer than `MAXARGS` words to an `exec`.  `Derives` carries the tree of the derivation: pipes
and lists nest to the right, and a later redirection goes around an earlier one.  `print` writes a
tree out again, and its text has the tokens of a derivation of that tree (`derives_print`,
`lex_print`).
-/

namespace Xv6.Sh

open List

/-- A command with its strings spelled out. -/
abbrev Tree := Cmd (List UInt8)

/-! ## Derivations -/

/-- The mode a redirection opens its file with. -/
def Op.mode : Op → Nat
  | .input => O_RDONLY
  | .output => O_WRONLY ||| O_CREATE ||| O_TRUNC
  | .append => O_WRONLY ||| O_CREATE

/-- The descriptor it replaces. -/
def Op.fd : Op → Nat
  | .input => 0
  | .output => 1
  | .append => 1

/-- A redirection: its symbol and its file. -/
abbrev Redir := Op × List UInt8

/-- A word and the redirections after it. -/
abbrev Group := List UInt8 × List Redir

def redirToks (rs : List Redir) : List Tok := rs.flatMap fun r => [.redir r.1, .word r.2]

def groupToks (gs : List Group) : List Tok := gs.flatMap fun g => .word g.1 :: redirToks g.2

/-- The redirections around a command, the first one innermost. -/
def wrap (t : Tree) (rs : List Redir) : Tree := rs.foldl (fun t r => .redir t r.2 r.1.mode r.1.fd) t

inductive NT where
  | line
  | pipe
  | exec

/-- **The grammar**, with the tree of each derivation. -/
inductive Derives : NT → List Tok → Tree → Prop where
  | line {ts t} (k : Nat) (h : Derives .pipe ts t) :
      Derives .line (ts ++ List.replicate k .amp) (Cmd.back^[k] t)
  | list {ts us t u} (k : Nat) (h : Derives .pipe ts t) (h' : Derives .line us u) :
      Derives .line (ts ++ List.replicate k .amp ++ .semi :: us) (.list (Cmd.back^[k] t) u)
  | single {ts t} (h : Derives .exec ts t) : Derives .pipe ts t
  | pipe {ts us t u} (h : Derives .exec ts t) (h' : Derives .pipe us u) :
      Derives .pipe (ts ++ .bar :: us) (.pipe t u)
  | block {ts t} (rs : List Redir) (h : Derives .line ts t) :
      Derives .exec (.lparen :: ts ++ .rparen :: redirToks rs) (wrap t rs)
  | words (rs : List Redir) (gs : List Group) (h : gs.length < MAXARGS) :
      Derives .exec (redirToks rs ++ groupToks gs)
      (wrap (.exec (gs.map (·.1))) (rs ++ gs.flatMap (·.2)))

@[simp] theorem redirToks_append (rs qs : List Redir) :
    redirToks (rs ++ qs) = redirToks rs ++ redirToks qs :=
  flatMap_append

@[simp] theorem wrap_append (t : Tree) (rs qs : List Redir) :
    wrap t (rs ++ qs) = wrap (wrap t rs) qs :=
  foldl_append

/-- A redirection can be put after any `exec`, and goes around it. -/
theorem Derives.redir {ts : List Tok} {t : Tree} (h : Derives .exec ts t) (op : Op)
    (f : List UInt8) : Derives .exec (ts ++ [.redir op, .word f]) (.redir t f op.mode op.fd) := by
  cases h with
  | @block ts t rs h =>
    have hb := Derives.block (rs ++ [(op, f)]) h
    simpa [redirToks, wrap] using hb
  | words rs gs hlen =>
    -- after the last word if there is one, among the leading redirections otherwise
    rcases eq_nil_or_concat gs with rfl | ⟨gs, g, rfl⟩
    · have hw := Derives.words (rs ++ [(op, f)]) [] hlen
      simpa [redirToks, groupToks, wrap] using hw
    · have hw := Derives.words rs (gs ++ [(g.1, g.2 ++ [(op, f)])]) (by simpa using hlen)
      simpa [redirToks, groupToks, wrap] using hw

/-! ## Trees the grammar gives -/

/-- What every tree of a derivation is: few enough words, each of them one, and redirections of the
three kinds. -/
def Cmd.Ok : Tree → Prop
  | .exec argv => argv.length < MAXARGS ∧ ∀ w ∈ argv, Word w
  | .redir cmd file mode fd => cmd.Ok ∧ Word file ∧ ∃ op : Op, mode = op.mode ∧ fd = op.fd
  | .pipe left right => left.Ok ∧ right.Ok
  | .list left right => left.Ok ∧ right.Ok
  | .back cmd => cmd.Ok

theorem ok_wrap {t : Tree} {rs : List Redir} (ht : t.Ok) (h : Plain (redirToks rs)) :
    (wrap t rs).Ok := by
  induction rs generalizing t with
  | nil => exact ht
  | cons r rs ih =>
    have hf : Word r.2 := h r.2 (by simp [redirToks])
    have hrs : Plain (redirToks rs) :=
      fun w hw => h w (by simp [redirToks] at hw ⊢; exact Or.inr hw)
    exact ih ⟨ht, hf, r.1, rfl, rfl⟩ hrs

theorem ok_backs {t : Tree} (ht : t.Ok) (k : Nat) : (Cmd.back^[k] t).Ok := by
  induction k with
  | zero => exact ht
  | succ k ih =>
    rw [Function.iterate_succ_apply']
    exact ih

theorem plain_groups {gs : List Group} (h : Plain (groupToks gs)) :
    (∀ w ∈ gs.map (·.1), Word w) ∧ Plain (redirToks (gs.flatMap (·.2))) := by
  induction gs with
  | nil => exact ⟨by simp, by simp [Plain, redirToks]⟩
  | cons g gs ih =>
    have hs : groupToks (g :: gs) = .word g.1 :: (redirToks g.2 ++ groupToks gs) := rfl
    rw [hs] at h
    obtain ⟨hg, hgs⟩ := Plain.append.1 h.cons
    obtain ⟨hw, hr⟩ := ih hgs
    refine ⟨?_, ?_⟩
    · rw [map_cons, forall_mem_cons]
      exact ⟨h _ mem_cons_self, hw⟩
    · rw [flatMap_cons, redirToks_append]
      exact Plain.append.2 ⟨hg, hr⟩

/-- **The trees of derivations over words.** -/
theorem Derives.ok {k : NT} {ts : List Tok} {t : Tree} (h : Derives k ts t) (hp : Plain ts) :
    t.Ok := by
  induction h with
  | line k h ih => exact ok_backs (ih (Plain.append.1 hp).1) k
  | list k h h' ih ih' =>
    obtain ⟨hl, hr⟩ := Plain.append.1 hp
    exact ⟨ok_backs (ih (Plain.append.1 hl).1) k, ih' hr.cons⟩
  | single h ih => exact ih hp
  | pipe h h' ih ih' =>
    obtain ⟨hl, hr⟩ := Plain.append.1 hp
    exact ⟨ih hl, ih' hr.cons⟩
  | block rs h ih =>
    obtain ⟨hl, hr⟩ := Plain.append.1 hp
    exact ok_wrap (ih hl.cons) hr.cons
  | words rs gs hlen =>
    obtain ⟨hl, hr⟩ := Plain.append.1 hp
    obtain ⟨hw, hg⟩ := plain_groups hr
    rw [wrap_append]
    exact ok_wrap (ok_wrap ⟨by simpa using hlen, hw⟩ hl) hg

/-! ## Printing -/

/-- The symbol of a redirection that opens its file with `mode`. -/
def Op.ofMode (mode : Nat) : Op :=
  if mode = Op.input.mode then .input else if mode = Op.output.mode then .output else .append

theorem Op.ofMode_mode (op : Op) : Op.ofMode op.mode = op := by
  cases op <;> rfl

/-- Whether a tree needs parentheses as an operand. -/
def Cmd.compound : Tree → Bool
  | .exec _ => false
  | .redir _ _ _ _ => false
  | .pipe _ _ => true
  | .list _ _ => true
  | .back _ => true

/-- The tokens of an operand, given those of its tree. -/
def operand (t : Tree) (ts : List Tok) : List Tok :=
  if t.compound then .lparen :: ts ++ [.rparen] else ts

/-- The tokens a tree is printed as. -/
def Cmd.toks : Tree → List Tok
  | .exec argv => argv.map .word
  | .redir cmd file mode _ => operand cmd cmd.toks ++ [.redir (Op.ofMode mode), .word file]
  | .pipe left right => operand left left.toks ++ .bar :: operand right right.toks
  | .list left right => operand left left.toks ++ .semi :: operand right right.toks
  | .back cmd => operand cmd cmd.toks ++ [.amp]

theorem derives_argv {argv : List (List UInt8)} (h : argv.length < MAXARGS) :
    Derives .exec (argv.map .word) (.exec argv) := by
  have hw := Derives.words [] (argv.map fun w => (w, [])) (by simpa using h)
  have ht : groupToks (argv.map fun w => (w, [])) = argv.map .word := by
    rw [groupToks, flatMap_map, map_eq_flatMap]
    rfl
  have hr : (argv.map fun w => (w, ([] : List Redir))).flatMap (·.2) = [] := by
    simp [flatMap_eq_nil_iff]
  simpa [redirToks, wrap, ht, hr, Function.comp_def] using hw

/-- What is printed for an operand derives it, in parentheses or not. -/
theorem derives_operand {t : Tree} (hl : t.compound = true → Derives .line t.toks t)
    (he : t.compound = false → Derives .exec t.toks t) : Derives .exec (operand t t.toks) t := by
  unfold operand
  cases hc : t.compound with
  | true =>
    have hb := Derives.block [] (hl hc)
    simpa [redirToks, wrap] using hb
  | false => exact he hc

/-- Both readings of a printed tree, by induction on it. -/
theorem derives_toks {t : Tree} (h : t.Ok) :
    Derives .line t.toks t ∧ (t.compound = false → Derives .exec t.toks t) := by
  induction t with
  | exec argv =>
    have he := derives_argv h.1
    exact ⟨by simpa [Cmd.toks] using Derives.line 0 (.single he), fun _ => he⟩
  | redir cmd file mode fd ih =>
    obtain ⟨hc, -, op, rfl, rfl⟩ := h
    have he := (derives_operand (fun _ => (ih hc).1) (ih hc).2).redir op file
    rw [Cmd.toks, Op.ofMode_mode]
    exact ⟨by simpa using Derives.line 0 (.single he), fun _ => he⟩
  | pipe left right ihl ihr =>
    have hl := derives_operand (fun _ => (ihl h.1).1) (ihl h.1).2
    have hr := derives_operand (fun _ => (ihr h.2).1) (ihr h.2).2
    exact ⟨by simpa [Cmd.toks] using Derives.line 0 (.pipe hl (.single hr)), fun hc => by cases hc⟩
  | list left right ihl ihr =>
    have hl := derives_operand (fun _ => (ihl h.1).1) (ihl h.1).2
    have hr := derives_operand (fun _ => (ihr h.2).1) (ihr h.2).2
    have hr' := Derives.line 0 (.single hr)
    exact ⟨by simpa [Cmd.toks] using Derives.list 0 (.single hl) hr', fun hc => by cases hc⟩
  | back cmd ih =>
    have hc := derives_operand (fun _ => (ih h).1) (ih h).2
    exact ⟨by simpa [Cmd.toks] using Derives.line 1 (.single hc), fun hc => by cases hc⟩

/-- How a token is written. -/
def Tok.spelling : Tok → List UInt8
  | .word w => w
  | .redir .append => [62, 62]
  | t => [t.code]

/-- **A tree written out**, its tokens separated by blanks. -/
def print (t : Tree) : List UInt8 := [32].intercalate (t.toks.map Tok.spelling)

/-- A token is read back when nothing follows it or a blank does. -/
theorem lex_spelling {t : Tok} (cs : List UInt8) (ht : ∀ w, t = .word w → Word w)
    (hcs : ∀ c ∈ cs.head?, c = 32) : lex (t.spelling ++ cs) = t :: lex cs := by
  cases t with
  | word w =>
    obtain ⟨hne, ho, -⟩ := ht w rfl
    obtain ⟨c, w, rfl⟩ := exists_cons_of_ne_nil hne
    have hc := ho c mem_cons_self
    simp only [ordinary, Bool.and_eq_true, Bool.not_eq_true'] at hc
    have hgt : c ≠ 62 := fun h => by subst h; exact absurd hc.2 (by decide)
    have hd : (c :: (w ++ cs)).dropWhile (strchr whitespace) = c :: (w ++ cs) :=
      dropWhile_cons_of_neg (by simp [hc.1])
    have hw : ∀ d ∈ w, ordinary d = true := fun d hd => ho d (mem_cons_of_mem _ hd)
    have hstop : cs.takeWhile ordinary = [] ∧ cs.dropWhile ordinary = cs := by
      cases cs with
      | nil => exact ⟨rfl, rfl⟩
      | cons d ds =>
        obtain rfl := hcs d rfl
        exact ⟨rfl, rfl⟩
    rw [Tok.spelling, cons_append, lex_cons hd, if_neg hgt, if_neg (by simp [hc.2]),
      takeWhile_append_of_pos hw, dropWhile_append_of_pos hw, hstop.1, hstop.2, append_nil]
  | redir op =>
    cases op with
    | input | append => exact (lex_cons rfl).trans rfl
    | output =>
      have hh : cs.head? ≠ some 62 := fun h => absurd (hcs 62 h) (by decide)
      exact (lex_cons rfl).trans ((if_pos rfl).trans (if_neg hh))
  | bar | amp | semi | lparen | rparen => exact (lex_cons rfl).trans rfl

/-- **Tokens written with blanks between them are read back.** -/
theorem lex_intercalate {ts : List Tok} (h : Plain ts) :
    lex ([32].intercalate (ts.map Tok.spelling)) = ts := by
  induction ts with
  | nil => exact lex_nil rfl
  | cons t ts ih =>
    have ht : ∀ w, t = .word w → Word w := fun w hw => h w (hw ▸ mem_cons_self)
    cases ts with
    | nil =>
      have hl := lex_spelling [] ht (by simp)
      rw [show lex [] = [] from lex_nil rfl] at hl
      simpa using hl
    | cons u us =>
      have hb : ∀ cs, lex (32 :: cs) = lex cs := fun cs => by
        rw [← lex_dropWhile, ← lex_dropWhile cs]
        rfl
      have hl := lex_spelling (32 :: [32].intercalate ((u :: us).map Tok.spelling)) ht (by simp)
      rw [hb, ih h.cons] at hl
      simpa using hl

theorem nul_not_mem_spelling {t : Tok} (ht : ∀ w, t = .word w → Word w) : 0 ∉ t.spelling := by
  match t with
  | .word w => exact (ht w rfl).2.2
  | .redir .input | .redir .output | .redir .append | .bar | .amp | .semi | .lparen
  | .rparen => decide

theorem nul_not_mem_intercalate {ts : List Tok} (h : Plain ts) :
    0 ∉ [32].intercalate (ts.map Tok.spelling) := by
  induction ts with
  | nil => exact not_mem_nil
  | cons t ts ih =>
    have ht := nul_not_mem_spelling fun w hw => h w (hw ▸ mem_cons_self)
    cases ts with
    | nil => simpa using ht
    | cons u us => simpa [ht] using ih h.cons

theorem plain_operand {t : Tree} {ts : List Tok} (h : Plain ts) : Plain (operand t ts) := by
  unfold operand
  intro w hw
  split_ifs at hw
  · simp only [cons_append, mem_cons, mem_append, reduceCtorEq, not_mem_nil, or_false,
      false_or] at hw
    exact h w hw
  · exact h w hw

theorem plain_toks {t : Tree} (h : t.Ok) : Plain t.toks := by
  induction t with
  | exec argv =>
    intro w hw
    obtain ⟨w', hm, hw'⟩ := mem_map.1 hw
    cases hw'
    exact h.2 w hm
  | redir cmd file mode fd ih =>
    refine Plain.append.2 ⟨plain_operand (ih h.1), fun w hw => ?_⟩
    simp only [mem_cons, reduceCtorEq, Tok.word.injEq, not_mem_nil, or_false, false_or] at hw
    exact hw ▸ h.2.1
  | pipe left right ihl ihr | list left right ihl ihr =>
    refine Plain.append.2 ⟨plain_operand (ihl h.1), fun w hw => ?_⟩
    simp only [mem_cons, reduceCtorEq, false_or] at hw
    exact plain_operand (ihr h.2) w hw
  | back cmd ih =>
    refine Plain.append.2 ⟨plain_operand (ih h), fun w hw => ?_⟩
    simp at hw

theorem nul_not_mem_print {t : Tree} (h : t.Ok) : 0 ∉ print t :=
  nul_not_mem_intercalate (plain_toks h)

/-- **A printed tree derives itself.** -/
theorem derives_print {t : Tree} (h : t.Ok) : Derives .line (lex (print t)) t := by
  rw [print, lex_intercalate (plain_toks h)]
  exact (derives_toks h).1

end Xv6.Sh
