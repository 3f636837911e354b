import Xv6.User.Grammar

/-!
# User/Parser — the shell's parser accepts its grammar

A position of the parser is known by the tokens ahead of it (`At`), and each function is specified
by what it does with them: which tokens it consumes and which tree they derive (`parse_sound`), and
that it succeeds on a derivation followed by a token that may follow (`parse_complete`).  The bound
on the depth is met because each call chain consumes a token before it comes back to where it was.
-/

namespace Xv6.Sh

open List

section
variable {l : List UInt8} {n s : Nat} {ts us : List Tok} {cmd ret : Cmd Span}

/-! ## Positions -/

/-- The tokens `ts` are ahead of the position `s`. -/
structure At (l : List UInt8) (s : Nat) (ts : List Tok) : Prop where
  le : s ≤ l.length
  toks : lex (l.drop s) = ts

theorem At.peek (h : At l s ts) (hn : 0 ∉ l) (toks : List UInt8) (hsub : toks ⊆ symbols) :
    ∃ s', peek (l ++ [0]) l.length s toks = (starts toks ts, s') ∧ At l s' ts := by
  obtain ⟨hle, hrest⟩ := peek_rest h.le toks
  exact ⟨_, Prod.ext (h.toks ▸ peek_eq hn h.le hsub) rfl, hle, hrest.trans h.toks⟩

theorem At.gettoken {t : Tok} (h : At l s (t :: ts)) (hn : 0 ∉ l) :
    Took l t ts (gettoken (l ++ [0]) l.length s) := gettoken_cons hn h.le h.toks

theorem Took.at {t : Tok} {g : Token} (h : Took l t ts g) : At l g.s ts := ⟨h.le, h.rest⟩

/-- The strings of a command are words of the text. -/
def Good (l : List UInt8) (cmd : Cmd Span) : Prop := ∀ a ∈ cmd.strings, Run l a

/-! ## Outcomes -/

/-- What a parse may end in: `Q` of its result, `F` if the bound was too small, `P` if the shell
panics. -/
def Ends (F P : Prop) (Q : Cmd Span → Nat → Prop) : Except Stop (Cmd Span × Nat) → Prop
  | .ok (cmd, s) => Q cmd s
  | .error .outOfFuel => F
  | .error .outOfBounds => False
  | .error _ => P

theorem Ends.bind {F F' P : Prop} {Q Q' : Cmd Span → Nat → Prop} {r : Except Stop (Cmd Span × Nat)}
    {k : Cmd Span × Nat → Except Stop (Cmd Span × Nat)} (h : Ends F' P Q' r) (hF : F' → F)
    (hk : ∀ cmd s, Q' cmd s → Ends F P Q (k (cmd, s))) : Ends F P Q (r >>= k) := by
  match r with
  | .ok (cmd, s) => exact hk cmd s h
  | .error .outOfFuel => exact hF h
  | .error .outOfBounds => exact h.elim
  | .error .missingFile => exact h
  | .error .parseblock => exact h
  | .error .missingParen => exact h
  | .error .unexpected => exact h
  | .error .tooManyArgs => exact h
  | .error (.leftovers _) => exact h

theorem Ends.mono {F F' P : Prop} {Q Q' : Cmd Span → Nat → Prop} {r : Except Stop (Cmd Span × Nat)}
    (h : Ends F' P Q' r) (hF : F' → F) (hQ : ∀ cmd s, Q' cmd s → Q cmd s) : Ends F P Q r := by
  have hb := h.bind (k := .ok) hF hQ
  cases r <;> exact hb

/-! ## Redirections -/

theorem starts_redir : starts [60, 62] ts = true ↔ ∃ op us, ts = .redir op :: us := by
  constructor
  · intro h
    match ts, h with
    | .redir op :: us, _ => exact ⟨op, us, rfl⟩
  · rintro ⟨op, us, rfl⟩
    cases op <;> rfl

theorem ret_word {t : Tok} : t.code = 97 ↔ ∃ w, t = .word w := by
  constructor
  · intro h
    match t, h with
    | .word w, _ => exact ⟨w, rfl⟩
  · rintro ⟨w, rfl⟩
    rfl

/-- The loop stops at the first token that is no redirection. -/
theorem parseredirs_stop (n : Nat) (cmd : Cmd Span) (hn : 0 ∉ l) (h : At l s ts)
    (hr : starts [60, 62] ts = false) :
    ∃ s', At l s' ts ∧ parseredirs (l ++ [0]) l.length (n + 1) cmd s = .ok (cmd, s') := by
  obtain ⟨s', hp, hat⟩ := h.peek hn [60, 62] (by decide)
  refine ⟨s', hat, ?_⟩
  rw [parseredirs, hp, hr]

/-- …and goes round once for a redirection. -/
theorem parseredirs_step (n : Nat) (cmd : Cmd Span) (hn : 0 ∉ l) {op : Op} {w : List UInt8}
    (h : At l s (.redir op :: .word w :: ts)) : ∃ a s', At l s' ts ∧ Run l a ∧ text l a = w ∧
    parseredirs (l ++ [0]) l.length (n + 1) cmd s =
      parseredirs (l ++ [0]) l.length n (.redir cmd a op.mode op.fd) s' := by
  obtain ⟨s₁, hp, hat⟩ := h.peek hn [60, 62] (by decide)
  have hop := hat.gettoken hn
  have hf := hop.at.gettoken hn
  obtain ⟨hrun, htext⟩ := hf.word w rfl
  refine ⟨_, _, hf.at, hrun, htext, ?_⟩
  rw [parseredirs, hp, starts_redir.2 ⟨op, _, rfl⟩]
  simp only [hf.ret, hop.ret, Tok.code, ne_eq, not_true_eq_false, if_false]
  cases op <;> rfl

/-- …and panics without a file. -/
theorem parseredirs_missing (hn : 0 ∉ l) {op : Op} (h : At l s (.redir op :: ts))
    (hw : ∀ w us, ts ≠ .word w :: us) :
    parseredirs (l ++ [0]) l.length (n + 1) cmd s = .error .missingFile := by
  obtain ⟨s₁, hp, hat⟩ := h.peek hn [60, 62] (by decide)
  have hop := hat.gettoken hn
  rw [parseredirs, hp, starts_redir.2 ⟨op, _, rfl⟩]
  refine if_pos fun hret => ?_
  cases ts with
  | nil =>
    rw [(gettoken_nil hop.le hop.rest).1] at hret
    cases hret
  | cons t us =>
    rw [(hop.at.gettoken hn).ret, ret_word] at hret
    obtain ⟨w, rfl⟩ := hret
    exact hw w us rfl

theorem parseredirs_sound (hn : 0 ∉ l) (h : At l s ts) (hg : Good l cmd) :
    Ends (n ≤ ts.length) True (fun cmd' s' => ∃ rs us, ts = redirToks rs ++ us ∧ At l s' us ∧
      cmd'.map (text l) = wrap (cmd.map (text l)) rs ∧ Good l cmd')
      (parseredirs (l ++ [0]) l.length n cmd s) := by
  induction n generalizing ts cmd s with
  | zero => exact Nat.zero_le _
  | succ n ih =>
    cases hst : starts [60, 62] ts with
    | false =>
      obtain ⟨s', hat, heq⟩ := parseredirs_stop n cmd hn h hst
      rw [heq]
      exact ⟨[], ts, rfl, hat, rfl, hg⟩
    | true =>
      obtain ⟨op, us, rfl⟩ := starts_redir.1 hst
      by_cases hw : ∃ w vs, us = .word w :: vs
      · obtain ⟨w, vs, rfl⟩ := hw
        obtain ⟨a, s', hat, hrun, rfl, heq⟩ := parseredirs_step n cmd hn h
        have hg' : Good l (.redir cmd a op.mode op.fd) := fun x hx =>
          (mem_append.1 hx).elim (hg x) fun hx => mem_singleton.1 hx ▸ hrun
        rw [heq]
        refine (ih hat hg').mono (fun hF => by simp only [length_cons]; omega) ?_
        rintro cmd' s'' ⟨rs, us', rfl, hat', htree, hg''⟩
        exact ⟨(op, text l a) :: rs, us', rfl, hat', htree, hg''⟩
      · rw [parseredirs_missing hn h fun w vs he => hw ⟨w, vs, he⟩]
        trivial

theorem parseredirs_complete (hn : 0 ∉ l) {rs : List Redir} (h : At l s (redirToks rs ++ us))
    (hu : starts [60, 62] us = false) :
    Ends True False (fun cmd' s' => At l s' us ∧ cmd'.map (text l) = wrap (cmd.map (text l)) rs)
      (parseredirs (l ++ [0]) l.length n cmd s) := by
  induction n generalizing rs cmd s with
  | zero => trivial
  | succ n ih =>
    cases rs with
    | nil =>
      obtain ⟨s', hat, heq⟩ := parseredirs_stop n cmd hn h hu
      rw [heq]
      exact ⟨hat, rfl⟩
    | cons r rs =>
      obtain ⟨a, s', hat, -, htext, heq⟩ := parseredirs_step n cmd hn h
      rw [heq]
      refine (ih (show At l s' (redirToks rs ++ us) from hat)).mono id ?_
      rintro cmd' s'' ⟨hat', htree⟩
      refine ⟨hat', htree.trans ?_⟩
      rw [Cmd.map, htext]
      rfl

/-! ## Ampersands -/

/-- The tokens that are a symbol by themselves. -/
def Tok.lone : Tok → Bool
  | .word _ => false
  | .redir _ => false
  | _ => true

theorem starts_lone {u : Tok} (hu : u.lone = true) : starts [u.code] ts = true ↔ ∃ us,
    ts = u :: us := by
  constructor
  · intro h
    match ts, u, h, hu with
    | .bar :: us, .bar, _, _ => exact ⟨us, rfl⟩
    | .amp :: us, .amp, _, _ => exact ⟨us, rfl⟩
    | .semi :: us, .semi, _, _ => exact ⟨us, rfl⟩
    | .lparen :: us, .lparen, _, _ => exact ⟨us, rfl⟩
    | .rparen :: us, .rparen, _, _ => exact ⟨us, rfl⟩
  · rintro ⟨us, rfl⟩
    match u, hu with
    | .bar, _ | .amp, _ | .semi, _ | .lparen, _ | .rparen, _ => rfl

/-- Looking for a lone symbol that is there, and passing over it. -/
theorem At.take {u : Tok} (c : UInt8) (hn : 0 ∉ l) (h : At l s (u :: ts)) (hu : u.lone = true)
    (hc : u.code = c) : ∃ s', Sh.peek (l ++ [0]) l.length s [c] = (true, s') ∧ At l s' (u :: ts) ∧
      At l (Sh.gettoken (l ++ [0]) l.length s').s ts := by
  subst hc
  have hsub : [u.code] ⊆ symbols := by
    match u, hu with
    | .bar, _ | .amp, _ | .semi, _ | .lparen, _ | .rparen, _ => decide
  obtain ⟨s', hp, hat⟩ := h.peek hn _ hsub
  rw [(starts_lone hu).2 ⟨ts, rfl⟩] at hp
  exact ⟨s', hp, hat, (hat.gettoken hn).at⟩

/-- Looking for one that is not. -/
theorem At.miss {toks : List UInt8} (hn : 0 ∉ l) (h : At l s ts) (hsub : toks ⊆ symbols)
    (hu : starts toks ts = false) :
    ∃ s', Sh.peek (l ++ [0]) l.length s toks = (false, s') ∧ At l s' ts := by
  obtain ⟨s', hp, hat⟩ := h.peek hn _ hsub
  exact ⟨s', hu ▸ hp, hat⟩

theorem parsebacks_stop (n : Nat) (cmd : Cmd Span) (hn : 0 ∉ l) (h : At l s ts)
    (hr : starts [38] ts = false) :
    ∃ s', At l s' ts ∧ parsebacks (l ++ [0]) l.length (n + 1) cmd s = .ok (cmd, s') := by
  obtain ⟨s', hp, hat⟩ := h.miss hn (by decide) hr
  exact ⟨s', hat, by rw [parsebacks, hp]⟩

theorem parsebacks_step (n : Nat) (cmd : Cmd Span) (hn : 0 ∉ l) (h : At l s (.amp :: ts)) :
    ∃ s', At l s' ts ∧ parsebacks (l ++ [0]) l.length (n + 1) cmd s =
      parsebacks (l ++ [0]) l.length n (.back cmd) s' := by
  obtain ⟨s₁, hp, -, hat⟩ := h.take 38 hn rfl rfl
  exact ⟨_, hat, by rw [parsebacks, hp]; rfl⟩

theorem parsebacks_sound (hn : 0 ∉ l) (h : At l s ts) (hg : Good l cmd) :
    Ends (n ≤ ts.length) True (fun cmd' s' => ∃ k us, ts = List.replicate k .amp ++
    us ∧ At l s' us ∧
      cmd'.map (text l) = Cmd.back^[k] (cmd.map (text l)) ∧ Good l cmd')
      (parsebacks (l ++ [0]) l.length n cmd s) := by
  induction n generalizing ts cmd s with
  | zero => exact Nat.zero_le _
  | succ n ih =>
    cases hst : starts [38] ts with
    | false =>
      obtain ⟨s', hat, heq⟩ := parsebacks_stop n cmd hn h hst
      rw [heq]
      exact ⟨0, ts, rfl, hat, rfl, hg⟩
    | true =>
      obtain ⟨us, rfl⟩ := (starts_lone (u := .amp) rfl).1 hst
      obtain ⟨s', hat, heq⟩ := parsebacks_step n cmd hn h
      rw [heq]
      refine (ih hat (show Good l (.back cmd) from hg)).mono
        (fun hF => by simp only [length_cons]; omega) ?_
      rintro cmd' s'' ⟨k, us', rfl, hat', htree, hg'⟩
      exact ⟨k + 1, us', rfl, hat', htree, hg'⟩

theorem parsebacks_complete (hn : 0 ∉ l) {k : Nat} (h : At l s (List.replicate k .amp ++ us))
    (hu : starts [38] us = false) :
    Ends True False (fun cmd' s' => At l s' us ∧ cmd'.map (text l) =
      Cmd.back^[k] (cmd.map (text l))) (parsebacks (l ++ [0]) l.length n cmd s) := by
  induction n generalizing k cmd s with
  | zero => trivial
  | succ n ih =>
    cases k with
    | zero =>
      obtain ⟨s', hat, heq⟩ := parsebacks_stop n cmd hn h hu
      rw [heq]
      exact ⟨hat, rfl⟩
    | succ k =>
      obtain ⟨s', hat, heq⟩ := parsebacks_step n cmd hn h
      rw [heq]
      exact ih (k := k) hat

/-! ## Words -/

/-- The tokens the loop over the words stops at. -/
def Halts : List Tok → Bool
  | [] => true
  | t :: _ => t = .bar || t = .rparen || t = .amp || t = .semi

theorem parseargs_stop (n : Nat) (ret : Cmd Span) (argc : Nat) (hn : 0 ∉ l) (h : At l s ts)
    (hh : Halts ts = true) (ha : argc < MAXARGS) :
    ∃ s', At l s' ts ∧ parseargs (l ++ [0]) l.length (n + 1) ret argc s = .ok (ret, s') := by
  obtain ⟨s', hp, hat⟩ := h.peek hn [124, 41, 38, 59] (by decide)
  cases ts with
  | nil =>
    obtain ⟨h0, hend⟩ := gettoken_nil hat.le hat.toks
    refine ⟨_, ⟨hend.le, by rw [hend, drop_length]; exact lex_nil rfl⟩, ?_⟩
    rw [parseargs, hp]
    simp only [starts, h0, if_true, if_neg (Nat.not_le.2 ha)]
  | cons t us =>
    refine ⟨s', hat, ?_⟩
    have hst : starts [124, 41, 38, 59] (t :: us) = true := by
      cases t <;> first | rfl | cases hh
    rw [parseargs, hp, hst]
    exact if_neg (Nat.not_le.2 ha)

theorem parseargs_word (n : Nat) (ret : Cmd Span) (argc : Nat) (hn : 0 ∉ l) {w : List UInt8}
    (h : At l s (.word w :: ts)) (ha : argc < MAXARGS) :
    ∃ a s', At l s' ts ∧ Run l a ∧ text l a = w ∧ parseargs (l ++ [0]) l.length (n + 1) ret argc s =
      if MAXARGS ≤ argc + 1 then .error .tooManyArgs
      else parseredirs (l ++ [0]) l.length n (ret.store a) s' >>= fun r =>
        parseargs (l ++ [0]) l.length n r.1 (argc + 1) r.2 := by
  obtain ⟨s₁, hp, hat⟩ := h.peek hn [124, 41, 38, 59] (by decide)
  have ht := hat.gettoken hn
  obtain ⟨hrun, htext⟩ := ht.word w rfl
  refine ⟨_, _, ht.at, hrun, htext, ?_⟩
  rw [parseargs, hp, show starts [124, 41, 38, 59] (.word w :: ts) = false from rfl]
  simp only [ht.ret, Tok.code, ne_eq, not_true_eq_false, if_false, if_neg (Nat.not_le.2 ha)]
  rfl

theorem parseargs_bad (hn : 0 ∉ l) {argc : Nat} {t : Tok} (h : At l s (t :: ts))
    (hh : Halts (t :: ts) = false) (hw : ∀ w, t ≠ .word w) :
    parseargs (l ++ [0]) l.length (n + 1) ret argc s = .error .unexpected := by
  obtain ⟨s₁, hp, hat⟩ := h.peek hn [124, 41, 38, 59] (by decide)
  have ht := hat.gettoken hn
  have hst : starts [124, 41, 38, 59] (t :: ts) = false := by
    match t, hh with
    | .word _, _ | .redir .input, _ | .redir .output, _ | .redir .append, _ | .lparen, _ => rfl
  have h0 : t.code ≠ 0 := by
    match t with
    | .word _ => exact (by decide : (97 : UInt8) ≠ 0)
    | .redir .input | .redir .output | .redir .append | .bar | .amp | .semi | .lparen
    | .rparen => decide
  have h97 : t.code ≠ 97 := fun h => (ret_word.1 h).elim hw
  rw [parseargs, hp, hst]
  simp only [ht.ret, if_neg h0, ne_eq, h97, not_false_eq_true, if_true]

theorem map_store (cmd : Cmd Span) (a : Span) :
    (cmd.store a).map (text l) = (cmd.map (text l)).store (text l a) := by
  induction cmd with
  | exec argv => simp [Cmd.store, Cmd.map]
  | redir cmd file mode fd ih => simp only [Cmd.store, Cmd.map, ih]
  | pipe left right ihl ihr | list left right ihl ihr | back cmd ih => rfl

theorem store_wrap (argv : List (List UInt8)) (rs : List Redir) (w : List UInt8) :
    (wrap (.exec argv) rs).store w = wrap (.exec (argv ++ [w])) rs := by
  have h : ∀ t t' : Tree, t.store w = t' → (wrap t rs).store w = wrap t' rs := by
    induction rs with
    | nil => exact fun t t' h => h
    | cons r rs ih => exact fun t t' h => ih _ _ (by rw [Cmd.store, h])
  exact h _ _ rfl

theorem good_store {a : Span} (hg : Good l cmd) (ha : Run l a) : Good l (cmd.store a) := by
  induction cmd with
  | exec argv => exact fun x hx => (mem_append.1 hx).elim (hg x) fun hx => mem_singleton.1 hx ▸ ha
  | redir cmd file mode fd ih =>
    intro x hx
    rcases mem_append.1 hx with hx | hx
    · exact ih (fun y hy => hg y (mem_append_left _ hy)) x hx
    · exact hg x (mem_append_right _ hx)
  | pipe left right ihl ihr | list left right ihl ihr | back cmd ih => exact hg

theorem parseargs_sound (argv : List (List UInt8)) (hn : 0 ∉ l) {qs : List Redir} (h : At l s ts)
    (hret : ret.map (text l) = wrap (.exec argv) qs) (hg : Good l ret)
    (ha : argv.length < MAXARGS) :
    Ends (n ≤ ts.length + 1) True (fun cmd' s' => ∃ gs us, ts = groupToks gs ++ us ∧ At l s' us ∧
      cmd'.map (text l) = wrap (.exec (argv ++ gs.map (·.1))) (qs ++ gs.flatMap (·.2)) ∧
      argv.length + gs.length < MAXARGS ∧ Good l cmd')
      (parseargs (l ++ [0]) l.length n ret argv.length s) := by
  induction n generalizing ts ret argv qs s with
  | zero => exact Nat.zero_le _
  | succ n ih =>
    cases hh : Halts ts with
    | true =>
      obtain ⟨s', hat, heq⟩ := parseargs_stop n ret argv.length hn h hh ha
      rw [heq]
      exact ⟨[], ts, rfl, hat, by simpa using hret, ha, hg⟩
    | false =>
      match ts, h, hh with
      | .word w :: us, h, _ =>
        obtain ⟨a, s', hat, hrun, rfl, heq⟩ := parseargs_word n ret argv.length hn h ha
        rw [heq]
        split_ifs with hmax
        · trivial
        refine (parseredirs_sound hn hat (good_store hg hrun)).bind
          (fun hF => by simp only [length_cons]; omega) ?_
        rintro ret' s₁ ⟨rs, vs, rfl, hat₁, htree, hg'⟩
        have hret' : ret'.map (text l) = wrap (.exec (argv ++ [text l a])) (qs ++ rs) := by
          rw [htree, map_store, hret, store_wrap, wrap_append]
        have hrec := ih _ hat₁ hret' hg' (by simp only [length_append, length_singleton]; omega)
        rw [length_append, length_singleton] at hrec
        refine hrec.mono (fun hF => by
          simp only [length_cons, length_append]
          omega) ?_
        rintro cmd' s₂ ⟨gs, us', rfl, hat₂, htree', hlen, hg''⟩
        refine ⟨(text l a, rs) :: gs, us', by simp [groupToks], hat₂, ?_, ?_, hg''⟩
        · simpa using htree'
        · simp only [length_cons]
          omega
      | .redir _ :: _, h, hh | .lparen :: _, h, hh => rw [parseargs_bad hn h hh (by simp)]; trivial

/-- Nothing that goes on with a redirection halts the words. -/
theorem starts_groups (gs : List Group) (hu : Halts us = true) :
    starts [60, 62] (groupToks gs ++ us) = false ∧ starts [40] (groupToks gs ++ us) = false := by
  cases gs with
  | cons g gs => exact ⟨rfl, rfl⟩
  | nil =>
    match us, hu with
    | [], _ | .bar :: _, _ | .rparen :: _, _ | .amp :: _, _ | .semi :: _, _ => exact ⟨rfl, rfl⟩

theorem parseargs_complete (argv : List (List UInt8)) (hn : 0 ∉ l) {qs : List Redir}
    {gs : List Group} (h : At l s (groupToks gs ++ us)) (hu : Halts us = true)
    (hret : ret.map (text l) = wrap (.exec argv) qs) (ha : argv.length + gs.length < MAXARGS) :
    Ends True False (fun cmd' s' => At l s' us ∧
      cmd'.map (text l) = wrap (.exec (argv ++ gs.map (·.1))) (qs ++ gs.flatMap (·.2)))
      (parseargs (l ++ [0]) l.length n ret argv.length s) := by
  induction n generalizing gs ret argv qs s with
  | zero => trivial
  | succ n ih =>
    cases gs with
    | nil =>
      obtain ⟨s', hat, heq⟩ := parseargs_stop n ret argv.length hn h hu ha
      rw [heq]
      exact ⟨hat, by simpa using hret⟩
    | cons g gs =>
      have hs : groupToks (g :: gs) ++ us = .word g.1 ::
          (redirToks g.2 ++ (groupToks gs ++ us)) := by
        simp [groupToks]
      rw [length_cons] at ha
      rw [hs] at h
      obtain ⟨a, s', hat, -, htext, heq⟩ := parseargs_word n ret argv.length hn h
        (by omega)
      rw [heq, if_neg (by omega)]
      refine (parseredirs_complete hn hat (starts_groups gs hu).1).bind id ?_
      rintro ret' s₁ ⟨hat₁, htree⟩
      have hret' : ret'.map (text l) = wrap (.exec (argv ++ [g.1])) (qs ++ g.2) := by
        rw [htree, map_store, hret, htext, store_wrap, wrap_append]
      have hrec := ih _ hat₁ hret' (by simp only [length_append, length_singleton]; omega)
      rw [length_append, length_singleton] at hrec
      simpa using hrec

/-! ## The four functions

Each is taken from a position with the tokens `ts` ahead of it.  A bound of four for each token, and
a little more the further up the grammar, is never used up. -/

/-- Tokens have been consumed that derive the command from `k`. -/
def Reads (l : List UInt8) (k : NT) (ts : List Tok) (cmd : Cmd Span) (s : Nat) : Prop :=
  ∃ us vs, ts = us ++ vs ∧ At l s vs ∧ Derives k us (cmd.map (text l)) ∧ Good l cmd

/-- The functions at one depth. -/
structure Sound (l : List UInt8) (n : Nat) : Prop where
  line : ∀ {s ts}, At l s ts → Ends (n < 4 * ts.length + 5) True (Reads l .line ts)
    (parseline (l ++ [0]) l.length n s)
  pipe : ∀ {s ts}, At l s ts → Ends (n < 4 * ts.length + 4) True (Reads l .pipe ts)
    (parsepipe (l ++ [0]) l.length n s)
  exec : ∀ {s ts}, At l s ts → Ends (n < 4 * ts.length + 3) True (Reads l .exec ts)
    (parseexec (l ++ [0]) l.length n s)
  block : ∀ {s ts}, At l s (.lparen :: ts) → Ends (n < 4 * ts.length + 6) True
    (Reads l .exec (.lparen :: ts)) (parseblock (l ++ [0]) l.length n s)

theorem Good.pair {left right : Cmd Span} (hl : Good l left) (hr : Good l right) :
    ∀ a ∈ left.strings ++ right.strings, Run l a :=
  fun a ha => (mem_append.1 ha).elim (hl a) (hr a)

section

variable (hn : 0 ∉ l) (ih : Sound l n)

include hn ih

theorem parseline_sound (h : At l s ts) :
    Ends (n + 1 < 4 * ts.length + 5) True (Reads l .line ts)
    (parseline (l ++ [0]) l.length (n + 1) s) := by
  rw [parseline]
  refine (ih.pipe h).bind (fun hF => by omega) ?_
  rintro cmd s₁ ⟨us, vs, rfl, hat₁, hd, hg⟩
  rw [length_append]
  refine (parsebacks_sound hn hat₁ hg).bind (fun hF => by omega) ?_
  rintro cmd₁ s₂ ⟨k, vs, rfl, hat₂, htree, hg₁⟩
  rw [length_append]
  cases hst : starts [59] vs with
  | false =>
    obtain ⟨s₃, hp, hat₃⟩ := hat₂.miss hn (by decide) hst
    simp only [hp]
    exact ⟨us ++ List.replicate k .amp, vs, by simp, hat₃, htree ▸ .line k hd, hg₁⟩
  | true =>
    obtain ⟨vs, rfl⟩ := (starts_lone (u := .semi) rfl).1 hst
    obtain ⟨s₃, hp, -, hat₃⟩ := hat₂.take 59 hn rfl rfl
    simp only [hp]
    refine (ih.line hat₃).bind (fun hF => by simp only [length_cons]; omega) ?_
    rintro right s₄ ⟨us', vs, rfl, hat₄, hd', hg'⟩
    refine ⟨us ++ List.replicate k .amp ++ .semi :: us', vs, by simp, hat₄, ?_, hg₁.pair hg'⟩
    rw [listcmd, Cmd.map, htree]
    exact .list k hd hd'

theorem parsepipe_sound (h : At l s ts) :
    Ends (n + 1 < 4 * ts.length + 4) True (Reads l .pipe ts)
    (parsepipe (l ++ [0]) l.length (n + 1) s) := by
  rw [parsepipe]
  refine (ih.exec h).bind (fun hF => by omega) ?_
  rintro cmd s₁ ⟨us, vs, rfl, hat₁, hd, hg⟩
  rw [length_append]
  cases hst : starts [124] vs with
  | false =>
    obtain ⟨s₂, hp, hat₂⟩ := hat₁.miss hn (by decide) hst
    simp only [hp]
    exact ⟨us, vs, rfl, hat₂, .single hd, hg⟩
  | true =>
    obtain ⟨vs, rfl⟩ := (starts_lone (u := .bar) rfl).1 hst
    obtain ⟨s₂, hp, -, hat₂⟩ := hat₁.take 124 hn rfl rfl
    simp only [hp]
    refine (ih.pipe hat₂).bind (fun hF => by simp only [length_cons]; omega) ?_
    rintro right s₃ ⟨us', vs, rfl, hat₃, hd', hg'⟩
    exact ⟨us ++ .bar :: us', vs, by simp, hat₃, .pipe hd hd', hg.pair hg'⟩

theorem parseblock_sound (h : At l s (.lparen :: ts)) :
    Ends (n + 1 < 4 * ts.length + 6) True (Reads l .exec (.lparen :: ts))
      (parseblock (l ++ [0]) l.length (n + 1) s) := by
  obtain ⟨s₁, hp, -, hat₁⟩ := h.take 40 hn rfl rfl
  rw [parseblock, hp]
  refine (ih.line hat₁).bind (fun hF => by omega) ?_
  rintro cmd s₂ ⟨us, vs, rfl, hat₂, hd, hg⟩
  rw [length_append]
  cases hst : starts [41] vs with
  | false =>
    obtain ⟨s₃, hp', -⟩ := hat₂.miss hn (by decide) hst
    simp only [hp']
    trivial
  | true =>
    obtain ⟨vs, rfl⟩ := (starts_lone (u := .rparen) rfl).1 hst
    obtain ⟨s₃, hp', -, hat₃⟩ := hat₂.take 41 hn rfl rfl
    simp only [hp']
    refine (parseredirs_sound hn hat₃ hg).mono (fun hF => by simp only [length_cons]; omega) ?_
    rintro cmd' s₄ ⟨rs, vs, rfl, hat₄, htree, hg'⟩
    exact ⟨.lparen :: us ++ .rparen :: redirToks rs, vs, by simp, hat₄, htree ▸ .block rs hd, hg'⟩

theorem parseexec_sound (h : At l s ts) :
    Ends (n + 1 < 4 * ts.length + 3) True (Reads l .exec ts)
    (parseexec (l ++ [0]) l.length (n + 1) s) := by
  cases hst : starts [40] ts with
  | true =>
    obtain ⟨ts, rfl⟩ := (starts_lone (u := .lparen) rfl).1 hst
    obtain ⟨s₁, hp, hat₁, -⟩ := h.take 40 hn rfl rfl
    rw [parseexec, hp]
    exact (ih.block hat₁).mono (fun hF => by simp only [length_cons]; omega) fun _ _ => id
  | false =>
    obtain ⟨s₁, hp, hat₁⟩ := h.miss hn (by decide) hst
    rw [parseexec, hp]
    have hg : Good l execcmd := fun a ha => absurd ha not_mem_nil
    refine (parseredirs_sound hn hat₁ hg).bind (fun hF => by omega) ?_
    rintro ret s₂ ⟨rs, vs, rfl, hat₂, htree, hg'⟩
    rw [length_append]
    refine (parseargs_sound [] hn hat₂ htree hg' (by decide)).mono (fun hF => by omega) ?_
    rintro cmd s₃ ⟨gs, us, rfl, hat₃, htree', hlen, hg''⟩
    rw [nil_append] at htree'
    rw [length_nil, Nat.zero_add] at hlen
    exact ⟨redirToks rs ++ groupToks gs, us, by simp, hat₃, htree' ▸ .words rs gs hlen, hg''⟩

end

/-- **What the parser returns is derived from what it consumed**, and a bound that grows with the
tokens is not used up. -/
theorem sound (hn : 0 ∉ l) (n : Nat) : Sound l n := by
  induction n with
  | zero =>
    exact ⟨fun _ => by rw [parseline]; exact Nat.succ_pos _,
      fun _ => by rw [parsepipe]; exact Nat.succ_pos _,
      fun _ => by rw [parseexec]; exact Nat.succ_pos _,
      fun _ => by rw [parseblock]; exact Nat.succ_pos _⟩
  | succ n ih =>
    exact ⟨parseline_sound hn ih, parsepipe_sound hn ih, parseexec_sound hn ih,
      parseblock_sound hn ih⟩

/-! ## Derivations are found -/

/-- The function of a nonterminal. -/
def parse (l : List UInt8) : NT → Nat → Nat → Except Stop (Cmd Span × Nat)
  | .line => parseline (l ++ [0]) l.length
  | .pipe => parsepipe (l ++ [0]) l.length
  | .exec => parseexec (l ++ [0]) l.length

/-- What may come after a derivation from each nonterminal. -/
def Follows : NT → List Tok → Bool
  | _, [] => true
  | _, .rparen :: _ => true
  | .pipe, .amp :: _ => true
  | .pipe, .semi :: _ => true
  | .exec, .amp :: _ => true
  | .exec, .semi :: _ => true
  | .exec, .bar :: _ => true
  | _, _ => false

theorem follows_line (h : Follows .line ts = true) (k : Nat) :
    starts [38] ts = false ∧ starts [59] ts = false ∧
      Follows .pipe (List.replicate k .amp ++ ts) = true := by
  match k, ts, h with
  | 0, [], _ | 0, .rparen :: _, _ | k + 1, [], _ | k + 1, .rparen :: _, _ => exact ⟨rfl, rfl, rfl⟩

theorem follows_pipe (h : Follows .pipe ts = true) :
    starts [124] ts = false ∧ Follows .exec ts = true := by
  match ts, h with
  | [], _ | .rparen :: _, _ | .amp :: _, _ | .semi :: _, _ => exact ⟨rfl, rfl⟩

theorem follows_exec (h : Follows .exec ts = true) : Halts ts = true := by
  match ts, h with
  | [], _ | .rparen :: _, _ | .amp :: _, _ | .semi :: _, _ | .bar :: _, _ => rfl

/-- The tree has been read, and `rest` is ahead. -/
def Found (l : List UInt8) (t : Tree) (rest : List Tok) (cmd : Cmd Span) (s : Nat) : Prop :=
  At l s rest ∧ cmd.map (text l) = t

/-- **The parser finds every derivation**, unless the bound is used up. -/
theorem complete (hn : 0 ∉ l) {k : NT} {t : Tree} (hd : Derives k ts t) {rest : List Tok}
    (h : At l s (ts ++ rest)) (hf : Follows k rest = true) :
    Ends True False (Found l t rest) (parse l k n s) := by
  induction hd generalizing n s rest with
  | @line ts t k hd ih =>
    cases n with
    | zero => rw [parse, parseline]; trivial
    | succ n =>
      obtain ⟨hamp, hsemi, hpipe⟩ := follows_line hf k
      rw [append_assoc] at h
      rw [parse, parseline]
      refine (ih h hpipe).bind id ?_
      rintro cmd s₁ ⟨hat₁, htree⟩
      refine (parsebacks_complete hn hat₁ hamp).bind id ?_
      rintro cmd₁ s₂ ⟨hat₂, htree₁⟩
      obtain ⟨s₃, hp, hat₃⟩ := hat₂.miss hn (by decide) hsemi
      simp only [hp]
      exact ⟨hat₃, htree₁.trans (by rw [htree])⟩
  | @list ts us t u k hd hd' ih ih' =>
    cases n with
    | zero => rw [parse, parseline]; trivial
    | succ n =>
      have hpipe : Follows .pipe (List.replicate k .amp ++ .semi :: (us ++ rest)) = true := by
        cases k <;> rfl
      rw [append_assoc, append_assoc, cons_append] at h
      rw [parse, parseline]
      refine (ih h hpipe).bind id ?_
      rintro cmd s₁ ⟨hat₁, htree⟩
      refine (parsebacks_complete hn hat₁ rfl).bind id ?_
      rintro cmd₁ s₂ ⟨hat₂, htree₁⟩
      obtain ⟨s₃, hp, -, hat₃⟩ := hat₂.take 59 hn rfl rfl
      simp only [hp]
      refine (ih' hat₃ hf).bind id ?_
      rintro right s₄ ⟨hat₄, htree'⟩
      refine ⟨hat₄, ?_⟩
      rw [listcmd, Cmd.map, htree₁, htree, htree']
  | single hd ih =>
    cases n with
    | zero => rw [parse, parsepipe]; trivial
    | succ n =>
      obtain ⟨hbar, hexec⟩ := follows_pipe hf
      rw [parse, parsepipe]
      refine (ih h hexec).bind id ?_
      rintro cmd s₁ ⟨hat₁, htree⟩
      obtain ⟨s₂, hp, hat₂⟩ := hat₁.miss hn (by decide) hbar
      simp only [hp]
      exact ⟨hat₂, htree⟩
  | @pipe ts us t u hd hd' ih ih' =>
    cases n with
    | zero => rw [parse, parsepipe]; trivial
    | succ n =>
      rw [append_assoc, cons_append] at h
      rw [parse, parsepipe]
      refine (ih h rfl).bind id ?_
      rintro cmd s₁ ⟨hat₁, htree⟩
      obtain ⟨s₂, hp, -, hat₂⟩ := hat₁.take 124 hn rfl rfl
      simp only [hp]
      refine (ih' hat₂ hf).bind id ?_
      rintro right s₃ ⟨hat₃, htree'⟩
      refine ⟨hat₃, ?_⟩
      rw [pipecmd, Cmd.map, htree, htree']
  | @block ts t rs hd ih =>
    rcases n with _ | _ | n
    · rw [parse, parseexec]
      trivial
    · obtain ⟨s₁, hp, -⟩ := h.take 40 hn rfl rfl
      rw [parse, parseexec, hp]
      simp only [parseblock]
      trivial
    · have hs : .lparen :: ts ++ .rparen :: redirToks rs ++ rest
          = .lparen :: (ts ++ .rparen :: (redirToks rs ++ rest)) := by simp
      rw [hs] at h
      obtain ⟨s₁, hp, hat₁, -⟩ := h.take 40 hn rfl rfl
      obtain ⟨s₂, hp₂, -, hat₂⟩ := hat₁.take 40 hn rfl rfl
      rw [parse, parseexec, hp]
      simp only [parseblock]
      rw [hp₂]
      refine (ih hat₂ rfl).bind id ?_
      rintro cmd s₃ ⟨hat₃, htree⟩
      obtain ⟨s₄, hp₄, -, hat₄⟩ := hat₃.take 41 hn rfl rfl
      simp only [hp₄]
      refine (parseredirs_complete hn hat₄ (starts_groups [] (follows_exec hf)).1).mono id ?_
      rintro cmd' s₅ ⟨hat₅, htree'⟩
      exact ⟨hat₅, htree ▸ htree'⟩
  | words rs gs hlen =>
    cases n with
    | zero => rw [parse, parseexec]; trivial
    | succ n =>
      have hg := starts_groups gs (follows_exec hf)
      rw [append_assoc] at h
      have hst : starts [40] (redirToks rs ++ (groupToks gs ++ rest)) = false := by
        rcases rs with _ | ⟨⟨m, _⟩, _⟩
        · exact hg.2
        · cases m <;> rfl
      obtain ⟨s₁, hp, hat₁⟩ := h.miss hn (by decide) hst
      rw [parse, parseexec, hp]
      refine (parseredirs_complete hn hat₁ hg.1).bind id ?_
      rintro ret s₂ ⟨hat₂, htree⟩
      refine (parseargs_complete [] hn hat₂ (follows_exec hf) htree (by simpa using hlen)).mono id
        ?_
      rintro cmd s₃ ⟨hat₃, htree'⟩
      exact ⟨hat₃, htree'⟩

end

end Xv6.Sh
