import Xv6.Lib.Scan

/-!
# User/Sh — the shell's command parser

`sh.c`, from `gettoken` to `nulterminate`.  A string is a buffer of bytes that ends in NUL, a
pointer into it is an index, and the position pointer `*ps` is passed and returned.  A parsed
command keeps, for every string, the index where it begins and the index where it ends;
`nulterminate` writes the NULs afterwards.

The functions call each other and loop, so each takes a bound on the depth of calls and iterations;
running out of it is an outcome of its own, and so is an index beyond `argv`.  Nodes come from
`malloc`, which is taken to succeed.
-/

namespace Xv6.Sh

def MAXARGS : Nat := 10

/-- `" \t\r\n\v"`. -/
def whitespace : List UInt8 := [32, 9, 13, 10, 11]

/-- `"<|>&;()"`. -/
def symbols : List UInt8 := [60, 124, 62, 38, 59, 40, 41]

/-- Whether `c` occurs in a string; NUL occurs in none. -/
def strchr (t : List UInt8) (c : UInt8) : Bool := t.contains c

/-- The length of the C string at the start of a buffer. -/
def strlen (b : List UInt8) : Nat := (b.takeWhile (· ≠ 0)).length

/-- What `*s` reads. -/
def char (b : List UInt8) (s : Nat) : UInt8 := b.getD s 0

/-! ## Commands -/

def O_RDONLY : Nat := 0x000
def O_WRONLY : Nat := 0x001
def O_CREATE : Nat := 0x200
def O_TRUNC : Nat := 0x400

/-- A parsed command, over the type of its strings: `argv` holds the entries before the null
pointer. -/
inductive Cmd (σ : Type) where
  | exec (argv : List σ)
  | redir (cmd : Cmd σ) (file : σ) (mode fd : Nat)
  | pipe (left right : Cmd σ)
  | list (left right : Cmd σ)
  | back (cmd : Cmd σ)
  deriving DecidableEq, Repr

/-- A string of the buffer as the parser records it: where it begins and where it ends. -/
abbrev Span := Nat × Nat

def execcmd : Cmd Span := .exec []

def redircmd (subcmd : Cmd Span) (file efile mode fd : Nat) : Cmd Span :=
  .redir subcmd (file, efile) mode fd

def pipecmd (left right : Cmd Span) : Cmd Span := .pipe left right

def listcmd (left right : Cmd Span) : Cmd Span := .list left right

def backcmd (subcmd : Cmd Span) : Cmd Span := .back subcmd

/-- `cmd->argv[argc] = q; cmd->eargv[argc] = eq;` for the `execcmd` at the bottom of a chain of
redirections. Entries are stored in order, so the entry stored is the next one. -/
def Cmd.store {σ : Type} (q : σ) : Cmd σ → Cmd σ
  | .exec argv => .exec (argv ++ [q])
  | .redir cmd file mode fd => .redir (cmd.store q) file mode fd
  | cmd => cmd

/-! ## Tokens -/

/-- What `gettoken` reports: its return value, the token's two ends, and the new position. -/
structure Token where
  ret : UInt8
  q : Nat
  eq : Nat
  s : Nat
  deriving DecidableEq, Repr

/-- `while(s < es && strchr(whitespace, *s)) s++;` -/
def skip (b : List UInt8) (es s : Nat) : Nat := scan (strchr whitespace) b (es - s) s

/-- A character that neither separates words nor is a symbol. -/
def ordinary (c : UInt8) : Bool := !strchr whitespace c && !strchr symbols c

/-- The `switch` of `gettoken` on the character at `s`: the return value, and the token's end. -/
def tokenAt (b : List UInt8) (es s : Nat) : UInt8 × Nat :=
  match char b s with
  | 0 => (0, s)
  | 124 => (124, s + 1)   -- '|'
  | 40 => (40, s + 1)     -- '('
  | 41 => (41, s + 1)     -- ')'
  | 59 => (59, s + 1)     -- ';'
  | 38 => (38, s + 1)     -- '&'
  | 60 => (60, s + 1)     -- '<'
  | 62 =>                 -- '>', and '+' for ">>"
    if char b (s + 1) = 62 then (43, s + 2) else (62, s + 1)
  | _ => (97, scan ordinary b (es - s) s)   -- 'a'

def gettoken (b : List UInt8) (es s : Nat) : Token :=
  let q := skip b es s
  let (ret, eq) := tokenAt b es q
  { ret, q, eq, s := skip b es eq }

/-- Skip white space; whether the next character is one of `toks`, and the new position. -/
def peek (b : List UInt8) (es s : Nat) (toks : List UInt8) : Bool × Nat :=
  let s := skip b es s
  (char b s ≠ 0 && strchr toks (char b s), s)

/-! ## The parser -/

/-- The ways a parse ends without a command. -/
inductive Stop where
  | outOfFuel
  | outOfBounds
  | missingFile
  | parseblock
  | missingParen
  | unexpected
  | tooManyArgs
  | leftovers (rest : List UInt8)
  deriving DecidableEq, Repr

section
variable (b : List UInt8) (es : Nat)

def parseredirs : Nat → Cmd Span → Nat → Except Stop (Cmd Span × Nat)
  | 0, _, _ => .error .outOfFuel
  | n + 1, cmd, s =>
    match peek b es s [60, 62] with
    | (false, s) => .ok (cmd, s)
    | (true, s) =>
      let op := gettoken b es s
      let f := gettoken b es op.s
      if f.ret ≠ 97 then .error .missingFile
      else
        match op.ret with
        | 60 => parseredirs n (redircmd cmd f.q f.eq O_RDONLY 0) f.s
        | 62 => parseredirs n (redircmd cmd f.q f.eq (O_WRONLY ||| O_CREATE ||| O_TRUNC) 1) f.s
        | 43 => parseredirs n (redircmd cmd f.q f.eq (O_WRONLY ||| O_CREATE) 1) f.s
        | _ => parseredirs n cmd f.s

/-- The loop of `parseexec` over the words, `ret` being the `execcmd` under the redirections met so
far. -/
def parseargs : Nat → Cmd Span → Nat → Nat → Except Stop (Cmd Span × Nat)
  | 0, _, _, _ => .error .outOfFuel
  | n + 1, ret, argc, s =>
    match peek b es s [124, 41, 38, 59] with
    | (true, s) => if MAXARGS ≤ argc then .error .outOfBounds else .ok (ret, s)
    | (false, s) =>
      let t := gettoken b es s
      if t.ret = 0 then if MAXARGS ≤ argc then .error .outOfBounds else .ok (ret, t.s)
      else if t.ret ≠ 97 then .error .unexpected
      else if MAXARGS ≤ argc then .error .outOfBounds
      else if MAXARGS ≤ argc + 1 then .error .tooManyArgs
      else do
        let (ret, s) ← parseredirs b es n (ret.store (t.q, t.eq)) t.s
        parseargs n ret (argc + 1) s

/-- The loop of `parseline` over the ampersands. -/
def parsebacks : Nat → Cmd Span → Nat → Except Stop (Cmd Span × Nat)
  | 0, _, _ => .error .outOfFuel
  | n + 1, cmd, s =>
    match peek b es s [38] with
    | (false, s) => .ok (cmd, s)
    | (true, s) => parsebacks n (backcmd cmd) (gettoken b es s).s

mutual

def parseline : Nat → Nat → Except Stop (Cmd Span × Nat)
  | 0, _ => .error .outOfFuel
  | n + 1, s => do
    let (cmd, s) ← parsepipe n s
    let (cmd, s) ← parsebacks b es n cmd s
    match peek b es s [59] with
    | (false, s) => .ok (cmd, s)
    | (true, s) =>
      let (right, s) ← parseline n (gettoken b es s).s
      .ok (listcmd cmd right, s)

def parsepipe : Nat → Nat → Except Stop (Cmd Span × Nat)
  | 0, _ => .error .outOfFuel
  | n + 1, s => do
    let (cmd, s) ← parseexec n s
    match peek b es s [124] with
    | (false, s) => .ok (cmd, s)
    | (true, s) =>
      let (right, s) ← parsepipe n (gettoken b es s).s
      .ok (pipecmd cmd right, s)

def parseexec : Nat → Nat → Except Stop (Cmd Span × Nat)
  | 0, _ => .error .outOfFuel
  | n + 1, s =>
    match peek b es s [40] with
    | (true, s) => parseblock n s
    | (false, s) => do
      let (ret, s) ← parseredirs b es n execcmd s
      parseargs b es n ret 0 s

def parseblock : Nat → Nat → Except Stop (Cmd Span × Nat)
  | 0, _ => .error .outOfFuel
  | n + 1, s =>
    match peek b es s [40] with
    | (false, _) => .error .parseblock
    | (true, s) => do
      let (cmd, s) ← parseline n (gettoken b es s).s
      match peek b es s [41] with
      | (false, _) => .error .missingParen
      | (true, s) => parseredirs b es n cmd (gettoken b es s).s

end

end

/-! ## The whole command -/

/-- Write the NULs. -/
def nulterminate : Cmd Span → List UInt8 → List UInt8
  | .exec argv, b => argv.foldl (fun b a => b.set a.2 0) b
  | .redir cmd file _ _, b => (nulterminate cmd b).set file.2 0
  | .pipe left right, b => nulterminate right (nulterminate left b)
  | .list left right, b => nulterminate right (nulterminate left b)
  | .back cmd, b => nulterminate cmd b

/-- The command and the buffer it points into. -/
structure Parsed where
  cmd : Cmd Span
  buf : List UInt8
  deriving DecidableEq, Repr

def parsecmd (n : Nat) (b : List UInt8) : Except Stop Parsed :=
  let es := strlen b
  match parseline b es n 0 with
  | .error e => .error e
  | .ok (cmd, s) =>
    let s := (peek b es s []).2
    if s ≠ es then .error (.leftovers (slice b s es)) else .ok ⟨cmd, nulterminate cmd b⟩

/-- The C string at a position. -/
def cstring (b : List UInt8) (q : Nat) : List UInt8 := (b.drop q).takeWhile (· ≠ 0)

/-- The command with other strings in the place of its own. -/
def Cmd.map {σ τ : Type} (f : σ → τ) : Cmd σ → Cmd τ
  | .exec argv => .exec (argv.map f)
  | .redir cmd file mode fd => .redir (cmd.map f) (f file) mode fd
  | .pipe left right => .pipe (left.map f) (right.map f)
  | .list left right => .list (left.map f) (right.map f)
  | .back cmd => .back (cmd.map f)

/-- The strings of a command: the words of each `exec` in order, a redirection's file after what it
redirects. -/
def Cmd.strings {σ : Type} : Cmd σ → List σ
  | .exec argv => argv
  | .redir cmd file _ _ => cmd.strings ++ [file]
  | .pipe left right => left.strings ++ right.strings
  | .list left right => left.strings ++ right.strings
  | .back cmd => cmd.strings

/-- The command as the shell then runs it, each string read from the buffer through its pointer. -/
def Parsed.tree (r : Parsed) : Cmd (List UInt8) := r.cmd.map fun a => cstring r.buf a.1

end Xv6.Sh
