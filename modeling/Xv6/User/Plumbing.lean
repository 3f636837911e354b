import Mathlib.Data.List.Perm.Basic
import Xv6.Fs.File
import Xv6.User.Command

/-!
# User/Plumbing — the descriptors of a command tree that `runcmd` runs

`runcmd` closes a descriptor and counts on the next `dup` or `open` to land on it.  Here it runs as
the shell does, by processes that fork, each with its descriptor table and with the **frames**
between the root of the tree and the command it is at.  What a frame names is what a descriptor
should refer to; `plumbing` says that it does whenever a command starts, and who holds the ends of a
pipe.  A pipe is known by the node of the tree that made it; that no node makes two (`Fresh`) rests
on no command being entered twice.

A process may come back from `wait` at any time, and a program that has been started may do with its
descriptors whatever it likes: both only add runs.
-/

namespace Xv6.Sh

open Function List Option

variable {σ : Type}

/-! ## Frames -/

/-- What a descriptor refers to: one of the caller's, a file that a redirection opened, an end of a
pipe of the shell, or something that a started program has opened. -/
inductive Obj (σ : Type)
  | caller (fd : Nat)
  | file (name : σ) (mode : Nat)
  | pipe (node : List Bool) (write : Bool)
  | own (k : Nat)

/-- A step down the tree, with what it leaves behind. -/
inductive Frame (σ : Type)
  | redir (file : σ) (mode fd : Nat)
  | pipeLeft (right : Cmd σ)
  | pipeRight (left : Cmd σ)
  | listLeft (right : Cmd σ)
  | listRight (left : Cmd σ)
  | back

namespace Frame

/-- The command around a command. -/
def around (c : Cmd σ) : Frame σ → Cmd σ
  | redir file mode fd => .redir c file mode fd
  | pipeLeft right => .pipe c right
  | pipeRight left => .pipe left c
  | listLeft right => .list c right
  | listRight left => .list left c
  | back => .back c

/-- What a frame of a node names for a descriptor. -/
def binds (node : List Bool) (fd : Nat) : Frame σ → Option (Obj σ)
  | redir file mode fd' => if fd' = fd then some (.file file mode) else none
  | pipeLeft _ => if fd = 1 then some (.pipe node true) else none
  | pipeRight _ => if fd = 0 then some (.pipe node false) else none
  | listLeft _ | listRight _ | back => none

/-- Which way it leads. -/
def isRight : Frame σ → Bool
  | pipeRight _ | listRight _ => true
  | redir .. | pipeLeft _ | listLeft _ | back => false

end Frame

/-- **The position of a command in the tree**: which ways lead to it, the last one first. -/
def position (ctx : List (Frame σ)) : List Bool := ctx.map Frame.isRight

/-- The tree around a command, the innermost frame first. -/
def plug (ctx : List (Frame σ)) (c : Cmd σ) : Cmd σ := ctx.foldl Frame.around c

/-- **What a descriptor should refer to**: what the innermost frame that names it says, or the
caller's. -/
def resolve : List (Frame σ) → Nat → Obj σ
  | [], fd => .caller fd
  | f :: ctx, fd => (f.binds (position ctx) fd).getD (resolve ctx fd)

/-- A descriptor table. -/
abbrev Table (σ : Type) := Nat → Option (Obj σ)

/-- The table with exactly 0, 1 and 2 open, as the frames say. -/
def std (ctx : List (Frame σ)) : Table σ := fun fd => if fd < 3 then some (resolve ctx fd) else none

/-- `fdalloc` looks only at which slots are null. -/
def fdalloc (t : Table σ) : Option Nat := Files.fdalloc fun fd => (t fd).map fun _ => 0

/-- A tree whose redirections are of the descriptors 0, 1 and 2. -/
def Cmd.Std : Cmd σ → Prop
  | .exec _ => True
  | .redir cmd _ _ fd => cmd.Std ∧ fd < 3
  | .pipe left right | .list left right => left.Std ∧ right.Std
  | .back cmd => cmd.Std

/-! ## `runcmd` -/

/-- What a process has still to do.  The frames are only there to be spoken of: `fork` gives one to
the child, and `run` enters those that lead to its command. -/
inductive Code (σ : Type)
  | run (inside : List (Frame σ)) (cmd : Cmd σ)
  | exec (argv : List σ)
  | program
  | exit
  | done
  | close (fd : Nat) (next : Code σ)
  | dup (fd : Nat) (next : Code σ)
  | open (file : σ) (mode : Nat) (next : Code σ)
  | pipe (next : Nat → Nat → Code σ)
  | fork (frame : Frame σ) (child parent : Code σ)
  | wait (next : Code σ)

/-- `runcmd`; a pipe's continuation is given `p[0]` and `p[1]`. -/
def runcmd : Cmd σ → Code σ
  | .exec [] => .exit
  | .exec (a :: argv) => .exec (a :: argv)
  | .redir cmd file mode fd => .close fd (.open file mode (.run [.redir file mode fd] cmd))
  | .list left right =>
    .fork (.listLeft right) (.run [] left) (.wait (.run [.listRight left] right))
  | .pipe left right =>
    .pipe fun p0 p1 =>
      .fork (.pipeLeft right) (.close 1 (.dup p1 (.close p0 (.close p1 (.run [] left)))))
        (.fork (.pipeRight left) (.close 0 (.dup p0 (.close p0 (.close p1 (.run [] right)))))
          (.close p0 (.close p1 (.wait (.wait .exit)))))
  | .back cmd => .fork .back (.run [] cmd) .exit

/-- A process. -/
structure Proc (σ : Type) where
  ctx : List (Frame σ)
  fds : Table σ
  code : Code σ

/-- **A move of a process**, when the nodes `n` have made pipes: the process after it, the processes
it has forked, and the nodes that have. -/
inductive Move (n : List (List Bool)) : Proc σ → Proc σ → List (Proc σ) → List (List Bool) → Prop
  | run {ctx fs c t} : Move n ⟨ctx, t, .run fs c⟩ ⟨fs ++ ctx, t, runcmd c⟩ [] n
  | close {ctx t fd k} : Move n ⟨ctx, t, .close fd k⟩ ⟨ctx, update t fd none, k⟩ [] n
  | dup {ctx t fd k o d} (old : t fd = some o) (new : fdalloc t = some d) :
      Move n ⟨ctx, t, .dup fd k⟩ ⟨ctx, update t d (some o), k⟩ [] n
  | open {ctx t file mode k d} (new : fdalloc t = some d) :
      Move n ⟨ctx, t, .open file mode k⟩ ⟨ctx, update t d (some (.file file mode)), k⟩ [] n
  | pipe {ctx t k p0 p1} (new0 : fdalloc t = some p0)
      (new1 : fdalloc (update t p0 (some (.pipe (position ctx) false))) = some p1) :
      Move n ⟨ctx, t, .pipe k⟩
        ⟨ctx, update (update t p0 (some (.pipe (position ctx) false))) p1
          (some (.pipe (position ctx) true)), k p0 p1⟩
        [] (position ctx :: n)
  | fork {ctx t f c k} : Move n ⟨ctx, t, .fork f c k⟩ ⟨ctx, t, k⟩ [⟨f :: ctx, t, c⟩] n
  | wait {ctx t k} : Move n ⟨ctx, t, .wait k⟩ ⟨ctx, t, k⟩ [] n
  | exec {ctx t argv} : Move n ⟨ctx, t, .exec argv⟩ ⟨ctx, t, .program⟩ [] n
  | execFails {ctx t argv} : Move n ⟨ctx, t, .exec argv⟩ ⟨ctx, t, .exit⟩ [] n
  | exit {ctx t} : Move n ⟨ctx, t, .exit⟩ ⟨ctx, fun _ => none, .done⟩ [] n
  -- a program keeps what it has, drops it, or opens something of its own
  | act {ctx t t'} (from_ : ∀ fd o, t' fd = some o → (∃ fd', t fd' = some o) ∨ ∃ k, o = .own k) :
      Move n ⟨ctx, t, .program⟩ ⟨ctx, t', .program⟩ [] n
  | spawn {ctx t} : Move n ⟨ctx, t, .program⟩ ⟨ctx, t, .program⟩ [⟨ctx, t, .program⟩] n
  | quit {ctx t} : Move n ⟨ctx, t, .program⟩ ⟨ctx, t, .exit⟩ [] n

/-- The processes, and for each pipe there has been the node that made it. -/
structure Shell (σ : Type) where
  procs : List (Proc σ)
  pipes : List (List Bool)

/-- **The run of a tree**, from a process with 0, 1 and 2 open; a step is a move of the process it
names. -/
def shell (root : Cmd σ) : LTS (Shell σ) Nat where
  init s := s = ⟨[⟨[], std [], .run [] root⟩], []⟩
  step s i s' := ∃ p p' new, s.procs[i]? = some p ∧ Move s.pipes p p' new s'.pipes ∧
    s'.procs = s.procs.set i p' ++ new

/-! ## What a process holds -/

/-- The ends of pipes in a table are those of the sides that the frames are on. -/
def Held (ctx : List (Frame σ)) (t : Table σ) : Prop :=
  ∀ fd node w, t fd = some (.pipe node w) → (!w) :: node <:+ position ctx

/-- …as soon as the copies `p[0]` and `p[1]`, which are above 2, have been closed. -/
def Tidy (ctx : List (Frame σ)) (t : Table σ) : Prop := (∀ fd, 3 ≤ fd → t fd = none) → Held ctx t

variable {root c : Cmd σ} {ctx fs : List (Frame σ)} {t : Table σ} {fd d : Nat}
  {n n' : List (List Bool)} {f : Frame σ}

theorem resolve_pipe {node : List Bool} {w : Bool} (h : resolve ctx fd = .pipe node w) :
    (!w) :: node <:+ position ctx := by
  induction ctx with
  | nil => cases h
  | cons f ctx ih =>
    cases hb : f.binds (position ctx) fd with
    | none =>
      rw [resolve, hb] at h
      exact (ih h).trans (suffix_cons ..)
    | some o =>
      rw [resolve, hb] at h
      obtain rfl : o = .pipe node w := h
      cases f with
      | redir => simp [Frame.binds] at hb
      | pipeLeft =>
        obtain ⟨-, rfl, rfl⟩ : fd = 1 ∧ position ctx = node ∧ true = w := by
          simpa [Frame.binds] using hb
        exact suffix_rfl
      | pipeRight =>
        obtain ⟨-, rfl, rfl⟩ : fd = 0 ∧ position ctx = node ∧ false = w := by
          simpa [Frame.binds] using hb
        exact suffix_rfl
      | listLeft | listRight | back => cases hb

theorem held_std : Held ctx (std ctx) := by
  intro fd node w h
  unfold std at h
  split at h
  · exact resolve_pipe (some.inj h)
  · cases h

theorem Held.close (h : Held ctx t) : Held ctx (update t fd none) := by
  intro fd' id w hx
  by_cases he : fd' = fd
  · rw [he, update_self] at hx
    cases hx
  · rw [update_of_ne he] at hx
    exact h fd' id w hx

theorem Tidy.of_open (fd : Nat) (h3 : 3 ≤ fd) (h : t fd ≠ none) : Tidy ctx t :=
  fun hc => absurd (hc fd h3) h

/-! ## No command is entered twice -/

/-- The positions of the commands a process is still to enter, or to make the pipe of. -/
def Code.entries : Code σ → List Bool → List (List Bool)
  | .run fs _, x => [position fs ++ x]
  | .pipe _, x => [x]
  | .fork f c k, x => c.entries (f.isRight :: x) ++ k.entries x
  | .close _ k, x | .dup _ k, x | .open _ _ k, x | .wait k, x => k.entries x
  | .exec _, _ | .program, _ | .exit, _ | .done, _ => []

/-- Neither command is part of the other. -/
def Apart (a b : List Bool) : Prop := ¬ a <:+ b ∧ ¬ b <:+ a

/-- Positions of separate parts of the command at `x`. -/
def Split (x : List Bool) (l : List (List Bool)) : Prop := l.Pairwise Apart ∧ ∀ a ∈ l, x <:+ a

/-- **What is entered is new**, when the nodes `n` have made pipes. -/
structure Fresh (n l : List (List Bool)) : Prop where
  once : n.Nodup
  apart : l.Pairwise Apart
  new : ∀ a ∈ l, ∀ m ∈ n, ¬ a <:+ m

section

variable {x : List Bool} {l l' : List (List Bool)}

/-- The two sides of a node. -/
theorem split_sides : Split x [false :: x, true :: x] := by
  refine ⟨pairwise_pair.2 ⟨fun h => ?_, fun h => ?_⟩, by simp⟩
  · cases h.eq_of_length rfl
  · cases h.eq_of_length rfl

theorem Apart.below {a b : List Bool} (h : Apart x b) (ha : x <:+ a) : Apart a b :=
  ⟨fun hc => h.1 (ha.trans hc), fun hc => (suffix_or_suffix_of_suffix ha hc).elim h.1 h.2⟩

theorem Fresh.perm (h : Fresh n l) (hp : l.Perm l') : Fresh n l' :=
  ⟨h.once, (hp.pairwise_iff fun hab => ⟨hab.2, hab.1⟩).1 h.apart,
    fun a ha => h.new a (hp.mem_iff.2 ha)⟩

/-- A command is entered, and its parts are to be. -/
theorem Fresh.split (h : Fresh n (x :: l)) (hs : Split x l') : Fresh n (l' ++ l) := by
  obtain ⟨hx, hl⟩ := pairwise_cons.1 h.apart
  refine ⟨h.once, pairwise_append.2 ⟨hs.1, hl, fun a ha b hb => (hx b hb).below (hs.2 a ha)⟩,
    fun a ha m hm hc => ?_⟩
  rcases mem_append.1 ha with ha | ha
  · exact h.new x mem_cons_self m hm ((hs.2 a ha).trans hc)
  · exact h.new a (mem_cons_of_mem _ ha) m hm hc

/-- Its node makes a pipe, and only its parts are left. -/
theorem Fresh.pipe (h : Fresh n (x :: l)) (hs : Split x l') (hx : x ∉ l') :
    Fresh (x :: n) (l' ++ l) := by
  obtain ⟨hl, -⟩ := pairwise_cons.1 h.apart
  refine ⟨nodup_cons.2 ⟨fun hm => h.new x mem_cons_self x hm suffix_rfl, h.once⟩,
    (h.split hs).apart, fun a ha m hm hc => ?_⟩
  rcases mem_cons.1 hm with rfl | hm
  · rcases mem_append.1 ha with ha | ha
    · exact hx ((hs.2 a ha).eq_of_length_le hc.length_le ▸ ha)
    · exact (hl a ha).2 hc
  · exact (h.split hs).new a ha m hm hc

end

/-- **What code needs of the frames and the table it starts with.** -/
def Ready (root : Cmd σ) : Code σ → List (Frame σ) → Table σ → Prop
  | .run fs c, ctx, t => plug (fs ++ ctx) c = root ∧ t = std (fs ++ ctx) ∧ Tidy ctx t
  | .exec argv, ctx, t => plug ctx (.exec argv) = root ∧ t = std ctx
  | .program, ctx, t => Held ctx t
  | .exit, ctx, t => Held ctx t
  | .done, _, t => t = fun _ => none
  | .close fd k, ctx, t => Tidy ctx t ∧ Ready root k ctx (update t fd none)
  | .dup fd k, ctx, t => Tidy ctx t ∧ ∃ o d, t fd = some o ∧ fdalloc t = some d ∧
      Ready root k ctx (update t d (some o))
  | .open file mode k, ctx, t => Tidy ctx t ∧ ∃ d, fdalloc t = some d ∧
      Ready root k ctx (update t d (some (.file file mode)))
  | .pipe k, ctx, t => Tidy ctx t ∧ ∃ p0 p1, fdalloc t = some p0 ∧
      fdalloc (update t p0 (some (.pipe (position ctx) false))) = some p1 ∧
      Split (position ctx) ((k p0 p1).entries (position ctx)) ∧ position ctx ∉ (k p0 p1).entries
      (position ctx) ∧ Ready root (k p0 p1) ctx
        (update (update t p0 (some (.pipe (position ctx) false))) p1
          (some (.pipe (position ctx) true)))
  | .fork f c k, ctx, t => Tidy ctx t ∧ Ready root c (f :: ctx) t ∧ Ready root k ctx t
  | .wait k, ctx, t => Tidy ctx t ∧ Ready root k ctx t

theorem std_of_plug (h : (plug ctx c).Std) : c.Std := by
  induction ctx generalizing c with
  | nil => exact h
  | cons f ctx ih =>
    have h := ih (c := f.around c) h
    cases f with
    | redir | pipeLeft | listLeft => exact h.1
    | pipeRight | listRight => exact h.2
    | back => exact h

theorem Held.set {o : Obj σ} (h : Held ctx t) (ho : ∀ id w, o ≠ .pipe id w) :
    Held ctx (update t fd (some o)) := by
  intro fd' id w hx
  by_cases he : fd' = fd
  · rw [he, update_self] at hx
    exact absurd (Option.some.inj hx) (ho id w)
  · rw [update_of_ne he] at hx
    exact h fd' id w hx

theorem tidy_std : Tidy ctx (std ctx) := fun _ => held_std

/-- A frame that names nothing leaves the table as it is. -/
theorem std_cons (h : ∀ fd, f.binds (position ctx) fd = none) : std (f :: ctx) = std ctx := by
  funext fd
  simp only [std, resolve, h, getD_none]

/-- The table after a redirection. -/
theorem std_redir {file : σ} {mode : Nat} (h : fd < 3) :
    update (update (std ctx) fd none) fd (some (.file file mode)) =
      std (.redir file mode fd :: ctx) := by
  funext fd'
  rw [update_idem]
  by_cases he : fd' = fd
  · subst he
    rw [update_self, std, if_pos h, resolve, Frame.binds, if_pos rfl]
    rfl
  · rw [update_of_ne he, std, std, resolve, Frame.binds, if_neg (Ne.symm he)]
    rfl

/-- A descriptor that has been closed is the lowest free one. -/
theorem fdalloc_std (h : fd < 3) : fdalloc (update (std ctx) fd none) = some fd := by
  match fd, h with
  | 0, _ | 1, _ | 2, _ => rfl

section
variable (ctx)

/-- The table of the process that has made a pipe. -/
def piped : Table σ :=
  update (update (std ctx) 3 (some (.pipe (position ctx) false))) 4
    (some (.pipe (position ctx) true))

/-- The copies of the ends are closed again. -/
theorem std_unpiped : update (update (piped ctx) 3 none) 4 none = std ctx := by
  funext fd
  match fd with
  | 0 | 1 | 2 | 3 | 4 | fd + 5 => simp [piped, std, update]

theorem std_left (right : Cmd σ) :
    update (update (update (update (piped ctx) 1 none) 1 (some (.pipe (position ctx) true)))
      3 none) 4 none = std (.pipeLeft right :: ctx) := by
  funext fd
  match fd with
  | 0 | 1 | 2 | 3 | 4 | fd + 5 => simp [piped, std, resolve, Frame.binds, update]

theorem std_right (left : Cmd σ) :
    update (update (update (update (piped ctx) 0 none) 0 (some (.pipe (position ctx) false)))
      3 none) 4 none = std (.pipeRight left :: ctx) := by
  funext fd
  match fd with
  | 0 | 1 | 2 | 3 | 4 | fd + 5 => simp [piped, std, resolve, Frame.binds, update]

end

/-- **Every command is ready** in the table that its frames name. -/
theorem ready_runcmd (hs : root.Std) (h : plug ctx c = root) :
    Ready root (runcmd c) ctx (std ctx) := by
  have hc : c.Std := std_of_plug (h.symm ▸ hs)
  cases c with
  | exec argv =>
    cases argv with
    | nil => exact held_std
    | cons a argv => exact ⟨h, rfl⟩
  | redir c file mode fd =>
    have hfd : fd < 3 := hc.2
    refine ⟨tidy_std, fun _ => held_std.close, fd, fdalloc_std hfd, h, std_redir hfd, fun _ => ?_⟩
    exact held_std.close.set nofun
  | list left right =>
    refine ⟨tidy_std, ⟨h, (std_cons fun _ => rfl).symm, fun _ => ?_⟩, tidy_std, h,
      (std_cons fun _ => rfl).symm, tidy_std⟩
    rw [← std_cons (f := .listLeft right) fun _ => rfl]
    exact held_std
  | pipe left right =>
    -- until its last `close` every process has descriptor 4 open
    have hopen {ctx : List (Frame σ)} {t : Table σ} (h : t 4 ≠ none) : Tidy ctx t :=
      .of_open 4 (by decide) h
    refine ⟨tidy_std, 3, 4, rfl, rfl, split_sides, by simp [Code.entries, position], hopen nofun,
      ?_, hopen nofun, ?_, hopen nofun, hopen nofun, ?_⟩
    · refine ⟨hopen nofun, hopen nofun, .pipe (position ctx) true, 1, rfl, rfl, hopen nofun,
        hopen nofun, h, std_left ctx right, ?_⟩
      exact (congrArg (Tidy _) (std_left ctx right)).mpr tidy_std
    · refine ⟨hopen nofun, hopen nofun, .pipe (position ctx) false, 0, rfl, rfl, hopen nofun,
        hopen nofun, h, std_right ctx left, ?_⟩
      exact (congrArg (Tidy _) (std_right ctx left)).mpr tidy_std
    · exact (congrArg (Ready root _ ctx) (std_unpiped ctx)).mpr ⟨tidy_std, tidy_std, held_std⟩
  | back c =>
    refine ⟨tidy_std, ⟨h, (std_cons fun _ => rfl).symm, fun _ => ?_⟩, held_std⟩
    rw [← std_cons (f := .back) fun _ => rfl]
    exact held_std

theorem Ready.tidy {k : Code σ} (h : Ready root k ctx t) : Tidy ctx t := by
  cases k with
  | run => exact h.2.2
  | exec => exact h.2 ▸ tidy_std
  | program | exit => exact fun _ => h
  | done => exact fun _ fd id w hx => by rw [h] at hx; cases hx
  | close | dup | «open» | pipe | fork | wait => exact h.1

/-- A process that is ready for what it has to do. -/
def Proc.Ready (root : Cmd σ) (p : Proc σ) : Prop := Sh.Ready root p.code p.ctx p.fds

/-- **A move leaves every process ready**, the one that moves and those it forks. -/
theorem Move.ready (hs : root.Std) {p p' : Proc σ} {new : List (Proc σ)} (h : Move n p p' new n')
    (hp : p.Ready root) : p'.Ready root ∧ ∀ q ∈ new, q.Ready root := by
  cases h with
  | run =>
    obtain ⟨h1, h2, -⟩ := hp
    exact ⟨(congrArg (Sh.Ready root _ _) h2).mpr (ready_runcmd hs h1), nofun⟩
  | close => exact ⟨hp.2, nofun⟩
  | dup old new =>
    obtain ⟨-, o, d, h1, h2, h3⟩ := hp
    obtain rfl := some.inj (old.symm.trans h1)
    obtain rfl := some.inj (new.symm.trans h2)
    exact ⟨h3, nofun⟩
  | «open» new =>
    obtain ⟨-, d, h1, h2⟩ := hp
    obtain rfl := some.inj (new.symm.trans h1)
    exact ⟨h2, nofun⟩
  | pipe new0 new1 =>
    obtain ⟨-, p0, p1, h1, h2, -, -, h3⟩ := hp
    obtain rfl := some.inj (new0.symm.trans h1)
    obtain rfl := some.inj (new1.symm.trans h2)
    exact ⟨h3, nofun⟩
  | fork => exact ⟨hp.2.2, fun q hq => mem_singleton.1 hq ▸ hp.2.1⟩
  | wait => exact ⟨hp.2, nofun⟩
  | exec | execFails =>
    exact ⟨Ready.tidy hp fun fd h3 => by rw [hp.2, std, if_neg (Nat.not_lt.2 h3)], nofun⟩
  | exit => exact ⟨rfl, nofun⟩
  | act from_ =>
    refine ⟨fun fd id w hx => ?_, nofun⟩
    obtain ⟨fd', hx'⟩ | ⟨k, hk⟩ := from_ fd _ hx
    · exact hp fd' id w hx'
    · cases hk
  | spawn => exact ⟨hp, fun q hq => mem_singleton.1 hq ▸ hp⟩
  | quit => exact ⟨hp, nofun⟩

/-- **Every process is ready, in every run.** -/
theorem shell_ready (hs : root.Std) {s : Shell σ} (h : (shell root).Reach s) :
    ∀ p ∈ s.procs, p.Ready root := by
  refine h.invariant (I := fun s => ∀ p ∈ s.procs, p.Ready root) ?_ ?_
  · rintro _ rfl p hp
    obtain rfl := mem_singleton.1 hp
    exact ⟨rfl, rfl, tidy_std⟩
  · rintro s i s' - ih ⟨p, p', new, hi, hm, hs'⟩ q hq
    obtain ⟨h1, h2⟩ := hm.ready hs (ih p (mem_of_getElem? hi))
    rw [hs', mem_append] at hq
    obtain hq | hq := hq
    · obtain hq | rfl := mem_or_eq_of_mem_set hq
      · exact ih q hq
      · exact h1
    · exact h2 q hq

def Proc.entries (p : Proc σ) : List (List Bool) := p.code.entries (position p.ctx)

/-- The parts of a command. -/
theorem split_runcmd (x : List Bool) : Split x ((runcmd c).entries x) := by
  cases c with
  | exec argv => cases argv <;> exact ⟨.nil, fun a ha => by cases ha⟩
  | redir | back =>
    refine ⟨pairwise_singleton .., fun a ha => ?_⟩
    rw [mem_singleton.1 ha]
    exact suffix_cons ..
  | list => exact split_sides
  | pipe => exact ⟨pairwise_singleton .., by simp [runcmd, Code.entries]⟩

/-- **A move enters nothing twice.** -/
theorem Move.fresh {p p' : Proc σ} {new : List (Proc σ)} {l : List (List Bool)}
    (h : Move n p p' new n') (hp : p.Ready root) (hf : Fresh n (p.entries ++ l)) :
    Fresh n' (p'.entries ++ new.flatMap Proc.entries ++ l) := by
  cases h with
  | @run ctx fs c t =>
    have h1 := hf.split (split_runcmd (c := c) _)
    simpa [Proc.entries, position] using h1
  | pipe new0 new1 =>
    obtain ⟨-, p0, p1, h1, h2, hs, hx, -⟩ := hp
    obtain rfl := some.inj (new0.symm.trans h1)
    obtain rfl := some.inj (new1.symm.trans h2)
    simpa [Proc.entries] using hf.pipe hs hx
  | fork =>
    refine hf.perm (.append_right l ?_)
    simpa [Proc.entries, Code.entries, position] using perm_append_comm
  | _ => simpa [Proc.entries, Code.entries] using hf

/-- **Nothing is entered twice, in any run.** -/
theorem shell_fresh (hs : root.Std) {s : Shell σ} (h : (shell root).Reach s) :
    Fresh s.pipes (s.procs.flatMap Proc.entries) := by
  refine h.invariant (I := fun s => Fresh s.pipes (s.procs.flatMap Proc.entries)) ?_ ?_
  · rintro _ rfl
    exact ⟨nodup_nil, pairwise_singleton .., fun _ _ m hm => by cases hm⟩
  · rintro s i s' hr ih ⟨p, p', new, hi, hm, hs'⟩
    obtain ⟨hlt, hget⟩ := List.getElem?_eq_some_iff.1 hi
    have hperm : (s.procs.flatMap Proc.entries).Perm (p.entries ++ (s.procs.eraseIdx i).flatMap
        Proc.entries) := by
      rw [← flatMap_cons, ← hget]
      exact (getElem_cons_eraseIdx_perm hlt).symm.flatMap_right _
    refine (hm.fresh (shell_ready hs hr p (mem_of_getElem? hi)) (ih.perm hperm)).perm ?_
    rw [hs', append_assoc, flatMap_append]
    refine ((perm_append_comm.append_left _).trans (.of_eq (append_assoc ..).symm)).trans
      (.append_right _ ?_)
    rw [← flatMap_cons]
    exact (set_perm_cons_eraseIdx hlt p').symm.flatMap_right _

/-! ## The contract -/

/-- The process runs (a part of) the left side of a node. -/
def Proc.OnLeft (p : Proc σ) (node : List Bool) : Prop := false :: node <:+ position p.ctx

/-- …of the right side. -/
def Proc.OnRight (p : Proc σ) (node : List Bool) : Prop := true :: node <:+ position p.ctx

/-- The process has closed its copies of the ends of pipes: it runs a program, or has nothing above
2 open. -/
def Proc.Settled (p : Proc σ) : Prop := p.code = .program ∨ ∀ fd, 3 ≤ fd → p.fds fd = none

def Proc.Holds (p : Proc σ) (node : List Bool) (write : Bool) : Prop :=
  ∃ fd, p.fds fd = some (.pipe node write)

/-- **Descriptor plumbing** of a tree:

* no node has made two pipes, so a node stands for its pipe;
* a command that is to be started is a leaf of the tree, and exactly 0, 1 and 2 are open, each as
  the innermost frame around the leaf that names it says;
* a process that has closed its copies holds the write end of a pipe only on its left side, and the
  read end only on its right side;
* once all have done so and those on the left side have exited, nobody holds the write end. -/
structure Plumbed (root : Cmd σ) (s : Shell σ) : Prop where
  once : s.pipes.Nodup
  start : ∀ p ∈ s.procs, ∀ argv, p.code = .exec argv → plug p.ctx (.exec argv) = root ∧
    ∀ fd, p.fds fd = if fd < 3 then some (resolve p.ctx fd) else none
  sides : ∀ p ∈ s.procs, p.Settled → ∀ node,
    (p.Holds node true → p.OnLeft node) ∧ (p.Holds node false → p.OnRight node)
  ends : (∀ p ∈ s.procs, p.Settled) → ∀ node, (∀ p ∈ s.procs, p.OnLeft node → p.code = .done) →
    ∀ p ∈ s.procs, ¬ p.Holds node true

theorem shell_plumbed (hs : root.Std) {s : Shell σ} (h : (shell root).Reach s) :
    Plumbed root s := by
  have hr := shell_ready hs h
  have hheld : ∀ p ∈ s.procs, p.Settled → Held p.ctx p.fds := by
    rintro p hp (hc | hc)
    · have h1 := hr p hp
      unfold Proc.Ready at h1
      rw [hc] at h1
      exact h1
    · exact (hr p hp).tidy hc
  refine ⟨(shell_fresh hs h).once, fun p hp argv hc => ?_, fun p hp hset node => ⟨?_, ?_⟩,
    fun hset node hdone p hp => ?_⟩
  · have h1 := hr p hp
    unfold Proc.Ready at h1
    rw [hc] at h1
    exact ⟨h1.1, fun fd => congrFun h1.2 fd⟩
  · rintro ⟨fd, hx⟩
    exact hheld p hp hset fd node true hx
  · rintro ⟨fd, hx⟩
    exact hheld p hp hset fd node false hx
  · rintro ⟨fd, hx⟩
    have h1 := hr p hp
    unfold Proc.Ready at h1
    rw [hdone p hp (hheld p hp (hset p hp) fd node true hx)] at h1
    rw [h1] at hx
    cases hx

/-- **Descriptor plumbing holds in every state of every run of a tree.** -/
theorem plumbing (hs : root.Std) {s : Shell σ} (h : (shell root).Reach s) : Plumbed root s :=
  shell_plumbed hs h

theorem reach_move {s : Shell σ} {p p' : Proc σ} {new : List (Proc σ)} (h : (shell root).Reach s)
    (i : Nat) (hi : s.procs[i]? = some p) (hm : Move s.pipes p p' new n) :
    (shell root).Reach ⟨s.procs.set i p' ++ new, n⟩ :=
  .step h ⟨p, p', new, hi, hm, rfl⟩

/-- The tree of `1 | 2`. -/
def onePipe : Cmd Nat := .pipe (.exec [1]) (.exec [2])

/-- …for instance both sides of `1 | 2`, which start with the two ends of one pipe. -/
theorem plumbing_sides : ∃ (s : Shell Nat) (p q : Proc Nat), (shell onePipe).Reach s ∧ p ∈ s.procs ∧
    q ∈ s.procs ∧ p.code = .exec [1] ∧ q.code = .exec [2] ∧ p.fds 1 = some (.pipe [] true) ∧
    q.fds 0 = some (.pipe [] false) ∧ p.fds 3 = none ∧ q.fds 3 = none ∧ s.pipes = [[]] := by
  have h0 : (shell onePipe).Reach ⟨[⟨[], std [], .run [] onePipe⟩], []⟩ := .init rfl
  have h1 := reach_move h0 0 rfl .run
  have h2 := reach_move h1 0 rfl (.pipe rfl rfl)
  have h3 := reach_move h2 0 rfl .fork
  have h4 := reach_move h3 1 rfl .close
  have h5 := reach_move h4 1 rfl (.dup rfl rfl)
  have h6 := reach_move h5 1 rfl .close
  have h7 := reach_move h6 1 rfl .close
  have h8 := reach_move h7 1 rfl .run
  have h9 := reach_move h8 0 rfl .fork
  have h10 := reach_move h9 2 rfl .close
  have h11 := reach_move h10 2 rfl (.dup rfl rfl)
  have h12 := reach_move h11 2 rfl .close
  have h13 := reach_move h12 2 rfl .close
  have h14 := reach_move h13 2 rfl .run
  have hs : onePipe.Std := ⟨trivial, trivial⟩
  have hstart := (plumbing hs h14).start
  have hp := (hstart _ (mem_of_getElem? (i := 1) rfl) [1] rfl).2
  have hq := (hstart _ (mem_of_getElem? (i := 2) rfl) [2] rfl).2
  exact ⟨_, _, _, h14, mem_of_getElem? (i := 1) rfl, mem_of_getElem? (i := 2) rfl, rfl, rfl, hp 1,
    hq 0, hp 3, hq 3, rfl⟩

/-- The parser only makes redirections of 0 and 1. -/
theorem Cmd.Ok.std {t : Tree} (h : t.Ok) : t.Std := by
  induction t with
  | exec => trivial
  | redir cmd file mode fd ih =>
    obtain ⟨hc, -, op, -, rfl⟩ := h
    exact ⟨ih hc, by cases op <;> decide⟩
  | pipe left right ihl ihr | list left right ihl ihr => exact ⟨ihl h.1, ihr h.2⟩
  | back cmd ih => exact ih h

/-- **Descriptor plumbing of the shell**: in every run of every line that it parses. -/
theorem plumbing_line {l : List UInt8} {m : Nat} (hn : 0 ∉ l) {r : Parsed}
    (hp : parsecmd m (l ++ [0]) = .ok r) {s : Shell (List UInt8)} (h : (shell r.tree).Reach s) :
    Plumbed r.tree s :=
  shell_plumbed ((parsecmd_sound hn hp).1.ok (lex_plain hn)).std h

end Xv6.Sh
