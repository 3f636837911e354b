import Xv6.Vm.Proc

/-!
# Vm/Exec — `exec.c` and `sys_exec`

The file system appears only as the contents of the named file; `fileRead` is what `readi` returns
for it.  Header fields are decoded from the bytes of the file at the offsets of `elf.h`.
-/

namespace Xv6

open Act Bytes

variable [Layout]

/-- A file as `readi` sees it. -/
structure ExecFile where
  data : Nat → UInt8
  size : Nat

/-- `readi` into kernel memory: the bytes it copies, for 32-bit `off` and `n`. -/
def fileRead (f : ExecFile) (off n : Nat) : List UInt8 :=
  let off := off % 2 ^ 32
  let n := n % 2 ^ 32
  if off > f.size ∨ (off + n) % 2 ^ 32 < off then []
  else take f.data off (if off + n > f.size then f.size - off else n)

/-- A field of `n` bytes of a structure read from the file. -/
def field (b : List UInt8) (off n : Nat) : Nat := getLE (fun i => b.getD i 0) off n

def ELF_MAGIC : Nat := 0x464C457F
def ELF_PROG_LOAD : Nat := 1
def MAXARG : Nat := 32
/-- `sizeof(struct elfhdr)`. -/
def elfhdrSize : Nat := 64
/-- `sizeof(struct proghdr)`. -/
def proghdrSize : Nat := 56

def flags2perm (flags : Nat) : Pte :=
  (if flags.testBit 0 then PTE_X else 0#64) ||| (if flags.testBit 1 then PTE_W else 0#64)

/-- The loop of `loadseg` from offset `i` of the segment. -/
def loadsegLoop (pagetable va : Nat) (ip : ExecFile) (offset sz : Nat) : Nat → Nat → Kern Int
  | 0, _ => pure 0
  | k + 1, i => do
    let pa ← walkaddr pagetable ((va + i) % 2 ^ 64)
    if pa = 0 then stop .loadseg
    else do
      let n := if sz - i < PGSIZE then sz - i else PGSIZE
      let bytes := fileRead ip (offset + i) n
      memput pa bytes
      if bytes.length ≠ n then pure (-1)
      else loadsegLoop pagetable va ip offset sz k (i + PGSIZE)

/-- Load a segment; `offset` and `sz` are 32-bit parameters. -/
def loadseg (pagetable va : Nat) (ip : ExecFile) (offset sz : Nat) : Kern Int :=
  let sz := sz % 2 ^ 32
  loadsegLoop pagetable va ip (offset % 2 ^ 32) sz ((sz + (PGSIZE - 1)) / PGSIZE) 0

/-- The program-header loop of `exec`: the size reached, and whether all headers were loaded. -/
def loadProgram (pagetable : Nat) (ip : ExecFile) : Nat → Nat → Nat → Kern (Bool × Nat)
  | 0, _, sz => pure (true, sz)
  | k + 1, off, sz => do
    let ph := fileRead ip off proghdrSize
    if ph.length ≠ proghdrSize then pure (false, sz)
    else if field ph 0 4 ≠ ELF_PROG_LOAD then loadProgram pagetable ip k (off + proghdrSize) sz
    else
      let vaddr := field ph 16 8
      let filesz := field ph 32 8
      let memsz := field ph 40 8
      if memsz < filesz then pure (false, sz)
      else if (vaddr + memsz) % 2 ^ 64 < vaddr then pure (false, sz)
      else if vaddr % PGSIZE ≠ 0 then pure (false, sz)
      else do
        let sz1 ← uvmalloc pagetable sz ((vaddr + memsz) % 2 ^ 64) (flags2perm (field ph 4 4))
        if sz1 = 0 then pure (false, sz)
        else do
          let r ← loadseg pagetable vaddr ip (field ph 8 8) filesz
          if r < 0 then pure (false, sz1)
          else loadProgram pagetable ip k (off + proghdrSize) sz1

/-- Subtract from the stack pointer, in 64 bits, and align it. -/
def pushSp (sp n : Nat) : Nat :=
  let sp := (sp + 2 ^ 64 - n) % 2 ^ 64
  sp - sp % 16

/-- Push the argument strings: the stack pointer and the addresses of the strings, if they fit. -/
def pushArgs (pagetable stackbase : Nat) : List (List UInt8) → Nat → List Nat →
    Kern (Option (Nat × List Nat))
  | [], sp, ustack => pure (some (sp, ustack))
  | arg :: rest, sp, ustack =>
    if ustack.length ≥ MAXARG then pure none
    else
      let sp := pushSp sp (arg.length + 1)
      if sp < stackbase then pure none
      else do
        let r ← copyout pagetable sp (arg ++ [0])
        if r < 0 then pure none else pushArgs pagetable stackbase rest sp (ustack ++ [sp])

/-- The eight bytes of a 64-bit word. -/
def wordBytes (x : Nat) : List UInt8 := (List.range 8).map fun i => UInt8.ofNat (x / 256 ^ i)

/-- Push the strings and the `argv` array: the final stack pointer, if everything fits. -/
def pushStack (pagetable sz : Nat) (argv : List (List UInt8)) : Kern (Option Nat) := do
  let stackbase := sz - PGSIZE
  match ← pushArgs pagetable stackbase argv sz [] with
  | none => pure none
  | some (sp, ustack) => do
    let sp := pushSp sp ((ustack.length + 1) * 8)
    if sp < stackbase then pure none
    else do
      let r ← copyout pagetable sp ((ustack ++ [0]).flatMap wordBytes)
      if r < 0 then pure none else pure (some sp)

/-- Program name for debugging: what follows the last slash. -/
def lastName : List UInt8 → List UInt8 → List UInt8
  | [], last => last
  | c :: s, last => lastName s (if c = 47 then s else last)

/-- Commit to the user image. -/
def execCommit (p pagetable sz sp entry : Nat) (path : List UInt8) (argc : Nat) : Kern Int := do
  let pr ← getProc p
  setTrapframe pr.trapframe 120 sp
  setProc p fun q => { q with
    name := safestrcpy (lastName path path) 16, pagetable := pagetable, sz := sz }
  setTrapframe pr.trapframe 24 entry
  setTrapframe pr.trapframe 48 sp
  procFreepagetable pr.pagetable pr.sz
  pure argc

/-- `exec` after the program has been loaded up to `sz`: the stack, the arguments, the commit. -/
def execStack (p pagetable sz entry : Nat) (path : List UInt8) (argv : List (List UInt8)) :
    Kern Int := do
  let sz := PGROUNDUP sz
  let sz1 ← uvmalloc pagetable sz ((sz + 2 * PGSIZE) % 2 ^ 64) PTE_W
  if sz1 = 0 then do
    procFreepagetable pagetable sz
    pure (-1)
  else do
    uvmclear pagetable (sz1 - 2 * PGSIZE)
    match ← pushStack pagetable sz1 argv with
    | none => do
      procFreepagetable pagetable sz1
      pure (-1)
    | some sp => execCommit p pagetable sz1 sp entry path argv.length

def exec (p : Nat) (path : List UInt8) (ip : Option ExecFile) (argv : List (List UInt8)) :
    Kern Int :=
  match ip with
  | none => pure (-1)
  | some ip =>
    let elf := fileRead ip 0 elfhdrSize
    if elf.length ≠ elfhdrSize then pure (-1)
    else if field elf 0 4 ≠ ELF_MAGIC then pure (-1)
    else do
      let pagetable ← procPagetable p
      if pagetable = 0 then pure (-1)
      else do
        let (ok, sz) ← loadProgram pagetable ip (field elf 56 2) (field elf 32 8) 0
        if ¬ ok then do
          procFreepagetable pagetable sz
          pure (-1)
        else execStack p pagetable sz (field elf 24 8) path argv

/-! ## `sys_exec` -/

/-- `fetchaddr`: a 64-bit word of user memory. -/
def fetchaddr (p addr : Nat) : Kern (Option Nat) := do
  let pr ← getProc p
  if addr ≥ pr.sz ∨ (addr + 8) % 2 ^ 64 > pr.sz then pure none
  else do
    match ← copyin pr.pagetable addr 8 with
    | none => pure none
    | some b => pure (some (field b 0 8))

/-- Free the argument pages. -/
def freeArgs : List Nat → Kern Unit
  | [] => pure ()
  | page :: rest => do
    kfree page
    freeArgs rest

/-- The argument loop of `sys_exec`: the pages taken, and the strings if all were fetched. -/
def fetchArgs (p uargv : Nat) : Nat → Nat → List Nat → List (List UInt8) →
    Kern (List Nat × Option (List (List UInt8)))
  | 0, _, pages, _ => pure (pages, none)
  | k + 1, i, pages, argv => do
    match ← fetchaddr p ((uargv + 8 * i) % 2 ^ 64) with
    | none => pure (pages, none)
    | some uarg =>
      if uarg = 0 then pure (pages, some argv)
      else do
        match ← kalloc with
        | none => pure (pages, none)
        | some page => do
          let pr ← getProc p
          let (r, bytes) ← copyinstr pr.pagetable uarg PGSIZE
          memput page bytes
          if r < 0 then pure (pages ++ [page], none)
          else fetchArgs p uargv k (i + 1) (pages ++ [page]) (argv ++ [bytes.dropLast])

def MAXPATH : Nat := 128

/-- `sys_exec`, with the files that paths name. -/
def sysExec (p upath uargv : Nat) (namei : List UInt8 → Option ExecFile) : Kern Int := do
  let pr ← getProc p
  let (r, path) ← copyinstr pr.pagetable upath MAXPATH
  if r < 0 then pure (-1)
  else do
    let (pages, argv) ← fetchArgs p uargv MAXARG 0 [] []
    match argv with
    | none => do
      freeArgs pages
      pure (-1)
    | some argv => do
      let ret ← exec p path.dropLast (namei path.dropLast) argv
      freeArgs pages
      pure ret

end Xv6
