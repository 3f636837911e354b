import Xv6.Fs.Disk
import Xv6.Fs.Log

/-!
# Fs/Inode — files on the disk: `fs.c`, and `filewrite`

The map from a file's blocks to those of the disk, and reading and writing.  An inode in memory is
an entry `k` of the inode table; `ilock` reads it from the disk.

`writei` copies from a source that may be user memory, of which any part may be missing: a source
says for each byte whether it can be read (`copyin` fails at the first that cannot, having copied
those before it).
-/

namespace Xv6.Fsys

open Act Bytes Function

/-- Entries of the inode table. -/
def NINODE : Nat := 50

def T_DIR : Int := 1
def T_FILE : Int := 2

variable [Super]

/-! ## The inode table -/

/-- Copy the inode to the disk. -/
def iupdate (k : Nat) : Act Fs Panic Unit := do
  let ip ← gets fun s => s.itable k
  modify fun s => s.setDino ip.inum ip.d
  logWrite (IBLOCK ip.inum)

/-- Lock the inode, and read it if it has not been read. -/
def ilock (k : Nat) : Act Fs Panic Unit := fun s =>
  let ip := s.itable k
  if ip.ref < 1 then .error .ilock
  else if ip.locked then .error .deadlock
  else if ip.valid then .ok ((), s.setIno k { ip with locked := true })
  else if (s.dino ip.inum).type = 0 then .error .noType
  else .ok ((), s.setIno k { ip with locked := true, valid := true, d := s.dino ip.inum })

def iunlock (k : Nat) : Act Fs Panic Unit := fun s =>
  let ip := s.itable k
  if ip.locked = false ∨ ip.ref < 1 then .error .iunlock else .ok
    ((), s.setIno k { ip with locked := false })

/-- A change of the copy in memory. -/
def setD (k : Nat) (f : Dinode → Dinode) : Act Fs Panic Unit :=
  modify fun s => s.setIno k { s.itable k with d := f (s.itable k).d }

/-! ## Contents -/

/-- Store an address in the inode. -/
def Dinode.setAddr (d : Dinode) (j addr : Nat) : Dinode := { d with addrs := update d.addrs j addr }

/-- The address in slot `j` of the inode, allocated if there is none. -/
def bmapSlot (k j : Nat) : Act Fs Panic Nat := do
  let addr ← gets fun s => (s.itable k).d.addrs j
  if addr = 0 then
    let addr ← balloc
    if addr = 0 then return 0
    setD k fun d => d.setAddr j addr
    return addr
  else return addr

/-- The block of the disk that holds block `bn` of the file. -/
def bmap (k bn : Nat) : Act Fs Panic Nat :=
  if bn < NDIRECT then bmapSlot k bn
  else if bn - NDIRECT < NINDIRECT then do
    let ind ← bmapSlot k NDIRECT
    if ind = 0 then return 0
    let addr ← gets fun s => word (s.blk ind) (bn - NDIRECT)
    if addr = 0 then
      let addr ← balloc
      if addr = 0 then return 0
      modify fun s => s.setBlk ind (setWord (s.blk ind) (bn - NDIRECT) addr)
      logWrite ind
      return addr
    else return addr
  else stop .bmapOutOfRange

/-- The loop of `readi`; `ok tot m` says whether `m` bytes can be copied out after the first
`tot`. -/
def readLoop (ok : Nat → Nat → Bool) (k n : Nat) :
    Nat → Nat → Nat → List UInt8 → Act Fs Panic (Int × List UInt8)
  | 0, _, tot, out => return (tot, out)
  | fuel + 1, off, tot, out =>
    if tot < n then do
      let addr ← bmap k (off / BSIZE)
      if addr = 0 then return (tot, out)
      let data ← gets fun s => s.blk addr
      let m := min (n - tot) (BSIZE - off % BSIZE)
      if ok tot m then readLoop ok k n fuel (off + m) (tot + m) (out ++ take data (off % BSIZE) m)
      else return (-1, out)
    else return (tot, out)

/-- Read from the inode: what is returned, and the bytes copied out. -/
def readi (ok : Nat → Nat → Bool) (k off n : Nat) : Act Fs Panic (Int × List UInt8) := do
  let size ← gets fun s => (s.itable k).d.size
  if size < off ∨ (off + n) % 2 ^ 32 < off then return (0, [])
  let n := if size < off + n then size - off else n
  -- every turn of the loop copies a byte
  readLoop ok k n n off 0 []

/-- Where bytes come from: `none` where the memory is not mapped. -/
abbrev Source := Nat → Option UInt8

/-- Kernel memory, all of which can be read. -/
def kernelSrc (l : List UInt8) : Source := fun i => some (l.getD i 0)

/-- How many of `m` bytes after the first `tot` are copied. -/
def Source.avail (src : Source) (tot m : Nat) : Nat :=
  ((List.range m).takeWhile fun i => (src (tot + i)).isSome).length

/-- `either_copyin`: a buffer with the bytes that can be copied. -/
def Source.copyin (src : Source) (m : Nat → UInt8) (pos tot n : Nat) : Nat → UInt8 :=
  overlay m pos (src.avail tot n) fun i => (src (tot + i)).getD 0

/-- The loop of `writei`: the offset it ends at, and how much was written. -/
def writeLoop (src : Source) (k n : Nat) : Nat → Nat → Nat → Act Fs Panic (Nat × Nat)
  | 0, off, tot => return (off, tot)
  | fuel + 1, off, tot =>
    if tot < n then do
      let addr ← bmap k (off / BSIZE)
      if addr = 0 then return (off, tot)
      let m := min (n - tot) (BSIZE - off % BSIZE)
      modify fun s => s.setBlk addr (src.copyin (s.blk addr) (off % BSIZE) tot m)
      if src.avail tot m < m then return (off, tot)
      logWrite addr
      writeLoop src k n fuel (off + m) (tot + m)
    else return (off, tot)

/-- Write to the inode. -/
def writei (src : Source) (k off n : Nat) : Act Fs Panic Int := do
  let size ← gets fun s => (s.itable k).d.size
  if size < off ∨ (off + n) % 2 ^ 32 < off then return -1
  if MAXFILE * BSIZE < (off + n) % 2 ^ 32 then return -1
  let (off, tot) ← writeLoop src k n n off 0
  setD k fun d => if d.size < off then { d with size := off } else d
  iupdate k
  return tot

/-! ## Writing -/

/-- What `filewrite` writes in one operation. -/
def maxWrite : Nat := (Xv6.Fs.MAXOPBLOCKS - 1 - 1 - 2) / 2 * BSIZE

/-- The loop of `filewrite`: how far it gets. -/
def filewriteLoop (f : Nat) (src : Source) (n : Nat) : Nat → Nat → Act Fs Panic Nat
  | 0, i => return i
  | fuel + 1, i =>
    if i < n then do
      let n1 := min (n - i) maxWrite
      beginOp
      let F ← gets fun s => s.ftable f
      ilock F.ip
      let r ← writei (fun j => src (i + j)) F.ip F.off n1
      if 0 < r then modify fun s =>
        { s with ftable := update s.ftable f { s.ftable f with off := (F.off + r.toNat) % 2 ^ 32 } }
      iunlock F.ip
      endOp
      if r ≠ n1 then return i else filewriteLoop f src n fuel (i + n1)
    else return i

/-- `filewrite` to a file of type `FD_INODE`. -/
def filewrite (f : Nat) (src : Source) (n : Int) : Act Fs Panic Int := do
  let F ← gets fun s => s.ftable f
  if F.writable then
    -- every turn of the loop writes a byte; there is none for an `n` below zero
    let i ← filewriteLoop f src n.toNat n.toNat 0
    return if (i : Int) = n then n else -1
  else return -1

end Xv6.Fsys
