import Xv6.Fs.State

namespace Xv6
open Lib

def zeroBlock : Block := fun _ => 0

def bzero (b : ℕ) : FsM Unit := .atomic fun s => logged b () s (s.setBlock b zeroBlock)

/-- The first of the `n` bits from `b` on that is not set. -/
def firstFree (bits : ℕ → Bool) (b : ℕ) : ℕ → Option ℕ
  | 0 => none
  | n + 1 => if bits b = false then some b else firstFree bits (b + 1) n

/-- Search `k` blocks of the bitmap, the first of them with the bit of block `b` in front. -/
def ballocFrom : ℕ → ℕ → FsM ℕ
  | 0, _ => .panic "balloc: out of blocks"
  | k + 1, b => do
    let r ← Prog.atomic fun s =>
      match firstFree s.bitmap b (min BPB (s.sb.size - b)) with
      | some c => logged (s.sb.bblock b) (some c) s (s.setBit c true)
      | none => .done none s
    match r with
    | some c => do
      bzero c
      return c
    | none => ballocFrom k (b + BPB)

def balloc : FsM ℕ := do
  let size ← Prog.read fun s => s.sb.size
  ballocFrom ((size + BPB - 1) / BPB) 0

def freeingFree : String := "freeing free block"

def bfree (b : ℕ) : FsM Unit := .atomic fun s =>
  if s.bitmap b = false then .panic freeingFree
  else logged (s.sb.bblock b) () s (s.setBit b false)

/-- `ip->ref > 0 && ip->dev == dev && ip->inum == inum`. -/
def Inode.caches (ip : Inode) (dev inum : ℕ) : Bool :=
  decide (ip.ref > 0 ∧ ip.dev = dev ∧ ip.inum = inum)

def iget (dev inum : ℕ) : FsM Slot := .atomic fun s =>
  match (List.finRange NINODE).find? fun i => (s.inode i).caches dev inum with
  | some i => .done i (s.setInode i { s.inode i with ref := (s.inode i).ref + 1 })
  | none =>
    match (List.finRange NINODE).find? fun i => decide ((s.inode i).ref = 0) with
    | some i => .done i (s.setInode i { s.inode i with dev, inum, ref := 1, valid := false })
    | none => .panic "iget: no inodes"

/-- The inode after `memset(dip, 0, sizeof(*dip)); dip->type = type`. -/
def Dinode.fresh (type : ℤ) : Dinode where
  type := type
  major := 0
  minor := 0
  nlink := 0
  size := 0
  addrs _ := 0

def iallocFrom (dev : ℕ) (type : ℤ) : ℕ → ℕ → FsM Slot
  | 0, _ => .panic "ialloc: no inodes"
  | k + 1, inum => do
    let free ← Prog.atomic fun s =>
      if (s.dinode inum).type = 0 then
        logged (s.sb.iblock inum) true s (s.setDinode inum (.fresh type))
      else .done false s
    if free then iget dev inum else iallocFrom dev type k (inum + 1)

def ialloc (dev : ℕ) (type : ℤ) : FsM Slot := do
  let ninodes ← Prog.read fun s => s.sb.ninodes
  iallocFrom dev type (ninodes - 1) 1

def iupdate (i : Slot) : FsM Unit := .atomic fun s =>
  logged (s.sb.iblock (s.inode i).inum) () s
    (s.setDinode (s.inode i).inum (s.inode i).toDinode)

def idup (i : Slot) : FsM Slot := do
  modifyInode i fun ip => { ip with ref := ip.ref + 1 }
  return i

def noType : String := "ilock: no type"

/-- What `ilock` does once it has the lock: read the inode from the disk if that was not done. -/
def iload (i : Slot) : FsM Unit := .atomic fun s =>
  if (s.inode i).valid then .done () s
  else if (s.dinode (s.inode i).inum).type = 0 then .panic noType
  else .done () (s.setInode i
    { s.inode i with toDinode := s.dinode (s.inode i).inum, valid := true })

def ilock (i : Slot) : FsM Unit := do
  let ref ← readInode i (·.ref)
  if ref < 1 then Prog.panic "ilock"
  else
    Prog.acquire i (pure ())
    iload i

def iunlock (i : Slot) : FsM Unit := do
  let locked ← Prog.held i pure
  let ref ← readInode i (·.ref)
  if locked = false ∨ ref < 1 then Prog.panic "iunlock"
  else Prog.release i (pure ())

def Inode.setAddr (k a : ℕ) (ip : Inode) : Inode :=
  { ip with addrs := Function.update ip.addrs k a }

/-- `ip->addrs[k]`, allocating it if it is zero. -/
def addrOrAlloc (i : Slot) (k : ℕ) : FsM ℕ := do
  let addr ← readInode i (·.addrs k)
  if addr = 0 then
    let b ← balloc
    modifyInode i (·.setAddr k b)
    return b
  else return addr

/-- Entry `k` of the indirect block `addr`, allocating it if it is zero. -/
def entryOrAlloc (addr k : ℕ) : FsM ℕ := do
  let a ← Prog.read fun s => (s.block addr).get32 (4 * k)
  if a = 0 then
    let b ← balloc
    Prog.atomic fun s => logged addr () s (s.setBlock addr ((s.block addr).put32 (4 * k) b))
    return b
  else return a

def bmap (i : Slot) (bn : ℕ) : FsM ℕ := do
  if bn < NDIRECT then addrOrAlloc i bn
  else if bn - NDIRECT < NINDIRECT then
    let addr ← addrOrAlloc i NDIRECT
    entryOrAlloc addr (bn - NDIRECT)
  else Prog.panic "bmap: out of range"

/-- Free the direct blocks `k, ..., k + n - 1`. -/
def freeDirect (i : Slot) : ℕ → ℕ → FsM Unit
  | 0, _ => pure ()
  | n + 1, k => do
    let addr ← readInode i (·.addrs k)
    Prog.when (addr ≠ 0) do
      bfree addr
      modifyInode i (·.setAddr k 0)
    freeDirect i n (k + 1)

/-- Free the blocks that the entries `k, ..., k + n - 1` of an indirect block name. -/
def freeEntries (a : Block) : ℕ → ℕ → FsM Unit
  | 0, _ => pure ()
  | n + 1, k => do
    Prog.when (a.get32 (4 * k) ≠ 0) (bfree (a.get32 (4 * k)))
    freeEntries a n (k + 1)

def itrunc (i : Slot) : FsM Unit := do
  freeDirect i NDIRECT 0
  let addr ← readInode i (·.addrs NDIRECT)
  Prog.when (addr ≠ 0) do
    let a ← Prog.read fun s => s.block addr
    freeEntries a NINDIRECT 0
    bfree addr
    modifyInode i (·.setAddr NDIRECT 0)
  modifyInode i fun ip => { ip with size := 0 }
  iupdate i

/-- The part of `iput` for an inode without links: free it if `ref` is 1. -/
def ifree (i : Slot) : FsM Unit := do
  let r ← readInode i (·.ref)
  Prog.when (r = 1) do
    itrunc i
    modifyInode i fun ip => { ip with type := 0 }
    iupdate i
    modifyInode i fun ip => { ip with valid := false }

def iput (i : Slot) : FsM Unit := do
  Prog.acquire i (pure ())
  let unlinked ← readInode i fun ip => ip.valid && decide (ip.nlink = 0)
  Prog.when unlinked (ifree i)
  Prog.release i (pure ())
  modifyInode i fun ip => { ip with ref := ip.ref - 1 }

def iunlockput (i : Slot) : FsM Unit := do
  iunlock i
  iput i

structure Stat where
  type : ℤ
  dev : ℕ
  ino : ℕ
  nlink : ℤ
  size : ℕ

def stati (i : Slot) : FsM Stat := readInode i fun ip => ⟨ip.type, ip.dev, ip.inum, ip.nlink, ip.size⟩

def uadd (a b : ℕ) : ℕ := (a + b) % 2 ^ 32

/-- The console is the only device in `devsw`. -/
def Inode.hasDevice (ip : Inode) : Prop :=
  ¬ (ip.major < 0 ∨ ip.major ≥ NDEV ∨ ip.major ≠ CONSOLE)

instance (ip : Inode) : Decidable ip.hasDevice := inferInstanceAs (Decidable (¬ _))

/-- `consoleread` gives the inode lock up while it waits for input.  It returns what was typed,
or fails when the process is killed. -/
def consoleread (i : Slot) (n : ℕ) : FsM (Option (List UInt8)) := do
  iunlock i
  let r ← answer
  ilock i
  return r.map (·.take n)

def consolewrite (i : Slot) (src : List UInt8) : FsM ℤ := do
  iunlock i
  ilock i
  return src.length

/-- The loop of `readi`, with enough fuel when that is at least `n`. -/
def readLoop (i : Slot) : ℕ → ℕ → ℕ → FsM (List UInt8)
  | 0, _, _ => return []
  | k + 1, off, n =>
    if n = 0 then return []
    else do
      let addr ← bmap i (off / BSIZE)
      let m := min n (BSIZE - off % BSIZE)
      let data ← Prog.read fun s => (s.block addr).slice (off % BSIZE) m
      let rest ← readLoop i k (off + m) (n - m)
      return data ++ rest

/-- Read at most `n` bytes; `none` is the result -1. -/
def readi (i : Slot) (off n : ℕ) : FsM (Option (List UInt8)) := do
  let ip ← readInode i id
  if ip.type = T_DEV then
    if ip.hasDevice then consoleread i n else return none
  else if off > ip.size ∨ uadd off n < off then return none
  else
    let n := if off + n > ip.size then ip.size - off else n
    let data ← readLoop i n off n
    return some data

/-- The loop of `writei`, which returns where it stops. -/
def writeLoop (i : Slot) : ℕ → ℕ → List UInt8 → FsM ℕ
  | 0, off, _ => return off
  | k + 1, off, src =>
    if src.length = 0 then return off
    else do
      let addr ← bmap i (off / BSIZE)
      let m := min src.length (BSIZE - off % BSIZE)
      Prog.atomic fun s => logged addr () s
        (s.setBlock addr ((s.block addr).put (off % BSIZE) (src.take m)))
      writeLoop i k (off + m) (src.drop m)

def writei (i : Slot) (src : List UInt8) (off : ℕ) : FsM ℤ := do
  let ip ← readInode i id
  if ip.type = T_DEV then
    if ip.hasDevice then consolewrite i src else return -1
  else if off > ip.size ∨ uadd off src.length < off then return -1
  else if off + src.length > MAXFILE * BSIZE then return -1
  else
    let off ← writeLoop i src.length off src
    let size ← readInode i (·.size)
    Prog.when (src.length > 0 ∧ off > size) do
      modifyInode i fun ip => { ip with size := off }
      iupdate i
    return src.length

end Xv6
