import Xv6.Fs.Inode

namespace Xv6
open Lib

abbrev Str := List UInt8

def slash : UInt8 := 47

/-- `strncmp(s, t, n) == 0`, where a list ends in a zero byte. -/
def strncmpEq : ℕ → Str → Str → Bool
  | 0, _, _ => true
  | n + 1, s, t =>
    if s.headD 0 ≠ 0 ∧ s.headD 0 = t.headD 0 then strncmpEq n s.tail t.tail
    else decide (s.headD 0 = t.headD 0)

def namecmpEq (s t : Str) : Bool := strncmpEq DIRSIZ s t

def strncpy (name : Str) : List UInt8 :=
  (name.take DIRSIZ) ++ List.replicate (DIRSIZ - (name.take DIRSIZ).length) 0

structure Dirent where
  inum : ℕ
  name : List UInt8

/-- `sizeof(struct dirent)`. -/
def DIRENT : ℕ := 16

/-- The bytes of a directory entry; `de.inum` is a `ushort`. -/
def Dirent.encode (de : Dirent) : List UInt8 := le16 de.inum ++ de.name

def Dirent.decode (l : List UInt8) : Dirent := ⟨num16 l, l.drop 2⟩

def readDirent (msg : String) (i : Slot) (off : ℕ) : FsM Dirent := do
  let r ← readi i off DIRENT
  match r with
  | none => Prog.panic msg
  | some l => if l.length ≠ DIRENT then Prog.panic msg else return Dirent.decode l

/-- The loop of `dirlookup` over `n` entries from offset `off` on. -/
def dirlookupFrom (i : Slot) (name : Str) : ℕ → ℕ → FsM (Option (Slot × ℕ))
  | 0, _ => return none
  | n + 1, off => do
    let de ← readDirent "dirlookup read" i off
    if de.inum ≠ 0 ∧ namecmpEq name de.name then
      let dev ← readInode i (·.dev)
      let ip ← iget dev de.inum
      return some (ip, off)
    else dirlookupFrom i name n (off + DIRENT)

/-- The number of entries at offsets below `size`. -/
def numEntries (size : ℕ) : ℕ := (size + (DIRENT - 1)) / DIRENT

/-- The inode of the entry, referenced, and the entry's offset. -/
def dirlookup (i : Slot) (name : Str) : FsM (Option (Slot × ℕ)) := do
  let dp ← readInode i id
  if dp.type ≠ T_DIR then Prog.panic "dirlookup not DIR"
  else dirlookupFrom i name (numEntries dp.size) 0

/-- The offset of the first free entry among the `n` entries from `off` on, or where they end. -/
def emptyFrom (i : Slot) : ℕ → ℕ → FsM ℕ
  | 0, off => return off
  | n + 1, off => do
    let de ← readDirent "dirlink read" i off
    if de.inum = 0 then return off else emptyFrom i n (off + DIRENT)

def dirlink (i : Slot) (name : Str) (inum : ℕ) : FsM ℤ := do
  let found ← dirlookup i name
  match found with
  | some (ip, _) => do
    iput ip
    return -1
  | none => do
    let size ← readInode i (·.size)
    let off ← emptyFrom i (numEntries size) 0
    let r ← writei i (Dirent.encode ⟨inum, strncpy name⟩) off
    if r ≠ DIRENT then Prog.panic "dirlink" else return 0

/-- The next element of the path, cut to `DIRSIZ` bytes, and the path after it. -/
def skipelem (path : Str) : Option (Str × Str) :=
  let path := path.dropWhile (· == slash)
  if path = [] then none
  else some ((path.takeWhile (· != slash)).take DIRSIZ,
    (path.dropWhile (· != slash)).dropWhile (· == slash))

theorem skipelem_length {path name rest : Str} (h : skipelem path = some (name, rest)) :
    rest.length < path.length := by
  unfold skipelem at h
  simp only at h
  split_ifs at h with hp
  obtain ⟨-, rfl⟩ := Prod.mk.inj (Option.some.inj h)
  generalize hq : path.dropWhile (· == slash) = q at hp ⊢
  have h1 : q.length ≤ path.length := by
    rw [← hq]
    exact (List.dropWhile_suffix _).length_le
  have h2 : ((q.dropWhile (· != slash)).dropWhile (· == slash)).length < q.length := by
    obtain ⟨c, cs, rfl⟩ := List.exists_cons_of_ne_nil hp
    have hc : c ≠ slash := by
      rintro rfl
      have := List.head_dropWhile_not (· == slash) (l := path) (by rw [hq]; simp)
      simp [hq] at this
    rw [List.dropWhile_cons_of_pos (by simp [hc])]
    calc ((cs.dropWhile (· != slash)).dropWhile (· == slash)).length
        ≤ (cs.dropWhile (· != slash)).length := (List.dropWhile_suffix _).length_le
      _ ≤ cs.length := (List.dropWhile_suffix _).length_le
      _ < (c :: cs).length := by simp
  omega

/-- The loop of `namex`.  Every element takes at least one byte of the path, so the length of the
path is enough fuel. -/
def namexFrom (nameiparent : Bool) : ℕ → Slot → Str → Str → FsM (Option (Slot × Str))
  | 0, _, _, _ => return none
  | k + 1, ip, path, name =>
    match skipelem path with
    | none =>
      if nameiparent then do
        iput ip
        return none
      else return some (ip, name)
    | some (name, path) => do
      ilock ip
      let type ← readInode ip (·.type)
      if type ≠ T_DIR then
        iunlockput ip
        return none
      else if nameiparent ∧ path = [] then
        iunlock ip
        return some (ip, name)
      else
        let next ← dirlookup ip name
        match next with
        | none => do
          iunlockput ip
          return none
        | some (next, _) => do
          iunlockput ip
          namexFrom nameiparent k next path name

def namexStart (p : Pid) (path : Str) : FsM Slot :=
  if path.head? = some slash then iget ROOTDEV ROOTINO
  else do
    let cwd ← Prog.read fun s => (s.proc p).cwd
    match cwd with
    | none => Prog.panic "trap"
    | some i => idup i

def namex (p : Pid) (path : Str) (nameiparent : Bool) : FsM (Option (Slot × Str)) := do
  let ip ← namexStart p path
  namexFrom nameiparent (path.length + 1) ip path []

def namei (p : Pid) (path : Str) : FsM (Option Slot) := do
  let r ← namex p path false
  return r.map Prod.fst

def nameiparent (p : Pid) (path : Str) : FsM (Option (Slot × Str)) := namex p path true

end Xv6
