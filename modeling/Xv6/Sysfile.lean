import Xv6.File

namespace Xv6
open Lib

def err : ℤ := -1

theorem lt_of_argfd {fd : ℤ} (h : 0 ≤ fd ∧ fd.toNat < NOFILE) : fd.toNat < NOFILE := h.2

def argfd (p : Pid) (fd : Option ℤ) : FsM (Option (Fin NOFILE × Fin NFILE)) :=
  match fd with
  | none => return none
  | some fd =>
    if h : 0 ≤ fd ∧ fd.toNat < NOFILE then do
      let f ← Prog.read fun s => (s.proc p).ofile ⟨fd.toNat, lt_of_argfd h⟩
      return f.map fun f => (⟨fd.toNat, lt_of_argfd h⟩, f)
    else return none

def setOfile (p : Pid) (fd : Fin NOFILE) (f : Option (Fin NFILE)) : FsM Unit := .modify fun s =>
  s.setProc p { s.proc p with ofile := Function.update (s.proc p).ofile fd f }

def fdalloc (p : Pid) (f : Fin NFILE) : FsM (Option (Fin NOFILE)) := .atomic fun s =>
  match (List.finRange NOFILE).find? fun fd => ((s.proc p).ofile fd).isNone with
  | some fd => .done (some fd)
      (s.setProc p { s.proc p with ofile := Function.update (s.proc p).ofile fd (some f) })
  | none => .done none s

def sysDup (p : Pid) (fd : Option ℤ) : FsM ℤ := do
  let r ← argfd p fd
  match r with
  | none => return err
  | some (_, f) => do
    let fd ← fdalloc p f
    match fd with
    | none => return err
    | some fd => do
      filedup f
      return fd

/-- `n` is `none` when the count or the buffer is not valid. -/
def sysRead (p : Pid) (fd : Option ℤ) (n : Option ℕ) : FsM ℤ := do
  let r ← argfd p fd
  match r, n with
  | some (_, f), some n => do
    let data ← fileread f n
    match data with
    | none => return err
    | some l => return l.length
  | _, _ => return err

def sysWrite (p : Pid) (fd : Option ℤ) (src : Option (List UInt8)) : FsM ℤ := do
  let r ← argfd p fd
  match r, src with
  | some (_, f), some src => filewrite f src
  | _, _ => return err

def sysClose (p : Pid) (fd : Option ℤ) : FsM ℤ := do
  let r ← argfd p fd
  match r with
  | none => return err
  | some (fd, f) => do
    setOfile p fd none
    fileclose f
    return 0

/-- `st` tells whether the buffer for the result is valid. -/
def sysFstat (p : Pid) (fd : Option ℤ) (st : Bool) : FsM ℤ := do
  let r ← argfd p fd
  match r with
  | none => return err
  | some (_, f) =>
    if st then do
      let r ← filestat f
      return if r.isSome then 0 else err
    else return err

def setNlink (f : ℤ → ℤ) (i : Slot) : FsM Unit :=
  modifyInode i fun ip => { ip with nlink := toShort (f ip.nlink) }

/-- The second half of `sys_link`: enter `ip` under the new path. -/
def linkAt (p : Pid) (new : Str) (ip : Slot) : FsM Bool := do
  let r ← nameiparent p new
  match r with
  | none => return false
  | some (dp, name) => do
    ilock dp
    let dpdev ← readInode dp (·.dev)
    let ipdev ← readInode ip (·.dev)
    if dpdev ≠ ipdev then
      iunlockput dp
      return false
    else
      let inum ← readInode ip (·.inum)
      let r ← dirlink dp name inum
      iunlockput dp
      return decide (0 ≤ r)

/-- The rest of `sys_link`, with the link counted. -/
def linkCounted (p : Pid) (new : Str) (ip : Slot) : FsM ℤ := do
  let ok ← linkAt p new ip
  if ok then
    iput ip
    endOp
    return 0
  else
    ilock ip
    setNlink (· - 1) ip
    iupdate ip
    iunlockput ip
    endOp
    return err

def sysLink (p : Pid) (old new : Option Str) : FsM ℤ :=
  match old, new with
  | some old, some new => do
    beginOp
    let r ← namei p old
    match r with
    | none => do
      endOp
      return err
    | some ip => do
      ilock ip
      let type ← readInode ip (·.type)
      if type = T_DIR then
        iunlockput ip
        endOp
        return err
      else
        setNlink (· + 1) ip
        iupdate ip
        iunlock ip
        linkCounted p new ip
  | _, _ => return err

/-- The loop of `isdirempty` over `n` entries from offset `off` on. -/
def isdiremptyFrom (i : Slot) : ℕ → ℕ → FsM Bool
  | 0, _ => return true
  | n + 1, off => do
    let de ← readDirent "isdirempty: readi" i off
    if de.inum ≠ 0 then return false else isdiremptyFrom i n (off + DIRENT)

def isdirempty (i : Slot) : FsM Bool := do
  let size ← readInode i (·.size)
  isdiremptyFrom i (numEntries size - 2) (2 * DIRENT)

/-- `ip->type == T_DIR && !isdirempty(ip)`. -/
def isBusy (i : Slot) : FsM Bool := do
  let type ← readInode i (·.type)
  if type = T_DIR then
    let empty ← isdirempty i
    return !empty
  else return false

def dot : Str := [46]

def dotdot : Str := [46, 46]

/-- The end of `sys_unlink` under the label `bad`. -/
def unlinkBad (dp : Slot) : FsM ℤ := do
  iunlockput dp
  endOp
  return err

/-- `sys_unlink` after its checks, with both inodes locked. -/
def unlinkEntry (dp ip : Slot) (off : ℕ) : FsM ℤ := do
  let r ← writei dp (List.replicate DIRENT 0) off
  if r ≠ DIRENT then Prog.panic "unlink: writei"
  else
    let type ← readInode ip (·.type)
    Prog.when (type = T_DIR) do
      setNlink (· - 1) dp
      iupdate dp
    iunlockput dp
    setNlink (· - 1) ip
    iupdate ip
    iunlockput ip
    endOp
    return 0

/-- `sys_unlink` once the entry at offset `off` of the locked directory is found. -/
def unlinkFound (dp ip : Slot) (off : ℕ) : FsM ℤ := do
  ilock ip
  let nlink ← readInode ip (·.nlink)
  if nlink < 1 then Prog.panic "unlink: nlink < 1"
  else
    let busy ← isBusy ip
    if busy then
      iunlockput ip
      unlinkBad dp
    else unlinkEntry dp ip off

/-- `sys_unlink` once the directory is found. -/
def unlinkIn (dp : Slot) (name : Str) : FsM ℤ := do
  ilock dp
  if namecmpEq name dot ∨ namecmpEq name dotdot then unlinkBad dp
  else
    let r ← dirlookup dp name
    match r with
    | none => unlinkBad dp
    | some (ip, off) => unlinkFound dp ip off

def sysUnlink (p : Pid) (path : Option Str) : FsM ℤ :=
  match path with
  | none => return err
  | some path => do
    beginOp
    let r ← nameiparent p path
    match r with
    | none => do
      endOp
      return err
    | some (dp, name) => unlinkIn dp name

/-- Count the link of `..` and create the entries `.` and `..`. -/
def createDots (dp ip : Slot) : FsM Unit := do
  setNlink (· + 1) dp
  iupdate dp
  let inum ← readInode ip (·.inum)
  let r ← dirlink ip dot inum
  if r < 0 then Prog.panic "create dots"
  else
    let dinum ← readInode dp (·.inum)
    let r ← dirlink ip dotdot dinum
    if r < 0 then Prog.panic "create dots" else return ()

/-- The new inode of `create`, locked, with its entries and its entry in `dp`. -/
def createAt (dp : Slot) (name : Str) (type major minor : ℤ) : FsM Slot := do
  let dev ← readInode dp (·.dev)
  let ip ← ialloc dev type
  ilock ip
  modifyInode ip fun x => { x with major := major, minor := minor, nlink := 1 }
  iupdate ip
  Prog.when (type = T_DIR) (createDots dp ip)
  let inum ← readInode ip (·.inum)
  let r ← dirlink dp name inum
  if r < 0 then Prog.panic "create: dirlink"
  else
    iunlockput dp
    return ip

def create (p : Pid) (path : Str) (type major minor : ℤ) : FsM (Option Slot) := do
  let r ← nameiparent p path
  match r with
  | none => return none
  | some (dp, name) => do
    ilock dp
    let r ← dirlookup dp name
    match r with
    | some (ip, _) => do
      iunlockput dp
      ilock ip
      let t ← readInode ip (·.type)
      if type = T_FILE ∧ t = T_FILE then return some ip
      else
        iunlockput ip
        return none
    | none => do
      let ip ← createAt dp name type major minor
      return some ip

/-- `omode & O_WRONLY`, `omode & O_RDWR` and `omode & O_CREATE`. -/
def isWronly (omode : ℕ) : Bool := omode.testBit 0
def isRdwr (omode : ℕ) : Bool := omode.testBit 1
def isCreate (omode : ℕ) : Bool := omode.testBit 9

def O_RDONLY : ℕ := 0

/-- The inode that `sys_open` opens, locked. -/
def openInode (p : Pid) (path : Str) (omode : ℕ) : FsM (Option Slot) :=
  if isCreate omode then create p path T_FILE 0 0
  else do
    let r ← namei p path
    match r with
    | none => return none
    | some ip => do
      ilock ip
      let type ← readInode ip (·.type)
      if type = T_DIR ∧ omode ≠ O_RDONLY then
        iunlockput ip
        return none
      else return some ip

/-- `filealloc` and `fdalloc`; the file is closed again when there is no descriptor. -/
def openFile (p : Pid) : FsM (Option (Fin NFILE × Fin NOFILE)) := do
  let f ← filealloc
  match f with
  | none => return none
  | some f => do
    let fd ← fdalloc p f
    match fd with
    | none => do
      fileclose f
      return none
    | some fd => return some (f, fd)

/-- The rest of `sys_open`, with `ip` locked. -/
def openLocked (p : Pid) (ip : Slot) (omode : ℕ) : FsM ℤ := do
  let r ← openFile p
  match r with
  | none => do
    iunlockput ip
    endOp
    return err
  | some (f, fd) => do
    iunlock ip
    endOp
    modifyFile f fun x => { x with
      type := .fdInode
      ip := ip
      off := 0
      readable := !isWronly omode
      writable := isWronly omode || isRdwr omode }
    return fd

def sysOpen (p : Pid) (path : Option Str) (omode : Option ℕ) : FsM ℤ :=
  match path, omode with
  | some path, some omode => do
    beginOp
    let r ← openInode p path omode
    match r with
    | none => do
      endOp
      return err
    | some ip => openLocked p ip omode
  | _, _ => return err

/-- `argstr(0, &path) < 0 || (ip = f(path)) == 0`. -/
def withPath (path : Option Str) (f : Str → FsM (Option Slot)) : FsM (Option Slot) :=
  match path with
  | none => return none
  | some path => f path

/-- `sys_mkdir` and `sys_mknod` after their arguments are fetched. -/
def makeNode (p : Pid) (path : Option Str) (type major minor : ℤ) : FsM ℤ := do
  beginOp
  let r ← withPath path fun path => create p path type major minor
  match r with
  | none => do
    endOp
    return err
  | some ip => do
    iunlockput ip
    endOp
    return 0

def sysMkdir (p : Pid) (path : Option Str) : FsM ℤ := makeNode p path T_DIR 0 0

/-- The device numbers are `int`s that `create` takes as `short`s. -/
def sysMknod (p : Pid) (path : Option Str) (major minor : Option ℤ) : FsM ℤ :=
  match major, minor with
  | some major, some minor => makeNode p path T_DEV (toShort major) (toShort minor)
  | _, _ => makeNode p none T_DEV 0 0

def setCwd (p : Pid) (i : Option Slot) : FsM Unit :=
  .modify fun s => s.setProc p { s.proc p with cwd := i }

def putCwd (p : Pid) : FsM Unit := do
  let cwd ← Prog.read fun s => (s.proc p).cwd
  match cwd with
  | none => Prog.panic "trap"
  | some i => iput i

def sysChdir (p : Pid) (path : Option Str) : FsM ℤ := do
  beginOp
  let r ← withPath path (namei p)
  match r with
  | none => do
    endOp
    return err
  | some ip => do
    ilock ip
    let type ← readInode ip (·.type)
    if type ≠ T_DIR then
      iunlockput ip
      endOp
      return err
    else
      iunlock ip
      putCwd p
      endOp
      setCwd p (some ip)
      return 0

/-- `buf` tells whether the buffer for the two descriptors is valid. -/
def sysPipe (p : Pid) (buf : Bool) : FsM ℤ :=
  if buf then do
    let r ← pipealloc
    match r with
    | none => return err
    | some (rf, wf) => do
      let fd0 ← fdalloc p rf
      match fd0 with
      | none => do
        fileclose rf
        fileclose wf
        return err
      | some fd0 => do
        let fd1 ← fdalloc p wf
        match fd1 with
        | none => do
          setOfile p fd0 none
          fileclose rf
          fileclose wf
          return err
        | some _ => return 0
  else return err

end Xv6
