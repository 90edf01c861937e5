import Xv6.Sysfile

namespace Xv6
open Lib

def PGSIZE : ℕ := 4096
def KERNBASE : ℕ := 0x80000000
def ELF_MAGIC : ℕ := 0x464C457F
def ELF_PROG_LOAD : ℕ := 1

/-- `sizeof(struct elfhdr)` and `sizeof(struct proghdr)`. -/
def ELFHDR : ℕ := 52
def PROGHDR : ℕ := 32

structure Elfhdr where
  magic : ℕ
  phoff : ℕ
  phnum : ℕ

def Elfhdr.decode (l : List UInt8) : Elfhdr := ⟨num32 l, num32 (l.drop 28), num16 (l.drop 44)⟩

structure Proghdr where
  type : ℕ
  off : ℕ
  vaddr : ℕ
  filesz : ℕ
  memsz : ℕ

def Proghdr.decode (l : List UInt8) : Proghdr :=
  ⟨num32 l, num32 (l.drop 4), num32 (l.drop 8), num32 (l.drop 16), num32 (l.drop 20)⟩

/-- The new size, or 0 on failure. -/
def allocuvm (oldsz newsz : ℕ) : FsM ℕ :=
  if newsz ≥ KERNBASE then return 0
  else if newsz < oldsz then return oldsz
  else do
    let page ← answer
    return if page.isSome then newsz else 0

/-- Load `k` pages from offset `off` on, of which `sz` bytes are left to load. -/
def loaduvm (ip : Slot) : ℕ → ℕ → ℕ → FsM Bool
  | 0, _, _ => return true
  | k + 1, off, sz => do
    let n := min sz PGSIZE
    let r ← readi ip (off % 2 ^ 32) n
    if (r.map List.length) ≠ some n then return false
    else loaduvm ip k (off + PGSIZE) (sz - PGSIZE)

/-- The loop of `exec` over `k` program headers; `none` is `goto bad`. -/
def loadSegments (ip : Slot) : ℕ → ℕ → ℕ → FsM (Option ℕ)
  | 0, _, sz => return some sz
  | k + 1, off, sz => do
    let r ← readi ip (off % 2 ^ 32) PROGHDR
    match r with
    | none => return none
    | some l =>
      let ph := Proghdr.decode l
      if l.length ≠ PROGHDR then return none
      else if ph.type ≠ ELF_PROG_LOAD then loadSegments ip k (off + PROGHDR) sz
      else if ph.memsz < ph.filesz then return none
      else if uadd ph.vaddr ph.memsz < ph.vaddr then return none
      else do
        let sz ← allocuvm sz (uadd ph.vaddr ph.memsz)
        if sz = 0 then return none
        else if ph.vaddr % PGSIZE ≠ 0 then return none
        else
          let ok ← loaduvm ip ((ph.filesz + PGSIZE - 1) / PGSIZE) ph.off ph.filesz
          if ok then loadSegments ip k (off + PROGHDR) sz else return none

/-- Check the header and load the program; the size of the image. -/
def loadImage (ip : Slot) : FsM (Option ℕ) := do
  let r ← readi ip 0 ELFHDR
  match r with
  | none => return none
  | some l =>
    let elf := Elfhdr.decode l
    if l.length ≠ ELFHDR ∨ elf.magic ≠ ELF_MAGIC then return none
    else do
      let pgdir ← answer
      if pgdir.isSome then loadSegments ip elf.phnum elf.phoff 0 else return none

/-- Push the argument strings and then the rest of the stack. -/
def pushArgs : ℕ → List Str → FsM ℤ
  | _, [] => do
    let r ← answer
    return if r.isSome then 0 else err
  | argc, _ :: argv =>
    if argc ≥ MAXARG then return err
    else do
      let r ← answer
      if r.isSome then pushArgs (argc + 1) argv else return err

def exec (p : Pid) (path : Str) (argv : List Str) : FsM ℤ := do
  beginOp
  let r ← namei p path
  match r with
  | none => do
    endOp
    return err
  | some ip => do
    ilock ip
    let image ← loadImage ip
    iunlockput ip
    endOp
    match image with
    | none => return err
    | some sz => do
      let top := (sz + PGSIZE - 1) / PGSIZE * PGSIZE
      let sz ← allocuvm top (uadd top (2 * PGSIZE))
      if sz = 0 then return err else pushArgs 0 argv

/-- `argv` is `none` when it cannot be fetched or has more than `MAXARG` entries. -/
def sysExec (p : Pid) (path : Option Str) (argv : Option (List Str)) : FsM ℤ :=
  match path, argv with
  | some path, some argv => exec p path argv
  | _, _ => return err

def dupFiles (p np : Pid) : List (Fin NOFILE) → FsM Unit
  | [] => return ()
  | fd :: fds => do
    let f ← Prog.read fun s => (s.proc p).ofile fd
    match f with
    | none => dupFiles p np fds
    | some f => do
      filedup f
      setOfile np fd (some f)
      dupFiles p np fds

/-- `fork` into the unused process `np`. -/
def fork (p np : Pid) : FsM ℤ := do
  dupFiles p np (List.finRange NOFILE)
  let cwd ← Prog.read fun s => (s.proc p).cwd
  match cwd with
  | none => Prog.panic "trap"
  | some i => do
    let i ← idup i
    setCwd np (some i)
    return np

def closeFiles (p : Pid) : List (Fin NOFILE) → FsM Unit
  | [] => return ()
  | fd :: fds => do
    let f ← Prog.read fun s => (s.proc p).ofile fd
    match f with
    | none => closeFiles p fds
    | some f => do
      fileclose f
      setOfile p fd none
      closeFiles p fds

def exit (p : Pid) : FsM Unit := do
  closeFiles p (List.finRange NOFILE)
  beginOp
  putCwd p
  endOp
  setCwd p none

end Xv6
