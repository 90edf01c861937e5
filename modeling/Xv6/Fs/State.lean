import Xv6.Lib.Threads
import Xv6.Log.Basic

namespace Xv6
open Lib Function

structure Superblock where
  size : ℕ
  nblocks : ℕ
  ninodes : ℕ
  nlog : ℕ
  logstart : ℕ
  inodestart : ℕ
  bmapstart : ℕ

def Superblock.iblock (sb : Superblock) (i : ℕ) : ℕ := i / IPB + sb.inodestart

/-- The block of the bitmap that holds the bit of block `b`. -/
def Superblock.bblock (sb : Superblock) (b : ℕ) : ℕ := b / BPB + sb.bmapstart

/-- `struct dinode`.  The four `short` fields are integers from -2^15 to 2^15 - 1. -/
structure Dinode where
  type : ℤ
  major : ℤ
  minor : ℤ
  nlink : ℤ
  size : ℕ
  addrs : ℕ → ℕ

def toShort (x : ℤ) : ℤ := x.bmod 65536

/-- `struct inode`, with the copy of the disk inode in front. -/
structure Inode extends Dinode where
  dev : ℕ
  inum : ℕ
  ref : ℤ
  valid : Bool

abbrev Slot := Fin NINODE

inductive FileType where
  | fdNone
  | fdPipe
  | fdInode
  deriving DecidableEq

structure File where
  type : FileType
  ref : ℤ
  readable : Bool
  writable : Bool
  ip : Slot
  off : ℕ

structure Proc where
  cwd : Option Slot
  ofile : Fin NOFILE → Option (Fin NFILE)

abbrev Pid := Fin NPROC

structure Fs where
  sb : Superblock
  dinode : ℕ → Dinode
  bitmap : ℕ → Bool
  block : ℕ → Block
  log : Log
  inode : Slot → Inode
  file : Fin NFILE → File
  proc : Pid → Proc
  /-- What devices and the memory allocator will answer, one answer after the other. -/
  env : ℕ → Option (List UInt8)

/-- Code of the file system.  Its locks are the sleep-locks of the cached inodes. -/
abbrev FsM := Prog Fs Slot

namespace Fs

@[simps -fullyApplied] def setDinode (s : Fs) (n : ℕ) (d : Dinode) : Fs :=
  { s with dinode := update s.dinode n d }

@[simps -fullyApplied] def setBit (s : Fs) (b : ℕ) (v : Bool) : Fs :=
  { s with bitmap := update s.bitmap b v }

@[simps -fullyApplied] def setBlock (s : Fs) (b : ℕ) (d : Block) : Fs :=
  { s with block := update s.block b d }

@[simps -fullyApplied] def setInode (s : Fs) (i : Slot) (ip : Inode) : Fs :=
  { s with inode := update s.inode i ip }

@[simps -fullyApplied] def setFile (s : Fs) (f : Fin NFILE) (x : File) : Fs :=
  { s with file := update s.file f x }

@[simps -fullyApplied] def setProc (s : Fs) (p : Pid) (x : Proc) : Fs :=
  { s with proc := update s.proc p x }

end Fs

def modifyInode (i : Slot) (f : Inode → Inode) : FsM Unit :=
  .modify fun s => s.setInode i (f (s.inode i))

def readInode {α : Type} (i : Slot) (f : Inode → α) : FsM α := .read fun s => f (s.inode i)

/-- Change a locked buffer of block `b` and `log_write` it. -/
def logged {α : Type} (b : ℕ) (a : α) (s t : Fs) : Outcome Fs α :=
  match s.log.logWriteCheck with
  | some m => .panic m
  | none => .done a { t with log := s.log.logWrite b }

def answer : FsM (Option (List UInt8)) :=
  .atomic fun s => .done (s.env 0) { s with env := fun n => s.env (n + 1) }

def beginOp : FsM Unit := .atomic fun s =>
  if s.log.committing then .blocked
  else if s.log.full then .blocked
  else .done () { s with log := s.log.enter }

/-- `commit()` empties the list of logged blocks.  Its disk writes are in `Xv6.Log.Redo`. -/
def endOp : FsM Unit := do
  let doCommit ← Prog.atomic fun s =>
    match s.log.leave with
    | .error m => .panic m
    | .ok l => .done l.committing { s with log := l }
  Prog.when doCommit do
    Prog.modify fun s => { s with log := { s.log with lh := [] } }
    Prog.modify fun s => { s with log := { s.log with committing := false } }

end Xv6
