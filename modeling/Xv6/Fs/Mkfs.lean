import Xv6.Exec

namespace Xv6
open Lib Function

def NINODES : ℕ := 200

def mkfsSb : Superblock :=
  let ninodeblocks := NINODES / IPB + 1
  let nbitmap := FSSIZE / (BSIZE * 8) + 1
  let nmeta := 2 + LOGSIZE + ninodeblocks + nbitmap
  { size := FSSIZE
    nblocks := FSSIZE - nmeta
    ninodes := NINODES
    nlog := LOGSIZE
    logstart := 2
    inodestart := 2 + LOGSIZE
    bmapstart := 2 + LOGSIZE + ninodeblocks }

/-- The first block that `mkfs` allocates: it gets the entries of the root directory. -/
def rootBlock : ℕ := FSSIZE - mkfsSb.nblocks

def mkfsRoot : Dinode where
  type := T_DIR
  major := 0
  minor := 0
  nlink := 1
  size := BSIZE
  addrs := update (fun _ => 0) 0 rootBlock

def rootEntries : Block :=
  Bytes.put (Bytes.put zeroBlock 0 (Dirent.encode ⟨ROOTINO, strncpy dot⟩)) DIRENT
    (Dirent.encode ⟨ROOTINO, strncpy dotdot⟩)

def Inode.empty : Inode := { Dinode.fresh 0 with dev := 0, inum := 0, ref := 0, valid := false }

def File.empty : File := ⟨.fdNone, 0, false, false, ⟨0, by decide⟩, 0⟩

def initproc : Pid := ⟨0, NPROC_pos⟩

def boot (env : ℕ → Option (List UInt8)) : Fs where
  sb := mkfsSb
  dinode := update (fun _ => .fresh 0) ROOTINO mkfsRoot
  bitmap b := decide (b ≤ rootBlock)
  block := update (fun _ => zeroBlock) rootBlock rootEntries
  log := ⟨LOGSIZE, 0, false, []⟩
  inode := update (fun _ => .empty) ⟨0, by decide⟩
    { Inode.empty with dev := ROOTDEV, inum := ROOTINO, ref := 1 }
  file _ := .empty
  proc := update (fun _ => ⟨none, fun _ => none⟩) initproc
    ⟨some ⟨0, by decide⟩, fun _ => none⟩
  env := env

def started (env : ℕ → Option (List UInt8)) : Shared Fs Slot Pid := ⟨boot env, fun _ => none⟩

end Xv6
