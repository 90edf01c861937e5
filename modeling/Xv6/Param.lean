import Xv6.Lib.Bytes

namespace Xv6

def NPROC : ℕ := 64
def NOFILE : ℕ := 16
def NFILE : ℕ := 100
def NINODE : ℕ := 50
def NDEV : ℕ := 10
def ROOTDEV : ℕ := 1
def MAXARG : ℕ := 32
def MAXOPBLOCKS : ℕ := 10
def LOGSIZE : ℕ := MAXOPBLOCKS * 3
def FSSIZE : ℕ := 1000

def ROOTINO : ℕ := 1
def BSIZE : ℕ := 512
def NDIRECT : ℕ := 12
def NINDIRECT : ℕ := BSIZE / 4
def MAXFILE : ℕ := NDIRECT + NINDIRECT
def DIRSIZ : ℕ := 14

/-- Inodes per block: a `struct dinode` has 64 bytes. -/
def IPB : ℕ := BSIZE / 64

def BPB : ℕ := BSIZE * 8

def T_DIR : ℤ := 1
def T_FILE : ℤ := 2
def T_DEV : ℤ := 3

def CONSOLE : ℤ := 1

theorem NPROC_pos : 0 < NPROC := by decide

theorem NINODE_pos : 0 < NINODE := by decide

theorem one_lt_NINODE : 1 < NINODE := by decide

abbrev Block := Lib.Bytes BSIZE

end Xv6
