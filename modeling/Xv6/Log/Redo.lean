import Xv6.Lib.Threads
import Xv6.Param

namespace Xv6.Redo
open Lib Function

/-- A cached block.  `B_VALID` is set in every buffer that `bread` returns. -/
structure Buf where
  data : Block
  dirty : Bool

structure Mach where
  disk : ℕ → Block
  cache : ℕ → Option Buf
  lh : List ℕ
  /-- The blocks written to the disk since the machine started, in order. -/
  writes : List ℕ

abbrev LogM := Prog Mach Empty

def bread (b : ℕ) : LogM Block := .atomic fun s =>
  match s.cache b with
  | some buf => .done buf.data s
  | none => .done (s.disk b) { s with cache := update s.cache b (some ⟨s.disk b, false⟩) }

/-- Fill the buffer of block `b` with `data` and write it to the disk: `bwrite`
sets `B_DIRTY` and `iderw` writes the block and clears the flag. -/
def bwrite (b : ℕ) (data : Block) : LogM Unit := .modify fun s =>
  { s with
    disk := update s.disk b data
    cache := update s.cache b (some ⟨data, false⟩)
    writes := s.writes ++ [b] }

/-- `bget` recycles the buffer of block `b`, which it does only without `B_DIRTY`. -/
def recycle (b : ℕ) : LogM Unit := .modify fun s =>
  match s.cache b with
  | some ⟨_, false⟩ => { s with cache := update s.cache b none }
  | _ => s

/-- `hb->block[i] = log.lh.block[i]` from index `i` on. -/
def putBlocks (b : Block) (i : ℕ) : List ℕ → Block
  | [] => b
  | x :: xs => putBlocks (b.put32 (4 + 4 * i) x) (i + 1) xs

def putHead (b : Block) (lh : List ℕ) : Block := putBlocks (b.put32 0 lh.length) 0 lh

/-- `lh->n`, an `int`. -/
def headN (b : Block) : ℤ := if b.get32 0 < 2 ^ 31 then b.get32 0 else (b.get32 0 : ℤ) - 2 ^ 32

def getHead (b : Block) : List ℕ :=
  (List.range (headN b).toNat).map fun i => b.get32 (4 + 4 * i)

section Code

variable (start : ℕ)

def installFrom : ℕ → List ℕ → LogM Unit
  | _, [] => pure ()
  | tail, b :: bs => do
    let lbuf ← bread (start + tail + 1)
    let _dbuf ← bread b
    bwrite b lbuf
    installFrom (tail + 1) bs

def installTrans : LogM Unit := do
  let lh ← .read Mach.lh
  installFrom start 0 lh

def readHead : LogM Unit := do
  let buf ← bread start
  .modify fun s => { s with lh := getHead buf }

def writeHead : LogM Unit := do
  let buf ← bread start
  let lh ← .read Mach.lh
  bwrite start (putHead buf lh)

def clearHead : LogM Unit := .modify fun s => { s with lh := [] }

def recoverFromLog : LogM Unit := do
  readHead start
  installTrans start
  clearHead
  writeHead start

def writeFrom : ℕ → List ℕ → LogM Unit
  | _, [] => pure ()
  | tail, b :: bs => do
    let _to ← bread (start + tail + 1)
    let src ← bread b
    bwrite (start + tail + 1) src
    writeFrom (tail + 1) bs

def writeLog : LogM Unit := do
  let lh ← .read Mach.lh
  writeFrom start 0 lh

def commit : LogM Unit := do
  let lh ← .read Mach.lh
  if 0 < lh.length then do
    writeLog start
    writeHead start
    installTrans start
    clearHead
    writeHead start

end Code

theorem get32_putBlocks_lt (b : Block) (i o : ℕ) (xs : List ℕ) (h : o + 4 ≤ 4 + 4 * i) :
    (putBlocks b i xs).get32 o = b.get32 o := by
  induction xs generalizing b i with
  | nil => rfl
  | cons x xs ih =>
    rw [putBlocks, ih _ _ (by omega), Bytes.get32_put32_of_disjoint _ (by omega)]

theorem get32_putBlocks (b : Block) (i j : ℕ) (xs : List ℕ) (hj : j < xs.length)
    (hfit : 4 + 4 * (i + xs.length) ≤ BSIZE) (hw : ∀ x ∈ xs, x < 4294967296) :
    (putBlocks b i xs).get32 (4 + 4 * (i + j)) = xs[j] := by
  induction xs generalizing b i j with
  | nil => cases hj
  | cons x xs ih =>
    rw [List.length_cons] at hfit
    cases j with
    | zero =>
      rw [putBlocks, get32_putBlocks_lt _ _ _ _ (by omega), Nat.add_zero]
      exact Bytes.get32_put32 _ (by omega) (hw x (by simp))
    | succ j =>
      rw [putBlocks, show i + (j + 1) = i + 1 + j by omega]
      exact ih _ _ _ (by simpa using hj) (by omega) fun y hy => hw y (List.mem_cons_of_mem _ hy)

theorem headN_putHead (b : Block) (lh : List ℕ) (h : lh.length < 2 ^ 31) :
    headN (putHead b lh) = lh.length := by
  have hn : (putHead b lh).get32 0 = lh.length := by
    rw [putHead, get32_putBlocks_lt _ _ _ _ (by omega)]
    exact Bytes.get32_put32 _ (by decide) (by omega)
  rw [headN, hn, if_pos h]

theorem getHead_putHead (b : Block) (lh : List ℕ) (hfit : lh.length ≤ LOGSIZE)
    (hw : ∀ x ∈ lh, x < 4294967296) : getHead (putHead b lh) = lh := by
  have hL : lh.length ≤ 30 := hfit
  rw [getHead, headN_putHead b lh (by omega)]
  apply List.ext_getElem (by simp)
  intro i h1 h2
  simp only [List.getElem_map, List.getElem_range]
  have hB : 4 + 4 * (0 + lh.length) ≤ BSIZE := by unfold BSIZE; omega
  have h := get32_putBlocks (b.put32 0 lh.length) 0 i lh h2 hB hw
  rwa [Nat.zero_add] at h

theorem getHead_of_headN_zero {b : Block} (h : headN b = 0) : getHead b = [] := by
  rw [getHead, h]
  rfl

end Xv6.Redo
