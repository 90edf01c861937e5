import Xv6.Fs.Dir

namespace Xv6
open Lib

def modifyFile (f : Fin NFILE) (g : File → File) : FsM Unit :=
  .modify fun s => s.setFile f (g (s.file f))

def filealloc : FsM (Option (Fin NFILE)) := .atomic fun s =>
  match (List.finRange NFILE).find? fun f => decide ((s.file f).ref = 0) with
  | some f => .done (some f) (s.setFile f { s.file f with ref := 1 })
  | none => .done none s

def filedup (f : Fin NFILE) : FsM Unit := .atomic fun s =>
  if (s.file f).ref < 1 then .panic "filedup"
  else .done () (s.setFile f { s.file f with ref := (s.file f).ref + 1 })

/-- Drop a reference; the result is the file if it was the last one. -/
def filedrop (f : Fin NFILE) : FsM (Option File) := .atomic fun s =>
  if (s.file f).ref < 1 then .panic "fileclose"
  else if (s.file f).ref - 1 > 0 then
    .done none (s.setFile f { s.file f with ref := (s.file f).ref - 1 })
  else .done (some (s.file f)) (s.setFile f { s.file f with ref := 0, type := .fdNone })

def fileclose (f : Fin NFILE) : FsM Unit := do
  let last ← filedrop f
  match last with
  | none => return ()
  | some ff =>
    match ff.type with
    | .fdInode => do
      beginOp
      iput ff.ip
      endOp
    | .fdPipe => return ()
    | .fdNone => return ()

def filestat (f : Fin NFILE) : FsM (Option Stat) := do
  let x ← Prog.read fun s => s.file f
  match x.type with
  | .fdInode => do
    ilock x.ip
    let st ← stati x.ip
    iunlock x.ip
    return some st
  | .fdPipe => return none
  | .fdNone => return none

/-- `if(r > 0) f->off += r`. -/
def advance (f : Fin NFILE) (r : ℕ) : FsM Unit :=
  .when (r > 0) (modifyFile f fun x => { x with off := uadd x.off r })

def fileread (f : Fin NFILE) (n : ℕ) : FsM (Option (List UInt8)) := do
  let x ← Prog.read fun s => s.file f
  if x.readable = false then return none
  else
    match x.type with
    | .fdPipe => do
      let r ← answer
      return r.map (·.take n)
    | .fdInode => do
      ilock x.ip
      let off ← Prog.read fun s => (s.file f).off
      let r ← readi x.ip off n
      advance f (r.elim 0 List.length)
      iunlock x.ip
      return r
    | .fdNone => Prog.panic "fileread"

/-- What one `writei` of `filewrite` may write at most. -/
def maxWrite : ℕ := (MAXOPBLOCKS - 1 - 1 - 2) / 2 * 512

/-- The loop of `filewrite`; whether all of `src` was written. -/
def filewriteLoop (f : Fin NFILE) (ip : Slot) : ℕ → List UInt8 → FsM Bool
  | 0, src => return src.isEmpty
  | k + 1, src =>
    if src.length = 0 then return true
    else do
      let now := src.take maxWrite
      beginOp
      ilock ip
      let off ← Prog.read fun s => (s.file f).off
      let r ← writei ip now off
      advance f r.toNat
      iunlock ip
      endOp
      if r < 0 then return false
      else if r ≠ now.length then Prog.panic "short filewrite"
      else filewriteLoop f ip k (src.drop maxWrite)

def filewrite (f : Fin NFILE) (src : List UInt8) : FsM ℤ := do
  let x ← Prog.read fun s => s.file f
  if x.writable = false then return -1
  else
    match x.type with
    | .fdPipe => do
      let r ← answer
      return if r.isSome then src.length else -1
    | .fdInode => do
      let all ← filewriteLoop f x.ip src.length src
      return if all then src.length else -1
    | .fdNone => Prog.panic "filewrite"

def pipealloc : FsM (Option (Fin NFILE × Fin NFILE)) := do
  let f0 ← filealloc
  match f0 with
  | none => return none
  | some f0 => do
    let f1 ← filealloc
    match f1 with
    | none => do
      fileclose f0
      return none
    | some f1 => do
      let page ← answer
      if page.isSome then
        modifyFile f0 fun x => { x with type := .fdPipe, readable := true, writable := false }
        modifyFile f1 fun x => { x with type := .fdPipe, readable := false, writable := true }
        return some (f0, f1)
      else
        fileclose f0
        fileclose f1
        return none

end Xv6
