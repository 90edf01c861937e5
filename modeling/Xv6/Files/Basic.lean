import Xv6.Fs.State

namespace Xv6.Files
open Lib Function

abbrev Page := ℕ

structure OpenFile where
  type : FileType
  ref : ℤ
  readable : Bool
  writable : Bool
  pipe : Page
  ip : ℕ
  off : ℕ

/-- The part of `struct pipe` that opening and closing is about. -/
structure Pipe where
  readopen : Bool
  writeopen : Bool
  deriving DecidableEq

inductive ProcState where
  | unused
  | embryo
  | runnable
  | zombie
  deriving DecidableEq

/-- What a `struct file` stands for: an inode, or an end of the pipe in a page, in its `n`-th use
as a pipe. -/
inductive End where
  | inode (ip : ℕ)
  | pipe (page : Page) (n : ℕ) (writable : Bool)
  deriving DecidableEq

/-- The uses of every `struct file` and of every page are numbered.  `opens f` and `pipes page` are
the numbers of the last ones. -/
structure History where
  opens : Fin NFILE → ℕ
  what : Fin NFILE → ℕ → Option End
  iputs : Fin NFILE → ℕ → ℕ
  pipecloses : Fin NFILE → ℕ → ℕ
  pipes : Page → ℕ
  kfrees : Page → ℕ → ℕ

structure State where
  file : Fin NFILE → OpenFile
  pipe : Page → Pipe
  inUse : Page → Bool
  state : Pid → ProcState
  ofile : Pid → Fin NOFILE → Option (Fin NFILE)
  busy : Pid → Bool
  hist : History

abbrev FilesM := Prog State Empty

def State.setFile (s : State) (f : Fin NFILE) (x : OpenFile) : State :=
  { s with file := update s.file f x }

def State.setOfile (s : State) (p : Pid) (fd : Fin NOFILE) (f : Option (Fin NFILE)) : State :=
  { s with ofile := update s.ofile p (update (s.ofile p) fd f) }

def State.setState (s : State) (p : Pid) (x : ProcState) : State :=
  { s with state := update s.state p x }

/-- Fill in a `struct file` that has been allocated. -/
def State.bind (s : State) (f : Fin NFILE) (x : OpenFile) (e : End) : State :=
  { s.setFile f x with hist := { s.hist with
      opens := update s.hist.opens f (s.hist.opens f + 1)
      what := update s.hist.what f
        (update (s.hist.what f) (s.hist.opens f + 1) (some e)) } }

def bump {ι : Type} [DecidableEq ι] (c : ι → ℕ → ℕ) (i : ι) (n : ℕ) : ι → ℕ → ℕ :=
  update c i (update (c i) n (c i n + 1))

def filealloc : FilesM (Option (Fin NFILE)) := .atomic fun s =>
  match (List.finRange NFILE).find? fun f => decide ((s.file f).ref = 0) with
  | some f => .done (some f) (s.setFile f { s.file f with ref := 1 })
  | none => .done none s

def filedup (f : Fin NFILE) : FilesM Unit := .atomic fun s =>
  if (s.file f).ref < 1 then .panic "filedup"
  else .done () (s.setFile f { s.file f with ref := (s.file f).ref + 1 })

def filedrop (f : Fin NFILE) : FilesM (Option (OpenFile × ℕ)) := .atomic fun s =>
  if (s.file f).ref < 1 then .panic "fileclose"
  else if (s.file f).ref - 1 > 0 then
    .done none (s.setFile f { s.file f with ref := (s.file f).ref - 1 })
  else .done (some (s.file f, s.hist.opens f))
    (s.setFile f { s.file f with ref := 0, type := .fdNone })

/-- `iput` of the inode of the file. -/
def iput (f : Fin NFILE) (n : ℕ) : FilesM Unit := .modify fun s =>
  { s with hist := { s.hist with iputs := bump s.hist.iputs f n } }

def kfree (page : Page) : FilesM Unit := .modify fun s =>
  { s with
    inUse := update s.inUse page false
    hist := { s.hist with kfrees := bump s.hist.kfrees page (s.hist.pipes page) } }

def Pipe.isOpen (x : Pipe) (writable : Bool) : Bool := if writable then x.writeopen else x.readopen

def Pipe.close (x : Pipe) (writable : Bool) : Pipe :=
  if writable then { x with writeopen := false } else { x with readopen := false }

def pipeclose (page : Page) (writable : Bool) (f : Fin NFILE) (n : ℕ) : FilesM Unit := do
  let both ← Prog.atomic fun s =>
    let x := (s.pipe page).close writable
    .done (!x.readopen && !x.writeopen)
      { s with
        pipe := update s.pipe page x
        hist := { s.hist with pipecloses := bump s.hist.pipecloses f n } }
  Prog.when both (kfree page)

def fileclose (f : Fin NFILE) : FilesM Unit := do
  let last ← filedrop f
  match last with
  | none => return ()
  | some (ff, n) =>
    match ff.type with
    | .fdPipe => pipeclose ff.pipe ff.writable f n
    | .fdInode => iput f n
    | .fdNone => return ()

/-- `kalloc` and, if it returns a page, the initialisation of the pipe and of its two files. -/
def newPipe (f0 f1 : Fin NFILE) (page : Option Page) : FilesM Bool := .atomic fun s =>
  match page with
  | none => .done false s
  | some page =>
    if s.inUse page then .blocked
    else
      let n := s.hist.pipes page + 1
      let t := { s with
        inUse := update s.inUse page true
        pipe := update s.pipe page ⟨true, true⟩
        hist := { s.hist with pipes := update s.hist.pipes page n } }
      let t := t.bind f0
        { s.file f0 with type := .fdPipe, readable := true, writable := false, pipe := page }
        (.pipe page n false)
      .done true (t.bind f1
        { s.file f1 with type := .fdPipe, readable := false, writable := true, pipe := page }
        (.pipe page n true))

/-- The label `bad` is reached only while there is no page. -/
def pipealloc (page : Option Page) : FilesM (Option (Fin NFILE × Fin NFILE)) := do
  let f0 ← filealloc
  match f0 with
  | none => return none
  | some f0 => do
    let f1 ← filealloc
    match f1 with
    | none => do
      fileclose f0
      return none
    | some f1 => do
      let ok ← newPipe f0 f1 page
      if ok then return some (f0, f1)
      else
        fileclose f0
        fileclose f1
        return none

/-- `fd` is `none` when it cannot be fetched from user memory. -/
def argfd (p : Pid) (fd : Option ℤ) : FilesM (Option (Fin NOFILE × Fin NFILE)) :=
  match fd with
  | none => return none
  | some fd =>
    if h : 0 ≤ fd ∧ fd.toNat < NOFILE then do
      let f ← Prog.read fun s => s.ofile p ⟨fd.toNat, h.2⟩
      return f.map fun f => (⟨fd.toNat, h.2⟩, f)
    else return none

def setOfile (p : Pid) (fd : Fin NOFILE) (f : Option (Fin NFILE)) : FilesM Unit :=
  .modify fun s => s.setOfile p fd f

def fdalloc (p : Pid) (f : Fin NFILE) : FilesM (Option (Fin NOFILE)) := .atomic fun s =>
  match (List.finRange NOFILE).find? fun fd => (s.ofile p fd).isNone with
  | some fd => .done (some fd) (s.setOfile p fd (some f))
  | none => .done none s

def sysDup (p : Pid) (fd : Option ℤ) : FilesM Unit := do
  let r ← argfd p fd
  match r with
  | none => return ()
  | some (_, f) => do
    let fd ← fdalloc p f
    match fd with
    | none => return ()
    | some _ => filedup f

def sysClose (p : Pid) (fd : Option ℤ) : FilesM Unit := do
  let r ← argfd p fd
  match r with
  | none => return ()
  | some (fd, f) => do
    setOfile p fd none
    fileclose f

/-- `f->type = FD_INODE` and what follows it in `sys_open`. -/
def openInode (f : Fin NFILE) (ip : ℕ) (readable writable : Bool) : FilesM Unit := .modify fun s =>
  s.bind f
    { s.file f with
      type := .fdInode
      ip := ip
      off := 0
      readable := readable
      writable := writable } (.inode ip)

/-- `ip` is the inode that `create` or `namei` has found. -/
def sysOpen (p : Pid) (ip : Option ℕ) (readable writable : Bool) : FilesM Unit :=
  match ip with
  | none => return ()
  | some ip => do
    let f ← filealloc
    match f with
    | none => return ()
    | some f => do
      let fd ← fdalloc p f
      match fd with
      | none => fileclose f
      | some _ => openInode f ip readable writable

/-- `buf` tells whether the buffer for the two descriptors is valid. -/
def sysPipe (p : Pid) (buf : Bool) (page : Option Page) : FilesM Unit :=
  if buf then do
    let r ← pipealloc page
    match r with
    | none => return ()
    | some (rf, wf) => do
      let fd0 ← fdalloc p rf
      match fd0 with
      | none => do
        fileclose rf
        fileclose wf
      | some fd0 => do
        let fd1 ← fdalloc p wf
        match fd1 with
        | none => do
          setOfile p fd0 none
          fileclose rf
          fileclose wf
        | some _ => return ()
  else return ()

def setState (p : Pid) (x : ProcState) : FilesM Unit := .modify fun s => s.setState p x

/-- `kstack` tells whether there is memory for the kernel stack. -/
def allocproc (kstack : Bool) : FilesM (Option Pid) := do
  let np ← Prog.atomic fun s =>
    match (List.finRange NPROC).find? fun q => decide (s.state q = .unused) with
    | some q => .done (some q) (s.setState q .embryo)
    | none => .done none s
  match np with
  | none => return none
  | some np =>
    if kstack then return some np
    else do
      setState np .unused
      return none

def dupFiles (p np : Pid) : List (Fin NOFILE) → FilesM Unit
  | [] => return ()
  | fd :: l => do
    let f ← Prog.read fun s => s.ofile p fd
    match f with
    | none => dupFiles p np l
    | some f => do
      filedup f
      setOfile np fd (some f)
      dupFiles p np l

/-- `mem` tells whether `copyuvm` succeeds. -/
def fork (p : Pid) (kstack mem : Bool) : FilesM Unit := do
  let np ← allocproc kstack
  match np with
  | none => return ()
  | some np =>
    if mem then do
      dupFiles p np (List.finRange NOFILE)
      setState np .runnable
    else setState np .unused

def closeFiles (p : Pid) : List (Fin NOFILE) → FilesM Unit
  | [] => return ()
  | fd :: l => do
    let f ← Prog.read fun s => s.ofile p fd
    match f with
    | none => closeFiles p l
    | some f => do
      fileclose f
      setOfile p fd none
      closeFiles p l

def initproc : Pid := ⟨0, by decide⟩

/-- `exit` does not return: the process is a zombie and no longer in a call. -/
def exit (p : Pid) : FilesM Unit := do
  Prog.when (p = initproc) (Prog.panic "init exiting")
  closeFiles p (List.finRange NOFILE)
  Prog.modify fun s => { s.setState p .zombie with busy := update s.busy p false }

/-- `wait` for the process `q`.  Whose child it is does not matter here. -/
def wait (q : Pid) : FilesM Unit := .atomic fun s =>
  if s.state q = .zombie then .done () (s.setState q .unused) else .blocked

inductive Call where
  | open (ip : Option ℕ) (readable writable : Bool)
  | dup (fd : Option ℤ)
  | pipe (buf : Bool) (page : Option Page)
  | close (fd : Option ℤ)
  | fork (kstack mem : Bool)
  | exit
  | wait (q : Pid)

def enter (p : Pid) : FilesM Unit := .atomic fun s =>
  if s.state p = .runnable then .done () { s with busy := update s.busy p true }
  else .blocked

def leave (p : Pid) : FilesM Unit :=
  .modify fun s => { s with busy := update s.busy p false }

def returning (p : Pid) (x : FilesM Unit) : FilesM Unit := do
  enter p
  x
  leave p

def Call.prog (p : Pid) : Call → FilesM Unit
  | .open ip readable writable => returning p (sysOpen p ip readable writable)
  | .dup fd => returning p (sysDup p fd)
  | .pipe buf page => returning p (sysPipe p buf page)
  | .close fd => returning p (sysClose p fd)
  | .fork kstack mem => returning p (Files.fork p kstack mem)
  | .exit => do
    enter p
    Files.exit p
  | .wait q => returning p (Files.wait q)

def calls (p : Pid) : List Call → FilesM Unit
  | [] => return ()
  | c :: l => do
    c.prog p
    calls p l

def OpenFile.empty : OpenFile := ⟨.fdNone, 0, false, false, 0, 0, 0⟩

def boot : State where
  file _ := .empty
  pipe _ := ⟨false, false⟩
  inUse _ := false
  state := update (fun _ => .unused) initproc .runnable
  ofile _ _ := none
  busy _ := false
  hist := ⟨fun _ => 0, fun _ _ => none, fun _ _ => 0, fun _ _ => 0, fun _ => 0, fun _ _ => 0⟩

def start (l : Pid → List Call) : Config State Empty Pid Unit where
  shared := ⟨boot, fun _ => none⟩
  prog p := calls p (l p)

end Xv6.Files
