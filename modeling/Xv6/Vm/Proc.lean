import Xv6.Vm.Basic

namespace Xv6.Vm
open Lib Function

def setState (p : Pid) (x : Files.ProcState) : VmM Unit :=
  .modify fun s => s.setProc p { s.proc p with state := x }

def initproc : Pid := Files.initproc

/-- The case `T_PGFLT` of `trap`, up to `break`; the result tells whether that is reached. -/
def pgfault (p : Pid) (cr2 : ℕ) : VmM Bool := do
  let mem ← kalloc
  match mem with
  | none => return false
  | some mem => do
    memset mem 0
    let pgdir ← Prog.read fun s => (s.proc p).pgdir
    match pgdir with
    | none => Prog.atomic fun _ => .blocked
    | some pgdir => do
      let ok ← mappages pgdir (PGROUNDDOWN cr2) PGSIZE mem (PTE_W ||| PTE_U)
      if ok then return true
      else do
        kfree mem
        return false

/-- The state when the process has stopped and its children belong to the first process. -/
def State.zombie (s : State) (p : Pid) : State :=
  { s with proc := fun q =>
      let x := if (s.proc q).parent = some p then { s.proc q with parent := some initproc }
        else s.proc q
      if q = p then { x with state := .zombie } else x }

def exit (p : Pid) : VmM Unit := do
  Prog.when (p = initproc) (Prog.panic "init exiting")
  Prog.modify fun s => s.zombie p

/-- User code stores a byte.  Without permission it does not come to that. -/
def store (p : Pid) (va : ℕ) (c : UInt8) : VmM Unit := .modify fun s =>
  match (s.proc p).pgdir.bind fun d => lookup s.mem d (va / PGSIZE) with
  | none => s
  | some w =>
    if User w ∧ Writable w then s.setPage (pteAddr w) ((s.mem (pteAddr w)).put (va % PGSIZE) [c])
    else s

/-- A page fault of user code, with the end of `trap`. -/
def trapPgflt (p : Pid) (cr2 : ℕ) : VmM Unit := do
  let ok ← pgfault p cr2
  if ok then do
    let killed ← Prog.read fun s => (s.proc p).killed
    Prog.when (killed = true) (exit p)
  else return ()

def allocproc : VmM (Option Pid) := do
  let np ← Prog.atomic fun s =>
    match (List.finRange NPROC).find? fun q => decide ((s.proc q).state = .unused) with
    | some q => .done (some q) (s.setProc q { s.proc q with state := .embryo })
    | none => .done none s
  match np with
  | none => return none
  | some np => do
    let kstack ← kalloc
    Prog.modify fun s => s.setProc np { s.proc np with kstack := kstack }
    match kstack with
    | none => do
      setState np .unused
      return none
    | some _ => return some np

/-- `fork` up to the point where memory has been copied. -/
def forkMemory (p : Pid) : VmM (Option Pid) := do
  let np ← allocproc
  match np with
  | none => return none
  | some np => do
    let cur ← Prog.read fun s => s.proc p
    match cur.pgdir with
    | none => Prog.atomic fun _ => .blocked
    | some pgdir => do
      let d ← copyuvm pgdir cur.sz
      Prog.modify fun s => s.setProc np { s.proc np with pgdir := d }
      match d with
      | none => do
        let kstack ← Prog.read fun s => (s.proc np).kstack
        match kstack with
        | none => Prog.panic "kfree"
        | some x => kfree x
        Prog.modify fun s => s.setProc np { s.proc np with kstack := none, state := .unused }
        return none
      | some _ => do
        Prog.modify fun s => s.setProc np
          { s.proc np with
            sz := cur.sz
            parent := some p
            tf := { cur.tf with eax := 0 } }
        return some np

def forkDone (p np : Pid) : VmM Unit := .modify fun s =>
  s.setProc np { s.proc np with name := (s.proc p).name, state := .runnable }

def fork (p : Pid) : VmM (Option Pid) := do
  let np ← forkMemory p
  match np with
  | none => return none
  | some np => do
    forkDone p np
    return some np

/-- `wait` for the first child in the table that is a zombie.  Without one the call returns or
goes on waiting. -/
def wait (p : Pid) : VmM (Option Pid) := do
  let q ← Prog.read fun s => (List.finRange NPROC).find? fun q =>
    decide ((s.proc q).parent = some p ∧ (s.proc q).state = .zombie)
  match q with
  | none => return none
  | some q => do
    let cur ← Prog.read fun s => s.proc q
    match cur.kstack with
    | none => Prog.panic "kfree"
    | some x => kfree x
    Prog.modify fun s => s.setProc q { s.proc q with kstack := none }
    match cur.pgdir with
    | none => Prog.panic "freevm: no pgdir"
    | some d => freevm d
    Prog.modify fun s => s.setProc q
      { s.proc q with parent := none, name := [], killed := false, state := .unused }
    return some q

/-- The size after `sz += n`, in 32 bits. -/
def grown (sz : ℕ) (n : ℤ) : ℕ := ((sz + n) % 2 ^ 32).toNat

def toInt (w : ℕ) : ℤ := if w < 2 ^ 31 then w else (w : ℤ) - 2 ^ 32

/-- `n` is `none` when it cannot be fetched.  The result is the old size, or `-1`. -/
def sysSbrk (p : Pid) (n : Option ℤ) : VmM ℤ :=
  match n with
  | none => return -1
  | some n => .atomic fun s =>
    .done (toInt (s.proc p).sz) (s.setProc p { s.proc p with sz := grown (s.proc p).sz n })

/-- `readi` of a file with the given contents. -/
def readi (file : List UInt8) (off n : ℕ) : Option (List UInt8) :=
  if off > file.length ∨ uadd off n < off then none else some ((file.drop off).take n)

/-- `memmove` to a page; beyond `PHYSTOP` there is no memory. -/
def memmove (x : Page) (off : ℕ) (src : List UInt8) : VmM Unit := .modify fun s =>
  if x * PGSIZE < PHYSTOP then s.setPage x ((s.mem x).put off src) else s

def loadLoop (pgdir : Page) (file : List UInt8) : ℕ → ℕ → ℕ → ℕ → VmM Bool
  | 0, _, _, _ => return true
  | n + 1, addr, off, sz => do
    let pte ← walkpgdir pgdir addr false
    match pte with
    | none => Prog.panic "loaduvm: address should exist"
    | some (t, j) => do
      let w ← Prog.read fun s => s.word t j
      match readi file (off % 2 ^ 32) (min sz PGSIZE) with
      | none => return false
      | some l => do
        memmove (pteAddr w) 0 l
        if l.length ≠ min sz PGSIZE then return false
        else loadLoop pgdir file n (addr + PGSIZE) (off + PGSIZE) (sz - PGSIZE)

def loaduvm (pgdir : Page) (addr : ℕ) (file : List UInt8) (off sz : ℕ) : VmM Bool :=
  if addr % PGSIZE ≠ 0 then Prog.panic "loaduvm: addr must be page aligned"
  else loadLoop pgdir file ((sz + (PGSIZE - 1)) / PGSIZE) addr off sz

/-- The loop of `exec` over `n` program headers; `none` is `goto bad`. -/
def loadSegments (pgdir : Page) (file : List UInt8) : ℕ → ℕ → ℕ → VmM (Option ℕ)
  | 0, _, sz => return some sz
  | n + 1, off, sz =>
    match readi file (off % 2 ^ 32) PROGHDR with
    | none => return none
    | some l =>
      let ph := Proghdr.decode l
      if l.length ≠ PROGHDR then return none
      else if ph.type ≠ ELF_PROG_LOAD then loadSegments pgdir file n (off + PROGHDR) sz
      else if ph.memsz < ph.filesz then return none
      else if uadd ph.vaddr ph.memsz < ph.vaddr then return none
      else do
        let sz ← allocuvm pgdir sz (uadd ph.vaddr ph.memsz)
        if sz = 0 then return none
        else if ph.vaddr % PGSIZE ≠ 0 then return none
        else do
          let ok ← loaduvm pgdir ph.vaddr file ph.off ph.filesz
          if ok then loadSegments pgdir file n (off + PROGHDR) sz else return none

/-- The word at address 0 of the running process, which `uva2ka` takes for a page table entry when
there is no table. -/
def nullWord (p : Pid) : VmM ℕ := do
  let pgdir ← Prog.read fun s => (s.proc p).pgdir
  match pgdir with
  | none => Prog.atomic fun _ => .blocked
  | some pgdir => do
    let pte ← walkpgdir pgdir 0 false
    let w ← match pte with
      | none => pure 0
      | some (t, j) => Prog.read fun s => s.word t j
    if Present w then Prog.read fun s => s.word (pteAddr w) 0
    else do
      let ok ← pgfault p 0
      if ok then return 0 else Prog.atomic fun _ => .blocked

def uva2ka (p : Pid) (pgdir : Page) (uva : ℕ) : VmM (Option Page) := do
  let pte ← walkpgdir pgdir uva false
  let w ← match pte with
    | none => nullWord p
    | some (t, j) => Prog.read fun s => s.word t j
  return if Present w ∧ User w then some (pteAddr w) else none

/-- The loop of `copyout`; every round copies a byte at least. -/
def copyoutLoop (p : Pid) (pgdir : Page) : ℕ → ℕ → List UInt8 → VmM Bool
  | 0, _, _ => return true
  | n + 1, va, src =>
    if src = [] then return true
    else do
      let va0 := PGROUNDDOWN va
      let pa0 ← uva2ka p pgdir va0
      match pa0 with
      | none => return false
      | some x => do
        let k := min (PGSIZE - (va - va0)) src.length
        memmove x (va - va0) (src.take k)
        copyoutLoop p pgdir n (uadd va0 PGSIZE) (src.drop k)

def copyout (p : Pid) (pgdir : Page) (va : ℕ) (src : List UInt8) : VmM Bool :=
  copyoutLoop p pgdir src.length va src

def usub (a b : ℕ) : ℕ := (a + 2 ^ 32 - b % 2 ^ 32) % 2 ^ 32

def words (l : List ℕ) : List UInt8 := l.flatMap le32

/-- Push the argument strings and then the rest of the stack; the result is the stack pointer. -/
def pushArgs (p : Pid) (pgdir : Page) : ℕ → ℕ → List ℕ → List Str → VmM (Option ℕ)
  | argc, sp, ustack, [] => do
    let args := usub sp ((argc + 1) * 4)
    let sp := usub sp ((3 + argc + 1) * 4)
    let ok ← copyout p pgdir sp (words ([0xffffffff, argc, args] ++ ustack ++ [0]))
    return if ok then some sp else none
  | argc, sp, ustack, str :: argv =>
    if argc ≥ MAXARG then return none
    else do
      let sp := usub sp (str.length + 1) / 4 * 4
      let ok ← copyout p pgdir sp (str ++ [0])
      if ok then pushArgs p pgdir (argc + 1) sp (ustack ++ [sp]) argv else return none

/-- Load the program, the stack and the arguments; the size of the image and the stack pointer. -/
def loadImage (p : Pid) (pgdir : Page) (file : List UInt8) (elf : Elfhdr) (argv : List Str) :
    VmM (Option (ℕ × ℕ)) := do
  let r ← loadSegments pgdir file elf.phnum elf.phoff 0
  match r with
  | none => return none
  | some sz => do
    let top := PGROUNDUP sz
    let sz ← allocuvm pgdir top (uadd top (2 * PGSIZE))
    if sz = 0 then return none
    else do
      clearpteu pgdir (sz - 2 * PGSIZE)
      let sp ← pushArgs p pgdir 0 sz [] argv
      return sp.map fun sp => (sz, sp)

def elfEntry (l : List UInt8) : ℕ := num32 (l.drop 24)

/-- What `exec` puts into `name`: the end of the path, cut to what fits. -/
def progName (path : Str) : Str := (path.reverse.takeWhile (· ≠ slash)).reverse.take 15

/-- `file` is what the program file contains, if there is one. -/
def exec (p : Pid) (path : Str) (file : Option (List UInt8)) (argv : List Str) : VmM Bool :=
  match file with
  | none => return false
  | some file =>
    match readi file 0 ELFHDR with
    | none => return false
    | some l =>
      let elf := Elfhdr.decode l
      if l.length ≠ ELFHDR ∨ elf.magic ≠ ELF_MAGIC then return false
      else do
        let pgdir ← setupkvm
        match pgdir with
        | none => return false
        | some pgdir => do
          let image ← loadImage p pgdir file elf argv
          match image with
          | none => do
            freevm pgdir
            return false
          | some (sz, sp) => do
            let oldpgdir ← Prog.read fun s => (s.proc p).pgdir
            Prog.modify fun s => s.setProc p
              { s.proc p with
                name := progName path
                pgdir := some pgdir
                sz := sz
                tf := { (s.proc p).tf with eip := elfEntry l, esp := sp } }
            match oldpgdir with
            | none => Prog.panic "freevm: no pgdir"
            | some d => freevm d
            return true

def pipealloc : VmM Bool := do
  let x ← kalloc
  match x with
  | none => return false
  | some x => do
    Prog.modify fun s => { s with pipe := update s.pipe x (some ⟨true, true⟩) }
    return true

def pipeclose (x : Page) (writable : Bool) : VmM Unit := do
  let pipe ← Prog.read fun s => s.pipe x
  match pipe with
  | none => Prog.atomic fun _ => .blocked
  | some pipe => do
    let pipe := pipe.close writable
    if pipe.readopen || pipe.writeopen then
      Prog.modify fun s => { s with pipe := update s.pipe x (some pipe) }
    else do
      kfree x
      Prog.modify fun s => { s with pipe := update s.pipe x none }

def startothers : ℕ → VmM Unit
  | 0 => return ()
  | n + 1 => do
    let _ ← kalloc
    startothers n

def initcodeName : Str := [105, 110, 105, 116, 99, 111, 100, 101]

def userinit (code : List UInt8) : VmM Unit := do
  let p ← allocproc
  match p with
  | none => Prog.atomic fun _ => .blocked
  | some p => do
    let pgdir ← setupkvm
    match pgdir with
    | none => Prog.panic "userinit: out of memory?"
    | some pgdir => do
      Prog.modify fun s => s.setProc p { s.proc p with pgdir := some pgdir }
      inituvm pgdir code
      Prog.modify fun s => s.setProc p
        { s.proc p with
          sz := PGSIZE
          tf := ⟨0, 0, PGSIZE⟩
          name := initcodeName
          state := .runnable }

/-- `main`, on a machine with `n` other processors. -/
def main (l : Layout) (n : ℕ) (code : List UInt8) : VmM Unit := do
  let low := PGROUNDUP l.kend / PGSIZE
  freerange low (1024 - low)
  kvmalloc
  startothers n
  freerange 1024 (PHYSTOP / PGSIZE - 1024)
  userinit code

def State.empty (l : Layout) (deny : ℕ → Bool) : State where
  mem _ := fill 0
  freelist := []
  kpgdir := none
  proc _ := ⟨.unused, none, none, 0, none, false, ⟨0, 0, 0⟩, []⟩
  pipe _ := none
  layout := l
  deny := deny
  kallocs := 0

inductive Op where
  | fork (p : Pid)
  /-- The strings come with their addresses. -/
  | exec (p : Pid) (path : Str) (file : Option (List UInt8)) (argv : List (ℕ × Str))
  | exit (p : Pid)
  | wait (p : Pid)
  | sbrk (p : Pid) (n : Option ℤ)
  | store (p : Pid) (va : ℕ) (c : UInt8)
  | fault (p : Pid) (cr2 : ℕ)
  | pipe (p : Pid)
  | pipeclose (p : Pid) (x : Page) (writable : Bool)

def Op.pid : Op → Pid
  | .fork p | .exec p _ _ _ | .exit p | .wait p | .sbrk p _ | .store p _ _ | .fault p _ | .pipe p
  | .pipeclose p _ _ => p

def Op.prog : Op → VmM Unit
  | .fork p => do
    let _ ← Vm.fork p
    return ()
  | .exec p path file argv => do
    let _ ← Vm.exec p path file (argv.map Prod.snd)
    return ()
  | .exit p => Vm.exit p
  | .wait p => do
    let _ ← Vm.wait p
    return ()
  | .sbrk p n => do
    let _ ← sysSbrk p n
    return ()
  | .store p va c => Vm.store p va c
  | .fault p cr2 => trapPgflt p cr2
  | .pipe _ => do
    let _ ← pipealloc
    return ()
  | .pipeclose _ x writable => Vm.pipeclose x writable

/-- The string and the zero behind it are in user memory at the address. -/
def State.Stored (s : State) (p : Pid) (a : ℕ × Str) : Prop :=
  0 ∉ a.2 ∧ a.1 + a.2.length < (s.proc p).sz ∧ ∀ d, (s.proc p).pgdir = some d →
    ∀ k c, (a.2 ++ [0])[k]? = some c → peek s.mem d (a.1 + k) = some c

/-- When the call can be made: by a process that runs, with a file as large as the file system has
them and strings that are in memory, and an end of a pipe is closed once, as the file table sees
to. -/
def Op.Enabled (s : State) (op : Op) : Prop :=
  (s.proc op.pid).state = .runnable ∧ match op with
    | .exec p _ file argv =>
      (∀ l, file = some l → l.length ≤ MAXFILE * BSIZE) ∧ ∀ a ∈ argv, s.Stored p a
    | .pipeclose _ x writable => ∃ y, s.pipe x = some y ∧ y.isOpen writable = true
    | .fault _ cr2 => cr2 < 2 ^ 32
    | _ => True

/-- The states that are reached by calls that each meet the condition. -/
inductive Reached (C : State → Op → Prop) : State → Prop where
  | boot {l : Layout} {deny : ℕ → Bool} {n : ℕ} {code : List UInt8} {o : Empty → Option Pid}
      {t : Shared State Empty Pid} :
      (main l n code).run initproc ⟨.empty l deny, o⟩ = .done () t → Reached C t.st
  | step {s : State} {op : Op} {o : Empty → Option Pid} {t : Shared State Empty Pid} :
      Reached C s → op.Enabled s → C s op → op.prog.run op.pid ⟨s, o⟩ = .done () t →
      Reached C t.st

end Xv6.Vm
