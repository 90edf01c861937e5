import Xv6.Exec
import Xv6.Files.Basic

namespace Xv6.Vm
open Lib Function

abbrev Page := ℕ

abbrev Mem := Page → Bytes PGSIZE

def EXTMEM : ℕ := 0x100000
def PHYSTOP : ℕ := 0xE000000
def DEVSPACE : ℕ := 0xFE000000
def KERNLINK : ℕ := KERNBASE + EXTMEM
def NPDENTRIES : ℕ := 1024

def PTE_P : ℕ := 1
def PTE_W : ℕ := 2
def PTE_U : ℕ := 4

/-- Where the linker has put `data` and `end`, as physical addresses. -/
structure Layout where
  data : ℕ
  kend : ℕ
  data_aligned : data % PGSIZE = 0
  extmem_lt : EXTMEM < data
  data_le : data ≤ kend
  kend_le : kend ≤ 4 * 1024 * 1024

/-- The registers in `struct trapframe` that `fork` and `exec` set. -/
structure Trapframe where
  eax : ℕ
  eip : ℕ
  esp : ℕ

/-- `struct proc` without what is about files and about scheduling. -/
structure Proc where
  state : Files.ProcState
  kstack : Option Page
  pgdir : Option Page
  sz : ℕ
  parent : Option Pid
  killed : Bool
  tf : Trapframe
  name : Str

structure State where
  mem : Mem
  freelist : List Page
  kpgdir : Option Page
  proc : Pid → Proc
  pipe : Page → Option Files.Pipe
  layout : Layout
  /-- The oracle: which call of `kalloc` fails in any case. -/
  deny : ℕ → Bool
  kallocs : ℕ

abbrev VmM := Prog State Empty

def PDX (va : ℕ) : ℕ := va / 2 ^ 22 % 1024
def PTX (va : ℕ) : ℕ := va / 2 ^ 12 % 1024

def PGROUNDDOWN (a : ℕ) : ℕ := a / PGSIZE * PGSIZE
def PGROUNDUP (a : ℕ) : ℕ := PGROUNDDOWN (uadd a (PGSIZE - 1))

def Present (w : ℕ) : Prop := w % 2 = 1
def Writable (w : ℕ) : Prop := w / 2 % 2 = 1
def User (w : ℕ) : Prop := w / 4 % 2 = 1

instance (w : ℕ) : Decidable (Present w) := inferInstanceAs (Decidable (w % 2 = 1))
instance (w : ℕ) : Decidable (Writable w) := inferInstanceAs (Decidable (w / 2 % 2 = 1))
instance (w : ℕ) : Decidable (User w) := inferInstanceAs (Decidable (w / 4 % 2 = 1))

def pteAddr (w : ℕ) : Page := w / PGSIZE
def pteFlags (w : ℕ) : ℕ := w % PGSIZE

def word (m : Mem) (x : Page) (i : ℕ) : ℕ := (m x).get32 (4 * i)

def putWord (m : Mem) (x : Page) (i v : ℕ) : Mem := update m x ((m x).put32 (4 * i) v)

def State.word (s : State) (x : Page) (i : ℕ) : ℕ := Vm.word s.mem x i

def State.setPage (s : State) (x : Page) (b : Bytes PGSIZE) : State :=
  { s with mem := update s.mem x b }

def State.setWord (s : State) (x : Page) (i v : ℕ) : State := { s with mem := putWord s.mem x i v }

def State.setProc (s : State) (p : Pid) (x : Proc) : State :=
  { s with proc := update s.proc p x }

def fill (c : UInt8) : Bytes PGSIZE := fun _ => c

/-- The page that an entry refers to, if it is present. -/
def entry (m : Mem) (x : Page) (i : ℕ) : Option Page :=
  if Present (word m x i) then some (pteAddr (word m x i)) else none

/-- The entry for the virtual page `v` in an address space, if it is present. -/
def lookup (m : Mem) (pgdir : Page) (v : ℕ) : Option ℕ :=
  (entry m pgdir (v / 1024)).bind fun t =>
    if Present (word m t (v % 1024)) then some (word m t (v % 1024)) else none

/-- The byte at a virtual address, if its page is present. -/
def peek (m : Mem) (pgdir : Page) (va : ℕ) : Option UInt8 :=
  (lookup m pgdir (va / PGSIZE)).map fun w => (m (pteAddr w)).get (va % PGSIZE)

def memset (x : Page) (c : UInt8) : VmM Unit := .modify fun s => s.setPage x (fill c)

def setWord (x : Page) (i v : ℕ) : VmM Unit := .modify fun s => s.setWord x i v

def kfree (x : Page) : VmM Unit := .atomic fun s =>
  if x * PGSIZE < s.layout.kend ∨ PHYSTOP ≤ x * PGSIZE then .panic "kfree"
  else .done () { s.setPage x (fill 1) with freelist := x :: s.freelist }

def kalloc : VmM (Option Page) := .atomic fun s =>
  let t := { s with kallocs := s.kallocs + 1 }
  if s.deny s.kallocs then .done none t
  else match s.freelist with
    | [] => .done none t
    | x :: l => .done (some x) { t with freelist := l }

def freerange (x : Page) : ℕ → VmM Unit
  | 0 => return ()
  | n + 1 => do
    kfree x
    freerange (x + 1) n

/-- The place of the entry for `va`. -/
def walkpgdir (pgdir : Page) (va : ℕ) (alloc : Bool) : VmM (Option (Page × ℕ)) := do
  let pde ← Prog.read fun s => s.word pgdir (PDX va)
  if Present pde then return some (pteAddr pde, PTX va)
  else if alloc then do
    let pgtab ← kalloc
    match pgtab with
    | none => return none
    | some pgtab => do
      memset pgtab 0
      setWord pgdir (PDX va) (pgtab * PGSIZE + (PTE_P ||| PTE_W ||| PTE_U))
      return some (pgtab, PTX va)
  else return none

/-- One round of the loop of `mappages`. -/
def mapPage (pgdir : Page) (perm : ℕ) (a : ℕ) (x : Page) : VmM Bool := do
  let pte ← walkpgdir pgdir a true
  match pte with
  | none => return false
  | some (t, j) => do
    let w ← Prog.read fun s => s.word t j
    if Present w then Prog.panic "remap"
    else do
      setWord t j (x * PGSIZE ||| perm ||| PTE_P)
      return true

/-- The loop of `mappages`.  A loop that has not ended when the rounds are used up is a failure. -/
def mapUntil (pgdir : Page) (perm last : ℕ) : ℕ → ℕ → Page → VmM Bool
  | 0, _, _ => Prog.panic "mappages: no end"
  | n + 1, a, x => do
    let ok ← mapPage pgdir perm a x
    if ok then
      if a = last then return true else mapUntil pgdir perm last n (uadd a PGSIZE) (x + 1)
    else return false

def mappages (pgdir : Page) (va size : ℕ) (x : Page) (perm : ℕ) : VmM Bool :=
  let last := PGROUNDDOWN (uadd va (uadd size 0xFFFFFFFF))
  mapUntil pgdir perm last (2 ^ 20) (PGROUNDDOWN va) x

def mapLoop (pgdir : Page) (perm : ℕ) : ℕ → ℕ → Page → VmM Bool
  | 0, _, _ => return true
  | n + 1, a, x => do
    let ok ← mapPage pgdir perm a x
    if ok then mapLoop pgdir perm n (a + PGSIZE) (x + 1) else return false

/-- `PGADDR(PDX(a) + 1, 0, 0) - PGSIZE`. -/
def lastOfTable (a : ℕ) : ℕ := uadd ((PDX a + 1) * 2 ^ 22) (2 ^ 32 - PGSIZE)

/-- The loop of `deallocuvm`, which goes on behind `skip a` where a table is absent. -/
def deallocLoop (skip : ℕ → ℕ) (pgdir : Page) (oldsz : ℕ) : ℕ → ℕ → VmM Unit
  | 0, _ => Prog.panic "deallocuvm: no end"
  | n + 1, a =>
    if a < oldsz then do
      let pte ← walkpgdir pgdir a false
      match pte with
      | none => deallocLoop skip pgdir oldsz n (uadd (skip a) PGSIZE)
      | some (t, j) => do
        let w ← Prog.read fun s => s.word t j
        if Present w then do
          if pteAddr w = 0 then Prog.panic "kfree"
          else do
            kfree (pteAddr w)
            setWord t j 0
            deallocLoop skip pgdir oldsz n (uadd a PGSIZE)
        else deallocLoop skip pgdir oldsz n (uadd a PGSIZE)
    else return ()

def deallocBy (skip : ℕ → ℕ) (pgdir : Page) (oldsz newsz : ℕ) : VmM ℕ :=
  if newsz ≥ oldsz then return oldsz
  else do
    deallocLoop skip pgdir oldsz (2 ^ 20) (PGROUNDUP newsz)
    return newsz

def deallocuvm : Page → ℕ → ℕ → VmM ℕ := deallocBy lastOfTable

/-- Free the tables of the directory from index `i` on. -/
def freeTables (pgdir : Page) : ℕ → ℕ → VmM Unit
  | 0, _ => return ()
  | n + 1, i => do
    let pde ← Prog.read fun s => s.word pgdir i
    Prog.when (Present pde) (kfree (pteAddr pde))
    freeTables pgdir n (i + 1)

def freevm (pgdir : Page) : VmM Unit := do
  let _ ← deallocuvm pgdir KERNBASE 0
  freeTables pgdir NPDENTRIES 0
  kfree pgdir

structure Kmap where
  virt : ℕ
  physStart : ℕ
  physEnd : ℕ
  perm : ℕ

def kmap (l : Layout) : List Kmap :=
  [⟨KERNBASE, 0, EXTMEM, PTE_W⟩,
   ⟨KERNLINK, EXTMEM, l.data, 0⟩,
   ⟨KERNBASE + l.data, l.data, PHYSTOP, PTE_W⟩,
   ⟨DEVSPACE, DEVSPACE, 0, PTE_W⟩]

/-- `k->phys_end - k->phys_start` in 32 bits. -/
def Kmap.size (k : Kmap) : ℕ := (k.physEnd + 2 ^ 32 - k.physStart) % 2 ^ 32

def mapKernel (pgdir : Page) : List Kmap → VmM Bool
  | [] => return true
  | k :: l => do
    let ok ← mappages pgdir k.virt k.size (k.physStart / PGSIZE) k.perm
    if ok then mapKernel pgdir l else return false

def setupkvm : VmM (Option Page) := do
  let pgdir ← kalloc
  match pgdir with
  | none => return none
  | some pgdir => do
    memset pgdir 0
    Prog.when (PHYSTOP + KERNBASE > DEVSPACE) (Prog.panic "PHYSTOP too high")
    let layout ← Prog.read fun s => s.layout
    let ok ← mapKernel pgdir (kmap layout)
    if ok then return some pgdir
    else do
      freevm pgdir
      return none

def kvmalloc : VmM Unit := do
  let pgdir ← setupkvm
  Prog.modify fun s => { s with kpgdir := pgdir }

def allocLoop (pgdir : Page) (oldsz newsz : ℕ) : ℕ → ℕ → VmM ℕ
  | 0, _ => return newsz
  | n + 1, a => do
    let mem ← kalloc
    match mem with
    | none => do
      let _ ← deallocuvm pgdir newsz oldsz
      return 0
    | some mem => do
      memset mem 0
      let ok ← mappages pgdir a PGSIZE mem (PTE_W ||| PTE_U)
      if ok then allocLoop pgdir oldsz newsz n (a + PGSIZE)
      else do
        let _ ← deallocuvm pgdir newsz oldsz
        kfree mem
        return 0

def allocuvm (pgdir : Page) (oldsz newsz : ℕ) : VmM ℕ :=
  if newsz ≥ KERNBASE then return 0
  else if newsz < oldsz then return oldsz
  else allocLoop pgdir oldsz newsz ((newsz - PGROUNDUP oldsz + (PGSIZE - 1)) / PGSIZE)
    (PGROUNDUP oldsz)

def clearpteu (pgdir : Page) (uva : ℕ) : VmM Unit := do
  let pte ← walkpgdir pgdir uva false
  match pte with
  | none => Prog.panic "clearpteu"
  | some (t, j) => do
    let w ← Prog.read fun s => s.word t j
    setWord t j (if User w then w - PTE_U else w)

/-- The body of the loop of `copyuvm`; `false` is `goto bad`. -/
def copyPage (pgdir d : Page) (i : ℕ) : VmM Bool := do
  let pte ← walkpgdir pgdir i false
  match pte with
  | none => Prog.panic "copyuvm: pte should exist"
  | some (t, j) => do
    let w ← Prog.read fun s => s.word t j
    if ¬ Present w then Prog.panic "copyuvm: page not present"
    else do
      let mem ← kalloc
      match mem with
      | none => return false
      | some mem => do
        Prog.modify fun s => s.setPage mem (s.mem (pteAddr w))
        mappages d i PGSIZE mem (pteFlags w)

/-- The loop of `copyuvm`; `i` wraps around. -/
def copyLoop (pgdir d : Page) (sz : ℕ) : ℕ → ℕ → VmM Bool
  | 0, _ => Prog.panic "copyuvm: no end"
  | n + 1, i =>
    if i < sz then do
      let ok ← copyPage pgdir d i
      if ok then copyLoop pgdir d sz n (uadd i PGSIZE) else return false
    else return true

def copyuvm (pgdir : Page) (sz : ℕ) : VmM (Option Page) := do
  let d ← setupkvm
  match d with
  | none => return none
  | some d => do
    let ok ← copyLoop pgdir d sz (2 ^ 20 + 1) 0
    if ok then return some d
    else do
      freevm d
      return none

/-- `n` is less than a page; `code` is what is loaded. -/
def inituvm (pgdir : Page) (code : List UInt8) : VmM Unit :=
  if code.length ≥ PGSIZE then Prog.panic "inituvm: more than a page"
  else do
    let mem ← kalloc
    match mem with
    | none => Prog.atomic fun _ => .blocked
    | some mem => do
      memset mem 0
      let _ ← mappages pgdir 0 PGSIZE mem (PTE_W ||| PTE_U)
      Prog.modify fun s => s.setPage mem ((s.mem mem).put 0 code)

end Xv6.Vm
