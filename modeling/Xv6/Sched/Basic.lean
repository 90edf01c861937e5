import Mathlib.Algebra.Group.Nat.Defs
import Xv6.Proc.Sleep

namespace Xv6.Sched
open Lib Function
open Proc (ProcState)

/-- What processes sleep on: a process that waits sleeps on itself. -/
inductive Chan (P K : Type) where
  | proc (p : P)
  | other (k : K)
  deriving DecidableEq

/-- The page directories of a process, in the order of their making. -/
abbrev Dir := ℕ × ℕ

/-- Where a process is, or goes on when it runs again. -/
inductive Loc (P K : Type) where
  /-- In user space, or in kernel code that does not touch the table; `r` is what its last call
  returned. -/
  | run (r : ℤ)
  /-- `release(&ptable.lock)`, then return `r`. -/
  | unlock (r : ℤ)
  | wakeup (k : K)
  | wakeupLoop (k : K)
  | kill (pid : ℤ)
  | killLoop (pid : ℤ)
  | sleep (k : K)
  | sleepChan (ch : Chan P K)
  | sleepState (ch : Chan P K)
  | sleepSched (ch : Chan P K)
  | sleepTidy (ch : Chan P K)
  | fork
  | forkScan
  | forkUnlock (q : P)
  | forkStack (q : P)
  | forkDir (q : P)
  | forkParent (q : P)
  | forkLock (q : P)
  | forkReady (q : P)
  | exec
  | execSet (d : Dir)
  | execSwitch (old : Option Dir)
  | execFree (old : Option Dir)
  | exit
  | exitLock
  | exitWake
  | exitLoop (rest : List P)
  | exitSched
  | zombieExit
  | wait
  | waitScan (rest : List P) (havekids : Bool)
  | waitReap (q : P)
  | panic (msg : String)
  deriving DecidableEq

/-- The process holds `ptable.lock` there. -/
def Loc.locked {P K : Type} : Loc P K → Bool
  | unlock _ | wakeupLoop _ | killLoop _ | sleepChan _ | sleepState _ | sleepSched _ | sleepTidy _
  | forkScan | forkUnlock _ | forkReady _ | exitWake | exitLoop _ | exitSched | zombieExit
  | waitScan _ _ | waitReap _ => true
  | _ => false

/-- The process has changed its state and is about to call `sched`. -/
def Loc.leaving {P K : Type} : Loc P K → Bool
  | sleepSched _ | exitSched => true
  | _ => false

/-- Where a process goes on that another processor has switched away from. -/
def Loc.resumes {P K : Type} : Loc P K → Bool
  | unlock _ | sleepTidy _ | zombieExit => true
  | _ => false

/-- The process that `fork` is making. -/
def Loc.child {P K : Type} : Loc P K → Option P
  | forkUnlock q | forkStack q | forkDir q | forkParent q | forkLock q | forkReady q => some q
  | _ => none

/-- That process, once it has a kernel stack and a context. -/
def Loc.built {P K : Type} : Loc P K → Option P
  | forkDir q | forkParent q | forkLock q | forkReady q => some q
  | _ => none

inductive YieldPhase where
  | acquire
  | state
  | sched
  | release
  deriving DecidableEq

/-- Where a process is; a timer interrupt makes it call `yield` wherever it holds no lock. -/
structure Ctl (P K : Type) where
  loc : Loc P K
  yield : Option YieldPhase
  deriving DecidableEq

def Ctl.locked {P K : Type} : Ctl P K → Bool
  | ⟨x, none⟩ => x.locked
  | ⟨_, some .acquire⟩ => false
  | ⟨_, some _⟩ => true

def Ctl.leaving {P K : Type} : Ctl P K → Bool
  | ⟨x, none⟩ => x.leaving
  | ⟨_, some .sched⟩ => true
  | ⟨_, some _⟩ => false

def Ctl.resumes {P K : Type} : Ctl P K → Bool
  | ⟨x, none⟩ => x.resumes
  | ⟨_, some .release⟩ => true
  | ⟨_, some _⟩ => false

structure Slot (P K : Type) where
  state : ProcState
  pid : ℤ
  parent : Option P
  chan : Option (Chan P K)
  killed : Bool
  kstack : Option ℕ
  pgdir : Option Dir
  /-- The saved context, or where the process is while it runs. -/
  ctl : Ctl P K
  uid : ℕ
  dirs : ℕ

def Slot.kill {P K : Type} (a : Slot P K) : Slot P K :=
  { a with killed := true, state := if a.state = .sleeping then .runnable else a.state }

structure Table (P K : Type) where
  slot : P → Slot P K
  nextpid : ℤ
  born : ℕ
  freedStacks : List ℕ
  freedDirs : List Dir
  forked : List ℕ

section Table

variable {P K : Type} [DecidableEq P] [DecidableEq K]

namespace Table

def set (t : Table P K) (p : P) (a : Slot P K) : Table P K :=
  { t with slot := update t.slot p a }

def setState (t : Table P K) (p : P) (st : ProcState) : Table P K :=
  t.set p { t.slot p with state := st }

def setChan (t : Table P K) (p : P) (ch : Option (Chan P K)) : Table P K :=
  t.set p { t.slot p with chan := ch }

def setParent (t : Table P K) (p : P) (r : Option P) : Table P K :=
  t.set p { t.slot p with parent := r }

def setCtl (t : Table P K) (p : P) (c : Ctl P K) : Table P K := t.set p { t.slot p with ctl := c }

def wakeup1 (ch : Chan P K) : List P → Table P K → Table P K
  | [], t => t
  | q :: rest, t => wakeup1 ch rest
    (if (t.slot q).state = .sleeping ∧ (t.slot q).chan = some ch then t.setState q .runnable else t)

def kill (pid : ℤ) : List P → Table P K → Table P K × ℤ
  | [], t => (t, -1)
  | q :: rest, t =>
    if (t.slot q).pid = pid then (t.set q (t.slot q).kill, 0) else kill pid rest t

def findUnused (t : Table P K) : List P → Option P
  | [] => none
  | q :: rest => if (t.slot q).state = .unused then some q else findUnused t rest

def alloc (t : Table P K) (q : P) : Table P K :=
  { t.set q { t.slot q with
      state := .embryo, pid := t.nextpid, uid := t.born, dirs := 0 } with
    nextpid := Int.bmod (t.nextpid + 1) (2 ^ 32), born := t.born + 1 }

def freeStack (t : Table P K) (u : ℕ) : Table P K := { t with freedStacks := u :: t.freedStacks }

def freeDir (t : Table P K) (d : Dir) : Table P K := { t with freedDirs := d :: t.freedDirs }

/-- One round of the loop of `exit` that passes the children to `init`. -/
def reparent (procs : List P) (init p q : P) (t : Table P K) : Table P K :=
  if (t.slot q).parent = some p then
    let t' := t.setParent q (some init)
    if (t.slot q).state = .zombie then t'.wakeup1 (.proc init) procs else t'
  else t

/-- What `wait` does with a child that has exited. -/
def reap (q : P) (t : Table P K) : Table P K :=
  let a := t.slot q
  { t with
    freedStacks := a.kstack.toList ++ t.freedStacks
    freedDirs := a.pgdir.toList ++ t.freedDirs
    slot := update t.slot q
      { a with kstack := none, pid := 0, parent := none, killed := false, state := .unused } }

end Table

/-- What a process does next. -/
inductive Instr (P K : Type) where
  | call (entry : Loc P K → Bool)
  | acquire (x : Loc P K)
  | release (x : Loc P K)
  /-- An action on the table; `ok` tells whether memory can be had. -/
  | act (f : (ok : Bool) → Table P K → Table P K × Loc P K)
  /-- `sched`, which comes back at `x`. -/
  | swtch (x : Loc P K)
  | switchuvm (x : Loc P K)
  | stop

def Loc.isCall {P K : Type} : Loc P K → Bool
  | wakeup _ | kill _ | sleep _ | fork | exec | exit | wait => true
  | _ => false

variable (procs : List P) (init p : P)

def scanAct (t : Table P K) : Table P K × Loc P K :=
  match t.findUnused procs with
  | some q => (t.alloc q, .forkUnlock q)
  | none => (t, .unlock (-1))

/-- The kernel stack for the child, with its first context. -/
def stackAct (q : P) (ok : Bool) (t : Table P K) : Table P K × Loc P K :=
  if ok then
    (t.set q { t.slot q with kstack := some (t.slot q).uid, ctl := ⟨.unlock 0, none⟩ }, .forkDir q)
  else (t.setState q .unused, .run (-1))

/-- `np->pgdir = copyuvm(..)`. -/
def dirAct (q : P) (ok : Bool) (t : Table P K) : Table P K × Loc P K :=
  if ok then
    (t.set q { t.slot q with pgdir := some ((t.slot q).uid, 0), dirs := 1 }, .forkParent q)
  else
    ((t.freeStack (t.slot q).uid).set q
      { t.slot q with pgdir := none, kstack := none, state := .unused }, .run (-1))

def readyAct (q : P) (t : Table P K) : Table P K × Loc P K :=
  ({ t.setState q .runnable with forked := (t.slot q).uid :: t.forked }, .unlock (t.slot q).pid)

/-- `exec` makes a page directory, which it frees again if something goes wrong. -/
def execAct (ok : Bool) (t : Table P K) : Table P K × Loc P K :=
  let a := t.slot p
  let t' := t.set p { a with dirs := a.dirs + 1 }
  if ok then (t', .execSet (a.uid, a.dirs)) else (t'.freeDir (a.uid, a.dirs), .run (-1))

def scanChild (q : P) (rest : List P) (havekids : Bool) (t : Table P K) : Loc P K :=
  if (t.slot q).parent ≠ some p then .waitScan rest havekids
  else if (t.slot q).state = .zombie then .waitReap q
  else .waitScan rest true

def code : Loc P K → Instr P K
  | .run _ => .call Loc.isCall
  | .unlock r => .release (.run r)
  | .wakeup k => .acquire (.wakeupLoop k)
  | .wakeupLoop k => .act fun _ t => (t.wakeup1 (.other k) procs, .unlock 0)
  | .kill pid => .acquire (.killLoop pid)
  | .killLoop pid => .act fun _ t => ((t.kill pid procs).1, .unlock (t.kill pid procs).2)
  | .sleep k => .acquire (.sleepChan (.other k))
  | .sleepChan ch => .act fun _ t => (t.setChan p (some ch), .sleepState ch)
  | .sleepState ch => .act fun _ t => (t.setState p .sleeping, .sleepSched ch)
  | .sleepSched ch => .swtch (.sleepTidy ch)
  -- `wait` sleeps with `ptable.lock`, and goes on with it.
  | .sleepTidy (.proc _) => .act fun _ t => (t.setChan p none, .waitScan procs false)
  | .sleepTidy (.other _) => .act fun _ t => (t.setChan p none, .unlock 0)
  | .fork => .acquire .forkScan
  | .forkScan => .act fun _ => scanAct procs
  | .forkUnlock q => .release (.forkStack q)
  | .forkStack q => .act (stackAct q)
  | .forkDir q => .act (dirAct q)
  | .forkParent q => .act fun _ t => (t.setParent q (some p), .forkLock q)
  | .forkLock q => .acquire (.forkReady q)
  | .forkReady q => .act fun _ => readyAct q
  | .exec => .act (execAct p)
  | .execSet d => .act fun _ t =>
    (t.set p { t.slot p with pgdir := some d }, .execSwitch (t.slot p).pgdir)
  | .execSwitch old => .switchuvm (.execFree old)
  | .execFree old => .act fun _ t => ({ t with freedDirs := old.toList ++ t.freedDirs }, .run 0)
  | .exit => .act fun _ t => (t, if p = init then .panic "init exiting" else .exitLock)
  | .exitLock => .acquire .exitWake
  | .exitWake => .act fun _ t => (match (t.slot p).parent with
    | some r => t.wakeup1 (.proc r) procs
    | none => t, .exitLoop procs)
  | .exitLoop (q :: rest) => .act fun _ t => (t.reparent procs init p q, .exitLoop rest)
  | .exitLoop [] => .act fun _ t => (t.setState p .zombie, .exitSched)
  | .exitSched => .swtch .zombieExit
  | .zombieExit => .stop
  | .wait => .acquire (.waitScan procs false)
  | .waitScan (q :: rest) havekids => .act fun _ t => (t, scanChild p q rest havekids t)
  | .waitScan [] havekids => .act fun _ t =>
    (t, if !havekids || (t.slot p).killed then .unlock (-1) else .sleepChan (.proc p))
  | .waitReap q => .act fun _ t => (t.reap q, .unlock (t.slot q).pid)
  | .panic _ => .stop

end Table

/-- Where the scheduler of a processor is, with the entries of the table that are still to come. -/
inductive SchedLoc (P : Type) where
  | idle
  | scan (rest : List P)
  | load (p : P) (rest : List P)
  | mark (p : P) (rest : List P)
  | enter (p : P) (rest : List P)
  /-- It has switched to a process, which comes back here. -/
  | back (rest : List P)
  | clear (rest : List P)

/-- The scheduler has `ptable.lock` there. -/
def SchedLoc.locked {P : Type} : SchedLoc P → Bool
  | idle => false
  | _ => true

/-- `struct cpu`, with what the processor does. -/
structure Cpu (P : Type) where
  proc : Option P
  /-- The process on whose kernel stack it runs, or none if it runs its scheduler. -/
  thread : Option P
  stack : Option ℕ
  /-- The page directory that it has loaded, or none for `kpgdir`. -/
  cr3 : Option Dir
  sched : SchedLoc P

structure State (C P K : Type) where
  table : Table P K
  /-- The processor that has `ptable.lock`. -/
  lock : Option C
  cpu : C → Cpu P

inductive Label (C P K : Type) where
  | go (c : C) (ok : Bool)
  | tick (c : C)
  | call (c : C) (x : Loc P K)

def Label.cpu {C P K : Type} : Label C P K → C
  | go c _ | tick c | call c _ => c

section Machine

variable {C P K : Type} [DecidableEq C] [DecidableEq P] [DecidableEq K]

namespace State

def setCpu (s : State C P K) (c : C) (k : Cpu P) : State C P K :=
  { s with cpu := update s.cpu c k }

def setLock (s : State C P K) (l : Option C) : State C P K := { s with lock := l }

def setTable (s : State C P K) (t : Table P K) : State C P K := { s with table := t }

def goto (s : State C P K) (p : P) (c : Ctl P K) : State C P K := s.setTable (s.table.setCtl p c)

end State

variable (procs : List P) (init : P)

/-- `switchuvm`, which wants a kernel stack and a page directory. -/
def switchuvm (t : Table P K) (p : P) : Option Dir :=
  match (t.slot p).kstack with
  | some _ => (t.slot p).pgdir
  | none => none

def schedStep (s : State C P K) (c : C) : Option (State C P K) :=
  let k := s.cpu c
  match k.sched with
  | .idle =>
    if s.lock = none then some ((s.setLock (some c)).setCpu c { k with sched := .scan procs })
    else none
  | .scan [] =>
    if s.lock = some c then some ((s.setLock none).setCpu c { k with sched := .idle }) else none
  | .scan (p :: rest) =>
    if (s.table.slot p).state = .runnable then
      some (s.setCpu c { k with proc := some p, sched := .load p rest })
    else some (s.setCpu c { k with sched := .scan rest })
  | .load p rest => (switchuvm s.table p).map fun d =>
    s.setCpu c { k with cr3 := some d, sched := .mark p rest }
  | .mark p rest => some ((s.setTable (s.table.setState p .running)).setCpu c
    { k with sched := .enter p rest })
  | .enter p rest => some (s.setCpu c
    { k with thread := some p, stack := (s.table.slot p).kstack, sched := .back rest })
  | .back rest => some (s.setCpu c { k with cr3 := none, sched := .clear rest })
  | .clear rest => some (s.setCpu c { k with proc := none, sched := .scan rest })

/-- A step in `yield`; the process goes on at `x` afterwards. -/
def yieldStep (s : State C P K) (c : C) (p : P) (x : Loc P K) :
    YieldPhase → Option (State C P K)
  | .acquire =>
    if s.lock = none then some ((s.setLock (some c)).goto p ⟨x, some .state⟩) else none
  | .state =>
    some ((s.setTable (s.table.setState p .runnable)).goto p ⟨x, some .sched⟩)
  | .sched => some ((s.setCpu c { s.cpu c with thread := none, stack := none }).goto p
    ⟨x, some .release⟩)
  | .release => if s.lock = some c then some ((s.setLock none).goto p ⟨x, none⟩) else none

def instrStep (s : State C P K) (c : C) (p : P) (ok : Bool) :
    Instr P K → Option (State C P K)
  | .call _ => none
  | .acquire x =>
    if s.lock = none then some ((s.setLock (some c)).goto p ⟨x, none⟩) else none
  | .release x =>
    if s.lock = some c then some ((s.setLock none).goto p ⟨x, none⟩) else none
  | .act f => some ((s.setTable (f ok s.table).1).goto p ⟨(f ok s.table).2, none⟩)
  | .swtch x => some ((s.setCpu c { s.cpu c with thread := none, stack := none }).goto p
    ⟨x, none⟩)
  | .switchuvm x => (switchuvm s.table p).map fun d =>
    (s.setCpu c { s.cpu c with cr3 := some d }).goto p ⟨x, none⟩
  | .stop => none

def step : Label C P K → State C P K → Option (State C P K)
  | .go c ok, s => match (s.cpu c).thread with
    | none => schedStep procs s c
    | some p => match (s.table.slot p).ctl with
      | ⟨x, some y⟩ => yieldStep s c p x y
      | ⟨x, none⟩ => instrStep s c p ok (code procs init p x)
  -- A timer interrupt, which comes only where the processor holds no lock.
  | .tick c, s => match (s.cpu c).thread with
    | none => none
    | some p => match (s.table.slot p).ctl with
      | ⟨x, none⟩ => if x.locked then none else some (s.goto p ⟨x, some .acquire⟩)
      | _ => none
  | .call c y, s => match (s.cpu c).thread with
    | none => none
    | some p => match (s.table.slot p).ctl with
      | ⟨x, none⟩ => match code procs init p x with
        | .call entry => if entry y then some (s.goto p ⟨y, none⟩) else none
        | _ => none
      | _ => none

/-- The first process is ready to run, and every processor is in its scheduler. -/
structure Boot (s : State C P K) : Prop where
  first : s.table.slot init = ⟨.runnable, 1, none, none, false, some 0, some (0, 0),
    ⟨.unlock 0, none⟩, 0, 1⟩
  unused : ∀ p, p ≠ init → (s.table.slot p).state = .unused ∧ (s.table.slot p).parent = none
  nextpid : s.table.nextpid = 2
  born : s.table.born = 1
  nothing : s.table.freedStacks = [] ∧ s.table.freedDirs = [] ∧ s.table.forked = []
  lock : s.lock = none
  cpu : ∀ c, s.cpu c = ⟨none, none, none, none, .idle⟩

end Machine

end Xv6.Sched
