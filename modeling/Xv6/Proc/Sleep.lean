import Mathlib.Data.Nat.Notation
import Xv6.Lib.Steps

namespace Xv6.Proc
open Lib Function

inductive ProcState where
  | unused
  | embryo
  | sleeping
  | runnable
  | running
  | zombie
  deriving DecidableEq

/-- `ptable.lock`, and the locks of the code that sleeps. -/
inductive Lock (L : Type) where
  | ptable
  | lk (l : L)
  deriving DecidableEq

/-- What a process does next; `x` is where it goes on. -/
inductive Instr (P L Ch σ X : Type) where
  /-- The code between two calls; it knows whether the process has been killed. -/
  | act (f : Bool → σ → σ × X)
  | acquire (l : Lock L) (x : X)
  | release (l : Lock L) (x : X)
  | sleep (chan : Ch) (l : Lock L) (x : X)
  | wakeup (chan : Ch) (x : X)
  /-- `wakeup1`, with `ptable.lock` held. -/
  | wakeup1 (chan : Ch) (x : X)
  | kill (q : P) (x : X)
  /-- The process is outside and calls what it likes. -/
  | call (entry : X → Bool)

/-- Where the code goes on after an instruction that is not an action. -/
def Instr.GoesTo {P L Ch σ X : Type} : Instr P L Ch σ X → X → Prop
  | .act _, _ => False
  | .acquire _ x, y | .release _ x, y | .sleep _ _ x, y | .wakeup _ x, y | .wakeup1 _ x, y
  | .kill _ x, y => y = x
  | .call entry, y => entry y = true

/-- Where a process is in `sleep`: what it does next. -/
inductive SleepPhase where
  | acquire
  | release
  | chan
  | state
  | sched
  /-- It does not run. -/
  | away
  | tidy
  | unlock
  | relock
  deriving DecidableEq

inductive Ctl (P L Ch X : Type) where
  | pc (x : X)
  | sleep (phase : SleepPhase) (chan : Ch) (l : Lock L) (x : X)
  | wakeAcquire (chan : Ch) (x : X)
  /-- The loop of `wakeup1`, with the processes still to come; `unlock` tells whether `wakeup`
  called it. -/
  | wakeLoop (chan : Ch) (rest : List P) (unlock : Bool) (x : X)
  | wakeRelease (x : X)
  | killAcquire (q : P) (x : X)
  | killSet (q : P) (x : X)
  | killRelease (x : X)

/-- The instruction that the process is at or goes on with. -/
def Ctl.loc {P L Ch X : Type} : Ctl P L Ch X → X
  | .pc x | .sleep _ _ _ x | .wakeAcquire _ x | .wakeLoop _ _ _ x | .wakeRelease x
  | .killAcquire _ x | .killSet _ x | .killRelease x => x

structure State (P L Ch σ X : Type) where
  st : σ
  owner : Lock L → Option P
  state : P → ProcState
  chan : P → Option Ch
  killed : P → Bool
  ctl : P → Ctl P L Ch X
  /-- How often the process has called `sleep`. -/
  sleeps : P → ℕ
  wakeups : P → ℕ

/-- Who goes on; a process that is outside chooses its next call. -/
inductive Label (P X : Type) where
  | run (p : P)
  | call (p : P) (x : X)

def Label.pid {P X : Type} : Label P X → P
  | run p | call p _ => p

section Machine

variable {P L Ch σ X : Type} [DecidableEq P]

namespace State

def goto (s : State P L Ch σ X) (p : P) (c : Ctl P L Ch X) : State P L Ch σ X :=
  { s with ctl := update s.ctl p c }

def setState (s : State P L Ch σ X) (p : P) (x : ProcState) : State P L Ch σ X :=
  { s with state := update s.state p x }

def setChan (s : State P L Ch σ X) (p : P) (ch : Option Ch) : State P L Ch σ X :=
  { s with chan := update s.chan p ch }

def setKilled (s : State P L Ch σ X) (q : P) : State P L Ch σ X :=
  let t := { s with killed := update s.killed q true }
  if s.state q = .sleeping then t.setState q .runnable else t

end State

section Fields

theorem State.goto_self (s : State P L Ch σ X) (p : P) (c : Ctl P L Ch X) :
    (s.goto p c).ctl p = c := update_self ..

theorem State.goto_of_ne (s : State P L Ch σ X) {p q : P} (c : Ctl P L Ch X) (h : q ≠ p) :
    (s.goto p c).ctl q = s.ctl q := update_of_ne h ..

variable (s : State P L Ch σ X) (q : P)

@[simp] theorem State.setKilled_st : (s.setKilled q).st = s.st := by
  unfold State.setKilled; split_ifs <;> rfl
@[simp] theorem State.setKilled_owner : (s.setKilled q).owner = s.owner := by
  unfold State.setKilled; split_ifs <;> rfl
@[simp] theorem State.setKilled_chan : (s.setKilled q).chan = s.chan := by
  unfold State.setKilled; split_ifs <;> rfl
@[simp] theorem State.setKilled_ctl : (s.setKilled q).ctl = s.ctl := by
  unfold State.setKilled; split_ifs <;> rfl
@[simp] theorem State.setKilled_sleeps : (s.setKilled q).sleeps = s.sleeps := by
  unfold State.setKilled; split_ifs <;> rfl
@[simp] theorem State.setKilled_wakeups : (s.setKilled q).wakeups = s.wakeups := by
  unfold State.setKilled; split_ifs <;> rfl

theorem State.setKilled_state {s : State P L Ch σ X} {q r : P}
    (h : (s.setKilled q).state r = .sleeping) : s.state r = .sleeping := by
  unfold State.setKilled State.setState at h
  split_ifs at h with hq
  · by_cases hr : r = q
    · subst hr
      exact hq
    · simpa [hr] using h
  · exact h

end Fields

variable [DecidableEq Ch]

/-- One round of the loop of `wakeup1`. -/
def State.wake (s : State P L Ch σ X) (q : P) (ch : Ch) : State P L Ch σ X :=
  if s.state q = .sleeping ∧ s.chan q = some ch then s.setState q .runnable else s

section Wake

variable (s : State P L Ch σ X) (q : P) (ch : Ch)

@[simp] theorem State.wake_st : (s.wake q ch).st = s.st := by unfold State.wake; split_ifs <;> rfl
@[simp] theorem State.wake_owner : (s.wake q ch).owner = s.owner := by
  unfold State.wake; split_ifs <;> rfl
@[simp] theorem State.wake_chan : (s.wake q ch).chan = s.chan := by
  unfold State.wake; split_ifs <;> rfl
@[simp] theorem State.wake_killed : (s.wake q ch).killed = s.killed := by
  unfold State.wake; split_ifs <;> rfl
@[simp] theorem State.wake_ctl : (s.wake q ch).ctl = s.ctl := by unfold State.wake; split_ifs <;> rfl
@[simp] theorem State.wake_sleeps : (s.wake q ch).sleeps = s.sleeps := by
  unfold State.wake; split_ifs <;> rfl
@[simp] theorem State.wake_wakeups : (s.wake q ch).wakeups = s.wakeups := by
  unfold State.wake; split_ifs <;> rfl

theorem State.wake_state {s : State P L Ch σ X} {q r : P} {ch : Ch}
    (h : (s.wake q ch).state r = .sleeping) : s.state r = .sleeping := by
  unfold State.wake State.setState at h
  split_ifs at h with hq
  · by_cases hr : r = q
    · subst hr
      exact hq.1
    · simpa [hr] using h
  · exact h

end Wake

variable [DecidableEq L]

def State.setOwner (s : State P L Ch σ X) (l : Lock L) (o : Option P) : State P L Ch σ X :=
  { s with owner := update s.owner l o }

def sleepStep (s : State P L Ch σ X) (p : P) (ch : Ch) (l : Lock L) (x : X) :
    SleepPhase → Option (State P L Ch σ X)
  | .acquire =>
    if s.owner .ptable = none then
      some ((s.setOwner .ptable (some p)).goto p (.sleep .release ch l x))
    else none
  | .release => some ((s.setOwner l none).goto p (.sleep .chan ch l x))
  | .chan => some ((s.setChan p (some ch)).goto p (.sleep .state ch l x))
  | .state => some ((s.setState p .sleeping).goto p (.sleep .sched ch l x))
  -- The scheduler gives up the lock.
  | .sched => some ((s.setOwner .ptable none).goto p (.sleep .away ch l x))
  | .away =>
    if s.state p = .runnable ∧ s.owner .ptable = none then
      some (((s.setState p .running).setOwner .ptable (some p)).goto p (.sleep .tidy ch l x))
    else none
  | .tidy =>
    some ((s.setChan p none).goto p (if l = .ptable then .pc x else .sleep .unlock ch l x))
  | .unlock => some ((s.setOwner .ptable none).goto p (.sleep .relock ch l x))
  | .relock =>
    if s.owner l = none then some ((s.setOwner l (some p)).goto p (.pc x)) else none

def instrStep (procs : List P) (s : State P L Ch σ X) (p : P) :
    Instr P L Ch σ X → Option (State P L Ch σ X)
  | .act f => some { s.goto p (.pc (f (s.killed p) s.st).2) with st := (f (s.killed p) s.st).1 }
  | .acquire l x => if s.owner l = none then some ((s.setOwner l (some p)).goto p (.pc x)) else none
  | .release l x => if s.owner l = some p then some ((s.setOwner l none).goto p (.pc x)) else none
  | .sleep ch l x =>
    if s.owner l = some p then
      some { s.goto p (.sleep (if l = .ptable then .chan else .acquire) ch l x) with
        sleeps := update s.sleeps p (s.sleeps p + 1) }
    else none
  | .wakeup ch x => some (s.goto p (.wakeAcquire ch x))
  | .wakeup1 ch x =>
    if s.owner .ptable = some p then some (s.goto p (.wakeLoop ch procs false x)) else none
  | .kill q x => some (s.goto p (.killAcquire q x))
  | .call _ => none

variable (code : P → X → Instr P L Ch σ X) (procs : List P)

def step : Label P X → State P L Ch σ X → Option (State P L Ch σ X)
  | .call p y, s => match s.ctl p with
    | .pc x => match code p x with
      | .call entry => if entry y then some (s.goto p (.pc y)) else none
      | _ => none
    | _ => none
  | .run p, s => match s.ctl p with
    | .pc x => instrStep procs s p (code p x)
    | .sleep phase ch l x => sleepStep s p ch l x phase
    | .wakeAcquire ch x =>
      if s.owner .ptable = none then
        some ((s.setOwner .ptable (some p)).goto p (.wakeLoop ch procs true x))
      else none
    | .wakeLoop ch (q :: rest) unlock x => some ((s.wake q ch).goto p (.wakeLoop ch rest unlock x))
    | .wakeLoop _ [] unlock x =>
      if unlock then some (s.goto p (.wakeRelease x))
      else some { s.goto p (.pc x) with wakeups := update s.wakeups p (s.wakeups p + 1) }
    | .wakeRelease x => some { (s.setOwner .ptable none).goto p (.pc x) with
        wakeups := update s.wakeups p (s.wakeups p + 1) }
    | .killAcquire q x =>
      if s.owner .ptable = none then some ((s.setOwner .ptable (some p)).goto p (.killSet q x))
      else none
    | .killSet q x => some ((s.setKilled q).goto p (.killRelease x))
    | .killRelease x => some ((s.setOwner .ptable none).goto p (.pc x))

/-- No process is in `sleep`, `wakeup` or `kill`, and no lock is held. -/
structure Start (s : State P L Ch σ X) : Prop where
  owner : ∀ l, s.owner l = none
  state : ∀ p, s.state p = .running
  ctl : ∀ p, ∃ x, s.ctl p = .pc x

end Machine

end Xv6.Proc
