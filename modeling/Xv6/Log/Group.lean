import Xv6.Lib.Count
import Xv6.Log.Basic

namespace Xv6.Group
open Lib Function

inductive Pc where
  | out
  /-- In `begin_op`, about to test with the lock held. -/
  | begin
  /-- In `begin_op`, `SLEEPING` on `&log`. -/
  | asleep
  /-- Between `begin_op` and `end_op`. -/
  | op
  /-- In `log_write(b)`, past its tests and before it takes the lock. -/
  | logging (b : ℕ)
  /-- In `end_op`, calling `commit()`. -/
  | commit
  /-- In `end_op`, `commit()` has returned. -/
  | committed
  deriving DecidableEq

/-- What happened, for the statements about whole runs. -/
inductive Event (P : Type) where
  | beginOp (p : P)
  | log (p : P) (b : ℕ)
  | endOp (p : P)
  | commit (bs : List ℕ)

structure St (P : Type) where
  log : Log
  pc : P → Pc
  /-- The message of the panic that stopped the kernel. -/
  halted : Option String
  /-- All events so far, the latest first. -/
  hist : List (Event P)

inductive Act (P : Type) where
  /-- Call `begin_op`. -/
  | call (p : P)
  /-- The loop body of `begin_op`. -/
  | tryBegin (p : P)
  /-- `kill` makes a sleeper runnable. -/
  | kill (p : P)
  /-- Call `log_write(b)` and run its tests. -/
  | logCheck (p : P) (b : ℕ)
  /-- The critical section of `log_write`. -/
  | logAppend (p : P)
  /-- The first critical section of `end_op`. -/
  | endOp (p : P)
  /-- `commit()`. -/
  | doCommit (p : P)
  /-- The second critical section of `end_op`. -/
  | finish (p : P)

section Steps

variable {P : Type} [DecidableEq P]

def wakeup (pc : P → Pc) : P → Pc := fun p => if pc p = .asleep then .begin else pc p

def step (a : Act P) (s : St P) : Option (St P) :=
  if s.halted.isSome then none else
  match a with
  | .call p => if s.pc p = .out then some { s with pc := update s.pc p .begin } else none
  | .tryBegin p =>
    if s.pc p = .begin then
      if s.log.committing then some { s with pc := update s.pc p .asleep }
      else if s.log.full then some { s with pc := update s.pc p .asleep }
      else some { s with
        log := s.log.enter
        pc := update s.pc p .op
        hist := .beginOp p :: s.hist }
    else none
  | .kill p =>
    if s.pc p = .asleep then some { s with pc := update s.pc p .begin } else none
  | .logCheck p b =>
    if s.pc p = .op then
      match s.log.logWriteCheck with
      | some m => some { s with halted := some m }
      | none => some { s with pc := update s.pc p (.logging b) }
    else none
  | .logAppend p =>
    match s.pc p with
    | .logging b => some { s with
        log := s.log.logWrite b
        pc := update s.pc p .op
        hist := .log p b :: s.hist }
    | _ => none
  | .endOp p =>
    if s.pc p = .op then
      match s.log.leave with
      | .error m => some { s with halted := some m }
      | .ok l =>
        if l.committing then some { s with
          log := l, pc := update s.pc p .commit, hist := .endOp p :: s.hist }
        else some { s with
          log := l, pc := wakeup (update s.pc p .out), hist := .endOp p :: s.hist }
    else none
  | .doCommit p =>
    if s.pc p = .commit then some { s with
      log := { s.log with lh := [] }
      pc := update s.pc p .committed
      hist := .commit s.log.lh :: s.hist }
    else none
  | .finish p =>
    if s.pc p = .committed then some { s with
      log := { s.log with committing := false }
      pc := wakeup (update s.pc p .out) }
    else none

def init (P : Type) (size : ℕ) : St P where
  log := ⟨size, 0, false, []⟩
  pc _ := .out
  halted := none
  hist := []

def runFrom : List (Act P) → St P → Option (St P)
  | [], s => some s
  | a :: as, s => (step a s).bind (runFrom as)

inductive Reach (size : ℕ) : St P → Prop where
  | init : Reach size (init P size)
  | step {s t : St P} {a : Act P} : Reach size s → step a s = some t → Reach size t

theorem Reach.runFrom {size : ℕ} {s t : St P} {as : List (Act P)} (h : Reach size s)
    (hr : runFrom as s = some t) : Reach size t := by
  induction as generalizing s with
  | nil => cases hr; exact h
  | cons a as ih =>
    obtain ⟨u, hu, ht⟩ := Option.bind_eq_some_iff.mp hr
    exact ih (h.step hu) ht

inductive Step (s : St P) : Act P → St P → Prop where
  | call (p : P) : s.pc p = .out → Step s (.call p) { s with pc := update s.pc p .begin }
  | sleep (p : P) : s.pc p = .begin → s.log.committing = true ∨ s.log.full →
      Step s (.tryBegin p) { s with pc := update s.pc p .asleep }
  | enter (p : P) : s.pc p = .begin → s.log.committing = false → ¬ s.log.full →
      Step s (.tryBegin p) { s with
        log := s.log.enter, pc := update s.pc p .op, hist := .beginOp p :: s.hist }
  | kill (p : P) : s.pc p = .asleep → Step s (.kill p) { s with pc := update s.pc p .begin }
  | checkPanic (p : P) (b : ℕ) (m : String) : s.pc p = .op → s.log.logWriteCheck = some m →
      Step s (.logCheck p b) { s with halted := some m }
  | check (p : P) (b : ℕ) : s.pc p = .op → s.log.logWriteCheck = none →
      Step s (.logCheck p b) { s with pc := update s.pc p (.logging b) }
  | append (p : P) (b : ℕ) : s.pc p = .logging b →
      Step s (.logAppend p) { s with
        log := s.log.logWrite b, pc := update s.pc p .op, hist := .log p b :: s.hist }
  | endPanic (p : P) : s.pc p = .op → s.log.committing = true →
      Step s (.endOp p) { s with halted := some Log.stillCommitting }
  | endCommit (p : P) : s.pc p = .op → s.log.committing = false → s.log.outstanding - 1 = 0 →
      Step s (.endOp p) { s with
        log := { s.log with outstanding := s.log.outstanding - 1, committing := true }
        pc := update s.pc p .commit
        hist := .endOp p :: s.hist }
  | endOut (p : P) : s.pc p = .op → s.log.committing = false → s.log.outstanding - 1 ≠ 0 →
      Step s (.endOp p) { s with
        log := { s.log with outstanding := s.log.outstanding - 1, committing := false }
        pc := wakeup (update s.pc p .out)
        hist := .endOp p :: s.hist }
  | doCommit (p : P) : s.pc p = .commit →
      Step s (.doCommit p) { s with
        log := { s.log with lh := [] }
        pc := update s.pc p .committed
        hist := .commit s.log.lh :: s.hist }
  | finish (p : P) : s.pc p = .committed →
      Step s (.finish p) { s with
        log := { s.log with committing := false }
        pc := wakeup (update s.pc p .out) }

theorem step_cases {a : Act P} {s t : St P} (h : step a s = some t) :
    s.halted = none ∧ Step s a t := by
  unfold step at h
  by_cases hh : s.halted.isSome
  · simp only [hh, if_true] at h
    cases h
  simp only [hh, Bool.false_eq_true, if_false] at h
  refine ⟨by simpa using hh, ?_⟩
  cases a with
  | call p =>
    simp only at h
    split_ifs at h with hp
    cases h
    exact .call p hp
  | tryBegin p =>
    simp only at h
    split_ifs at h with hp hc hf
    · cases h
      exact .sleep p hp (.inl hc)
    · cases h
      exact .sleep p hp (.inr hf)
    · cases h
      exact .enter p hp (by simpa using hc) hf
  | kill p =>
    simp only at h
    split_ifs at h with hp
    cases h
    exact .kill p hp
  | logCheck p b =>
    simp only at h
    split_ifs at h with hp
    cases hm : s.log.logWriteCheck with
    | none => simp only [hm] at h; cases h; exact .check p b hp hm
    | some m => simp only [hm] at h; cases h; exact .checkPanic p b m hp hm
  | logAppend p =>
    simp only at h
    split at h
    · cases h
      exact .append p _ ‹_›
    · cases h
  | endOp p =>
    simp only [Log.leave] at h
    split_ifs at h with hp hc
    · cases h
      exact .endPanic p hp hc
    · by_cases ho : s.log.outstanding - 1 = 0
      · simp only [ho, decide_true, if_true] at h
        cases h
        have hs := Step.endCommit p hp (by simpa using hc) ho
        rwa [ho] at hs
      · simp only [ho, decide_false, Bool.false_eq_true, if_false] at h
        cases h
        exact .endOut p hp (by simpa using hc) ho
  | doCommit p =>
    simp only at h
    split_ifs at h with hp
    cases h
    exact .doCommit p hp
  | finish p =>
    simp only at h
    split_ifs at h with hp
    cases h
    exact .finish p hp

end Steps

end Xv6.Group
