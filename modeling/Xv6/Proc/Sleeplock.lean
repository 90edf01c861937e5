import Xv6.Proc.Wakeup

namespace Xv6.Sleeplocks
open Lib Proc Function

/-- `struct sleeplock`, with what each process has done to it. -/
structure Sleeplock (P : Type) where
  locked : Bool
  pid : Option P
  /-- The process is between its `acquiresleep` and its `releasesleep`. -/
  held : P → Bool

/-- Who checks with `holdingsleep` that the lock is held. -/
inductive Check where
  | bwrite
  | brelse
  | iunlock
  | iderw
  deriving DecidableEq

def Check.message : Check → String
  | bwrite => "bwrite"
  | brelse => "brelse"
  | iunlock => "iunlock"
  | iderw => "iderw: buf not locked"

inductive Loc (P : Type) where
  /-- Outside, with what its call of `holdingsleep` returned. -/
  | out (r : Option Bool)
  | kill (q : P)
  | acquiresleep
  | test
  | wait
  | releasesleep
  | clear
  | wake
  /-- With the check that is the caller, if there is one. -/
  | holdingsleep (c : Option Check)
  | look (c : Option Check)
  | unlock
  | unlockHolding (c : Option Check) (r : Bool)
  | checked (c : Check) (r : Bool)
  /-- `if(!holdingsleep(lk)) panic(msg)`. -/
  | panic (msg : String)
  | passed (c : Check)
  deriving DecidableEq

def Check.next {P : Type} : Check → Loc P
  | bwrite => .holdingsleep (some iderw)
  | brelse | iunlock => .releasesleep
  | iderw => .out none

def Loc.isCall {P : Type} : Loc P → Bool
  | kill _ | acquiresleep | releasesleep | holdingsleep _ => true
  | _ => false

section Code

variable {P : Type} [DecidableEq P]

def testAct (p : P) (s : Sleeplock P) : Sleeplock P × Loc P :=
  if s.locked then (s, .wait)
  else (⟨true, some p, update s.held p true⟩, .unlock)

def clearAct (p : P) (s : Sleeplock P) : Sleeplock P × Loc P :=
  (⟨false, none, update s.held p false⟩, .wake)

def code (p : P) : Loc P → Instr P Unit Unit (Sleeplock P) (Loc P)
  | .out _ => .call Loc.isCall
  | .kill q => .kill q (.out none)
  | .acquiresleep => .acquire (.lk ()) .test
  | .test => .act fun _ => testAct p
  | .wait => .sleep () (.lk ()) .test
  | .releasesleep => .acquire (.lk ()) .clear
  | .clear => .act fun _ => clearAct p
  | .wake => .wakeup () .unlock
  | .unlock => .release (.lk ()) (.out none)
  | .holdingsleep c => .acquire (.lk ()) (.look c)
  | .look c => .act fun _ s => (s, .unlockHolding c s.locked)
  | .unlockHolding none r => .release (.lk ()) (.out (some r))
  | .unlockHolding (some c) r => .release (.lk ()) (.checked c r)
  | .checked c r => .act fun _ s => (s, if r then .passed c else .panic c.message)
  | .panic _ => .call fun _ => false
  | .passed c => .act fun _ s => (s, c.next)

end Code

structure Boot {P : Type} (s : State P Unit Unit (Sleeplock P) (Loc P)) : Prop extends Start s where
  free : s.st.locked = false ∧ s.st.pid = none
  held : ∀ p, s.st.held p = false
  out : ∀ p, s.ctl p = .pc (.out none)

/-- What the process has learnt from `holdingsleep`. -/
def Loc.verdict {P : Type} : Loc P → Option Bool
  | .out r => r
  | .unlockHolding _ r | .checked _ r => some r
  | .panic _ => some false
  | .passed _ => some true
  | _ => none

/-- The steps that read or clear `locked` on behalf of its holder. -/
def Loc.holder {P : Type} : Loc P → Bool
  | .clear | .look _ => true
  | _ => false

/-- A process that executes `holdingsleep` or `releasesleep` does so while no other process holds
the lock. -/
def NoIntruder {P : Type} (s : State P Unit Unit (Sleeplock P) (Loc P)) (a : Label P (Loc P)) :
    Prop :=
  ∀ x, s.ctl a.pid = .pc x → x.holder = true → ∀ q, s.st.held q = true → q = a.pid

section Safety

variable {P : Type} {procs : List P} {s t : State P Unit Unit (Sleeplock P) (Loc P)}
  {l : Sleeplock P} {p : P} {x : Loc P} {f : Bool → Sleeplock P → Sleeplock P × Loc P}
  {killed : Bool}

/-- The lock has one holder when it is locked and none otherwise. -/
structure Sleeplock.Ok (s : Sleeplock P) : Prop where
  one : ∀ p q, s.held p = true → s.held q = true → p = q
  locked : s.locked = true ↔ ∃ p, s.held p = true

/-- What `holdingsleep` has said holds as long as the process makes no other call. -/
structure Safe (s : State P Unit Unit (Sleeplock P) (Loc P)) : Prop where
  ok : s.st.Ok
  verdict : ∀ p r, (s.ctl p).loc.verdict = some r → (r = true ↔ s.st.held p = true)

theorem verdict_of_isCall (h : x.isCall = true) : x.verdict = none := by
  cases x with
  | kill q | acquiresleep | releasesleep | holdingsleep c => rfl
  | _ => cases h

theorem Boot.safe (h : Boot s) : Safe s := by
  refine ⟨⟨fun p _ hp => ?_, ⟨fun hl => ?_, fun ⟨p, hp⟩ => ?_⟩⟩, fun p r hr => ?_⟩
  · rw [h.held p] at hp
    cases hp
  · rw [h.free.1] at hl
    cases hl
  · rw [h.held p] at hp
    cases hp
  · rw [h.out p] at hr
    cases hr

variable [DecidableEq P]

theorem Sleeplock.Ok.take (h : l.Ok) (p : P) : (testAct p l).1.Ok := by
  unfold testAct
  split_ifs with hl
  · exact h
  · have hnone : ∀ q, l.held q ≠ true := fun q hq => hl (h.locked.mpr ⟨q, hq⟩)
    have hself : ∀ q, update l.held p true q = true → q = p := by
      intro q hq
      by_contra hne
      rw [update_of_ne hne] at hq
      exact hnone q hq
    exact ⟨fun q r hq hr => (hself q hq).trans (hself r hr).symm,
      ⟨fun _ => ⟨p, update_self ..⟩, fun _ => rfl⟩⟩

theorem Sleeplock.Ok.clear (hp : ∀ q, l.held q = true → q = p) : (clearAct p l).1.Ok := by
  have hnone : ∀ q, update l.held p false q ≠ true := by
    intro q hq
    by_cases hne : q = p
    · rw [hne, update_self] at hq
      cases hq
    · rw [update_of_ne hne] at hq
      exact hne (hp q hq)
  exact ⟨fun q _ hq => absurd hq (hnone q),
    ⟨fun h => Bool.noConfusion h, fun ⟨q, hq⟩ => absurd hq (hnone q)⟩⟩

theorem held_act {q : P} (hcode : code p x = .act f) (hq : q ≠ p) :
    (f killed l).1.held q = l.held q := by
  cases x with
  | test =>
    cases hcode
    simp only [testAct]
    split_ifs
    · rfl
    · exact update_of_ne hq ..
  | clear =>
    cases hcode
    exact update_of_ne hq ..
  | look c | checked c r | passed c =>
    cases hcode
    rfl
  | unlockHolding c r => cases c <;> cases hcode
  | _ => cases hcode

theorem verdict_act (hcode : code p x = .act f) (hl : l.Ok)
    (hx : ∀ r, x.verdict = some r → (r = true ↔ l.held p = true))
    (hown : x.holder = true → ∀ q, l.held q = true → q = p) {r : Bool}
    (hr : (f killed l).2.verdict = some r) : r = true ↔ (f killed l).1.held p = true := by
  cases x with
  | test =>
    cases hcode
    simp only [testAct] at hr
    split_ifs at hr <;> cases hr
  | clear =>
    cases hcode
    cases hr
  | look c =>
    cases hcode
    cases hr
    -- Whoever holds a lock that is locked is the caller.
    refine hl.locked.trans ⟨fun ⟨q, hq⟩ => ?_, fun hp => ⟨p, hp⟩⟩
    rw [← hown rfl q hq]
    exact hq
  | checked c b =>
    cases hcode
    have hrb : r = b := by cases b <;> exact (Option.some.inj hr).symm
    rw [hrb]
    exact hx b rfl
  | passed c =>
    cases hcode
    cases c <;> cases hr
  | unlockHolding c b => cases c <;> cases hcode
  | _ => cases hcode

theorem ok_act (hcode : code p x = .act f) (hl : l.Ok)
    (hown : x.holder = true → ∀ q, l.held q = true → q = p) : (f killed l).1.Ok := by
  cases x with
  | test =>
    cases hcode
    exact hl.take p
  | clear =>
    cases hcode
    exact Sleeplock.Ok.clear (hown rfl)
  | look c | checked c r | passed c =>
    cases hcode
    exact hl
  | unlockHolding c r => cases c <;> cases hcode
  | _ => cases hcode

theorem verdict_goesTo {y : Loc P} {r : Bool} (h : (code p x).GoesTo y) (hr : y.verdict = some r) :
    x.verdict = some r := by
  cases x with
  | out r' =>
    rw [verdict_of_isCall h] at hr
    cases hr
  | unlockHolding c r' =>
    cases c with
    | none =>
      obtain rfl : y = .out (some r') := h
      exact hr
    | some c =>
      obtain rfl : y = .checked c r' := h
      exact hr
  | test | clear | look c | checked c r' | passed c => exact h.elim
  | panic msg => exact Bool.noConfusion (h : false = true)
  | kill q | unlock =>
    obtain rfl : y = .out none := h
    cases hr
  | acquiresleep | wait =>
    obtain rfl : y = .test := h
    cases hr
  | releasesleep =>
    obtain rfl : y = .clear := h
    cases hr
  | wake =>
    obtain rfl : y = .unlock := h
    cases hr
  | holdingsleep c =>
    obtain rfl : y = .look c := h
    cases hr

theorem Safe.step {a : Label P (Loc P)} (h : Safe s) (hi : Proc.Inv s) (hC : NoIntruder s a)
    (hstep : Proc.step code procs a s = some t) : Safe t := by
  have hm := move_of_step hstep
  have hothers := (hm.others hi).ctl
  rcases hm.loc with ⟨x, f, hc, hcode, hst, hloc⟩ | ⟨hst, hloc⟩
  · have hx : ∀ r, x.verdict = some r → (r = true ↔ s.st.held a.pid = true) := by
      intro r hr
      refine h.verdict a.pid r ?_
      rw [hc]
      exact hr
    refine ⟨by rw [hst]; exact ok_act hcode h.ok (hC x hc), fun q r hr => ?_⟩
    rw [hst]
    by_cases hq : q = a.pid
    · subst hq
      rw [hloc] at hr
      exact verdict_act hcode h.ok hx (hC x hc) hr
    · rw [held_act hcode hq]
      rw [hothers q hq] at hr
      exact h.verdict q r hr
  · refine ⟨by rw [hst]; exact h.ok, fun q r hr => ?_⟩
    rw [hst]
    refine h.verdict q r ?_
    by_cases hq : q = a.pid
    · subst hq
      rcases hloc with hloc | ⟨x, hc, hgo⟩
      · rw [← hloc]
        exact hr
      · rw [hc]
        exact verdict_goesTo hgo hr
    · rw [← hothers q hq]
      exact hr

/-- A sleep-lock has one holder at a time, and `holdingsleep` tells who it is. -/
theorem sleeplock_exclusive (hs : Boot s) (h : Steps (step code procs) NoIntruder s t) :
    (∀ p q, t.st.held p = true → t.st.held q = true → p = q) ∧
      ∀ p r, (t.ctl p).loc.verdict = some r → (r = true ↔ t.st.held p = true) := by
  have hsafe : Safe t ∧ Proc.Inv t := by
    refine h.inv (I := fun s => Safe s ∧ Proc.Inv s) (fun s a t hI hC hstep => ?_)
      ⟨hs.safe, hs.toStart.inv⟩
    exact ⟨hI.1.step hI.2 hC hstep, (move_of_step hstep).inv hI.2⟩
  exact ⟨hsafe.1.ok.one, hsafe.1.verdict⟩

def noIntruder (s : State Bool Unit Unit (Sleeplock Bool) (Loc Bool)) (a : Label Bool (Loc Bool)) :
    Bool :=
  match s.ctl a.pid with
  | .pc x => !x.holder || decide (∀ q, s.st.held q = true → q = a.pid)
  | _ => true

theorem noIntruder_of_test {s : State Bool Unit Unit (Sleeplock Bool) (Loc Bool)}
    {a : Label Bool (Loc Bool)} (h : noIntruder s a = true) : NoIntruder s a := by
  intro x hx hholder
  unfold noIntruder at h
  simp only [hx, hholder, Bool.not_true, Bool.false_or] at h
  exact of_decide_eq_true h

def newLock : State Bool Unit Unit (Sleeplock Bool) (Loc Bool) where
  st := ⟨false, none, fun _ => false⟩
  owner _ := none
  state _ := .running
  chan _ := none
  killed _ := false
  ctl _ := .pc (.out none)
  sleeps _ := 0
  wakeups _ := 0

theorem boot_newLock : Boot newLock :=
  ⟨⟨fun _ => rfl, fun _ => rfl, fun _ => ⟨_, rfl⟩⟩, ⟨rfl, rfl⟩, fun _ => rfl, fun _ => rfl⟩

/-- A process takes the lock and passes the check of `brelse`. -/
theorem sleeplock_exclusive_brelse :
    ∃ t, Steps (step code [false, true]) NoIntruder newLock t ∧
      (t.ctl true).loc = .passed .brelse ∧ t.st.held true = true ∧ t.st.held false = false := by
  have hrun : (executeIf (step code [false, true]) noIntruder
      (.call true .acquiresleep :: List.replicate 3 (.run true) ++
        .call true (.holdingsleep (some .brelse)) :: List.replicate 4 (.run true)) newLock).any
      (fun t => decide ((t.ctl true).loc = .passed .brelse)) = true := by decide +kernel
  obtain ⟨t, ht, htest⟩ := exists_of_executeIf (fun _ _ => noIntruder_of_test) hrun
  have hloc := of_decide_eq_true htest
  obtain ⟨hone, hverdict⟩ := sleeplock_exclusive boot_newLock ht
  have htrue : t.st.held true = true := (hverdict true true (by rw [hloc]; rfl)).mp rfl
  refine ⟨t, ht, hloc, htrue, Bool.eq_false_iff.mpr fun hfalse => ?_⟩
  cases hone _ _ htrue hfalse

/-- A process has the lock, and another one passes the check of `brelse`. -/
theorem holdingsleep_intruder :
    ∃ t, Runs (step code [false, true]) newLock t ∧ (t.ctl false).loc = .passed .brelse ∧
      t.st.held true = true ∧ t.st.held false = false := by
  have hrun : (execute (step code [false, true])
      (.call true .acquiresleep :: List.replicate 3 (.run true) ++
        .call false (.holdingsleep (some .brelse)) :: List.replicate 4 (.run false)) newLock).any
      (fun t => decide ((t.ctl false).loc = .passed .brelse ∧ t.st.held true = true ∧
        t.st.held false = false)) = true := by decide +kernel
  obtain ⟨t, ht, htest⟩ := exists_of_execute hrun
  exact ⟨t, ht, of_decide_eq_true htest⟩

end Safety

end Xv6.Sleeplocks
