import Mathlib.Tactic.Set
import Xv6.Proc.Sleep

namespace Xv6.Proc
open Lib Function

section Owner

variable {P L : Type} [DecidableEq L] {o : Lock L → Option P} {l l' : Lock L} {p q : P}

theorem owner_take (hl : o l = none) (ho : o l' = some q) :
    update o l (some p) l' = some q := by
  have hne : l' ≠ l := by
    rintro rfl
    rw [hl] at ho
    cases ho
  rw [update_of_ne hne, ho]

theorem owner_give (hl : o l = some p) (hq : q ≠ p) (ho : o l' = some q) :
    update o l none l' = some q := by
  have hne : l' ≠ l := by
    rintro rfl
    exact hq (Option.some.inj (ho.symm.trans hl))
  rw [update_of_ne hne, ho]

end Owner

variable {P L Ch σ X : Type} {x y : X} {phase : SleepPhase} {ch : Ch} {l : Lock L}
  {c : Ctl P L Ch X} {k : ℕ} {s t : State P L Ch σ X} {p q : P}

/-- The process holds `ptable.lock` there. -/
def Ctl.inTable : Ctl P L Ch X → Prop
  | .sleep phase _ _ _ => phase ≠ .acquire ∧ phase ≠ .away ∧ phase ≠ .relock
  | .wakeLoop _ _ _ _ | .wakeRelease _ | .killSet _ _ | .killRelease _ => True
  | _ => False

/-- The process has called `sleep` and still holds the other lock. -/
def Ctl.entering (l : Lock L) : Ctl P L Ch X → Prop
  | .sleep phase _ l' _ => (phase = .acquire ∨ phase = .release) ∧ l' = l
  | _ => False

/-- The process has set its channel and does not run on. -/
def Ctl.bedded (ch : Ch) : Ctl P L Ch X → Prop
  | .sleep phase ch' _ _ => (phase = .state ∨ phase = .sched ∨ phase = .away) ∧ ch' = ch
  | _ => False

/-- The process has given up its processor, or is about to. -/
def Ctl.dozing : Ctl P L Ch X → Prop
  | .sleep phase _ _ _ => phase = .sched ∨ phase = .away
  | _ => False

structure Inv (s : State P L Ch σ X) : Prop where
  table : ∀ p, (s.ctl p).inTable → s.owner .ptable = some p
  entering : ∀ p l, (s.ctl p).entering l → l ≠ .ptable ∧ s.owner l = some p
  chan : ∀ p ch, (s.ctl p).bedded ch → s.chan p = some ch
  asleep : ∀ p, s.state p = .sleeping → (s.ctl p).dozing

/-- What a step leaves of the other processes. -/
structure Others (p : P) (s t : State P L Ch σ X) : Prop where
  ctl : ∀ q, q ≠ p → t.ctl q = s.ctl q
  chan : ∀ q, q ≠ p → t.chan q = s.chan q
  owner : ∀ q l, q ≠ p → s.owner l = some q → t.owner l = some q
  /-- Nobody else is put to sleep. -/
  state : ∀ q, q ≠ p → t.state q = .sleeping → s.state q = .sleeping
  sleeps : ∀ q, q ≠ p → t.sleeps q = s.sleeps q
  wakeups : ∀ q, q ≠ p → t.wakeups q = s.wakeups q

theorem Inv.of_self (hi : Inv s) (ho : Others p s t) (hc : t.ctl p = c)
    (table : c.inTable → t.owner .ptable = some p)
    (entering : ∀ l, c.entering l → l ≠ .ptable ∧ t.owner l = some p)
    (chan : ∀ ch, c.bedded ch → t.chan p = some ch) (asleep : t.state p = .sleeping → c.dozing) :
    Inv t := by
  subst hc
  refine ⟨fun q hq => ?_, fun q l hq => ?_, fun q ch hq => ?_, fun q hq => ?_⟩
  · by_cases h : q = p
    · subst h
      exact table hq
    · rw [ho.ctl q h] at hq
      exact ho.owner q _ h (hi.table q hq)
  · by_cases h : q = p
    · subst h
      exact entering l hq
    · rw [ho.ctl q h] at hq
      exact ⟨(hi.entering q l hq).1, ho.owner q l h (hi.entering q l hq).2⟩
  · by_cases h : q = p
    · subst h
      exact chan ch hq
    · rw [ho.ctl q h] at hq
      rw [ho.chan q h]
      exact hi.chan q ch hq
  · by_cases h : q = p
    · subst h
      exact asleep hq
    · rw [ho.ctl q h]
      exact hi.asleep q (ho.state q h hq)

theorem Inv.of_pc (hi : Inv s) (ho : Others p s t) (hc : t.ctl p = .pc x)
    (hs : t.state p ≠ .sleeping) : Inv t :=
  hi.of_self ho hc (fun h => h.elim) (fun _ h => h.elim) (fun _ h => h.elim) fun h => absurd h hs

theorem Inv.awake (hi : Inv s) (hc : s.ctl p = c) (h : ¬ c.dozing) : s.state p ≠ .sleeping := by
  intro hs
  have hd := hi.asleep p hs
  rw [hc] at hd
  exact h hd

theorem Start.inv (h : Start s) : Inv s := by
  refine ⟨fun p hp => ?_, fun p l hp => ?_, fun p ch hp => ?_, fun p hp => ?_⟩
  · obtain ⟨x, hx⟩ := h.ctl p
    rw [hx] at hp
    exact hp.elim
  · obtain ⟨x, hx⟩ := h.ctl p
    rw [hx] at hp
    exact hp.elim
  · obtain ⟨x, hx⟩ := h.ctl p
    rw [hx] at hp
    exact hp.elim
  · rw [h.state p] at hp
    cases hp

theorem Inv.sleeping (hi : Inv s) (h : s.state p = .sleeping) :
    ∃ phase ch l x, s.ctl p = .sleep phase ch l x ∧ s.chan p = some ch := by
  have hd := hi.asleep p h
  cases hc : s.ctl p with
  | sleep phase ch l x =>
    rw [hc] at hd
    exact ⟨phase, ch, l, x, rfl, hi.chan p ch (by rw [hc]; exact ⟨.inr hd, rfl⟩)⟩
  | _ =>
    rw [hc] at hd
    exact hd.elim

/-- The process is on its way to sleep. -/
def Ctl.turning : Ctl P L Ch X → Prop
  | .sleep phase _ _ _ => phase = .acquire ∨ phase = .release ∨ phase = .chan ∨ phase = .state
  | _ => False

/-- If the process is in `sleep`, then on this channel, and it has given up the other lock. -/
def Ctl.bound (ch : Ch) : Ctl P L Ch X → Prop
  | .sleep phase ch' _ _ => phase ≠ .acquire ∧ phase ≠ .release ∧ ch' = ch
  | _ => True

/-- What a step of the process itself keeps of its last call. -/
structure Going (p : P) (s t : State P L Ch σ X) : Prop where
  sleeps : t.sleeps p = s.sleeps p
  turning : (t.ctl p).turning → (s.ctl p).turning
  state : t.state p = .sleeping → s.state p = .sleeping ∨ (s.ctl p).turning
  bound : ∀ ch, (s.ctl p).bound ch → (t.ctl p).bound ch

theorem Going.of_out (hs : t.sleeps p = s.sleeps p) (hc : t.ctl p = c)
    (hst : t.state p = .sleeping → s.state p = .sleeping) (hturn : ¬ c.turning)
    (hbound : ∀ ch, c.bound ch) : Going p s t := by
  subst hc
  exact ⟨hs, fun h => absurd h hturn, fun h => .inl (hst h), fun ch _ => hbound ch⟩

theorem Going.of_phase {phase' : SleepPhase} (hs : t.sleeps p = s.sleeps p)
    (hc : s.ctl p = .sleep phase ch l x) (hc' : t.ctl p = .sleep phase' ch l x)
    (hst : t.state p = .sleeping → s.state p = .sleeping ∨ (s.ctl p).turning)
    (hturn : (Ctl.sleep phase' ch l x : Ctl P L Ch X).turning →
      (Ctl.sleep phase ch l x : Ctl P L Ch X).turning)
    (hphase : phase' ≠ .acquire ∧ phase' ≠ .release ∨ phase = .acquire) : Going p s t := by
  refine ⟨hs, ?_, hst, ?_⟩
  · rw [hc, hc']
    exact hturn
  · intro ch'
    rw [hc, hc']
    rintro ⟨h1, -, rfl⟩
    obtain ⟨h, h'⟩ := hphase.resolve_right h1
    exact ⟨h, h', rfl⟩

/-- `A` holds as long as the process has made `k` calls of `sleep`. -/
structure Since (p : P) (k : ℕ) (A : State P L Ch σ X → Prop) (s : State P L Ch σ X) : Prop where
  le : k ≤ s.sleeps p
  now : s.sleeps p = k → A s

/-- The `k`-th call of `sleep` has put the process to sleep before, or will not any more. -/
def Over (p : P) (k : ℕ) : State P L Ch σ X → Prop :=
  Since p k fun s => ¬ (s.ctl p).turning ∧ s.state p ≠ .sleeping

/-- In its `k`-th call of `sleep` the process has given up the other lock. -/
def Committed (p : P) (k : ℕ) (ch : Ch) : State P L Ch σ X → Prop :=
  Since p k fun s => (s.ctl p).bound ch

/-- The process is in a call of `wakeup` on the channel that has still to come to `p`, unless that
is not needed any more. -/
def Ctl.rousing (ch : Ch) (p : P) (ended : Prop) : Ctl P L Ch X → Prop
  | .wakeAcquire ch' _ => ch' = ch
  | .wakeLoop ch' rest _ _ => ch' = ch ∧ (p ∈ rest ∨ ended)
  | .wakeRelease _ => ended
  | _ => False

/-- Process `q` is in its call of `wakeup` after the first `n`, or has returned from it. -/
structure Rousing (p : P) (k : ℕ) (ch : Ch) (q : P) (n : ℕ) (s : State P L Ch σ X) : Prop where
  committed : Committed p k ch s
  le : n ≤ s.wakeups q
  after : n < s.wakeups q → Over p k s
  during : s.wakeups q = n → (s.ctl q).rousing ch p (Over p k s)

theorem Rousing.of_over {n : ℕ} (hcom : Committed p k ch s) (hn : n < s.wakeups q)
    (hover : Over p k s) : Rousing p k ch q n s :=
  ⟨hcom, Nat.le_of_lt hn, fun _ => hover, fun h => absurd h (Nat.ne_of_gt hn)⟩

theorem Ctl.rousing.mono {a b : Prop} (h : c.rousing ch p a) (hab : a → b) : c.rousing ch p b := by
  cases c with
  | wakeAcquire => exact h
  | wakeLoop => exact ⟨h.1, h.2.imp_right hab⟩
  | wakeRelease => exact hab h
  | _ => exact h

variable [DecidableEq P] [DecidableEq Ch]

theorem Inv.wake_awake (hi : Inv s) (hc : s.ctl p = .sleep phase ch l x) :
    (s.wake p ch).state p ≠ .sleeping := by
  intro hs
  have hs' := State.wake_state hs
  have hd := hi.asleep p hs'
  rw [hc] at hd
  have hchan : s.chan p = some ch := hi.chan p ch (by rw [hc]; exact ⟨.inr hd, rfl⟩)
  unfold State.wake at hs
  rw [if_pos ⟨hs', hchan⟩] at hs
  have hrun : update s.state p .runnable p = .sleeping := hs
  rw [update_self] at hrun
  cases hrun

/-- With `ptable.lock` in other hands the process is asleep on the channel, if at all. -/
theorem Committed.wake (h : Committed p k ch s) (hi : Inv s) (ho : s.owner .ptable = some q)
    (hq : q ≠ p) : Over p k (s.wake p ch) := by
  refine ⟨by rw [State.wake_sleeps]; exact h.le, fun hk => ?_⟩
  rw [State.wake_sleeps] at hk
  have hb : (s.ctl p).bound ch := h.now hk
  refine ⟨fun ht => ?_, fun hs => ?_⟩
  · rw [State.wake_ctl] at ht
    cases hc : s.ctl p with
    | sleep phase ch' l x =>
      rw [hc] at hb ht
      obtain ⟨h1, h2, -⟩ := hb
      have htable : (s.ctl p).inTable := by
        rw [hc]
        rcases ht with rfl | rfl | rfl | rfl
        · exact absurd rfl h1
        · exact absurd rfl h2
        · simp [Ctl.inTable]
        · simp [Ctl.inTable]
      exact hq (Option.some.inj (ho.symm.trans (hi.table p htable)))
    | _ =>
      rw [hc] at ht
      exact ht
  · obtain ⟨phase, ch', l, x, hc, -⟩ := hi.sleeping (State.wake_state hs)
    rw [hc] at hb
    obtain ⟨-, -, rfl⟩ := hb
    exact hi.wake_awake hc hs

variable [DecidableEq L] {code : P → X → Instr P L Ch σ X} {procs : List P}
  {C : State P L Ch σ X → Label P X → Prop}

section Move

variable (code : P → X → Instr P L Ch σ X) (procs : List P) (p : P) (s : State P L Ch σ X)

inductive Move : State P L Ch σ X → Prop where
  | call {x y : X} {entry : X → Bool} : s.ctl p = .pc x → code p x = .call entry → entry y = true →
      Move (s.goto p (.pc y))
  | act {x : X} {f : Bool → σ → σ × X} : s.ctl p = .pc x → code p x = .act f →
      Move { s.goto p (.pc (f (s.killed p) s.st).2) with
        st := (f (s.killed p) s.st).1 }
  | acquire {x y : X} {l : Lock L} : s.ctl p = .pc x → code p x = .acquire l y →
      s.owner l = none → Move ((s.setOwner l (some p)).goto p (.pc y))
  | release {x y : X} {l : Lock L} : s.ctl p = .pc x → code p x = .release l y →
      s.owner l = some p → Move ((s.setOwner l none).goto p (.pc y))
  | sleep {x y : X} {ch : Ch} {l : Lock L} : s.ctl p = .pc x → code p x = .sleep ch l y →
      s.owner l = some p → l ≠ .ptable → Move { s.goto p (.sleep .acquire ch l y) with
        sleeps := update s.sleeps p (s.sleeps p + 1) }
  | sleepTable {x y : X} {ch : Ch} : s.ctl p = .pc x → code p x = .sleep ch .ptable y →
      s.owner .ptable = some p → Move { s.goto p (.sleep .chan ch .ptable y) with
        sleeps := update s.sleeps p (s.sleeps p + 1) }
  | sleepAcquire {ch : Ch} {l : Lock L} {x : X} : s.ctl p = .sleep .acquire ch l x →
      s.owner .ptable = none →
      Move ((s.setOwner .ptable (some p)).goto p (.sleep .release ch l x))
  | sleepRelease {ch : Ch} {l : Lock L} {x : X} : s.ctl p = .sleep .release ch l x →
      Move ((s.setOwner l none).goto p (.sleep .chan ch l x))
  | sleepChan {ch : Ch} {l : Lock L} {x : X} : s.ctl p = .sleep .chan ch l x →
      Move ((s.setChan p (some ch)).goto p (.sleep .state ch l x))
  | sleepState {ch : Ch} {l : Lock L} {x : X} : s.ctl p = .sleep .state ch l x →
      Move ((s.setState p .sleeping).goto p (.sleep .sched ch l x))
  | sched {ch : Ch} {l : Lock L} {x : X} : s.ctl p = .sleep .sched ch l x →
      Move ((s.setOwner .ptable none).goto p (.sleep .away ch l x))
  | resume {ch : Ch} {l : Lock L} {x : X} : s.ctl p = .sleep .away ch l x →
      s.state p = .runnable → s.owner .ptable = none →
      Move (((s.setState p .running).setOwner .ptable (some p)).goto p (.sleep .tidy ch l x))
  | tidy {ch : Ch} {l : Lock L} {x : X} : s.ctl p = .sleep .tidy ch l x → l ≠ .ptable →
      Move ((s.setChan p none).goto p (.sleep .unlock ch l x))
  | tidyTable {ch : Ch} {x : X} : s.ctl p = .sleep .tidy ch .ptable x →
      Move ((s.setChan p none).goto p (.pc x))
  | unlock {ch : Ch} {l : Lock L} {x : X} : s.ctl p = .sleep .unlock ch l x →
      Move ((s.setOwner .ptable none).goto p (.sleep .relock ch l x))
  | relock {ch : Ch} {l : Lock L} {x : X} : s.ctl p = .sleep .relock ch l x → s.owner l = none →
      Move ((s.setOwner l (some p)).goto p (.pc x))
  | wakeup {x y : X} {ch : Ch} : s.ctl p = .pc x → code p x = .wakeup ch y →
      Move (s.goto p (.wakeAcquire ch y))
  | wakeup1 {x y : X} {ch : Ch} : s.ctl p = .pc x → code p x = .wakeup1 ch y →
      s.owner .ptable = some p → Move (s.goto p (.wakeLoop ch procs false y))
  | wakeAcquire {x : X} {ch : Ch} : s.ctl p = .wakeAcquire ch x → s.owner .ptable = none →
      Move ((s.setOwner .ptable (some p)).goto p (.wakeLoop ch procs true x))
  | wakeRound {x : X} {ch : Ch} {q : P} {rest : List P} {u : Bool} :
      s.ctl p = .wakeLoop ch (q :: rest) u x →
      Move ((s.wake q ch).goto p (.wakeLoop ch rest u x))
  | wakeEnd {x : X} {ch : Ch} : s.ctl p = .wakeLoop ch [] true x →
      Move (s.goto p (.wakeRelease x))
  | wakeReturn {x : X} {ch : Ch} : s.ctl p = .wakeLoop ch [] false x →
      Move { s.goto p (.pc x) with
        wakeups := update s.wakeups p (s.wakeups p + 1) }
  | wakeRelease {x : X} : s.ctl p = .wakeRelease x →
      Move { (s.setOwner .ptable none).goto p (.pc x) with
        wakeups := update s.wakeups p (s.wakeups p + 1) }
  | kill {x y : X} {q : P} : s.ctl p = .pc x → code p x = .kill q y →
      Move (s.goto p (.killAcquire q y))
  | killAcquire {x : X} {q : P} : s.ctl p = .killAcquire q x → s.owner .ptable = none →
      Move ((s.setOwner .ptable (some p)).goto p (.killSet q x))
  | killSet {x : X} {q : P} : s.ctl p = .killSet q x →
      Move ((s.setKilled q).goto p (.killRelease x))
  | killRelease {x : X} : s.ctl p = .killRelease x →
      Move ((s.setOwner .ptable none).goto p (.pc x))

end Move

theorem move_of_instr (hx : s.ctl p = .pc x) (h : instrStep procs s p (code p x) = some t) :
    Move code procs p s t := by
  cases hi : code p x with
  | act f =>
    rw [hi] at h
    cases h
    exact .act hx hi
  | acquire l y =>
    simp only [hi, instrStep] at h
    split_ifs at h with ho
    cases h
    exact .acquire hx hi ho
  | release l y =>
    simp only [hi, instrStep] at h
    split_ifs at h with ho
    cases h
    exact .release hx hi ho
  | sleep ch l y =>
    simp only [hi, instrStep] at h
    rw [Option.ite_none_right_eq_some] at h
    obtain ⟨ho, h⟩ := h
    cases h
    by_cases hl : l = .ptable
    · subst hl
      exact .sleepTable hx hi ho
    · rw [if_neg hl]
      exact .sleep hx hi ho hl
  | wakeup ch y =>
    rw [hi] at h
    cases h
    exact .wakeup hx hi
  | wakeup1 ch y =>
    simp only [hi, instrStep] at h
    split_ifs at h with ho
    cases h
    exact .wakeup1 hx hi ho
  | kill q y =>
    rw [hi] at h
    cases h
    exact .kill hx hi
  | call entry =>
    rw [hi] at h
    cases h

theorem move_of_sleep (hx : s.ctl p = .sleep phase ch l x) (h : sleepStep s p ch l x phase = some t) :
    Move code procs p s t := by
  cases phase with
  | acquire =>
    simp only [sleepStep] at h
    split_ifs at h with ho
    cases h
    exact .sleepAcquire hx ho
  | release =>
    cases h
    exact .sleepRelease hx
  | chan =>
    cases h
    exact .sleepChan hx
  | state =>
    cases h
    exact .sleepState hx
  | sched =>
    cases h
    exact .sched hx
  | away =>
    simp only [sleepStep] at h
    split_ifs at h with ho
    cases h
    exact .resume hx ho.1 ho.2
  | tidy =>
    cases h
    by_cases hl : l = .ptable
    · subst hl
      exact .tidyTable hx
    · rw [if_neg hl]
      exact .tidy hx hl
  | unlock =>
    cases h
    exact .unlock hx
  | relock =>
    simp only [sleepStep] at h
    split_ifs at h with ho
    cases h
    exact .relock hx ho

theorem move_of_step {a : Label P X} (h : step code procs a s = some t) :
    Move code procs a.pid s t := by
  cases a with
  | call p y =>
    unfold step at h
    cases hx : s.ctl p with
    | pc x =>
      simp only [hx] at h
      split at h
      · next entry hi =>
        split_ifs at h with he
        cases h
        exact .call hx hi he
      · cases h
    | _ =>
      simp only [hx] at h
      cases h
  | run p =>
    unfold step at h
    cases hx : s.ctl p with
    | pc x =>
      simp only [hx] at h
      exact move_of_instr hx h
    | sleep phase ch l x =>
      simp only [hx] at h
      exact move_of_sleep hx h
    | wakeAcquire ch x =>
      simp only [hx] at h
      split_ifs at h with ho
      cases h
      exact .wakeAcquire hx ho
    | wakeLoop ch rest u x =>
      cases rest with
      | nil =>
        simp only [hx] at h
        cases u with
        | true =>
          cases h
          exact .wakeEnd hx
        | false =>
          cases h
          exact .wakeReturn hx
      | cons q rest =>
        simp only [hx] at h
        cases h
        exact .wakeRound hx
    | wakeRelease x =>
      simp only [hx] at h
      cases h
      exact .wakeRelease hx
    | killAcquire q x =>
      simp only [hx] at h
      split_ifs at h with ho
      cases h
      exact .killAcquire hx ho
    | killSet q x =>
      simp only [hx] at h
      cases h
      exact .killSet hx
    | killRelease x =>
      simp only [hx] at h
      cases h
      exact .killRelease hx

theorem step_act {f : Bool → σ → σ × X} {st : σ} (hc : s.ctl p = .pc x) (hcode : code p x = .act f)
    (hf : f (s.killed p) s.st = (st, y)) :
    step code procs (.run p) s = some { s.goto p (.pc y) with st := st } := by
  simp only [step, hc, hcode, instrStep, hf]

theorem step_release (hc : s.ctl p = .pc x) (hcode : code p x = .release l y)
    (ho : s.owner l = some p) :
    step code procs (.run p) s = some ((s.setOwner l none).goto p (.pc y)) := by
  simp only [step, hc, hcode, instrStep, ho, if_true]

/-- A step acts on the data, or goes on to the next instruction, or stays where it is. -/
theorem Move.loc (h : Move code procs p s t) :
    (∃ x f, s.ctl p = .pc x ∧ code p x = .act f ∧ t.st = (f (s.killed p) s.st).1 ∧
      (t.ctl p).loc = (f (s.killed p) s.st).2) ∨
    t.st = s.st ∧ ((t.ctl p).loc = (s.ctl p).loc ∨
      ∃ x, s.ctl p = .pc x ∧ (code p x).GoesTo (t.ctl p).loc) := by
  cases h with
  | call hc hcode he =>
    refine .inr ⟨rfl, .inr ⟨_, hc, ?_⟩⟩
    rw [State.goto_self, hcode]
    exact he
  | act hc hcode =>
    refine .inl ⟨_, _, hc, hcode, rfl, ?_⟩
    show (update s.ctl p _ p).loc = _
    rw [update_self]
    rfl
  | acquire hc hcode | release hc hcode | wakeup hc hcode | wakeup1 hc hcode | kill hc hcode =>
    refine .inr ⟨rfl, .inr ⟨_, hc, ?_⟩⟩
    rw [State.goto_self, hcode]
    rfl
  | sleep hc hcode | sleepTable hc hcode =>
    refine .inr ⟨rfl, .inr ⟨_, hc, ?_⟩⟩
    show (code p _).GoesTo (update s.ctl p _ p).loc
    rw [update_self, hcode]
    rfl
  | wakeRound hc =>
    refine .inr ⟨State.wake_st .., .inl ?_⟩
    rw [State.goto_self, hc]
    rfl
  | wakeReturn hc | wakeRelease hc =>
    refine .inr ⟨rfl, .inl ?_⟩
    show (update s.ctl p _ p).loc = _
    rw [update_self, hc]
    rfl
  | killSet hc =>
    refine .inr ⟨State.setKilled_st .., .inl ?_⟩
    rw [State.goto_self, hc]
    rfl
  | _ hc =>
    refine .inr ⟨rfl, .inl ?_⟩
    rw [State.goto_self, hc]
    rfl

theorem st_of_runs {good : σ → Prop}
    (hact : ∀ s a x f, C s a → s.ctl a.pid = .pc x → code a.pid x = .act f → good s.st →
      good (f (s.killed a.pid) s.st).1)
    (h : Steps (step code procs) C s t) (hs : good s.st) : good t.st := by
  refine h.inv (I := fun s => good s.st) (fun s a t hgood hC hstep => ?_) hs
  rcases (move_of_step hstep).loc with ⟨x, f, hc, hcode, hst, -⟩ | ⟨hst, -⟩
  · rw [hst]
    exact hact s a x f hC hc hcode hgood
  · rw [hst]
    exact hgood

theorem Move.others (hi : Inv s) (h : Move code procs p s t) : Others p s t := by
  have hne {β : Type} (f : P → β) (b : β) : ∀ q, q ≠ p → update f p b q = f q :=
    fun q hq => update_of_ne hq b f
  have hkeep {β : Type} {f : P → β} : ∀ q, q ≠ p → f q = f q := fun _ _ => rfl
  have hst (b : ProcState) : ∀ q, q ≠ p → update s.state p b q = .sleeping →
      s.state q = .sleeping := fun q hq h => by rwa [update_of_ne hq] at h
  cases h with
  | call | act | wakeup | wakeup1 | wakeEnd | kill =>
    exact ⟨hne _ _, hkeep, fun _ _ _ => id, fun _ _ => id, hkeep, hkeep⟩
  | acquire _ _ ho | relock _ ho =>
    exact ⟨hne _ _, hkeep, fun _ _ _ => owner_take ho, fun _ _ => id, hkeep, hkeep⟩
  | release _ _ ho => exact ⟨hne _ _, hkeep, fun _ _ => owner_give ho, fun _ _ => id, hkeep, hkeep⟩
  | sleep | sleepTable => exact ⟨hne _ _, hkeep, fun _ _ _ => id, fun _ _ => id, hne _ _, hkeep⟩
  | sleepAcquire _ ho | wakeAcquire _ ho | killAcquire _ ho =>
    exact ⟨hne _ _, hkeep, fun _ _ _ => owner_take ho, fun _ _ => id, hkeep, hkeep⟩
  | sleepRelease hc =>
    have ho := (hi.entering p _ (by rw [hc]; exact ⟨.inr rfl, rfl⟩)).2
    exact ⟨hne _ _, hkeep, fun _ _ => owner_give ho, fun _ _ => id, hkeep, hkeep⟩
  | sleepChan | tidy | tidyTable => exact ⟨hne _ _, hne _ _, fun _ _ _ => id, fun _ _ => id, hkeep, hkeep⟩
  | sleepState => exact ⟨hne _ _, hkeep, fun _ _ _ => id, hst _, hkeep, hkeep⟩
  | sched hc | unlock hc =>
    have ho := hi.table p (by rw [hc]; simp [Ctl.inTable])
    exact ⟨hne _ _, hkeep, fun _ _ => owner_give ho, fun _ _ => id, hkeep, hkeep⟩
  | resume _ _ ho => exact ⟨hne _ _, hkeep, fun _ _ _ => owner_take ho, hst _, hkeep, hkeep⟩
  | wakeRound =>
    refine ⟨fun q hq => ?_, fun q _ => ?_, fun q l _ h => ?_, fun q _ h => State.wake_state h,
      fun q _ => ?_, fun q _ => ?_⟩
    · rw [State.goto, State.wake_ctl]
      exact hne _ _ q hq
    · rw [State.goto, State.wake_chan]
    · rw [State.goto, State.wake_owner, h]
    · rw [State.goto, State.wake_sleeps]
    · rw [State.goto, State.wake_wakeups]
  | wakeReturn => exact ⟨hne _ _, hkeep, fun _ _ _ => id, fun _ _ => id, hkeep, hne _ _⟩
  | wakeRelease hc =>
    have ho := hi.table p (by rw [hc]; trivial)
    exact ⟨hne _ _, hkeep, fun _ _ => owner_give ho, fun _ _ => id, hkeep, hne _ _⟩
  | killSet =>
    refine ⟨fun q hq => ?_, fun q _ => ?_, fun q l _ h => ?_, fun q _ h => State.setKilled_state h,
      fun q _ => ?_, fun q _ => ?_⟩
    · rw [State.goto, State.setKilled_ctl]
      exact hne _ _ q hq
    · rw [State.goto, State.setKilled_chan]
    · rw [State.goto, State.setKilled_owner, h]
    · rw [State.goto, State.setKilled_sleeps]
    · rw [State.goto, State.setKilled_wakeups]
  | killRelease hc =>
    have ho := hi.table p (by rw [hc]; trivial)
    exact ⟨hne _ _, hkeep, fun _ _ => owner_give ho, fun _ _ => id, hkeep, hkeep⟩

theorem Move.inv (hi : Inv s) (h : Move code procs p s t) : Inv t := by
  have ho := h.others hi
  have hself {β : Type} (f : P → β) (b : β) : update f p b p = b := update_self ..
  have htake : update s.owner .ptable (some p) .ptable = some p := update_self ..
  cases h with
  | call hc | act hc | acquire hc | release hc | tidyTable hc | relock hc | wakeReturn hc
  | wakeRelease hc | killRelease hc =>
    exact hi.of_pc ho (hself _ _) (hi.awake hc (by simp [Ctl.dozing]))
  | sleep hc _ hl hp =>
    refine hi.of_self ho (hself _ _) (by simp [Ctl.inTable]) ?_ (by simp [Ctl.bedded])
      fun h => absurd h (hi.awake hc (by simp [Ctl.dozing]))
    rintro l' ⟨-, rfl⟩
    exact ⟨hp, hl⟩
  | sleepTable hc _ hl =>
    exact hi.of_self ho (hself _ _) (fun _ => hl) (by simp [Ctl.entering]) (by simp [Ctl.bedded])
      fun h => absurd h (hi.awake hc (by simp [Ctl.dozing]))
  | sleepAcquire hc =>
    refine hi.of_self ho (hself _ _) (fun _ => htake) ?_ (by simp [Ctl.bedded])
      fun h => absurd h (hi.awake hc (by simp [Ctl.dozing]))
    rintro l ⟨-, rfl⟩
    obtain ⟨hne, hl⟩ := hi.entering p _ (by rw [hc]; exact ⟨.inl rfl, rfl⟩)
    refine ⟨hne, ?_⟩
    show update s.owner .ptable (some p) _ = some p
    rw [update_of_ne hne, hl]
  | sleepRelease hc =>
    obtain ⟨hne, -⟩ := hi.entering p _ (by rw [hc]; exact ⟨.inr rfl, rfl⟩)
    refine hi.of_self ho (hself _ _) (fun _ => ?_) (by simp [Ctl.entering]) (by simp [Ctl.bedded])
      fun h => absurd h (hi.awake hc (by simp [Ctl.dozing]))
    show update s.owner _ none .ptable = some p
    rw [update_of_ne hne.symm]
    exact hi.table p (by rw [hc]; simp [Ctl.inTable])
  | sleepChan hc =>
    refine hi.of_self ho (hself _ _) (fun _ => hi.table p (by rw [hc]; simp [Ctl.inTable]))
      (by simp [Ctl.entering]) ?_ fun h => absurd h (hi.awake hc (by simp [Ctl.dozing]))
    rintro ch ⟨-, rfl⟩
    exact hself _ _
  | sleepState hc =>
    refine hi.of_self ho (hself _ _) (fun _ => hi.table p (by rw [hc]; simp [Ctl.inTable]))
      (by simp [Ctl.entering]) ?_ fun _ => .inl rfl
    rintro ch ⟨-, rfl⟩
    exact hi.chan p _ (by rw [hc]; exact ⟨.inl rfl, rfl⟩)
  | sched hc =>
    refine hi.of_self ho (hself _ _) (by simp [Ctl.inTable]) (by simp [Ctl.entering]) ?_
      fun _ => .inr rfl
    rintro ch ⟨-, rfl⟩
    exact hi.chan p _ (by rw [hc]; exact ⟨.inr (.inl rfl), rfl⟩)
  | resume hc =>
    refine hi.of_self ho (hself _ _) (fun _ => htake) (by simp [Ctl.entering])
      (by simp [Ctl.bedded]) ?_
    intro h
    have hrun : update s.state p .running p = .sleeping := h
    rw [hself] at hrun
    cases hrun
  | tidy hc =>
    exact hi.of_self ho (hself _ _) (fun _ => hi.table p (by rw [hc]; simp [Ctl.inTable]))
      (by simp [Ctl.entering]) (by simp [Ctl.bedded])
      fun h => absurd h (hi.awake hc (by simp [Ctl.dozing]))
  | unlock hc =>
    exact hi.of_self ho (hself _ _) (by simp [Ctl.inTable]) (by simp [Ctl.entering])
      (by simp [Ctl.bedded]) fun h => absurd h (hi.awake hc (by simp [Ctl.dozing]))
  | wakeup hc | kill hc =>
    exact hi.of_self ho (hself _ _) (fun h => h.elim) (fun _ h => h.elim) (fun _ h => h.elim)
      fun h => absurd h (hi.awake hc (by simp [Ctl.dozing]))
  | wakeup1 hc _ hl =>
    exact hi.of_self ho (hself _ _) (fun _ => hl) (fun _ h => h.elim) (fun _ h => h.elim)
      fun h => absurd h (hi.awake hc (by simp [Ctl.dozing]))
  | wakeAcquire hc | killAcquire hc =>
    exact hi.of_self ho (hself _ _) (fun _ => htake) (fun _ h => h.elim) (fun _ h => h.elim)
      fun h => absurd h (hi.awake hc (by simp [Ctl.dozing]))
  | wakeRound hc =>
    refine hi.of_self ho (hself _ _) (fun _ => ?_) (fun _ h => h.elim) (fun _ h => h.elim)
      fun h => absurd (State.wake_state h) (hi.awake hc (by simp [Ctl.dozing]))
    rw [State.goto, State.wake_owner]
    exact hi.table p (by rw [hc]; trivial)
  | wakeEnd hc =>
    exact hi.of_self ho (hself _ _) (fun _ => hi.table p (by rw [hc]; trivial))
      (fun _ h => h.elim) (fun _ h => h.elim)
      fun h => absurd h (hi.awake hc (by simp [Ctl.dozing]))
  | killSet hc =>
    refine hi.of_self ho (hself _ _) (fun _ => ?_) (fun _ h => h.elim) (fun _ h => h.elim)
      fun h => absurd (State.setKilled_state h) (hi.awake hc (by simp [Ctl.dozing]))
    rw [State.goto, State.setKilled_owner]
    exact hi.table p (by rw [hc]; trivial)

theorem Inv.runs (h : Steps (step code procs) C s t) (hi : Inv s) : Inv t :=
  h.inv (fun _ _ _ hi _ hstep => (move_of_step hstep).inv hi) hi

/-- What every step keeps in a state that is in order is kept by a run. -/
theorem Inv.along {I : State P L Ch σ X → Prop}
    (hI : ∀ {s q t}, I s → Inv s → Move code procs q s t → I t)
    (h : Steps (step code procs) C s t) (hi : Inv s) (hs : I s) : I t :=
  (h.inv (I := fun s => Inv s ∧ I s) (fun _ _ _ hs _ hstep =>
    ⟨(move_of_step hstep).inv hs.1, hI hs.2 hs.1 (move_of_step hstep)⟩) ⟨hi, hs⟩).2

/-- A step of the process itself is a new call, or goes on with the last one. -/
theorem Move.self (h : Move code procs p s t) :
    t.sleeps p = s.sleeps p + 1 ∨ Going p s t := by
  have hself {β : Type} (f : P → β) (b : β) : update f p b p = b := update_self ..
  cases h with
  | call | act | acquire | release | tidyTable | relock | wakeup | wakeup1 | wakeAcquire | wakeEnd
  | wakeReturn | wakeRelease | kill | killAcquire | killRelease =>
    exact .inr (.of_out rfl (hself _ _) id id fun _ => trivial)
  | sleep | sleepTable => exact .inl (hself _ _)
  | sleepAcquire hc =>
    exact .inr (.of_phase rfl hc (hself _ _) .inl (by simp [Ctl.turning]) (.inr rfl))
  | sleepRelease hc | sleepChan hc | sched hc | tidy hc | unlock hc =>
    exact .inr (.of_phase rfl hc (hself _ _) .inl (by simp [Ctl.turning]) (.inl (by simp)))
  | sleepState hc =>
    refine .inr (.of_phase rfl hc (hself _ _) (fun _ => .inr ?_) (by simp [Ctl.turning])
      (.inl (by simp)))
    rw [hc]
    simp [Ctl.turning]
  | resume hc =>
    refine .inr (.of_phase rfl hc (hself _ _) (fun h => ?_) (by simp [Ctl.turning])
      (.inl (by simp)))
    have hrun : update s.state p .running p = .sleeping := h
    rw [hself] at hrun
    cases hrun
  | wakeRound =>
    refine .inr (.of_out ?_ (hself _ _) State.wake_state id fun _ => trivial)
    rw [State.goto, State.wake_sleeps]
  | killSet =>
    refine .inr (.of_out ?_ (hself _ _) State.setKilled_state id fun _ => trivial)
    rw [State.goto, State.setKilled_sleeps]

theorem Since.move {A : State P L Ch σ X → Prop} (h : Since p k A s) (hi : Inv s)
    (hm : Move code procs q s t) (hgo : Going p s t → A s → A t)
    (hkeep : p ≠ q → Others q s t → A s → A t) : Since p k A t := by
  by_cases hpq : p = q
  · subst hpq
    rcases hm.self with hs | hg
    · have hlt : k < t.sleeps p := by
        have := h.le
        omega
      exact ⟨Nat.le_of_lt hlt, fun hk => absurd hk (Nat.ne_of_gt hlt)⟩
    · exact ⟨by rw [hg.sleeps]; exact h.le, fun hk => hgo hg (h.now (hg.sleeps.symm.trans hk))⟩
  · have ho := hm.others hi
    have hs := ho.sleeps p hpq
    exact ⟨by rw [hs]; exact h.le, fun hk => hkeep hpq ho (h.now (hs.symm.trans hk))⟩

theorem Over.move (h : Over p k s) (hi : Inv s) (hm : Move code procs q s t) : Over p k t := by
  refine Since.move h hi hm (fun hg hs => ⟨fun ht => hs.1 (hg.turning ht), fun hsleep => ?_⟩)
    fun hpq ho hs => ⟨?_, fun hsleep => hs.2 (ho.state p hpq hsleep)⟩
  · exact (hg.state hsleep).elim hs.2 hs.1
  · rw [ho.ctl p hpq]
    exact hs.1

theorem Committed.move (h : Committed p k ch s) (hi : Inv s) (hm : Move code procs q s t) :
    Committed p k ch t := by
  refine Since.move h hi hm (fun hg => hg.bound ch) fun hpq ho hs => ?_
  rw [ho.ctl p hpq]
  exact hs

theorem Rousing.move {n : ℕ} {r : P} (hprocs : ∀ p, p ∈ procs) (h : Rousing p k ch q n s)
    (hq : q ≠ p) (hi : Inv s) (hm : Move code procs r s t) : Rousing p k ch q n t := by
  have hcom := h.committed.move hi hm
  by_cases hr : q = r
  · subst hr
    -- A step of the waking process itself.
    by_cases hn : n < s.wakeups q
    · have hover := (h.after hn).move hi hm
      have hle : s.wakeups q ≤ t.wakeups q := by
        cases hm <;> simp [State.goto, State.setOwner, State.setState, State.setChan]
      exact .of_over hcom (by omega) hover
    · have hn' : s.wakeups q = n := by
        have := h.le
        omega
      have hd := h.during hn'
      have hstay : Over p k s → Over p k t := fun h => h.move hi hm
      have hreturn : n < update s.wakeups q (s.wakeups q + 1) q := by
        rw [update_self]
        omega
      cases hm with
      | wakeAcquire hc ho =>
        rw [hc] at hd
        refine ⟨hcom, h.le, fun hlt => absurd hn' (Nat.ne_of_gt hlt), fun _ => ?_⟩
        rw [State.goto_self]
        exact ⟨hd, .inl (hprocs p)⟩
      | @wakeRound x ch' r rest u hc =>
        rw [hc] at hd
        obtain ⟨rfl, hd⟩ := hd
        refine ⟨hcom, ?_, fun hlt => ?_, fun _ => ?_⟩
        · rw [State.goto, State.wake_wakeups]
          exact h.le
        · rw [State.goto, State.wake_wakeups] at hlt
          exact absurd hn' (Nat.ne_of_gt hlt)
        · rw [State.goto_self]
          refine ⟨rfl, ?_⟩
          rcases hd with hmem | hover
          · rcases List.mem_cons.mp hmem with rfl | hmem
            · right
              have ho : s.owner .ptable = some q := hi.table q (by rw [hc]; trivial)
              have hw := h.committed.wake hi ho hq
              refine ⟨hw.le, fun hk => ⟨?_, (hw.now hk).2⟩⟩
              rw [State.goto_of_ne _ _ hq.symm]
              exact (hw.now hk).1
            · exact .inl hmem
          · exact .inr (hstay hover)
      | wakeEnd hc =>
        rw [hc] at hd
        refine ⟨hcom, h.le, fun hlt => absurd hn' (Nat.ne_of_gt hlt), fun _ => ?_⟩
        rw [State.goto_self]
        exact hstay (hd.2.resolve_left List.not_mem_nil)
      | wakeReturn hc =>
        rw [hc] at hd
        have hover := hstay (hd.2.resolve_left List.not_mem_nil)
        exact .of_over hcom hreturn hover
      | wakeRelease hc =>
        rw [hc] at hd
        have hover := hstay hd
        exact .of_over hcom hreturn hover
      | _ hc =>
        rw [hc] at hd
        exact hd.elim
  · have ho := hm.others hi
    refine ⟨hcom, by rw [ho.wakeups q hr]; exact h.le, fun hn => ?_, fun hn => ?_⟩
    · rw [ho.wakeups q hr] at hn
      exact (h.after hn).move hi hm
    · rw [ho.wakeups q hr] at hn
      rw [ho.ctl q hr]
      exact (h.during hn).mono fun hover => hover.move hi hm

/-- In its `k`-th call of `sleep` the process holds the other lock, or has given it up. -/
def Pending (p : P) (k : ℕ) (ch : Ch) (l : Lock L) (s : State P L Ch σ X) : Prop :=
  Committed p k ch s ∨ s.sleeps p = k ∧ ∃ phase x,
    s.ctl p = .sleep phase ch l x ∧ (phase = .acquire ∨ phase = .release)

theorem Pending.move (h : Pending p k ch l s) (hi : Inv s) (hm : Move code procs q s t) :
    Pending p k ch l t := by
  rcases h with h | ⟨hk, phase, x, hc, hph⟩
  · exact .inl (h.move hi hm)
  by_cases hpq : p = q
  · subst hpq
    rcases hph with rfl | rfl
    · cases hm with
      | sleepAcquire hc' =>
        obtain ⟨-, rfl, rfl, rfl⟩ := Ctl.sleep.inj (hc.symm.trans hc')
        exact .inr ⟨hk, .release, x, State.goto_self .., .inr rfl⟩
      | _ hc' =>
        rw [hc] at hc'
        cases hc'
    · cases hm with
      | sleepRelease hc' =>
        obtain ⟨-, rfl, rfl, rfl⟩ := Ctl.sleep.inj (hc.symm.trans hc')
        refine .inl ⟨Nat.le_of_eq hk.symm, fun _ => ?_⟩
        rw [State.goto_self]
        simp [Ctl.bound]
      | _ hc' =>
        rw [hc] at hc'
        cases hc'
  · have ho := hm.others hi
    refine .inr ⟨by rw [ho.sleeps p hpq, hk], phase, x, ?_, hph⟩
    rw [ho.ctl p hpq, hc]

theorem ctl_of_sleep (hx : s.ctl p = .pc x) (hcode : code p x = .sleep ch l y)
    (h : step code procs (.run p) s = some t) : t.sleeps p = s.sleeps p + 1 ∧
      t.ctl p = .sleep (if l = .ptable then .chan else .acquire) ch l y := by
  simp only [step, hx, hcode, instrStep] at h
  rw [Option.ite_none_right_eq_some] at h
  obtain rfl := Option.some.inj h.2
  exact ⟨update_self .., State.goto_self ..⟩

theorem ctl_of_wakeup (hx : s.ctl p = .pc x)
    (hcode : code p x = .wakeup ch y ∨ code p x = .wakeup1 ch y)
    (h : step code procs (.run p) s = some t) :
    t.ctl p = .wakeAcquire ch y ∨ t.ctl p = .wakeLoop ch procs false y := by
  rcases hcode with hcode | hcode
  · simp only [step, hx, hcode, instrStep] at h
    cases h
    exact .inl (State.goto_self ..)
  · simp only [step, hx, hcode, instrStep] at h
    rw [Option.ite_none_right_eq_some] at h
    obtain rfl := Option.some.inj h.2
    exact .inr (State.goto_self ..)

/-- A process finds its condition false and goes to sleep on the channel, all with the lock held.
Afterwards another one makes the condition true with the lock held and calls `wakeup` or `wakeup1`,
which returns in `done`. -/
structure Handover (code : P → X → Instr P L Ch σ X) (procs : List P) (cond : σ → Prop) (p q : P)
    (ch : Ch) (l : Lock L) where
  (boot check call slept set made wake roused done : State P L Ch σ X)
  start : Start boot
  reached : Runs (step code procs) boot check
  holds : check.owner l = some p
  not_cond : ¬ cond check.st
  keeps : Steps (step code procs) (fun s _ => s.owner l = some p) check call
  at_sleep : ∃ x y, call.ctl p = .pc x ∧ code p x = .sleep ch l y
  sleeps : step code procs (.run p) call = some slept
  later : Runs (step code procs) slept set
  locked : set.owner l = some q
  was : ¬ cond set.st
  makes : step code procs (.run q) set = some made
  now : cond made.st
  later' : Runs (step code procs) made wake
  at_wake : ∃ x y, wake.ctl q = .pc x ∧ (code q x = .wakeup ch y ∨ code q x = .wakeup1 ch y)
  wakes : step code procs (.run q) wake = some roused
  goes_on : Runs (step code procs) roused done
  returned : roused.wakeups q < done.wakeups q

/-- After the `wakeup` the process is never again asleep in that call of `sleep`. -/
theorem no_lost_wakeup (hprocs : ∀ p, p ∈ procs) {cond : σ → Prop} {ch : Ch} {l : Lock L}
    (hpq : q ≠ p) (h : Handover code procs cond p q ch l) (hs : Runs (step code procs) h.done s) :
    ¬ (s.state p = .sleeping ∧ s.sleeps p = h.slept.sleeps p) := by
  have hi1 : Inv h.call := (h.start.inv.runs h.reached).runs h.keeps
  have hi2 : Inv h.slept := (move_of_step h.sleeps).inv hi1
  have hi3 : Inv h.set := hi2.runs h.later
  have hi4 : Inv h.made := (move_of_step h.makes).inv hi3
  have hi5 : Inv h.wake := hi4.runs h.later'
  have hi6 : Inv h.roused := (move_of_step h.wakes).inv hi5
  have hi7 : Inv h.done := hi6.runs h.goes_on
  set k := h.slept.sleeps p with hk
  obtain ⟨x, y, hx, hcode⟩ := h.at_sleep
  have hpend : Pending p k ch l h.slept := by
    obtain ⟨hn, hc⟩ := ctl_of_sleep hx hcode h.sleeps
    by_cases hl : l = .ptable
    · refine .inl ⟨Nat.le_refl _, fun _ => ?_⟩
      rw [hc, if_pos hl]
      simp [Ctl.bound]
    · rw [if_neg hl] at hc
      exact .inr ⟨rfl, .acquire, y, hc, .inl rfl⟩
  -- The lock is in other hands, so the process has given it up.
  have hcom : Committed p k ch h.set := by
    rcases hi2.along Pending.move h.later hpend with hcom | ⟨-, phase, x, hc, hph⟩
    · exact hcom
    · have hown := (hi3.entering p l (by rw [hc]; exact ⟨hph, rfl⟩)).2
      exact absurd (Option.some.inj (h.locked.symm.trans hown)) hpq
  have hcom' : Committed p k ch h.wake :=
    hi4.along Committed.move h.later' (hcom.move hi3 (move_of_step h.makes))
  obtain ⟨z, z', hz, hwake⟩ := h.at_wake
  have hrouse : Rousing p k ch q (h.roused.wakeups q) h.roused := by
    refine ⟨hcom'.move hi5 (move_of_step h.wakes), Nat.le_refl _,
      fun hn => absurd hn (Nat.lt_irrefl _), fun _ => ?_⟩
    rcases ctl_of_wakeup hz hwake h.wakes with hc | hc
    · rw [hc]
      rfl
    · rw [hc]
      exact ⟨rfl, .inl (hprocs p)⟩
  have hdone : Rousing p k ch q (h.roused.wakeups q) h.done :=
    hi6.along (fun hs => hs.move hprocs hpq) h.goes_on hrouse
  have hover : Over p k s := hi7.along Over.move hs (hdone.after h.returned)
  exact fun hcon => (hover.now hcon.2).2 hcon.1

/-- The consumer is `false`, the producer `true`. -/
def exchange : Bool → ℕ → Instr Bool Unit Unit Bool ℕ
  | false, 0 => .acquire (.lk ()) 1
  | false, 1 => .act fun _ value => (value, if value then 3 else 2)
  | false, 2 => .sleep () (.lk ()) 1
  | false, 3 => .release (.lk ()) 4
  | true, 0 => .acquire (.lk ()) 1
  | true, 1 => .act fun _ _ => (true, 2)
  | true, 2 => .release (.lk ()) 3
  | true, 3 => .wakeup () 4
  | _, _ => .call fun _ => false

def exchangeBoot : State Bool Unit Unit Bool ℕ where
  st := false
  owner _ := none
  state _ := .running
  chan _ := none
  killed _ := false
  ctl _ := .pc 0
  sleeps _ := 0
  wakeups _ := 0

/-- The state after `n` more steps of the process. -/
def exchangeRun (p : Bool) (n : ℕ) (s : State Bool Unit Unit Bool ℕ) : State Bool Unit Unit Bool ℕ :=
  (execute (step exchange [false, true]) (List.replicate n (.run p)) s).getD s

def exchangeHandover : Handover exchange [false, true] (· = true) false true () (.lk ()) where
  boot := exchangeBoot
  check := exchangeRun false 1 exchangeBoot
  call := exchangeRun false 2 exchangeBoot
  slept := exchangeRun false 3 exchangeBoot
  set := exchangeRun true 1 (exchangeRun false 8 exchangeBoot)
  made := exchangeRun true 2 (exchangeRun false 8 exchangeBoot)
  wake := exchangeRun true 3 (exchangeRun false 8 exchangeBoot)
  roused := exchangeRun true 4 (exchangeRun false 8 exchangeBoot)
  done := exchangeRun true 9 (exchangeRun false 8 exchangeBoot)
  start := ⟨fun _ => rfl, fun _ => rfl, fun _ => ⟨0, rfl⟩⟩
  reached := runs_of_execute (l := List.replicate 1 (.run false)) rfl
  holds := rfl
  not_cond := by decide
  keeps := .single (a := .run false) rfl rfl
  at_sleep := ⟨2, 1, rfl, rfl⟩
  sleeps := rfl
  later := runs_of_execute (l := List.replicate 5 (.run false) ++ [.run true]) rfl
  locked := rfl
  was := by decide
  makes := rfl
  now := by decide
  later' := runs_of_execute (l := [.run true]) rfl
  at_wake := ⟨3, 4, rfl, .inl rfl⟩
  wakes := rfl
  goes_on := runs_of_execute (l := List.replicate 5 (.run true)) rfl
  returned := by decide

theorem no_lost_wakeup_exchange :
    ¬ (exchangeHandover.done.state false = .sleeping ∧
      exchangeHandover.done.sleeps false = exchangeHandover.slept.sleeps false) :=
  no_lost_wakeup (by decide) (by decide) exchangeHandover .refl

end Xv6.Proc
