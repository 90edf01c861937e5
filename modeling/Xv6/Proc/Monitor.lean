import Xv6.Proc.Wakeup

namespace Xv6.Proc
open Lib Function

variable {P L Ch σ X : Type}

/-- What is said about code under a lock, place by place. -/
structure Notes (X Ch σ : Type) where
  inside : X → Prop
  /-- The channel has to be woken up before the lock is given up. -/
  owes : X → Ch → Prop
  pre : X → σ → Prop
  /-- The reason to sleep on the channel. -/
  idle : Ch → σ → Prop
  good : σ → Prop

/-- What an action has to keep, from `x` to where it goes on. -/
structure Notes.Act (n : Notes X Ch σ) (x : X) (st : σ) (r : σ × X) : Prop where
  inside : n.inside r.2 ↔ n.inside x
  frame : ¬ n.inside x → r.1 = st
  good : n.good r.1
  pre : n.inside x → n.pre r.2 r.1
  owes : ∀ ch, n.owes x ch → n.owes r.2 ch
  /-- The reason to sleep stays, or there is somebody to be woken up. -/
  idle : ∀ ch, n.idle ch st → n.idle ch r.1 ∨ n.owes r.2 ch

/-- The code keeps to the notes about it, as far as its actions are `ok`. -/
structure Monitor (code : P → X → Instr P L Ch σ X) (lk : L) (ok : X → Bool → σ → Prop)
    extends Notes X Ch σ where
  owes_inside : ∀ x ch, owes x ch → inside x
  call : ∀ p x entry, code p x = .call entry → ¬ inside x ∧ ∀ y, entry y = true → ¬ inside y
  act : ∀ p x f killed st, code p x = .act f → good st → (inside x → pre x st) → ok x killed st →
    toNotes.Act x st (f killed st)
  acquire : ∀ p x l y, code p x = .acquire l y → l = .lk lk ∧ inside y ∧ ∀ st, good st → pre y st
  release : ∀ p x l y, code p x = .release l y → l = .lk lk ∧ ¬ inside y ∧ ∀ ch, ¬ owes x ch
  sleep : ∀ p x ch l y, code p x = .sleep ch l y → l = .lk lk ∧ inside x ∧
    (∀ st, good st → pre x st → idle ch st) ∧ (∀ ch, ¬ owes x ch) ∧ ∀ st, good st → pre y st
  wakeup : ∀ p x ch y, code p x = .wakeup ch y → inside x ∧ inside y ∧
    (∀ ch', owes x ch' → ch' = ch ∨ owes y ch') ∧ ∀ st, good st → pre x st → pre y st
  wakeup1 : ∀ p x ch y, code p x ≠ .wakeup1 ch y
  kill : ∀ p x q y, code p x = .kill q y → ¬ inside x ∧ ¬ inside y

/-- The process is asleep on the channel, or will be without looking again. -/
def State.AtRest (s : State P L Ch σ X) (p : P) (ch : Ch) : Prop :=
  ∃ phase l x, s.ctl p = .sleep phase ch l x ∧
    (phase = .chan ∨ phase = .state ∨ s.state p = .sleeping)

def Ctl.Sleeps : Ctl P L Ch X → Prop
  | .sleep _ _ _ _ => True
  | _ => False

namespace Monitor

variable {code : P → X → Instr P L Ch σ X} {lk : L} {ok : X → Bool → σ → Prop}
  (m : Monitor code lk ok) {c : Ctl P L Ch X} {p : P} {ch : Ch} {x : X}

def insideCtl : Ctl P L Ch X → Prop
  | .pc x | .wakeAcquire _ x | .wakeLoop _ _ _ x | .wakeRelease x => m.inside x
  | .sleep phase _ _ _ => phase = .acquire ∨ phase = .release
  | .killAcquire _ _ | .killSet _ _ | .killRelease _ => False

def preCtl (st : σ) : Ctl P L Ch X → Prop
  | .pc x => m.inside x → m.pre x st
  | .wakeAcquire _ x | .wakeLoop _ _ _ x | .wakeRelease x => m.inside x ∧ m.pre x st
  | .sleep phase ch l x => l = .lk lk ∧ (∀ st, m.good st → m.pre x st) ∧
      (phase = .acquire ∨ phase = .release → m.idle ch st)
  | .killAcquire _ x | .killSet _ x | .killRelease x => ¬ m.inside x

/-- A process there will wake up `p` on the channel. -/
def debt (p : P) (ch : Ch) : Ctl P L Ch X → Prop
  | .pc x | .wakeRelease x => m.owes x ch
  | .wakeAcquire ch' x => ch' = ch ∨ m.owes x ch
  | .wakeLoop ch' rest _ x => ch' = ch ∧ p ∈ rest ∨ m.owes x ch
  | _ => False

structure Inv (s : State P L Ch σ X) : Prop where
  base : Proc.Inv s
  good : m.good s.st
  lock : ∀ p, m.insideCtl (s.ctl p) → s.owner (.lk lk) = some p
  pre : ∀ p, m.preCtl s.st (s.ctl p)
  rest : ∀ p ch, s.AtRest p ch → m.idle ch s.st ∨ ∃ q, m.debt p ch (s.ctl q)

variable {m} {procs : List P} {s t : State P L Ch σ X} {r : P}

/-- What a place promises does not depend on the state where the lock is not held. -/
theorem preCtl_of_outside {st st' : σ} (hc : ¬ m.insideCtl c) (h : m.preCtl st c) :
    m.preCtl st' c := by
  cases c with
  | pc x => exact fun hx => absurd hx hc
  | sleep phase ch l x => exact ⟨h.1, h.2.1, fun hp => absurd hp hc⟩
  | wakeAcquire ch x | wakeLoop ch rest u x | wakeRelease x => exact absurd h.1 hc
  | killAcquire q x | killSet q x | killRelease x => exact h

theorem atRest_of_ne (ho : Others r s t) (hp : p ≠ r) (h : t.AtRest p ch) : s.AtRest p ch := by
  obtain ⟨phase, l, x, hc, hph⟩ := h
  rw [ho.ctl p hp] at hc
  exact ⟨phase, l, x, hc, hph.imp_right fun h => h.imp_right (ho.state p hp)⟩

theorem Inv.quiet (h : m.Inv s) (hb : Proc.Inv t) (ho : Others r s t) (hst : t.st = s.st)
    (hc : t.ctl r = c) (hlock : m.insideCtl c → t.owner (.lk lk) = some r) (hpre : m.preCtl s.st c)
    (hrest : ∀ ch, t.AtRest r ch → s.AtRest r ch ∨ m.idle ch s.st)
    (hdebt : ∀ p ch, t.AtRest p ch → m.debt p ch (s.ctl r) → m.debt p ch c) : m.Inv t := by
  subst hc
  refine ⟨hb, hst ▸ h.good, fun p hp => ?_, fun p => ?_, fun p ch hp => ?_⟩
  · by_cases hr : p = r
    · subst hr
      exact hlock hp
    · rw [ho.ctl p hr] at hp
      exact ho.owner p _ hr (h.lock p hp)
  · rw [hst]
    by_cases hr : p = r
    · subst hr
      exact hpre
    · rw [ho.ctl p hr]
      exact h.pre p
  · rw [hst]
    have hs : s.AtRest p ch ∨ m.idle ch s.st := by
      by_cases hr : p = r
      · subst hr
        exact hrest ch hp
      · exact .inl (atRest_of_ne ho hr hp)
    rcases hs with hs | hs
    · refine (h.rest p ch hs).imp_right fun ⟨q, hq⟩ => ⟨q, ?_⟩
      by_cases hr : q = r
      · subst hr
        exact hdebt p ch hp hq
      · rw [ho.ctl q hr]
        exact hq
    · exact .inl hs

theorem not_atRest (hc : t.ctl r = c) (hno : ¬ c.Sleeps) : ¬ t.AtRest r ch := by
  rintro ⟨phase, l, x, hc', -⟩
  rw [← hc, hc'] at hno
  exact hno trivial

theorem Inv.stay {d : Ctl P L Ch X} (h : m.Inv s) (hb : Proc.Inv t) (ho : Others r s t)
    (hst : t.st = s.st) (hs : s.ctl r = c) (hc : t.ctl r = d) (hd : ¬ d.Sleeps)
    (hlock : (m.insideCtl c → s.owner (.lk lk) = some r) → m.insideCtl d →
      t.owner (.lk lk) = some r)
    (hpre : m.preCtl s.st c → m.preCtl s.st d)
    (hdebt : ∀ p ch, t.AtRest p ch → m.debt p ch c → m.debt p ch d) : m.Inv t := by
  subst hs
  exact h.quiet hb ho hst hc (hlock (h.lock r)) (hpre (h.pre r))
    (fun ch hr => absurd hr (not_atRest hc hd)) hdebt

theorem Inv.doze {phase phase' : SleepPhase} {l : Lock L} (h : m.Inv s) (hb : Proc.Inv t)
    (ho : Others r s t) (hst : t.st = s.st) (hs : s.ctl r = .sleep phase ch l x)
    (hc : t.ctl r = .sleep phase' ch l x)
    (hin : phase' = .acquire ∨ phase' = .release →
      (phase = .acquire ∨ phase = .release) ∧ t.owner (.lk lk) = s.owner (.lk lk))
    (hrest : phase' = .chan ∨ phase' = .state ∨ t.state r = .sleeping →
      s.AtRest r ch ∨ m.idle ch s.st) : m.Inv t := by
  have hpre := h.pre r
  have hlock := h.lock r
  rw [hs] at hpre hlock
  refine h.quiet hb ho hst hc (fun hp => (hin hp).2.trans (hlock (hin hp).1))
    ⟨hpre.1, hpre.2.1, fun hp => hpre.2.2 (hin hp).1⟩ ?_ fun p ch _ hd => ?_
  · rintro ch' ⟨phase'', l', x', hc', hph⟩
    obtain ⟨rfl, rfl, -, -⟩ := Ctl.sleep.inj (hc.symm.trans hc')
    exact hrest hph
  · rw [hs] at hd
    exact hd.elim

theorem rest_awake {phase : SleepPhase} {l : Lock L} {R : Prop} (hb : Proc.Inv t)
    (hc : t.ctl r = .sleep phase ch l x) (h : phase ≠ .chan ∧ phase ≠ .state)
    (hd : ¬ (phase = .sched ∨ phase = .away))
    (hph : phase = .chan ∨ phase = .state ∨ t.state r = .sleeping) : R :=
  absurd ((hph.resolve_left h.1).resolve_left h.2) (hb.awake hc hd)

theorem Inv.act (h : m.Inv s) (hb : Proc.Inv t) (ho : Others r s t) (hc : s.ctl r = .pc x) {y : X}
    (hc' : t.ctl r = .pc y) (hact : m.Act x s.st (t.st, y)) (howner : t.owner = s.owner) :
    m.Inv t := by
  have hpre : ∀ p, p ≠ r → m.preCtl t.st (s.ctl p) := by
    intro p hp
    by_cases hx : m.inside x
    · have hown : s.owner (.lk lk) = some r := h.lock r (by rw [hc]; exact hx)
      refine preCtl_of_outside (fun hin => hp ?_) (h.pre p)
      exact Option.some.inj ((h.lock p hin).symm.trans hown)
    · have hst : t.st = s.st := hact.frame hx
      rw [hst]
      exact h.pre p
  refine ⟨hb, hact.good, fun p hp => ?_, fun p => ?_, fun p ch hp => ?_⟩
  · rw [howner]
    by_cases hr : p = r
    · subst hr
      rw [hc'] at hp
      exact h.lock p (by rw [hc]; exact hact.inside.mp hp)
    · rw [ho.ctl p hr] at hp
      exact h.lock p hp
  · by_cases hr : p = r
    · subst hr
      rw [hc']
      exact fun hy => hact.pre (hact.inside.mp hy)
    · rw [ho.ctl p hr]
      exact hpre p hr
  · have hs : s.AtRest p ch := by
      by_cases hr : p = r
      · subst hr
        exact absurd hp (not_atRest hc' id)
      · exact atRest_of_ne ho hr hp
    rcases h.rest p ch hs with hidle | ⟨q, hq⟩
    · refine (hact.idle ch hidle).imp_right fun howes => ⟨r, ?_⟩
      rw [hc']
      exact howes
    · refine .inr ⟨q, ?_⟩
      by_cases hr : q = r
      · subst hr
        rw [hc] at hq
        rw [hc']
        exact hact.owes ch hq
      · rw [ho.ctl q hr]
        exact hq

theorem Inv.start (hs : Start s) (hgood : m.good s.st)
    (hout : ∀ p x, s.ctl p = .pc x → ¬ m.inside x) : m.Inv s := by
  have hin : ∀ p, ¬ m.insideCtl (s.ctl p) := by
    intro p
    obtain ⟨x, hx⟩ := hs.ctl p
    rw [hx]
    exact hout p x hx
  refine ⟨hs.inv, hgood, fun p hp => absurd hp (hin p), fun p => ?_, fun p ch hp => ?_⟩
  · obtain ⟨x, hx⟩ := hs.ctl p
    rw [hx]
    exact fun h => absurd h (hout p x hx)
  · obtain ⟨x, hx⟩ := hs.ctl p
    obtain ⟨phase, l, y, hc, -⟩ := hp
    rw [hx] at hc
    cases hc

theorem Inv.idle (h : m.Inv s) (hfree : s.owner (.lk lk) = none) (hsleep : s.state p = .sleeping)
    (hchan : s.chan p = some ch) : m.idle ch s.st := by
  have hrest : s.AtRest p ch := by
    obtain ⟨phase, ch', l, x, hc, hchan'⟩ := h.base.sleeping hsleep
    obtain rfl := Option.some.inj (hchan'.symm.trans hchan)
    exact ⟨phase, l, x, hc, .inr (.inr hsleep)⟩
  rcases h.rest p ch hrest with hidle | ⟨q, hq⟩
  · exact hidle
  · have hin : m.insideCtl (s.ctl q) := by
      have hpre := h.pre q
      cases hc : s.ctl q with
      | pc x =>
        rw [hc] at hq
        exact m.owes_inside x ch hq
      | wakeAcquire ch' x | wakeLoop ch' rest u x | wakeRelease x =>
        rw [hc] at hpre
        exact hpre.1
      | _ =>
        rw [hc] at hq
        exact hq.elim
    rw [h.lock q hin] at hfree
    cases hfree

variable [DecidableEq P] [DecidableEq Ch]

theorem not_atRest_wake {rest : List P} {u : Bool} (hb : Proc.Inv s)
    (hr : s.ctl r = .wakeLoop ch (p :: rest) u x) :
    ¬ ((s.wake p ch).goto r (.wakeLoop ch rest u x)).AtRest p ch := by
  rintro ⟨phase, l, y, hc, hph⟩
  have hpr : p ≠ r := by
    rintro rfl
    rw [State.goto_self] at hc
    cases hc
  rw [State.goto_of_ne _ _ hpr, State.wake_ctl] at hc
  have hown : s.owner .ptable = some r := hb.table r (by rw [hr]; trivial)
  -- On its way to sleep the process would hold `ptable.lock`.
  have hsleep : (s.wake p ch).state p = .sleeping := by
    refine (hph.resolve_left ?_).resolve_left ?_
    · rintro rfl
      have := hb.table p (by rw [hc]; simp [Ctl.inTable])
      exact hpr (Option.some.inj (this.symm.trans hown))
    · rintro rfl
      have := hb.table p (by rw [hc]; simp [Ctl.inTable])
      exact hpr (Option.some.inj (this.symm.trans hown))
  exact hb.wake_awake hc hsleep

variable [DecidableEq L]

theorem Inv.move (h : m.Inv s) (hprocs : ∀ p, p ∈ procs) (hm : Move code procs r s t)
    (hok : ∀ x f, s.ctl r = .pc x → code r x = .act f → ok x (s.killed r) s.st) : m.Inv t := by
  have hb := hm.inv h.base
  have ho := hm.others h.base
  have hpre := h.pre r
  -- The other lock is not `ptable.lock`.
  have hother (o : Option P) : update s.owner .ptable o (.lk lk) = s.owner (.lk lk) :=
    update_of_ne (by simp) _ _
  cases hm with
  | call hc hcode he =>
    obtain ⟨hx, hy⟩ := m.call _ _ _ hcode
    exact h.stay hb ho rfl hc (State.goto_self ..) id (fun _ hin => absurd hin (hy _ he))
      (fun _ hin => absurd hin (hy _ he)) fun p ch _ hd => absurd (m.owes_inside _ ch hd) hx
  | act hc hcode =>
    rw [hc] at hpre
    exact h.act hb ho hc (State.goto_self ..) (m.act r _ _ _ _ hcode h.good hpre (hok _ _ hc hcode))
      rfl
  | acquire hc hcode hl =>
    obtain ⟨rfl, hy, hgood⟩ := m.acquire _ _ _ _ hcode
    have hlock := h.lock r
    rw [hc, hl] at hlock
    exact h.stay hb ho rfl hc (State.goto_self ..) id (fun _ _ => update_self _ _ s.owner)
      (fun _ _ => hgood _ h.good) fun p ch _ hd => nomatch hlock (m.owes_inside _ ch hd)
  | release hc hcode =>
    obtain ⟨rfl, hy, howes⟩ := m.release _ _ _ _ hcode
    exact h.stay hb ho rfl hc (State.goto_self ..) id (fun _ hin => absurd hin hy)
      (fun _ hin => absurd hin hy) fun p ch _ hd => absurd hd (howes ch)
  | sleep hc hcode hl =>
    obtain ⟨rfl, hx, hidle, howes, hgood⟩ := m.sleep _ _ _ _ _ hcode
    rw [hc] at hpre
    refine h.quiet hb ho rfl (State.goto_self ..) (fun _ => hl)
      ⟨rfl, hgood, fun _ => hidle _ h.good (hpre hx)⟩ ?_ fun p ch _ hd => ?_
    · rintro ch ⟨phase, l, x, hc', hph⟩
      obtain ⟨rfl, -, -, -⟩ := Ctl.sleep.inj ((State.goto_self ..).symm.trans hc')
      exact rest_awake hb hc' (by simp) (by simp) hph
    · rw [hc] at hd
      exact absurd hd (howes ch)
  | sleepTable _ hcode => cases (m.sleep _ _ _ _ _ hcode).1
  | sleepAcquire hc =>
    exact h.doze hb ho rfl hc (State.goto_self ..) (fun _ => ⟨.inl rfl, hother (some r)⟩)
      (rest_awake hb (State.goto_self ..) (by simp) (by simp))
  | sleepRelease hc =>
    rw [hc] at hpre
    exact h.doze hb ho rfl hc (State.goto_self ..) (by simp) fun _ => .inr (hpre.2.2 (.inr rfl))
  | sleepChan hc =>
    exact h.doze hb ho rfl hc (State.goto_self ..) (by simp) fun _ => .inl ⟨_, _, _, hc, .inl rfl⟩
  | sleepState hc =>
    exact h.doze hb ho rfl hc (State.goto_self ..) (by simp)
      fun _ => .inl ⟨_, _, _, hc, .inr (.inl rfl)⟩
  | sched hc =>
    refine h.doze hb ho rfl hc (State.goto_self ..) (by simp) fun hph => ?_
    have hsleep : s.state r = .sleeping := (hph.resolve_left (by simp)).resolve_left (by simp)
    exact .inl ⟨_, _, _, hc, .inr (.inr hsleep)⟩
  | resume hc | tidy hc | unlock hc =>
    exact h.doze hb ho rfl hc (State.goto_self ..) (by simp)
      (rest_awake hb (State.goto_self ..) (by simp) (by simp))
  | tidyTable hc =>
    rw [hc] at hpre
    cases hpre.1
  | relock hc =>
    rw [hc] at hpre
    obtain ⟨rfl, hgood, -⟩ := hpre
    exact h.stay hb ho rfl hc (State.goto_self ..) id (fun _ _ => update_self _ _ s.owner)
      (fun _ _ => hgood _ h.good) fun p ch _ hd => hd.elim
  | wakeup hc hcode =>
    obtain ⟨hx, hy, howes, hkeep⟩ := m.wakeup _ _ _ _ hcode
    exact h.stay hb ho rfl hc (State.goto_self ..) id (fun hlock _ => hlock hx)
      (fun hpre => ⟨hy, hkeep _ h.good (hpre hx)⟩) fun p ch _ hd => (howes ch hd).imp_left Eq.symm
  | wakeup1 _ hcode => exact absurd hcode (m.wakeup1 _ _ _ _)
  | wakeAcquire hc =>
    exact h.stay hb ho rfl hc (State.goto_self ..) id
      (fun hlock hin => (hother (some r)).trans (hlock hin)) id
      fun p ch _ hd => hd.imp_left fun hch => ⟨hch, hprocs p⟩
  | @wakeRound x ch q rest u hc =>
    refine h.stay hb ho ?_ hc (State.goto_self ..) id (fun hlock hin => ?_) id fun p ch' hr hd => ?_
    · rw [State.goto, State.wake_st]
    · rw [State.goto, State.wake_owner]
      exact hlock hin
    · refine hd.imp_left ?_
      rintro ⟨rfl, hmem⟩
      refine ⟨rfl, ?_⟩
      rcases List.mem_cons.mp hmem with rfl | hmem
      · exact absurd hr (not_atRest_wake h.base hc)
      · exact hmem
  | wakeEnd hc =>
    exact h.stay hb ho rfl hc (State.goto_self ..) id id id
      fun p ch _ hd => hd.resolve_left fun h => List.not_mem_nil h.2
  | wakeReturn hc =>
    exact h.stay hb ho rfl hc (State.goto_self ..) id id (fun hpre _ => hpre.2)
      fun p ch _ hd => hd.resolve_left fun h => List.not_mem_nil h.2
  | wakeRelease hc =>
    exact h.stay hb ho rfl hc (State.goto_self ..) id
      (fun hlock hin => (hother none).trans (hlock hin)) (fun hpre _ => hpre.2) fun p ch _ hd => hd
  | kill hc hcode =>
    obtain ⟨hx, hy⟩ := m.kill _ _ _ _ hcode
    exact h.stay hb ho rfl hc (State.goto_self ..) id (fun _ hin => hin.elim) (fun _ => hy)
      fun p ch _ hd => absurd (m.owes_inside _ ch hd) hx
  | killAcquire hc =>
    exact h.stay hb ho rfl hc (State.goto_self ..) id (fun _ hin => hin.elim) id
      fun p ch _ hd => hd.elim
  | killSet hc =>
    refine h.stay hb ho ?_ hc (State.goto_self ..) id (fun _ hin => hin.elim) id
      fun p ch _ hd => hd.elim
    rw [State.goto, State.setKilled_st]
  | killRelease hc =>
    rw [hc] at hpre
    exact h.stay hb ho rfl hc (State.goto_self ..) id (fun _ hin => absurd hin hpre)
      (fun _ hin => absurd hin hpre) fun p ch _ hd => hd.elim

theorem Inv.runs {C : State P L Ch σ X → Label P X → Prop} (h : m.Inv s)
    (hprocs : ∀ p, p ∈ procs)
    (hC : ∀ s a, C s a → ∀ x f, s.ctl a.pid = .pc x → code a.pid x = .act f →
      ok x (s.killed a.pid) s.st)
    (hrun : Steps (step code procs) C s t) : m.Inv t :=
  hrun.inv (fun _ _ _ hi hc hstep => hi.move hprocs (move_of_step hstep) (hC _ _ hc)) h

end Monitor

end Xv6.Proc
