import Mathlib.Tactic.Common
import Xv6.Sched.Basic

namespace Xv6.Sched
open Lib
open Proc (ProcState)

variable {C P K : Type}

section Slots

variable {t : Table P K} {p q : P}

namespace Table

theorem findUnused_some {l : List P} (h : t.findUnused l = some q) :
    (t.slot q).state = .unused := by
  induction l with
  | nil => cases h
  | cons r l ih =>
    rw [findUnused] at h
    split_ifs at h with hr
    · cases h
      exact hr
    · exact ih h

variable [DecidableEq P]

theorem set_self (a : Slot P K) : (t.set p a).slot p = a := Function.update_self ..

theorem set_of_ne (a : Slot P K) (h : q ≠ p) : (t.set p a).slot q = t.slot q :=
  Function.update_of_ne h ..

structure SameBooks (t t' : Table P K) : Prop where
  nextpid : t'.nextpid = t.nextpid
  born : t'.born = t.born
  freedStacks : t'.freedStacks = t.freedStacks
  freedDirs : t'.freedDirs = t.freedDirs
  forked : t'.forked = t.forked

theorem kill_books (pid : ℤ) (l : List P) (t : Table P K) : SameBooks t (t.kill pid l).1 := by
  induction l with
  | nil => exact ⟨rfl, rfl, rfl, rfl, rfl⟩
  | cons r l ih =>
    rw [kill]
    split_ifs
    · exact ⟨rfl, rfl, rfl, rfl, rfl⟩
    · exact ih

theorem kill_slot (pid : ℤ) (l : List P) (t : Table P K) (q : P) :
    (t.kill pid l).1.slot q = t.slot q ∨ (t.kill pid l).1.slot q = (t.slot q).kill := by
  induction l with
  | nil => exact .inl rfl
  | cons r l ih =>
    rw [kill]
    split_ifs with hr
    · by_cases hq : q = r
      · subst hq
        exact .inr (set_self _)
      · exact .inl (set_of_ne _ hq)
    · exact ih

variable [DecidableEq K]

theorem wakeup1_slot (ch : Chan P K) (l : List P) (t : Table P K) (q : P) :
    (t.wakeup1 ch l).slot q = t.slot q ∨ (t.slot q).state = .sleeping ∧
      (t.slot q).chan = some ch ∧
        (t.wakeup1 ch l).slot q = { t.slot q with state := .runnable } := by
  induction l generalizing t with
  | nil => exact .inl rfl
  | cons r l ih =>
    rw [wakeup1]
    split_ifs with hr
    · by_cases hq : q = r
      · subst hq
        have hself : (t.setState q .runnable).slot q = { t.slot q with state := .runnable } :=
          set_self _
        rcases ih (t.setState q .runnable) with h | ⟨hs, -, -⟩
        · exact .inr ⟨hr.1, hr.2, h.trans hself⟩
        · rw [hself] at hs
          cases hs
      · have hne : (t.setState r .runnable).slot q = t.slot q := set_of_ne _ hq
        have h := ih (t.setState r .runnable)
        rwa [hne] at h
    · exact ih t

theorem wakeup1_books (ch : Chan P K) (l : List P) (t : Table P K) :
    SameBooks t (t.wakeup1 ch l) := by
  induction l generalizing t with
  | nil => exact ⟨rfl, rfl, rfl, rfl, rfl⟩
  | cons r l ih =>
    rw [wakeup1]
    split_ifs
    · have h := ih (t.setState r .runnable)
      exact ⟨h.nextpid, h.born, h.freedStacks, h.freedDirs, h.forked⟩
    · exact ih t


theorem reparent_books (procs : List P) (init p q : P) (t : Table P K) :
    SameBooks t (t.reparent procs init p q) := by
  unfold reparent
  dsimp only
  split_ifs
  · have h := wakeup1_books (.proc init) procs (t.setParent q (some init))
    exact ⟨h.nextpid, h.born, h.freedStacks, h.freedDirs, h.forked⟩
  · exact ⟨rfl, rfl, rfl, rfl, rfl⟩
  · exact ⟨rfl, rfl, rfl, rfl, rfl⟩

end Table

end Slots

theorem pgdir_of_switchuvm {t : Table P K} {p : P} {d : Dir} (h : switchuvm t p = some d) :
    (t.slot p).pgdir = some d := by
  unfold switchuvm at h
  split at h
  · exact h
  · cases h

variable [DecidableEq P] [DecidableEq K]

section Actions

variable {procs : List P} {init p : P} {x : Loc P K}

/-- What an action of `p` can do to the table, and where it leads. -/
inductive Act (procs : List P) (init p : P) (t : Table P K) :
    Loc P K → Table P K → Loc P K → Prop where
  | wakeup (k : K) :
      Act procs init p t (.wakeupLoop k) (t.wakeup1 (.other k) procs) (.unlock 0)
  | kill (pid : ℤ) :
      Act procs init p t (.killLoop pid) (t.kill pid procs).1 (.unlock (t.kill pid procs).2)
  | sleepChan (ch : Chan P K) :
      Act procs init p t (.sleepChan ch) (t.setChan p (some ch)) (.sleepState ch)
  | sleepState (ch : Chan P K) :
      Act procs init p t (.sleepState ch) (t.setState p .sleeping) (.sleepSched ch)
  | tidyWait (r : P) :
      Act procs init p t (.sleepTidy (.proc r)) (t.setChan p none) (.waitScan procs false)
  | tidy (k : K) : Act procs init p t (.sleepTidy (.other k)) (t.setChan p none) (.unlock 0)
  | alloc (q : P) : (t.slot q).state = .unused →
      Act procs init p t .forkScan (t.alloc q) (.forkUnlock q)
  | full : Act procs init p t .forkScan t (.unlock (-1))
  | stack (q : P) : Act procs init p t (.forkStack q)
      (t.set q { t.slot q with kstack := some (t.slot q).uid, ctl := ⟨.unlock 0, none⟩ })
      (.forkDir q)
  | noStack (q : P) : Act procs init p t (.forkStack q) (t.setState q .unused) (.run (-1))
  | dir (q : P) : Act procs init p t (.forkDir q)
      (t.set q { t.slot q with pgdir := some ((t.slot q).uid, 0), dirs := 1 }) (.forkParent q)
  | noDir (q : P) : Act procs init p t (.forkDir q)
      ((t.freeStack (t.slot q).uid).set q
        { t.slot q with pgdir := none, kstack := none, state := .unused })
      (.run (-1))
  | father (q : P) :
      Act procs init p t (.forkParent q) (t.setParent q (some p)) (.forkLock q)
  | ready (q : P) : Act procs init p t (.forkReady q)
      { t.setState q .runnable with forked := (t.slot q).uid :: t.forked }
      (.unlock (t.slot q).pid)
  | exec : Act procs init p t .exec (t.set p { t.slot p with dirs := (t.slot p).dirs + 1 })
      (.execSet ((t.slot p).uid, (t.slot p).dirs))
  | noExec : Act procs init p t .exec
      ((t.set p { t.slot p with dirs := (t.slot p).dirs + 1 }).freeDir
        ((t.slot p).uid, (t.slot p).dirs)) (.run (-1))
  | execSet (d : Dir) : Act procs init p t (.execSet d)
      (t.set p { t.slot p with pgdir := some d }) (.execSwitch (t.slot p).pgdir)
  | execFree (old : Option Dir) : Act procs init p t (.execFree old)
      { t with freedDirs := old.toList ++ t.freedDirs } (.run 0)
  | initExit : p = init → Act procs init p t .exit t (.panic "init exiting")
  | exit : p ≠ init → Act procs init p t .exit t .exitLock
  | exitWake (r : P) : (t.slot p).parent = some r →
      Act procs init p t .exitWake (t.wakeup1 (.proc r) procs) (.exitLoop procs)
  | exitOrphan : (t.slot p).parent = none → Act procs init p t .exitWake t (.exitLoop procs)
  | reparent (q : P) (rest : List P) :
      Act procs init p t (.exitLoop (q :: rest)) (t.reparent procs init p q) (.exitLoop rest)
  | zombie : Act procs init p t (.exitLoop []) (t.setState p .zombie) .exitSched
  | stranger (q : P) (rest : List P) (havekids : Bool) : (t.slot q).parent ≠ some p →
      Act procs init p t (.waitScan (q :: rest) havekids) t (.waitScan rest havekids)
  | found (q : P) (rest : List P) (havekids : Bool) : (t.slot q).parent = some p →
      (t.slot q).state = .zombie →
      Act procs init p t (.waitScan (q :: rest) havekids) t (.waitReap q)
  | alive (q : P) (rest : List P) (havekids : Bool) : (t.slot q).parent = some p →
      (t.slot q).state ≠ .zombie →
      Act procs init p t (.waitScan (q :: rest) havekids) t (.waitScan rest true)
  | noKids (havekids : Bool) : Act procs init p t (.waitScan [] havekids) t (.unlock (-1))
  | waitSleep (havekids : Bool) :
      Act procs init p t (.waitScan [] havekids) t (.sleepChan (.proc p))
  | reap (q : P) : Act procs init p t (.waitReap q) (t.reap q) (.unlock (t.slot q).pid)

theorem act_of_code {f : Bool → Table P K → Table P K × Loc P K}
    (hcode : code procs init p x = .act f) (ok : Bool) (t : Table P K) :
    Act procs init p t x (f ok t).1 (f ok t).2 := by
  cases x with
  | wakeupLoop k =>
    cases hcode
    exact .wakeup k
  | killLoop pid =>
    cases hcode
    exact .kill pid
  | sleepChan ch =>
    cases hcode
    exact .sleepChan ch
  | sleepState ch =>
    cases hcode
    exact .sleepState ch
  | sleepTidy ch =>
    cases ch with
    | proc r =>
      cases hcode
      exact .tidyWait r
    | other k =>
      cases hcode
      exact .tidy k
  | forkScan =>
    cases hcode
    dsimp only [scanAct]
    split
    · next q hq => exact .alloc q (Table.findUnused_some hq)
    · exact .full
  | forkStack q =>
    cases hcode
    unfold stackAct
    split_ifs
    · exact .stack q
    · exact .noStack q
  | forkDir q =>
    cases hcode
    unfold dirAct
    split_ifs
    · exact .dir q
    · exact .noDir q
  | forkParent q =>
    cases hcode
    exact .father q
  | forkReady q =>
    cases hcode
    exact .ready q
  | exec =>
    cases hcode
    unfold execAct
    dsimp only
    split_ifs
    · exact .exec
    · exact .noExec
  | execSet d =>
    cases hcode
    exact .execSet d
  | execFree old =>
    cases hcode
    exact .execFree old
  | exit =>
    cases hcode
    dsimp only
    split_ifs with hp
    · exact .initExit hp
    · exact .exit hp
  | exitWake =>
    cases hcode
    dsimp only
    split
    · next r hr => exact .exitWake r hr
    · next hr => exact .exitOrphan hr
  | exitLoop rest =>
    cases rest with
    | nil =>
      cases hcode
      exact .zombie
    | cons q rest =>
      cases hcode
      exact .reparent q rest
  | waitScan rest havekids =>
    cases rest with
    | nil =>
      cases hcode
      dsimp only
      split_ifs
      · exact .noKids havekids
      · exact .waitSleep havekids
    | cons q rest =>
      cases hcode
      dsimp only [scanChild]
      split_ifs with hparent hzombie
      · exact .stranger q rest havekids hparent
      · exact .found q rest havekids (not_not.mp hparent) hzombie
      · exact .alive q rest havekids (not_not.mp hparent) hzombie
  | waitReap q =>
    cases hcode
    exact .reap q
  | _ => cases hcode

end Actions

variable [DecidableEq C]

inductive Move (procs : List P) (init : P) (c : C) (s : State C P K) : State C P K → Prop where
  | lock : (s.cpu c).thread = none → (s.cpu c).sched = .idle → s.lock = none →
      Move procs init c s ((s.setLock (some c)).setCpu c { s.cpu c with sched := .scan procs })
  | unlock : (s.cpu c).thread = none → (s.cpu c).sched = .scan [] → s.lock = some c →
      Move procs init c s ((s.setLock none).setCpu c { s.cpu c with sched := .idle })
  | pick {p : P} {rest : List P} : (s.cpu c).thread = none → (s.cpu c).sched = .scan (p :: rest) →
      (s.table.slot p).state = .runnable →
      Move procs init c s (s.setCpu c { s.cpu c with proc := some p, sched := .load p rest })
  | skip {p : P} {rest : List P} : (s.cpu c).thread = none → (s.cpu c).sched = .scan (p :: rest) →
      Move procs init c s (s.setCpu c { s.cpu c with sched := .scan rest })
  | load {p : P} {rest : List P} {d : Dir} : (s.cpu c).thread = none →
      (s.cpu c).sched = .load p rest → (s.table.slot p).pgdir = some d →
      Move procs init c s (s.setCpu c { s.cpu c with cr3 := some d, sched := .mark p rest })
  | mark {p : P} {rest : List P} : (s.cpu c).thread = none → (s.cpu c).sched = .mark p rest →
      Move procs init c s ((s.setTable (s.table.setState p .running)).setCpu c
        { s.cpu c with sched := .enter p rest })
  | enter {p : P} {rest : List P} : (s.cpu c).thread = none → (s.cpu c).sched = .enter p rest →
      Move procs init c s (s.setCpu c { s.cpu c with
        thread := some p, stack := (s.table.slot p).kstack, sched := .back rest })
  | back {rest : List P} : (s.cpu c).thread = none → (s.cpu c).sched = .back rest →
      Move procs init c s (s.setCpu c { s.cpu c with cr3 := none, sched := .clear rest })
  | clear {rest : List P} : (s.cpu c).thread = none → (s.cpu c).sched = .clear rest →
      Move procs init c s (s.setCpu c { s.cpu c with proc := none, sched := .scan rest })
  | tick {p : P} {x : Loc P K} : (s.cpu c).thread = some p →
      (s.table.slot p).ctl = ⟨x, none⟩ → x.locked = false →
      Move procs init c s (s.goto p ⟨x, some .acquire⟩)
  | yieldAcquire {p : P} {x : Loc P K} : (s.cpu c).thread = some p →
      (s.table.slot p).ctl = ⟨x, some .acquire⟩ → s.lock = none →
      Move procs init c s ((s.setLock (some c)).goto p ⟨x, some .state⟩)
  | yieldState {p : P} {x : Loc P K} : (s.cpu c).thread = some p →
      (s.table.slot p).ctl = ⟨x, some .state⟩ →
      Move procs init c s ((s.setTable (s.table.setState p .runnable)).goto p ⟨x, some .sched⟩)
  | yieldSched {p : P} {x : Loc P K} : (s.cpu c).thread = some p →
      (s.table.slot p).ctl = ⟨x, some .sched⟩ →
      Move procs init c s ((s.setCpu c { s.cpu c with thread := none, stack := none }).goto p
        ⟨x, some .release⟩)
  | yieldRelease {p : P} {x : Loc P K} : (s.cpu c).thread = some p →
      (s.table.slot p).ctl = ⟨x, some .release⟩ → s.lock = some c →
      Move procs init c s ((s.setLock none).goto p ⟨x, none⟩)
  | call {p : P} {x y : Loc P K} {entry : Loc P K → Bool} : (s.cpu c).thread = some p →
      (s.table.slot p).ctl = ⟨x, none⟩ → code procs init p x = .call entry → entry y = true →
      Move procs init c s (s.goto p ⟨y, none⟩)
  | acquire {p : P} {x y : Loc P K} : (s.cpu c).thread = some p →
      (s.table.slot p).ctl = ⟨x, none⟩ → code procs init p x = .acquire y → s.lock = none →
      Move procs init c s ((s.setLock (some c)).goto p ⟨y, none⟩)
  | release {p : P} {x y : Loc P K} : (s.cpu c).thread = some p →
      (s.table.slot p).ctl = ⟨x, none⟩ → code procs init p x = .release y → s.lock = some c →
      Move procs init c s ((s.setLock none).goto p ⟨y, none⟩)
  | act {p : P} {x y : Loc P K} {t : Table P K} : (s.cpu c).thread = some p →
      (s.table.slot p).ctl = ⟨x, none⟩ → Act procs init p s.table x t y →
      Move procs init c s ((s.setTable t).goto p ⟨y, none⟩)
  | swtch {p : P} {x y : Loc P K} : (s.cpu c).thread = some p →
      (s.table.slot p).ctl = ⟨x, none⟩ → code procs init p x = .swtch y →
      Move procs init c s ((s.setCpu c { s.cpu c with thread := none, stack := none }).goto p
        ⟨y, none⟩)
  | switchuvm {p : P} {x y : Loc P K} {d : Dir} : (s.cpu c).thread = some p →
      (s.table.slot p).ctl = ⟨x, none⟩ → code procs init p x = .switchuvm y →
      (s.table.slot p).pgdir = some d →
      Move procs init c s ((s.setCpu c { s.cpu c with cr3 := some d }).goto p ⟨y, none⟩)

variable {procs : List P} {init : P} {c : C} {s t : State C P K} {p : P}

theorem move_of_sched (hthread : (s.cpu c).thread = none) (h : schedStep procs s c = some t) :
    Move procs init c s t := by
  unfold schedStep at h
  dsimp only at h
  cases hs : (s.cpu c).sched with
  | idle =>
    simp only [hs] at h
    split_ifs at h with hl
    cases h
    exact .lock hthread hs hl
  | scan rest =>
    cases rest with
    | nil =>
      simp only [hs] at h
      split_ifs at h with hl
      cases h
      exact .unlock hthread hs hl
    | cons p rest =>
      simp only [hs] at h
      split_ifs at h with hrun
      · cases h
        exact .pick hthread hs hrun
      · cases h
        exact .skip hthread hs
  | load p rest =>
    simp only [hs] at h
    obtain ⟨d, hd, rfl⟩ := Option.map_eq_some_iff.mp h
    exact .load hthread hs (pgdir_of_switchuvm hd)
  | mark p rest =>
    simp only [hs] at h
    cases h
    exact .mark hthread hs
  | enter p rest =>
    simp only [hs] at h
    cases h
    exact .enter hthread hs
  | back rest =>
    simp only [hs] at h
    cases h
    exact .back hthread hs
  | clear rest =>
    simp only [hs] at h
    cases h
    exact .clear hthread hs

theorem move_of_yield {x : Loc P K} {y : YieldPhase} (hthread : (s.cpu c).thread = some p)
    (hctl : (s.table.slot p).ctl = ⟨x, some y⟩) (h : yieldStep s c p x y = some t) :
    Move procs init c s t := by
  cases y with
  | acquire =>
    simp only [yieldStep] at h
    split_ifs at h with hl
    cases h
    exact .yieldAcquire hthread hctl hl
  | state =>
    cases h
    exact .yieldState hthread hctl
  | sched =>
    cases h
    exact .yieldSched hthread hctl
  | release =>
    simp only [yieldStep] at h
    split_ifs at h with hl
    cases h
    exact .yieldRelease hthread hctl hl

theorem move_of_instr {x : Loc P K} {ok : Bool} (hthread : (s.cpu c).thread = some p)
    (hctl : (s.table.slot p).ctl = ⟨x, none⟩)
    (h : instrStep s c p ok (code procs init p x) = some t) : Move procs init c s t := by
  cases hi : code procs init p x with
  | call entry | stop =>
    rw [hi] at h
    cases h
  | acquire y =>
    simp only [hi, instrStep] at h
    split_ifs at h with hl
    cases h
    exact .acquire hthread hctl hi hl
  | release y =>
    simp only [hi, instrStep] at h
    split_ifs at h with hl
    cases h
    exact .release hthread hctl hi hl
  | act f =>
    rw [hi] at h
    cases h
    exact .act hthread hctl (act_of_code hi ok s.table)
  | swtch y =>
    rw [hi] at h
    cases h
    exact .swtch hthread hctl hi
  | switchuvm y =>
    rw [hi] at h
    obtain ⟨d, hd, rfl⟩ := Option.map_eq_some_iff.mp h
    exact .switchuvm hthread hctl hi (pgdir_of_switchuvm hd)

theorem move_of_step {a : Label C P K} (h : step procs init a s = some t) :
    Move procs init a.cpu s t := by
  cases a with
  | go c ok =>
    unfold step at h
    cases hthread : (s.cpu c).thread with
    | none =>
      simp only [hthread] at h
      exact move_of_sched hthread h
    | some p =>
      simp only [hthread] at h
      split at h
      · next x y hctl => exact move_of_yield hthread hctl h
      · next x hctl => exact move_of_instr hthread hctl h
  | tick c =>
    unfold step at h
    cases hthread : (s.cpu c).thread with
    | none =>
      simp only [hthread] at h
      cases h
    | some p =>
      simp only [hthread] at h
      split at h
      · next x hctl =>
        split_ifs at h with hl
        cases h
        exact .tick hthread hctl (by simpa using hl)
      · cases h
  | call c y =>
    unfold step at h
    cases hthread : (s.cpu c).thread with
    | none =>
      simp only [hthread] at h
      cases h
    | some p =>
      simp only [hthread] at h
      split at h
      · next x hctl =>
        split at h
        · next entry hi =>
          split_ifs at h with he
          cases h
          exact .call hthread hctl hi he
        · cases h
      · cases h

end Xv6.Sched
