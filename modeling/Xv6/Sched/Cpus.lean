import Xv6.Sched.Acts

namespace Xv6.Sched
open Lib
open Proc (ProcState)

variable {C P K : Type} {procs : List P} {init : P} {c c' : C} {s s' : State C P K} {p q : P}
  {t : Table P K} {b : Ctl P K}

def Live (st : ProcState) : Prop := st ≠ .unused ∧ st ≠ .embryo

instance (st : ProcState) : Decidable (Live st) := inferInstanceAs (Decidable (_ ∧ _))

/-- The processor runs code that has `ptable.lock`. -/
def State.inside (s : State C P K) (c : C) : Bool :=
  match (s.cpu c).thread with
  | none => (s.cpu c).sched.locked
  | some p => (s.table.slot p).ctl.locked

/-- What a processor knows that runs its scheduler. -/
def State.SchedOk (s : State C P K) (c : C) : Prop :=
  match (s.cpu c).sched with
  | .idle | .scan _ => (s.cpu c).proc = none
  | .load p _ | .mark p _ => (s.cpu c).proc = some p ∧ (s.table.slot p).state = .runnable
  | .enter p _ => (s.cpu c).proc = some p ∧ (s.table.slot p).state = .running
  | .back _ | .clear _ => ∃ p, (s.cpu c).proc = some p ∧ Live (s.table.slot p).state ∧
      (s.table.slot p).state ≠ .running

theorem State.SchedOk.mono (h : s.SchedOk c) (hsched : (s'.cpu c).sched = (s.cpu c).sched)
    (hproc : (s'.cpu c).proc = (s.cpu c).proc)
    (hstate : ∀ q, (s.cpu c).proc = some q → (s'.table.slot q).state = (s.table.slot q).state) :
    s'.SchedOk c := by
  unfold State.SchedOk at h ⊢
  rw [hsched, hproc]
  cases hs : (s.cpu c).sched with
  | idle | scan rest =>
    rw [hs] at h
    exact h
  | load q rest | mark q rest | enter q rest =>
    rw [hs] at h
    exact ⟨h.1, (hstate q h.1).trans h.2⟩
  | back rest | clear rest =>
    rw [hs] at h
    obtain ⟨q, hq, hok⟩ := h
    refine ⟨q, hq, ?_⟩
    rw [hstate q hq]
    exact hok

structure CpuOk (s : State C P K) (c : C) : Prop where
  cur : ∀ p, (s.cpu c).thread = some p →
    (s.cpu c).proc = some p ∧ ∃ rest, (s.cpu c).sched = .back rest
  lock : s.inside c = true → s.lock = some c
  sched : (s.cpu c).thread = none → s.SchedOk c
  /-- A process that runs is `RUNNING` until it is about to give up its processor. -/
  on : ∀ p, (s.cpu c).thread = some p → Live (s.table.slot p).state ∧
    ((s.table.slot p).state = .running ↔ (s.table.slot p).ctl.leaving = false)

/-- What holds of the processes that others make or reap. -/
structure Family (t : Table P K) : Prop where
  child : ∀ p q, Live (t.slot p).state → (t.slot p).ctl.loc.child = some q →
    (t.slot q).state = .embryo
  built : ∀ p q, Live (t.slot p).state → (t.slot p).ctl.loc.built = some q →
    (t.slot q).ctl = ⟨.unlock 0, none⟩
  only : ∀ p p' q, Live (t.slot p).state → Live (t.slot p').state →
    (t.slot p).ctl.loc.child = some q → (t.slot p').ctl.loc.child = some q → p = p'
  reap : ∀ p q, Live (t.slot p).state → (t.slot p).ctl = ⟨.waitReap q, none⟩ →
    (t.slot q).state = .zombie
  /-- A timer interrupt comes where no lock is held. -/
  yields : ∀ p x y, Live (t.slot p).state → (t.slot p).ctl = ⟨x, some y⟩ → x.locked = false

structure CpuInv (s : State C P K) : Prop extends Family s.table where
  each : ∀ c, CpuOk s c
  uniq : ∀ c c' p, (s.cpu c).proc = some p → (s.cpu c').proc = some p → c = c'
  running : ∀ p, (s.table.slot p).state = .running → ∃ c, (s.cpu c).proc = some p
  /-- A process that does not run goes on with `ptable.lock`. -/
  off : ∀ p, Live (s.table.slot p).state → (∀ c, (s.cpu c).thread ≠ some p) →
    (s.table.slot p).ctl.resumes = true

/-- The processors have the same process, and are at the same place of their schedulers. -/
structure SameCpu (k k' : Cpu P) : Prop where
  proc : k'.proc = k.proc
  thread : k'.thread = k.thread
  sched : k'.sched = k.sched

/-- Nothing happens to the processor or to its process. -/
structure Undisturbed (s s' : State C P K) (c : C) : Prop extends
    SameCpu (s.cpu c) (s'.cpu c) where
  state : ∀ q, (s.cpu c).proc = some q → (s'.table.slot q).state = (s.table.slot q).state
  ctl : ∀ q, (s.cpu c).thread = some q → (s'.table.slot q).ctl = (s.table.slot q).ctl

theorem Undisturbed.inside (h : Undisturbed s s' c) : s'.inside c = s.inside c := by
  unfold State.inside
  rw [h.thread, h.sched]
  cases hth : (s.cpu c).thread with
  | none => rfl
  | some q => exact congrArg Ctl.locked (h.ctl q hth)

theorem CpuOk.mono (hc : CpuOk s c) (h : Undisturbed s s' c)
    (hlock : s.lock = some c → s'.lock = some c) : CpuOk s' c where
  cur q hq := by
    rw [h.thread] at hq
    rw [h.proc, h.sched]
    exact hc.cur q hq
  lock hin := hlock (hc.lock (h.inside.symm.trans hin))
  sched hth := (hc.sched (h.thread.symm.trans hth)).mono h.sched h.proc h.state
  on q hq := by
    rw [h.thread] at hq
    rw [h.state q (hc.cur q hq).1, h.ctl q hq]
    exact hc.on q hq

namespace CpuInv

theorem locked_of_leaving {a : Ctl P K} (h : a.leaving = true) : a.locked = true := by
  obtain ⟨x, y⟩ := a
  cases y with
  | none => cases x <;> first | rfl | cases h
  | some y => cases y <;> first | rfl | cases h

theorem settled (hi : CpuInv s) (hp : (s.cpu c).proc = some p) (hl : s.lock ≠ some c) :
    (s.cpu c).thread = some p ∧ (s.table.slot p).state = .running := by
  have hin : s.inside c ≠ true := fun h => hl ((hi.each c).lock h)
  unfold State.inside at hin
  cases hth : (s.cpu c).thread with
  | none =>
    have hs := (hi.each c).sched hth
    unfold State.SchedOk at hs
    rw [hth] at hin
    cases hsched : (s.cpu c).sched with
    | idle =>
      rw [hsched] at hs
      rw [hs] at hp
      cases hp
    | _ =>
      rw [hsched] at hin
      exact absurd rfl hin
  | some p' =>
    obtain rfl : p' = p := Option.some.inj (((hi.each c).cur p' hth).1.symm.trans hp)
    rw [hth] at hin
    refine ⟨rfl, ((hi.each c).on p' hth).2.mpr ?_⟩
    rw [Bool.eq_false_iff]
    exact fun h => hin (locked_of_leaving h)

theorem live_proc (hi : CpuInv s) (hp : (s.cpu c).proc = some p) :
    Live (s.table.slot p).state := by
  cases hth : (s.cpu c).thread with
  | none =>
    have hs := (hi.each c).sched hth
    unfold State.SchedOk at hs
    cases hsched : (s.cpu c).sched with
    | idle | scan rest =>
      rw [hsched] at hs
      rw [hs] at hp
      cases hp
    | load p' rest | mark p' rest | enter p' rest =>
      rw [hsched] at hs
      obtain rfl := Option.some.inj (hs.1.symm.trans hp)
      rw [hs.2]
      decide
    | back rest | clear rest =>
      rw [hsched] at hs
      obtain ⟨p', hp', hlive, -⟩ := hs
      obtain rfl := Option.some.inj (hp'.symm.trans hp)
      exact hlive
  | some p' =>
    obtain rfl := Option.some.inj (((hi.each c).cur p' hth).1.symm.trans hp)
    exact ((hi.each c).on p' hth).1

theorem held (hi : CpuInv s) (hth : (s.cpu c).thread = some p)
    (hl : (s.table.slot p).ctl.locked = true) : s.lock = some c := by
  refine (hi.each c).lock ?_
  unfold State.inside
  rw [hth]
  exact hl

theorem other (hi : CpuInv s) (hth : (s.cpu c).thread = some p) (hc : c' ≠ c)
    (hq : (s.cpu c').proc = some q) : q ≠ p := by
  rintro rfl
  exact hc (hi.uniq c' c q hq ((hi.each c).cur q hth).1)

theorem critical (hi : CpuInv s) (hl : Live (s.table.slot p).state)
    (hlocked : (s.table.slot p).ctl.locked = true) (hres : (s.table.slot p).ctl.resumes = false) :
    ∃ c, (s.cpu c).thread = some p ∧ s.lock = some c := by
  by_contra hnone
  have hoff : ∀ c, (s.cpu c).thread ≠ some p := by
    intro c hc
    exact hnone ⟨c, hc, hi.held hc hlocked⟩
  rw [hi.off p hl hoff] at hres
  cases hres

end CpuInv

/-- What a step of process `p` leaves of the other entries. -/
structure Calm (s : State C P K) (p : P) (t : Table P K) : Prop where
  busy : ∀ q, q ≠ p → ∀ c, (s.cpu c).proc = some q →
    (t.slot q).state = (s.table.slot q).state ∧ (t.slot q).ctl = (s.table.slot q).ctl
  running : ∀ q, q ≠ p → (t.slot q).state = .running → (s.table.slot q).state = .running
  live : ∀ q, q ≠ p → Live (t.slot q).state →
    Live (s.table.slot q).state ∧ (t.slot q).ctl = (s.table.slot q).ctl ∨
      (t.slot q).ctl = ⟨.unlock 0, none⟩
  child : ∀ p' q, p' ≠ p → Live (s.table.slot p').state →
    (s.table.slot p').ctl.loc.child = some q → (t.slot q).state = .embryo ∧
      (t.slot q).ctl = (s.table.slot q).ctl
  zombie : ∀ p' q, p' ≠ p → Live (s.table.slot p').state →
    (s.table.slot p').ctl = ⟨.waitReap q, none⟩ → (t.slot q).state = .zombie

theorem CpuInv.calm_refl (hi : CpuInv s) (p : P) : Calm s p s.table where
  busy _ _ _ _ := ⟨rfl, rfl⟩
  running _ _ h := h
  live _ _ h := .inl ⟨h, rfl⟩
  child p' q _ hlive hc := ⟨hi.child p' q hlive hc, rfl⟩
  zombie p' q _ hlive hr := hi.reap p' q hlive hr

theorem CpuInv.calm_of_slot (hi : CpuInv s)
    (hrun : (s.table.slot p).state = .running)
    (hslot : ∀ q, q ≠ p → t.slot q = s.table.slot q) : Calm s p t := by
  have hne : ∀ q, (s.table.slot q).state ≠ .running → q ≠ p := by
    rintro q h rfl
    exact h hrun
  refine ⟨fun q hq _ _ => by rw [hslot q hq]; exact ⟨rfl, rfl⟩, fun q hq h => by rwa [hslot q hq] at h,
    fun q hq h => by rw [hslot q hq] at h ⊢; exact .inl ⟨h, rfl⟩, fun p' q _ hl hc => ?_,
    fun p' q _ hl hr => ?_⟩
  · have hemb := hi.child p' q hl hc
    rw [hslot q (hne q (by rw [hemb]; decide))]
    exact ⟨hemb, rfl⟩
  · have hz := hi.reap p' q hl hr
    rw [hslot q (hne q (by rw [hz]; decide)), hz]

/-- What the step says of the processes that the process itself, which goes on at `b`, makes or
reaps. -/
structure Kids (s : State C P K) (p : P) (t : Table P K) (b : Ctl P K) : Prop where
  child : ∀ q, b.loc.child = some q → (t.slot q).state = .embryo ∧
    ∀ p', p' ≠ p → Live (s.table.slot p').state → (s.table.slot p').ctl.loc.child ≠ some q
  built : ∀ q, b.loc.built = some q → q ≠ p ∧ (t.slot q).ctl = ⟨.unlock 0, none⟩
  reap : ∀ q, b = ⟨.waitReap q, none⟩ → (t.slot q).state = .zombie
  yields : ∀ x y, b = ⟨x, some y⟩ → x.locked = false

structure Own (s : State C P K) (p : P) (t : Table P K) (b : Ctl P K) : Prop extends
    Kids s p t b where
  live : Live (t.slot p).state
  running : (t.slot p).state = .running ↔ b.leaving = false

/-- Taking or giving up `ptable.lock`, or neither. -/
def LockStep (c : C) (l l' : Option C) : Prop := l' = l ∨ l = none ∧ l' = some c ∨
  l = some c ∧ l' = none

theorem LockStep.other {l l' : Option C} (h : LockStep c l l') (hc : c' ≠ c)
    (hl : l = some c') : l' = some c' := by
  rcases h with h | ⟨h, -⟩ | ⟨h, -⟩
  · rw [h, hl]
  · rw [h] at hl
    cases hl
  · rw [h] at hl
    exact absurd (Option.some.inj hl).symm hc

theorem child_of_built {x : Loc P K} {q : P} (h : x.built = some q) : x.child = some q := by
  cases x <;> first | exact h | cases h

theorem CpuInv.kids_refl (hi : CpuInv s) (hlive : Live (s.table.slot p).state)
    (hchild : ∀ q, b.loc.child = some q → (s.table.slot p).ctl.loc.child = some q)
    (hbuilt : ∀ q, b.loc.built = some q → (s.table.slot p).ctl.loc.built = some q)
    (hreap : ∀ q, b ≠ ⟨.waitReap q, none⟩) (hyields : ∀ x y, b = ⟨x, some y⟩ → x.locked = false) :
    Kids s p s.table b where
  child q hq := by
    refine ⟨hi.child p q hlive (hchild q hq), fun p' hp' hl hc => ?_⟩
    exact hp' (hi.only p' p q hl hlive hc (hchild q hq))
  built q hq := by
    refine ⟨?_, hi.built p q hlive (hbuilt q hq)⟩
    rintro rfl
    exact hlive.2 (hi.child q q hlive (hchild q (child_of_built hq)))
  reap q hq := absurd hq (hreap q)
  yields := hyields

theorem CpuInv.own_of_kids (hi : CpuInv s) (hth : (s.cpu c).thread = some p)
    (hrun : (s.table.slot p).ctl.leaving = false) (hb : b.leaving = false)
    (hkids : Kids s p s.table b) : Own s p s.table b where
  toKids := hkids
  live := ((hi.each c).on p hth).1
  running := by rw [((hi.each c).on p hth).2, hrun, hb]

theorem CpuInv.kids_phase {x : Loc P K} {y : Option YieldPhase} {z : YieldPhase} (hi : CpuInv s)
    (hlive : Live (s.table.slot p).state) (hctl : (s.table.slot p).ctl = ⟨x, y⟩)
    (hx : x.locked = false) : Kids s p s.table ⟨x, some z⟩ := by
  have hloc : (s.table.slot p).ctl.loc = x := by rw [hctl]
  refine hi.kids_refl hlive (fun q hq => by rw [hloc]; exact hq) (fun q hq => by rw [hloc]; exact hq)
    nofun ?_
  rintro x' y' heq
  obtain rfl : x = x' := congrArg Ctl.loc heq
  exact hx

/-- Going from `x` to `y` concerns nobody else. -/
structure Plain (x y : Loc P K) : Prop where
  leaving : x.leaving = false ∧ y.leaving = false
  child : ∀ q, y.child = some q → x.child = some q
  built : ∀ q, y.built = some q → x.built = some q
  reap : ∀ q, y ≠ .waitReap q

/-- What an instruction at `x` does with the lock, and where it leads. -/
def Instr.Leads (x : Loc P K) : Instr P K → Prop
  | .call entry => ∀ y, entry y = true → Plain x y ∧ y.locked = false
  | .acquire y => Plain x y
  | .release y => x.locked = true ∧ Plain x y ∧ y.locked = false
  | .switchuvm y => Plain x y ∧ y.locked = false
  | .swtch y => x.leaving = true ∧ y.resumes = true
  | _ => True

theorem Plain.own {x y : Loc P K} (h : Plain x y) (hi : CpuInv s)
    (hth : (s.cpu c).thread = some p) (hctl : (s.table.slot p).ctl = ⟨x, none⟩) :
    Own s p s.table ⟨y, none⟩ := by
  have hloc : (s.table.slot p).ctl.loc = x := by rw [hctl]
  refine hi.own_of_kids hth (by rw [hctl]; exact h.leaving.1) h.leaving.2
    (hi.kids_refl ((hi.each c).on p hth).1 (fun q hq => ?_) (fun q hq => ?_)
      (fun q hq => h.reap q (congrArg Ctl.loc hq)) nofun)
  · rw [hloc]
    exact h.child q hq
  · rw [hloc]
    exact h.built q hq

theorem leaving_of_resumes (h : b.resumes = true) : b.leaving = false ∧ b.locked = true := by
  obtain ⟨x, y⟩ := b
  cases y with
  | none => cases x <;> first | exact ⟨rfl, rfl⟩ | cases h
  | some y => cases y <;> first | exact ⟨rfl, rfl⟩ | cases h

theorem child_of_resumes {x : Loc P K} (h : x.resumes = true) : x.child = none ∧ x.built = none := by
  cases x <;> first | exact ⟨rfl, rfl⟩ | cases h

variable [DecidableEq P]

theorem setCtl_self (t : Table P K) (p : P) (b : Ctl P K) : ((t.setCtl p b).slot p).ctl = b := by
  rw [Table.setCtl, Table.set_self]

theorem setCtl_of_ne (t : Table P K) (b : Ctl P K) (h : q ≠ p) :
    (t.setCtl p b).slot q = t.slot q := Table.set_of_ne _ h

theorem setCtl_state (t : Table P K) (p q : P) (b : Ctl P K) :
    ((t.setCtl p b).slot q).state = (t.slot q).state := by
  by_cases hq : q = p
  · subst hq
    rw [Table.setCtl, Table.set_self]
  · rw [setCtl_of_ne t b hq]

theorem Calm.setCtl (h : Calm s p t) (hq : q ≠ p) (hl : Live ((t.setCtl p b).slot q).state) :
    Live (s.table.slot q).state ∧ ((t.setCtl p b).slot q).ctl = (s.table.slot q).ctl ∨
      ((t.setCtl p b).slot q).ctl = ⟨.unlock 0, none⟩ := by
  rw [setCtl_state] at hl
  rw [setCtl_of_ne t b hq]
  exact h.live q hq hl

/-- Another process that makes a child has been making it. -/
theorem Calm.parent {r : P} (h : Calm s p t) (hq : q ≠ p)
    (hl : Live ((t.setCtl p b).slot q).state)
    (hc : ((t.setCtl p b).slot q).ctl.loc.child = some r) :
    Live (s.table.slot q).state ∧ ((t.setCtl p b).slot q).ctl = (s.table.slot q).ctl := by
  refine (h.setCtl hq hl).resolve_right fun hnew => ?_
  rw [hnew] at hc
  cases hc

section Family

variable (hf : Family s.table) (hp : Live (s.table.slot p).state) (hcalm : Calm s p t)
  (hkids : Kids s p t b)

include hcalm hkids in
theorem Kids.child_setCtl {r : P} (hl : Live ((t.setCtl p b).slot q).state)
    (h : ((t.setCtl p b).slot q).ctl.loc.child = some r) :
    ((t.setCtl p b).slot r).state = .embryo := by
  rw [setCtl_state]
  by_cases hq : q = p
  · subst hq
    rw [setCtl_self] at h
    exact (hkids.child r h).1
  · obtain ⟨hl', hsame⟩ := hcalm.parent hq hl h
    rw [hsame] at h
    exact (hcalm.child q r hq hl' h).1

include hf hp hcalm hkids

theorem Kids.built_setCtl {r : P} (hl : Live ((t.setCtl p b).slot q).state)
    (h : ((t.setCtl p b).slot q).ctl.loc.built = some r) :
    ((t.setCtl p b).slot r).ctl = ⟨.unlock 0, none⟩ := by
  by_cases hq : q = p
  · subst hq
    rw [setCtl_self] at h
    obtain ⟨hne, hr⟩ := hkids.built r h
    rw [setCtl_of_ne t b hne, hr]
  · obtain ⟨hl', hsame⟩ := hcalm.parent hq hl (child_of_built h)
    rw [hsame] at h
    have hc := child_of_built h
    have hne : r ≠ p := by
      rintro rfl
      exact hp.2 (hf.child q r hl' hc)
    rw [setCtl_of_ne t b hne, (hcalm.child q r hq hl' hc).2]
    exact hf.built q r hl' h

theorem Kids.only_setCtl {q' r : P} (hl : Live ((t.setCtl p b).slot q).state)
    (hl' : Live ((t.setCtl p b).slot q').state)
    (h : ((t.setCtl p b).slot q).ctl.loc.child = some r)
    (h' : ((t.setCtl p b).slot q').ctl.loc.child = some r) : q = q' := by
  by_cases hq : q = p
  · by_cases hq' : q' = p
    · rw [hq, hq']
    · subst hq
      rw [setCtl_self] at h
      obtain ⟨hl', hsame⟩ := hcalm.parent hq' hl' h'
      rw [hsame] at h'
      exact absurd h' ((hkids.child r h).2 q' hq' hl')
  · obtain ⟨hlq, hsame⟩ := hcalm.parent hq hl h
    rw [hsame] at h
    by_cases hq' : q' = p
    · subst hq'
      rw [setCtl_self] at h'
      exact absurd h ((hkids.child r h').2 q hq hlq)
    · obtain ⟨hlq', hsame'⟩ := hcalm.parent hq' hl' h'
      rw [hsame'] at h'
      exact hf.only q q' r hlq hlq' h h'

theorem Family.setCtl : Family (t.setCtl p b) where
  child _ _ := hkids.child_setCtl hcalm
  built _ _ := hkids.built_setCtl hf hp hcalm
  only _ _ _ := hkids.only_setCtl hf hp hcalm
  reap q r hl h := by
    rw [setCtl_state]
    by_cases hq : q = p
    · subst hq
      rw [setCtl_self] at h
      exact hkids.reap r h
    · rcases hcalm.setCtl hq hl with ⟨hl', hsame⟩ | hnew
      · rw [hsame] at h
        exact hcalm.zombie q r hq hl' h
      · rw [hnew] at h
        cases h
  yields q x y hl h := by
    by_cases hq : q = p
    · subst hq
      rw [setCtl_self] at h
      exact hkids.yields x y h
    · rcases hcalm.setCtl hq hl with ⟨hl', hsame⟩ | hnew
      · rw [hsame] at h
        exact hf.yields q x y hl' h
      · rw [hnew] at h
        cases h

end Family

section Stay

variable (hi : CpuInv s) (hth : (s.cpu c).thread = some p) (htable : s'.table = t.setCtl p b)
  (hcalm : Calm s p t)
include hi hth htable hcalm

theorem CpuInv.undisturbed (hc : c' ≠ c) (hcpu : SameCpu (s.cpu c') (s'.cpu c')) :
    Undisturbed s s' c' where
  toSameCpu := hcpu
  state q hq := by
    rw [htable, setCtl_state]
    exact (hcalm.busy q (hi.other hth hc hq) c' hq).1
  ctl q hq := by
    have hproc := ((hi.each c').cur q hq).1
    have hne := hi.other hth hc hproc
    rw [htable, setCtl_of_ne t b hne]
    exact (hcalm.busy q hne c' hproc).2

theorem CpuInv.stay (hcpu : ∀ c, SameCpu (s.cpu c) (s'.cpu c)) (hlock : LockStep c s.lock s'.lock)
    (hin : b.locked = true → s'.lock = some c) (hown : Own s p t b) : CpuInv s' where
  toFamily := by
    rw [htable]
    exact hi.toFamily.setCtl ((hi.each c).on p hth).1 hcalm hown.toKids
  each c' := by
    by_cases hc : c' = c
    · subst hc
      have hth' : (s'.cpu c').thread = some p := by rw [(hcpu c').thread, hth]
      have hself : (s'.table.slot p).ctl = b := by rw [htable, setCtl_self]
      refine ⟨fun q h => ?_, fun h => hin ?_, fun h => ?_, fun q h => ?_⟩
      · rw [(hcpu c').thread] at h
        rw [(hcpu c').proc, (hcpu c').sched]
        exact (hi.each c').cur q h
      · unfold State.inside at h
        rw [hth'] at h
        rwa [← hself]
      · rw [hth'] at h
        cases h
      · obtain rfl := Option.some.inj (hth'.symm.trans h)
        rw [hself, htable, setCtl_state]
        exact ⟨hown.live, hown.running⟩
    · exact (hi.each c').mono (hi.undisturbed hth htable hcalm hc (hcpu c')) (hlock.other hc)
  uniq c₁ c₂ q h₁ h₂ := by
    rw [(hcpu c₁).proc] at h₁
    rw [(hcpu c₂).proc] at h₂
    exact hi.uniq c₁ c₂ q h₁ h₂
  running q h := by
    by_cases hq : q = p
    · subst hq
      exact ⟨c, by rw [(hcpu c).proc, ((hi.each c).cur q hth).1]⟩
    · rw [htable, setCtl_state] at h
      obtain ⟨c', hc'⟩ := hi.running q (hcalm.running q hq h)
      exact ⟨c', by rw [(hcpu c').proc, hc']⟩
  off q hl h := by
    have hq : q ≠ p := by
      rintro rfl
      exact h c (by rw [(hcpu c).thread, hth])
    rw [htable] at hl ⊢
    rcases hcalm.setCtl hq hl with ⟨hl', hsame⟩ | hnew
    · rw [hsame]
      exact hi.off q hl' fun c' hc' => h c' (by rw [(hcpu c').thread, hc'])
    · rw [hnew]
      rfl

end Stay

theorem CpuInv.goto (hi : CpuInv s) (hth : (s.cpu c).thread = some p)
    (htable : s'.table = s.table.setCtl p b) (hcpu : ∀ c, SameCpu (s.cpu c) (s'.cpu c))
    (hlock : LockStep c s.lock s'.lock) (hin : b.locked = true → s'.lock = some c)
    (hown : Own s p s.table b) : CpuInv s' :=
  hi.stay hth htable (hi.calm_refl p) hcpu hlock hin hown

theorem CpuInv.leave (hi : CpuInv s) (hth : (s.cpu c).thread = some p)
    (hleave : (s.table.slot p).ctl.leaving = true) (htable : s'.table = s.table.setCtl p b)
    (hother : ∀ c', c' ≠ c → s'.cpu c' = s.cpu c')
    (hcpu : s'.cpu c = { s.cpu c with thread := none, stack := none }) (hlock : s'.lock = s.lock)
    (hb : b.resumes = true) (hkids : Kids s p s.table b) : CpuInv s' where
  toFamily := by
    rw [htable]
    exact hi.toFamily.setCtl ((hi.each c).on p hth).1 (hi.calm_refl p) hkids
  each c' := by
    by_cases hc : c' = c
    · subst hc
      have hth' : (s'.cpu c').thread = none := by rw [hcpu]
      obtain ⟨hcur, rest, hback⟩ := (hi.each c').cur p hth
      have hnone : ∀ q, (s'.cpu c').thread ≠ some q := by
        intro q
        rw [hth']
        exact nofun
      refine ⟨fun q h => absurd h (hnone q), fun _ => ?_, fun _ => ?_, fun q h => absurd h (hnone q)⟩
      · rw [hlock]
        exact hi.held hth (locked_of_leaving hleave)
      · have hon := (hi.each c').on p hth
        unfold State.SchedOk
        rw [hcpu, htable]
        dsimp only
        rw [hback]
        refine ⟨p, hcur, ?_⟩
        rw [setCtl_state]
        refine ⟨hon.1, ?_⟩
        rw [ne_eq, hon.2, hleave]
        exact Bool.noConfusion
    · have hsame : SameCpu (s.cpu c') (s'.cpu c') := by
        rw [hother c' hc]
        exact ⟨rfl, rfl, rfl⟩
      refine (hi.each c').mono (hi.undisturbed hth htable (hi.calm_refl p) hc hsame) ?_
      rw [hlock]
      exact id
  uniq c₁ c₂ q h₁ h₂ := by
    have hproc : ∀ c', (s'.cpu c').proc = (s.cpu c').proc := fun c' => by
      by_cases hc : c' = c
      · rw [hc, hcpu]
      · rw [hother c' hc]
    rw [hproc] at h₁ h₂
    exact hi.uniq c₁ c₂ q h₁ h₂
  running q h := by
    rw [htable, setCtl_state] at h
    obtain ⟨c', hc'⟩ := hi.running q h
    refine ⟨c', ?_⟩
    by_cases hc : c' = c
    · rw [hc] at hc' ⊢
      rw [hcpu]
      exact hc'
    · rw [hother c' hc, hc']
  off q hl h := by
    rw [htable] at hl ⊢
    by_cases hq : q = p
    · subst hq
      rw [setCtl_self]
      exact hb
    · rw [setCtl_state] at hl
      rw [setCtl_of_ne _ b hq]
      refine hi.off q hl fun c' hc' => ?_
      by_cases hc : c' = c
      · subst hc
        exact hq (Option.some.inj (hc'.symm.trans hth))
      · exact h c' (by rw [hother c' hc, hc'])

theorem CpuInv.own_yield {x : Loc P K} (hi : CpuInv s) (hth : (s.cpu c).thread = some p)
    (hctl : (s.table.slot p).ctl = ⟨x, some .state⟩) :
    Own s p (s.table.setState p .runnable) ⟨x, some .sched⟩ := by
  have hlive := ((hi.each c).on p hth).1
  have hkids : Kids s p s.table ⟨x, some .sched⟩ :=
    hi.kids_phase hlive hctl (hi.yields p x _ hlive hctl)
  have hself : ((s.table.setState p .runnable).slot p).state = .runnable := by
    rw [Table.setState, Table.set_self]
  -- The process is not one that it makes itself.
  have hslot : ∀ q, (s.table.slot q).state = .embryo →
      (s.table.setState p .runnable).slot q = s.table.slot q := by
    intro q hq
    refine Table.set_of_ne _ ?_
    rintro rfl
    exact hlive.2 hq
  refine { child := fun q hq => ?_, built := fun q hq => ?_, reap := by rintro q ⟨⟩,
           yields := hkids.yields, live := ?_, running := ?_ }
  · rw [hslot q (hkids.child q hq).1]
    exact hkids.child q hq
  · rw [hslot q (hkids.child q (child_of_built hq)).1]
    exact hkids.built q hq
  · rw [hself]
    decide
  · rw [hself]
    constructor
    · rintro ⟨⟩
    · rintro ⟨⟩

section Act

variable [DecidableEq K] {x y : Loc P K}

theorem leads_of_code {i : Instr P K} (h : code procs init p x = i) : i.Leads x := by
  subst h
  cases x with
  | sleepTidy ch => cases ch <;> trivial
  | exitLoop rest | waitScan rest => cases rest <;> trivial
  | run r =>
    intro y hy
    cases y with
    | wakeup | kill | sleep | fork | exec | exit | wait =>
      exact ⟨⟨⟨rfl, rfl⟩, nofun, nofun, nofun⟩, rfl⟩
    | _ => cases hy
  | wakeup | kill | sleep | fork | forkLock | exitLock | wait =>
    exact ⟨⟨rfl, rfl⟩, fun _ h => h, fun _ h => h, nofun⟩
  | unlock r | forkUnlock q => exact ⟨rfl, ⟨⟨rfl, rfl⟩, fun _ h => h, fun _ h => h, nofun⟩, rfl⟩
  | execSwitch old => exact ⟨⟨⟨rfl, rfl⟩, nofun, nofun, nofun⟩, rfl⟩
  | sleepSched ch | exitSched => exact ⟨rfl, rfl⟩
  | _ => trivial

section

variable (hi : CpuInv s) (hth : (s.cpu c).thread = some p) (hctl : (s.table.slot p).ctl = ⟨x, none⟩)
  (h : Act procs init p s.table x t y)
include hi hth hctl h

theorem CpuInv.acting :
    (s.table.slot p).state = .running ∧ (x.locked = true → s.lock = some c) ∧
      (∀ q, x.child = some q → (s.table.slot q).state = .embryo) ∧
      ∀ q, x = .waitReap q → (s.table.slot q).state = .zombie := by
  have hon := (hi.each c).on p hth
  refine ⟨hon.2.mpr ?_, fun hx => hi.held hth ?_, fun q hq => hi.child p q hon.1 ?_, fun q hq => ?_⟩
  · rw [hctl]
    exact h.not_leaving
  · rw [hctl]
    exact hx
  · rw [hctl]
    exact hq
  · subst hq
    exact hi.reap p q hon.1 hctl

theorem CpuInv.busy_act (hq : q ≠ p) (hc : (s.cpu c').proc = some q) :
    (t.slot q).state = (s.table.slot q).state ∧ (t.slot q).ctl = (s.table.slot q).ctl := by
  obtain ⟨-, hheld, hchild, hreap⟩ := hi.acting hth hctl h
  have hlive := hi.live_proc hc
  -- While the lock is held here, the other processor's process is `RUNNING`.
  have hrun : x.locked = true → (s.table.slot q).state = .running := by
    intro hx
    refine (hi.settled hc ?_).2
    rw [hheld hx]
    intro heq
    cases heq
    exact hq (Option.some.inj (hc.symm.trans ((hi.each c).cur p hth).1))
  refine (h.change q).kept (fun heq => absurd heq hq) (fun hx => ?_) hlive.1
    (fun hx => hlive.2 (hchild q hx)) fun hx => ?_
  · rw [hrun hx]
    decide
  · have hz := hreap q hx
    subst hx
    rw [hrun rfl] at hz
    cases hz

theorem CpuInv.live_act (hq : q ≠ p) (hl : Live (t.slot q).state) :
    Live (s.table.slot q).state ∧ (t.slot q).ctl = (s.table.slot q).ctl ∨
      (t.slot q).ctl = ⟨.unlock 0, none⟩ := by
  obtain ⟨-, -, hchild, -⟩ := hi.acting hth hctl h
  cases h.change q with
  | quiet hs hsame =>
    rw [hs] at hl
    exact .inl ⟨hl, hsame.ctl⟩
  | woken hx hs hs' hsame =>
    refine .inl ⟨?_, hsame.ctl⟩
    rw [hs]
    decide
  | leave heq | exec heq => exact absurd heq hq
  | alloc hx hy hs hs' => exact absurd hs' hl.2
  | build hx hy hs =>
    rw [hs] at hl
    exact absurd (hchild q hx) hl.2
  | ready hx hs' hsame =>
    right
    rw [hsame.ctl]
    refine hi.built p q ((hi.each c).on p hth).1 ?_
    rw [hctl, hx]
    rfl
  | gone hx hs' => exact absurd hs' hl.1

theorem CpuInv.child_act {p' : P} (hp' : p' ≠ p) (hl : Live (s.table.slot p').state)
    (hc : (s.table.slot p').ctl.loc.child = some q) :
    (t.slot q).state = .embryo ∧ (t.slot q).ctl = (s.table.slot q).ctl := by
  obtain ⟨hrun, -, -, hreap⟩ := hi.acting hth hctl h
  have hemb := hi.child p' q hl hc
  -- Nobody else makes the same process.
  have honly : x.child ≠ some q := by
    intro hx
    refine hp' (hi.only p' p q hl ((hi.each c).on p hth).1 hc ?_)
    rw [hctl, hx]
  refine ((h.change q).kept (fun hqp => ?_) (fun _ => by rw [hemb]; decide)
    (by rw [hemb]; decide) honly fun hx => ?_).imp_left fun hs => hs.trans hemb
  · rw [hqp, hrun] at hemb
    cases hemb
  · rw [hreap q hx] at hemb
    cases hemb

theorem CpuInv.zombie_act {p' : P} (hp' : p' ≠ p) (hl : Live (s.table.slot p').state)
    (hc : (s.table.slot p').ctl = ⟨.waitReap q, none⟩) : (t.slot q).state = .zombie := by
  obtain ⟨hrun, hheld, hchild, -⟩ := hi.acting hth hctl h
  have hz := hi.reap p' q hl hc
  refine ((h.change q).kept (fun hqp => ?_) (fun _ => by rw [hz]; decide) (by rw [hz]; decide)
    (fun hx => ?_) fun hx => ?_).1.trans hz
  · rw [hqp, hrun] at hz
    cases hz
  · rw [hchild q hx] at hz
    cases hz
  · -- Both processes would have the lock.
    subst hx
    have hlocked : (s.table.slot p').ctl.locked = true := by rw [hc]; rfl
    have hres : (s.table.slot p').ctl.resumes = false := by rw [hc]; rfl
    obtain ⟨c', hth', hlock'⟩ := hi.critical hl hlocked hres
    obtain rfl := Option.some.inj (hlock'.symm.trans (hheld rfl))
    exact absurd (Option.some.inj (hth'.symm.trans hth)) hp'

theorem CpuInv.calm_act : Calm s p t where
  busy _ hq _ := hi.busy_act hth hctl h hq
  running q hq hst := by
    cases h.change q with
    | quiet hs | build hx hy hs => rw [← hs, hst]
    | woken hx hs hs' | alloc hx hy hs hs' | ready hx hs' | gone hx hs' =>
      rw [hs'] at hst
      cases hst
    | leave heq | exec heq => exact absurd heq hq
  live _ := hi.live_act hth hctl h
  child _ _ := hi.child_act hth hctl h
  zombie _ _ := hi.zombie_act hth hctl h

theorem CpuInv.not_self : x.child ≠ some p := by
  obtain ⟨hrun, -, hchild, -⟩ := hi.acting hth hctl h
  intro hx
  rw [hchild p hx] at hrun
  cases hrun

theorem CpuInv.running_act (hy : y.leaving = false) : (t.slot p).state = .running := by
  obtain ⟨hrun, -, -, hreap⟩ := hi.acting hth hctl h
  refine ((h.change p).kept (fun _ => hy) (fun _ => by rw [hrun]; decide) (by rw [hrun]; decide)
    (hi.not_self hth hctl h) fun hx => ?_).1.trans hrun
  rw [hreap p hx] at hrun
  cases hrun

theorem CpuInv.kids_act : Kids s p t ⟨y, none⟩ where
  child q hq := by
    have hlive := ((hi.each c).on p hth).1
    rcases h.child hq with ⟨hx, hs⟩ | ⟨-, hs, hs'⟩
    · refine ⟨hs.trans ((hi.acting hth hctl h).2.2.1 q hx), fun p' hp' hl hc => ?_⟩
      exact hp' (hi.only p' p q hl hlive hc (by rw [hctl, hx]))
    · refine ⟨hs', fun p' _ hl hc => ?_⟩
      rw [hi.child p' q hl hc] at hs
      cases hs
  built q hq := by
    have hbuilt : y.built = some q := hq
    refine ⟨?_, ?_⟩
    · rintro rfl
      rcases h.child (child_of_built hbuilt) with ⟨hx, -⟩ | ⟨-, hs, -⟩
      · exact hi.not_self hth hctl h hx
      · rw [(hi.acting hth hctl h).1] at hs
        cases hs
    · rcases h.built hbuilt with ⟨hx, hs⟩ | ⟨-, hs⟩
      · rw [hs]
        exact hi.built p q ((hi.each c).on p hth).1 (by rw [hctl, hx])
      · exact hs
  reap q hq := by
    obtain rfl : y = .waitReap q := congrArg Ctl.loc hq
    exact h.reap_zombie.2
  yields := nofun

theorem CpuInv.own_act : Own s p t ⟨y, none⟩ := by
  refine { toKids := hi.kids_act hth hctl h, live := ?_, running := ?_ }
  · cases hy : y.leaving with
    | true =>
      rcases h.leaving hy with hs | hs
      · rw [hs]
        decide
      · rw [hs]
        decide
    | false =>
      rw [hi.running_act hth hctl h hy]
      decide
  · refine ⟨fun hs => ?_, hi.running_act hth hctl h⟩
    show y.leaving = false
    cases hy : y.leaving with
    | true =>
      rcases h.leaving hy with hs' | hs'
      · rw [hs'] at hs
        cases hs
      · rw [hs'] at hs
        cases hs
    | false => rfl

end

end Act

end Xv6.Sched
