import Xv6.Sched.Cpus

namespace Xv6.Sched
open Lib
open Proc (ProcState)

variable {C P K : Type} {procs : List P} {init : P} {c c' : C} {s s' t : State C P K} {p : P}

theorem CpuInv.held_of_sched (hi : CpuInv s) (hth : (s.cpu c).thread = none)
    (hs : (s.cpu c).sched.locked = true) : s.lock = some c := by
  refine (hi.each c).lock ?_
  unfold State.inside
  rw [hth]
  exact hs

theorem CpuInv.idle (hi : CpuInv s) (hth : (s.cpu c).thread = none)
    (hproc : (s.cpu c).proc = some p) : ∀ c', (s.cpu c').thread ≠ some p := by
  intro c' hc'
  obtain rfl := hi.uniq c' c p ((hi.each c').cur p hc').1 hproc
  rw [hth] at hc'
  cases hc'

theorem CpuInv.uniq_of_other (hi : CpuInv s) (hother : ∀ c', c' ≠ c → s'.cpu c' = s.cpu c')
    (huniq : ∀ c' p, c' ≠ c → (s'.cpu c).proc = some p → (s.cpu c').proc ≠ some p) (c₁ c₂ : C)
    (q : P) (h₁ : (s'.cpu c₁).proc = some q) (h₂ : (s'.cpu c₂).proc = some q) : c₁ = c₂ := by
  by_cases hc₁ : c₁ = c
  · by_cases hc₂ : c₂ = c
    · rw [hc₁, hc₂]
    · rw [hc₁] at h₁
      rw [hother c₂ hc₂] at h₂
      exact absurd h₂ (huniq c₂ q hc₂ h₁)
  · rw [hother c₁ hc₁] at h₁
    by_cases hc₂ : c₂ = c
    · rw [hc₂] at h₂
      exact absurd h₁ (huniq c₁ q hc₁ h₂)
    · rw [hother c₂ hc₂] at h₂
      exact hi.uniq c₁ c₂ q h₁ h₂

/-- The table is left alone, or a process that is `RUNNABLE` becomes `RUNNING`. -/
structure Chosen (t t' : Table P K) (q : Option P) : Prop where
  ctl : ∀ p, (t'.slot p).ctl = (t.slot p).ctl
  state : ∀ p, (t'.slot p).state = (t.slot p).state ∨ q = some p ∧
    (t.slot p).state = .runnable ∧ (t'.slot p).state = .running

section Chosen

variable {t t' : Table P K} {q : Option P}

theorem Chosen.refl (t : Table P K) (q : Option P) : Chosen t t q :=
  ⟨fun _ => rfl, fun _ => .inl rfl⟩

theorem Chosen.live (h : Chosen t t' q) (hl : Live (t'.slot p).state) : Live (t.slot p).state := by
  rcases h.state p with hp | ⟨-, hp, -⟩
  · rwa [hp] at hl
  · rw [hp]
    decide

theorem Chosen.kept (h : Chosen t t' q) (hp : (t.slot p).state ≠ .runnable) :
    (t'.slot p).state = (t.slot p).state :=
  (h.state p).resolve_right fun hq => hp hq.2.1

theorem Chosen.family (h : Chosen t t' q) (hf : Family t) : Family t' where
  child p r hl hc := by
    rw [h.ctl] at hc
    have hemb := hf.child p r (h.live hl) hc
    rw [h.kept (by rw [hemb]; decide), hemb]
  built p r hl hb := by
    rw [h.ctl] at hb ⊢
    exact hf.built p r (h.live hl) hb
  only p p' r hl hl' hc hc' := by
    rw [h.ctl] at hc hc'
    exact hf.only p p' r (h.live hl) (h.live hl') hc hc'
  reap p r hl hr := by
    rw [h.ctl] at hr
    have hz := hf.reap p r (h.live hl) hr
    rw [h.kept (by rw [hz]; decide), hz]
  yields p x y hl hy := by
    rw [h.ctl] at hy
    exact hf.yields p x y (h.live hl) hy

end Chosen

theorem CpuInv.schedule (hi : CpuInv s) (hth : (s.cpu c).thread = none)
    (hchosen : Chosen s.table s'.table (s.cpu c).proc)
    (hother : ∀ c', c' ≠ c → s'.cpu c' = s.cpu c')
    (hthread : (s'.cpu c).thread = none) (hlock : LockStep c s.lock s'.lock)
    (hin : (s'.cpu c).sched.locked = true → s'.lock = some c) (hsched : s'.SchedOk c)
    (huniq : ∀ c' p, c' ≠ c → (s'.cpu c).proc = some p → (s.cpu c').proc ≠ some p)
    (hrun : ∀ p, (s.cpu c).proc = some p → (s'.table.slot p).state = .running →
      (s'.cpu c).proc = some p) : CpuInv s' where
  toFamily := hchosen.family hi.toFamily
  each c' := by
    by_cases hc : c' = c
    · subst hc
      have hnone : ∀ q, (s'.cpu c').thread ≠ some q := by
        intro q
        rw [hthread]
        exact nofun
      refine ⟨fun q h => absurd h (hnone q), fun h => hin ?_, fun _ => hsched,
        fun q h => absurd h (hnone q)⟩
      unfold State.inside at h
      rwa [hthread] at h
    · refine (hi.each c').mono ⟨?_, fun q hq => ?_, fun q _ => hchosen.ctl q⟩ (hlock.other hc)
      · rw [hother c' hc]
        exact ⟨rfl, rfl, rfl⟩
      · exact (hchosen.state q).resolve_right fun hp => hc (hi.uniq c' c q hq hp.1)
  uniq := hi.uniq_of_other hother huniq
  running q h := by
    rcases hchosen.state q with hq | ⟨hp, -⟩
    · obtain ⟨c', hc'⟩ := hi.running q (hq ▸ h)
      by_cases hc : c' = c
      · subst hc
        exact ⟨c', hrun q hc' h⟩
      · exact ⟨c', by rw [hother c' hc, hc']⟩
    · exact ⟨c, hrun q hp h⟩
  off q hl h := by
    rw [hchosen.ctl]
    refine hi.off q (hchosen.live hl) fun c' hc' => ?_
    by_cases hc : c' = c
    · rw [hc, hth] at hc'
      cases hc'
    · exact h c' (by rw [hother c' hc, hc'])

theorem CpuInv.proc_of_scan (hi : CpuInv s) (hth : (s.cpu c).thread = none)
    (hs : (s.cpu c).sched = .idle ∨ ∃ rest, (s.cpu c).sched = .scan rest) :
    (s.cpu c).proc = none := by
  have hok := (hi.each c).sched hth
  unfold State.SchedOk at hok
  rcases hs with hs | ⟨rest, hs⟩
  · rwa [hs] at hok
  · rwa [hs] at hok

theorem Boot.cpuInv (h : Boot init s) : CpuInv s := by
  have hcpu := h.cpu
  have hnone : ∀ p, Live (s.table.slot p).state → (s.table.slot p).ctl = ⟨.unlock 0, none⟩ := by
    intro p hl
    by_cases hp : p = init
    · rw [hp, h.first]
    · exact absurd (h.unused p hp).1 hl.1
  -- Nothing runs yet, and the only process is where every new process is.
  exact
  { child := fun p q hl hc => by rw [hnone p hl] at hc; cases hc
    built := fun p q hl hc => by rw [hnone p hl] at hc; cases hc
    only := fun p p' q hl _ hc => by rw [hnone p hl] at hc; cases hc
    reap := fun p q hl hc => by rw [hnone p hl] at hc; cases hc
    yields := fun p x y hl hc => by rw [hnone p hl] at hc; cases hc
    each := fun c => by
      refine ⟨fun p hc => ?_, fun hc => ?_, fun _ => ?_, fun p hc => ?_⟩
      · rw [hcpu] at hc
        cases hc
      · unfold State.inside at hc
        rw [hcpu] at hc
        cases hc
      · unfold State.SchedOk
        rw [hcpu]
      · rw [hcpu] at hc
        cases hc
    uniq := fun c c' p hc => by rw [hcpu] at hc; cases hc
    running := fun p hp => by
      by_cases hi : p = init
      · rw [hi, h.first] at hp
        cases hp
      · rw [(h.unused p hi).1] at hp
        cases hp
    off := fun p hl _ => by rw [hnone p hl]; rfl }

section Yield

variable [DecidableEq P] {x : Loc P K}

theorem CpuInv.phase {y : Option YieldPhase} {z : YieldPhase} {l : Option C} (hi : CpuInv s)
    (hth : (s.cpu c).thread = some p) (hctl : (s.table.slot p).ctl = ⟨x, y⟩)
    (hx : x.locked = false) (hy : (⟨x, y⟩ : Ctl P K).leaving = false)
    (hz : (⟨x, some z⟩ : Ctl P K).leaving = false) (hlock : LockStep c s.lock l)
    (hin : (⟨x, some z⟩ : Ctl P K).locked = true → l = some c) :
    CpuInv ((s.setLock l).goto p ⟨x, some z⟩) :=
  hi.goto hth rfl (fun _ => ⟨rfl, rfl, rfl⟩) hlock hin
    (hi.own_of_kids hth (by rw [hctl, hy]) hz (hi.kids_phase ((hi.each c).on p hth).1 hctl hx))

theorem CpuInv.yieldState (hi : CpuInv s) (hth : (s.cpu c).thread = some p)
    (hctl : (s.table.slot p).ctl = ⟨x, some .state⟩) :
    CpuInv ((s.setTable (s.table.setState p .runnable)).goto p ⟨x, some .sched⟩) := by
  have hrun : (s.table.slot p).state = .running :=
    ((hi.each c).on p hth).2.mpr (by rw [hctl]; rfl)
  refine hi.stay hth rfl (hi.calm_of_slot hrun fun q hq => Table.set_of_ne _ hq)
    (fun _ => ⟨rfl, rfl, rfl⟩) (.inl rfl) (fun _ => hi.held hth ?_) (hi.own_yield hth hctl)
  rw [hctl]
  rfl

theorem CpuInv.yieldRelease (hi : CpuInv s) (hth : (s.cpu c).thread = some p)
    (hctl : (s.table.slot p).ctl = ⟨x, some .release⟩) (hl : s.lock = some c) :
    CpuInv ((s.setLock none).goto p ⟨x, none⟩) := by
  have hlive := ((hi.each c).on p hth).1
  have hloc : (s.table.slot p).ctl.loc = x := by rw [hctl]
  have hx := hi.yields p x _ hlive hctl
  refine hi.goto hth rfl (fun _ => ⟨rfl, rfl, rfl⟩) (.inr (.inr ⟨hl, rfl⟩)) (fun hin => ?_)
    (hi.own_of_kids hth (by rw [hctl]; rfl) ?_ (hi.kids_refl hlive (fun q hq => ?_) (fun q hq => ?_)
      (fun q hq => ?_) nofun))
  · exact absurd (hx.symm.trans hin) Bool.noConfusion
  · cases x <;> first | rfl | cases hx
  · rw [hloc]
    exact hq
  · rw [hloc]
    exact hq
  · obtain rfl : x = .waitReap q := congrArg Ctl.loc hq
    cases hx

end Yield

variable [DecidableEq C]

theorem setCpu_self (s : State C P K) (c : C) (k : Cpu P) : (s.setCpu c k).cpu c = k :=
  Function.update_self ..

theorem setCpu_of_ne (s : State C P K) (k : Cpu P) (h : c' ≠ c) :
    (s.setCpu c k).cpu c' = s.cpu c' := Function.update_of_ne h ..

/-- The usual step of a scheduler: it goes on at another place with the same process. -/
theorem CpuInv.schedule_setCpu {k : Cpu P} (hi : CpuInv s) (hth : (s.cpu c).thread = none)
    (hk : k.thread = none) (hheld : s.lock = some c) (hsched : (s.setCpu c k).SchedOk c)
    (huniq : ∀ c' p, c' ≠ c → k.proc = some p → (s.cpu c').proc ≠ some p)
    (hrun : ∀ p, (s.cpu c).proc = some p → (s.table.slot p).state = .running →
      k.proc = some p) : CpuInv (s.setCpu c k) := by
  have hself := setCpu_self s c k
  refine hi.schedule hth (.refl _ _) (fun c' hc => setCpu_of_ne s k hc)
    (by rw [hself, hk]) (.inl rfl) (fun _ => hheld) hsched (fun c' p hc hp => ?_) fun p hp hst => ?_
  · rw [hself] at hp
    exact huniq c' p hc hp
  · rw [hself]
    exact hrun p hp hst

theorem CpuInv.relock {l : Option C} {x : SchedLoc P} (hi : CpuInv s)
    (hth : (s.cpu c).thread = none) (hproc : (s.cpu c).proc = none) (hl : LockStep c s.lock l)
    (hin : x.locked = true → l = some c) (hx : x = .idle ∨ ∃ rest, x = .scan rest) :
    CpuInv ((s.setLock l).setCpu c { s.cpu c with sched := x }) := by
  have hself := setCpu_self (s.setLock l) c { s.cpu c with sched := x }
  refine hi.schedule hth (.refl _ _) (fun c' hc => setCpu_of_ne _ _ hc)
    (by rw [hself]; exact hth) hl (fun h => hin (by rwa [hself] at h)) ?_ (fun c' p hc hp => ?_)
    fun p hp _ => ?_
  · unfold State.SchedOk
    rw [hself]
    rcases hx with rfl | ⟨rest, rfl⟩
    · exact hproc
    · exact hproc
  · rw [hself] at hp
    exact absurd (hproc.symm.trans hp) (Option.some_ne_none p).symm
  · rw [hproc] at hp
    cases hp

theorem CpuInv.pick {rest : List P} (hi : CpuInv s) (hth : (s.cpu c).thread = none)
    (hs : (s.cpu c).sched = .scan (p :: rest)) (hst : (s.table.slot p).state = .runnable) :
    CpuInv (s.setCpu c { s.cpu c with proc := some p, sched := .load p rest }) := by
  have hheld := hi.held_of_sched hth (by rw [hs]; rfl)
  refine hi.schedule_setCpu hth hth hheld ?_ (fun c' q hc hq => ?_) fun q hq _ => ?_
  · unfold State.SchedOk
    rw [setCpu_self]
    exact ⟨rfl, hst⟩
  · -- A process that is `RUNNABLE` is not another processor's.
    cases hq
    intro hproc
    have hrun := (hi.settled hproc (by rw [hheld]; exact fun h => hc (Option.some.inj h).symm)).2
    rw [hst] at hrun
    cases hrun
  · rw [hi.proc_of_scan hth (.inr ⟨_, hs⟩)] at hq
    cases hq

theorem CpuInv.clear {rest : List P} (hi : CpuInv s) (hth : (s.cpu c).thread = none)
    (hs : (s.cpu c).sched = .clear rest) :
    CpuInv (s.setCpu c { s.cpu c with proc := none, sched := .scan rest }) := by
  have hok := (hi.each c).sched hth
  unfold State.SchedOk at hok
  rw [hs] at hok
  obtain ⟨p, hp, -, hst⟩ := hok
  refine hi.schedule_setCpu hth hth (hi.held_of_sched hth (by rw [hs]; rfl)) ?_
    (fun c' q hc hq => by cases hq) fun q hq hrun => ?_
  · unfold State.SchedOk
    rw [setCpu_self]
  · obtain rfl := Option.some.inj (hp.symm.trans hq)
    exact absurd hrun hst

theorem CpuInv.enter {rest : List P} (hi : CpuInv s) (hth : (s.cpu c).thread = none)
    (hs : (s.cpu c).sched = .enter p rest) :
    CpuInv (s.setCpu c { s.cpu c with
      thread := some p, stack := (s.table.slot p).kstack, sched := .back rest }) := by
  have hok := (hi.each c).sched hth
  unfold State.SchedOk at hok
  rw [hs] at hok
  obtain ⟨hproc, hst⟩ := hok
  have hl : Live (s.table.slot p).state := by
    rw [hst]
    decide
  have hres := leaving_of_resumes (hi.off p hl (hi.idle hth hproc))
  set s' := s.setCpu c { s.cpu c with
    thread := some p, stack := (s.table.slot p).kstack, sched := .back rest } with hs'
  have hother : ∀ c', c' ≠ c → s'.cpu c' = s.cpu c' := fun c' hc => setCpu_of_ne _ _ hc
  have hnew : (s'.cpu c).proc = some p ∧ (s'.cpu c).thread = some p ∧
      (s'.cpu c).sched = .back rest := by
    rw [hs', setCpu_self]
    exact ⟨hproc, rfl, rfl⟩
  refine { toFamily := hi.toFamily, each := fun c' => ?_, uniq := ?_, running := fun q h => ?_,
           off := fun q hl h => ?_ }
  · by_cases hc : c' = c
    · subst hc
      refine ⟨fun q h => ?_, fun _ => hi.held_of_sched hth (by rw [hs]; rfl), fun h => ?_,
        fun q h => ?_⟩
      · cases hnew.2.1.symm.trans h
        exact ⟨hnew.1, rest, hnew.2.2⟩
      · cases hnew.2.1.symm.trans h
      · cases hnew.2.1.symm.trans h
        exact ⟨hl, ⟨fun _ => hres.1, fun _ => hst⟩⟩
    · refine (hi.each c').mono ⟨?_, fun _ _ => rfl, fun _ _ => rfl⟩ id
      rw [hother c' hc]
      exact ⟨rfl, rfl, rfl⟩
  · refine hi.uniq_of_other hother fun c' q hc hq hq' => ?_
    cases hnew.1.symm.trans hq
    exact hc (hi.uniq c' c p hq' hproc)
  · obtain ⟨c', hc'⟩ := hi.running q h
    by_cases hc : c' = c
    · subst hc
      cases hproc.symm.trans hc'
      exact ⟨c', hnew.1⟩
    · exact ⟨c', by rw [hother c' hc, hc']⟩
  · refine hi.off q hl fun c' hc' => h c' ?_
    by_cases hc : c' = c
    · rw [hc, hth] at hc'
      cases hc'
    · rw [hother c' hc, hc']

variable [DecidableEq P]

theorem CpuInv.mark {rest : List P} (hi : CpuInv s) (hth : (s.cpu c).thread = none)
    (hs : (s.cpu c).sched = .mark p rest) :
    CpuInv ((s.setTable (s.table.setState p .running)).setCpu c
      { s.cpu c with sched := .enter p rest }) := by
  have hok := (hi.each c).sched hth
  unfold State.SchedOk at hok
  rw [hs] at hok
  obtain ⟨hproc, hst⟩ := hok
  have hself := setCpu_self (s.setTable (s.table.setState p .running)) c
    { s.cpu c with sched := .enter p rest }
  have hmark : (s.table.setState p .running).slot p = { s.table.slot p with state := .running } :=
    Table.set_self _
  have hchosen : Chosen s.table (s.table.setState p .running) (s.cpu c).proc := by
    refine ⟨fun q => ?_, fun q => ?_⟩
    · by_cases hq : q = p
      · rw [hq, hmark]
      · rw [Table.setState, Table.set_of_ne _ hq]
    · by_cases hq : q = p
      · rw [hq, hmark]
        exact .inr ⟨hproc, hst, rfl⟩
      · rw [Table.setState, Table.set_of_ne _ hq]
        exact .inl rfl
  refine hi.schedule hth hchosen (fun c' hc => setCpu_of_ne _ _ hc)
    (by rw [hself]; exact hth) (.inl rfl) (fun _ => hi.held_of_sched hth (by rw [hs]; rfl)) ?_
    (fun c' q hc hq hq' => ?_) fun q hq _ => by rwa [hself]
  · unfold State.SchedOk
    rw [hself]
    exact ⟨hproc, congrArg Slot.state hmark⟩
  · rw [hself] at hq
    exact hc (hi.uniq c' c q hq' hq)

section Instr

variable {x y : Loc P K}

theorem CpuInv.swtch (hi : CpuInv s) (hth : (s.cpu c).thread = some p)
    (hctl : (s.table.slot p).ctl = ⟨x, none⟩) (hleave : x.leaving = true)
    (hres : y.resumes = true) :
    CpuInv ((s.setCpu c { s.cpu c with thread := none, stack := none }).goto p ⟨y, none⟩) := by
  obtain ⟨hchild, hbuilt⟩ := child_of_resumes hres
  refine hi.leave hth (by rw [hctl]; exact hleave) rfl (fun c' hc => setCpu_of_ne s _ hc)
    (setCpu_self ..) rfl hres (hi.kids_refl ((hi.each c).on p hth).1 (fun q hq => ?_)
      (fun q hq => ?_) (fun q hq => ?_) nofun)
  · cases hchild.symm.trans hq
  · cases hbuilt.symm.trans hq
  · cases hq
    cases hres

theorem CpuInv.switchuvm {d : Dir} (hi : CpuInv s) (hth : (s.cpu c).thread = some p)
    (hctl : (s.table.slot p).ctl = ⟨x, none⟩) (hplain : Plain x y) (hy : y.locked = false) :
    CpuInv ((s.setCpu c { s.cpu c with cr3 := some d }).goto p ⟨y, none⟩) := by
  refine hi.goto hth rfl (fun c' => ?_) (.inl rfl) (fun hin => ?_) (hplain.own hi hth hctl)
  · by_cases hc : c' = c
    · subst hc
      show SameCpu _ ((s.setCpu c' _).cpu c')
      rw [setCpu_self]
      exact ⟨rfl, rfl, rfl⟩
    · show SameCpu _ ((s.setCpu c _).cpu c')
      rw [setCpu_of_ne s _ hc]
      exact ⟨rfl, rfl, rfl⟩
  · exact absurd (hy.symm.trans hin) Bool.noConfusion

end Instr

variable [DecidableEq K]

theorem CpuInv.move (hi : CpuInv s) (h : Move procs init c s t) : CpuInv t := by
  have hsame (c' : C) : SameCpu (s.cpu c') (s.cpu c') := ⟨rfl, rfl, rfl⟩
  have hunlocked {y : Loc P K} (hy : y.locked = false) (l : Option C) :
      (⟨y, none⟩ : Ctl P K).locked = true → l = some c :=
    fun hin => absurd (hy.symm.trans hin) Bool.noConfusion
  cases h with
  | lock hth hs hl =>
    refine hi.relock hth ?_ (.inr (.inl ⟨hl, rfl⟩)) (fun _ => rfl) (.inr ⟨procs, rfl⟩)
    exact hi.proc_of_scan hth (.inl hs)
  | unlock hth hs hl =>
    refine hi.relock hth ?_ (.inr (.inr ⟨hl, rfl⟩)) nofun (.inl rfl)
    exact hi.proc_of_scan hth (.inr ⟨[], hs⟩)
  | pick hth hs hst => exact hi.pick hth hs hst
  | @skip p rest hth hs | @load p rest d hth hs hd | @back rest hth hs =>
    have hok := (hi.each c).sched hth
    unfold State.SchedOk at hok
    rw [hs] at hok
    refine hi.schedule_setCpu hth hth (hi.held_of_sched hth (by rw [hs]; rfl)) ?_
      (fun c' q hc hq hq' => hc (hi.uniq c' c q hq' hq)) fun q hq _ => hq
    unfold State.SchedOk
    rw [setCpu_self]
    exact hok
  | mark hth hs => exact hi.mark hth hs
  | enter hth hs => exact hi.enter hth hs
  | clear hth hs => exact hi.clear hth hs
  | @tick p x hth hctl hx =>
    refine hi.phase hth hctl hx ?_ rfl (.inl rfl) nofun
    cases x <;> first | rfl | cases hx
  | @yieldAcquire p x hth hctl hl =>
    exact hi.phase hth hctl (hi.yields p x _ ((hi.each c).on p hth).1 hctl) rfl rfl
      (.inr (.inl ⟨hl, rfl⟩)) fun _ => rfl
  | yieldState hth hctl => exact hi.yieldState hth hctl
  | @yieldSched p x hth hctl =>
    have hlive := ((hi.each c).on p hth).1
    exact hi.leave hth (by rw [hctl]; rfl) rfl (fun c' hc => setCpu_of_ne s _ hc)
      (setCpu_self ..) rfl rfl (hi.kids_phase hlive hctl (hi.yields p x _ hlive hctl))
  | yieldRelease hth hctl hl => exact hi.yieldRelease hth hctl hl
  | @call p x y entry hth hctl hcode hy =>
    have hplain := leads_of_code hcode y hy
    exact hi.goto hth rfl hsame (.inl rfl) (hunlocked hplain.2 _) (hplain.1.own hi hth hctl)
  | @acquire p x y hth hctl hcode hl =>
    exact hi.goto hth rfl hsame (.inr (.inl ⟨hl, rfl⟩)) (fun _ => rfl)
      (Plain.own (leads_of_code hcode) hi hth hctl)
  | @release p x y hth hctl hcode hl =>
    obtain ⟨-, hplain⟩ := leads_of_code hcode
    exact hi.goto hth rfl hsame (.inr (.inr ⟨hl, rfl⟩)) (hunlocked hplain.2 _)
      (hplain.1.own hi hth hctl)
  | @act p x y t' hth hctl hact =>
    refine hi.stay hth rfl (hi.calm_act hth hctl hact) hsame (.inl rfl) (fun hin => ?_)
      (hi.own_act hth hctl hact)
    exact (hi.acting hth hctl hact).2.1 (hact.locked.symm.trans hin)
  | @swtch p x y hth hctl hcode =>
    obtain ⟨hleave, hres⟩ := leads_of_code hcode
    exact hi.swtch hth hctl hleave hres
  | @switchuvm p x y d hth hctl hcode hd =>
    obtain ⟨hplain, hy⟩ := leads_of_code hcode
    exact hi.switchuvm hth hctl hplain hy

end Xv6.Sched
