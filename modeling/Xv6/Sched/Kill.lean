import Xv6.Sched.Runs

namespace Xv6.Sched
open Lib
open Proc (ProcState)

variable {C P K : Type} {procs : List P} {init p : P} {c : C} {s u : State C P K}
  {t t' : Table P K} {x y : Loc P K} {a b : Slot P K} {q r : P}

structure Keep (a b : Slot P K) : Prop where
  pid : b.pid = a.pid
  uid : b.uid = a.uid
  killed : b.killed = a.killed
  unused : b.state = .unused ↔ a.state = .unused
  live : Live b.state ↔ Live a.state

theorem Keep.refl (a : Slot P K) : Keep a a := ⟨rfl, rfl, rfl, .rfl, .rfl⟩

theorem Keep.trans {d : Slot P K} (h : Keep a b) (h' : Keep b d) : Keep a d :=
  ⟨h'.pid.trans h.pid, h'.uid.trans h.uid, h'.killed.trans h.killed, h'.unused.trans h.unused,
    h'.live.trans h.live⟩

theorem keep_of_live (hpid : b.pid = a.pid) (huid : b.uid = a.uid) (hkilled : b.killed = a.killed)
    (ha : Live a.state) (hb : Live b.state) : Keep a b :=
  ⟨hpid, huid, hkilled, iff_of_false hb.1 ha.1, iff_of_true hb ha⟩

theorem slot_kill_unused (a : Slot P K) : a.kill.state = .unused ↔ a.state = .unused := by
  unfold Slot.kill
  dsimp only
  split_ifs with hs
  · simp [hs]
  · exact Iff.rfl

theorem live_kill (h : Live a.state) : Live a.kill.state := by
  unfold Slot.kill
  dsimp only
  split_ifs
  · decide
  · exact h

/-- The number of a process that comes after `n` others. -/
def pidOf (n : ℕ) : ℤ := Int.bmod (n + 1) (2 ^ 32)

theorem pidOf_succ (n : ℕ) : Int.bmod (pidOf n + 1) (2 ^ 32) = pidOf (n + 1) := by
  unfold pidOf
  rw [Int.bmod_add_bmod]
  push_cast
  rfl

theorem pidOf_inj {m n : ℕ} (hm : m < 2 ^ 32) (hn : n < 2 ^ 32) (h : pidOf m = pidOf n) :
    m = n := by
  have hmod := congrArg (· % (2 ^ 32 : ℤ)) h
  unfold pidOf at hmod
  have hb : ∀ a : ℤ, Int.bmod a (2 ^ 32) % (2 ^ 32) = a % 2 ^ 32 := fun a => Int.bmod_emod
  simp only [hb] at hmod
  omega

/-- Every process has the number that the counter had, and an entry of its own. -/
structure Ids (t : Table P K) : Prop where
  next : t.nextpid = pidOf t.born
  pid : ∀ q, (t.slot q).state ≠ .unused → (t.slot q).pid = pidOf (t.slot q).uid
  lt : ∀ q, (t.slot q).state ≠ .unused → (t.slot q).uid < t.born
  uniq : ∀ q r, (t.slot q).state ≠ .unused → (t.slot r).state ≠ .unused →
    (t.slot q).uid = (t.slot r).uid → q = r

theorem Ids.mono (h : Ids t) {r : Option P} (hborn : t.born ≤ t'.born)
    (hnext : t'.nextpid = pidOf t'.born)
    (hold : ∀ q, some q ≠ r → (t'.slot q).state ≠ .unused → (t.slot q).state ≠ .unused ∧
      (t'.slot q).pid = (t.slot q).pid ∧ (t'.slot q).uid = (t.slot q).uid)
    (hnew : ∀ q, some q = r → (t'.slot q).pid = pidOf t.born ∧ (t'.slot q).uid = t.born ∧
      t.born < t'.born) : Ids t' := by
  have hlt : ∀ q, some q ≠ r → (t'.slot q).state ≠ .unused → (t'.slot q).uid < t.born := by
    intro q hq hused
    obtain ⟨hused, -, huid⟩ := hold q hq hused
    rw [huid]
    exact h.lt q hused
  refine ⟨hnext, fun q hused => ?_, fun q hused => ?_, fun q q' hused hused' heq => ?_⟩
  · by_cases hq : some q = r
    · obtain ⟨hpid, huid, -⟩ := hnew q hq
      rw [hpid, huid]
    · obtain ⟨hused, hpid, huid⟩ := hold q hq hused
      rw [hpid, huid]
      exact h.pid q hused
  · by_cases hq : some q = r
    · obtain ⟨-, huid, hb⟩ := hnew q hq
      omega
    · exact Nat.lt_of_lt_of_le (hlt q hq hused) hborn
  · by_cases hq : some q = r
    · by_cases hq' : some q' = r
      · exact Option.some.inj (hq.trans hq'.symm)
      · have huid := (hnew q hq).2.1
        have hlt' := hlt q' hq' hused'
        omega
    · by_cases hq' : some q' = r
      · have huid := (hnew q' hq').2.1
        have hlt' := hlt q hq hused
        omega
      · obtain ⟨hused, -, huid⟩ := hold q hq hused
        obtain ⟨hused', -, huid'⟩ := hold q' hq' hused'
        exact h.uniq q q' hused hused' (huid.symm.trans (heq.trans huid'))

theorem Ids.keep (h : Ids t) (hkeep : ∀ q, Keep (t.slot q) (t'.slot q)) (hborn : t'.born = t.born)
    (hnext : t'.nextpid = t.nextpid) : Ids t' := by
  refine h.mono (r := none) (Nat.le_of_eq hborn.symm) ?_ (fun q _ hused => ?_) (fun q hq => ?_)
  · rw [hnext, hborn]
    exact h.next
  · exact ⟨mt (hkeep q).unused.mpr hused, (hkeep q).pid, (hkeep q).uid⟩
  · cases hq

/-- The process number that the processor looks for in the loop of `kill`. -/
def State.killing (s : State C P K) (c : C) : Option ℤ :=
  match (s.cpu c).thread with
  | none => none
  | some p => match (s.table.slot p).ctl with
    | ⟨.killLoop pid, none⟩ => some pid
    | _ => none

/-- `kill` does not meet an entry that is free or not yet a process. -/
def NoStray (s : State C P K) (a : Label C P K) : Prop :=
  ∀ pid ∈ s.killing a.cpu, ∀ q, (s.table.slot q).pid = pid → Live (s.table.slot q).state

theorem thread_of_killing {pid : ℤ} (h : s.killing c = some pid) :
    ∃ p, (s.cpu c).thread = some p ∧ (s.table.slot p).ctl = ⟨.killLoop pid, none⟩ := by
  unfold State.killing at h
  split at h
  · cases h
  · next p hp =>
    split at h
    · next pid' hctl =>
      cases h
      exact ⟨p, hp, hctl⟩
    · cases h

/-- No entry is marked before it has a process. -/
def Clean (t : Table P K) : Prop :=
  ∀ q, ¬ Live (t.slot q).state → (t.slot q).killed = false

theorem Clean.keep (h : Clean t) (hkeep : ∀ q, Keep (t.slot q) (t'.slot q)) : Clean t' := by
  intro q hq
  rw [(hkeep q).killed]
  exact h q (mt (hkeep q).live.mpr hq)

/-- The entries that have never been in use are zero. -/
def Zeroed (init : P) (s : State C P K) : Prop :=
  ∀ q, q ≠ init → (s.table.slot q).pid = 0 ∧ (s.table.slot q).killed = false

theorem Boot.ids (h : Boot init s) : Ids s.table := by
  have hinit : ∀ q, (s.table.slot q).state ≠ .unused → q = init := by
    intro q hq
    by_contra hne
    exact hq (h.unused q hne).1
  refine ⟨?_, fun q hq => ?_, fun q hq => ?_, fun q r hq hr _ => ?_⟩
  · rw [h.nextpid, h.born]
    decide
  · rw [hinit q hq, h.first]
    show (1 : ℤ) = pidOf 0
    decide
  · rw [hinit q hq, h.first, h.born]
    exact Nat.zero_lt_one
  · rw [hinit q hq, hinit r hr]

theorem Boot.clean (h : Boot init s) (hz : Zeroed init s) : Clean s.table := by
  intro q hq
  by_cases hinit : q = init
  · rw [hinit, h.first]
  · exact (hz q hinit).2

/-- What an action at `x` does to the entry of `q`. -/
inductive IdStep (t : Table P K) (x : Loc P K) (q : P) (a b : Slot P K) : Prop where
  | keep : Keep a b → IdStep t x q a b
  | alloc : x = .forkScan → a.state = .unused → b.state = .embryo → b.pid = t.nextpid →
      b.uid = t.born → b.killed = a.killed → IdStep t x q a b
  | ready : x.child = some q → b.state = .runnable → b.pid = a.pid → b.uid = a.uid →
      b.killed = a.killed → IdStep t x q a b
  /-- A `fork` that fails. -/
  | gone : x.child = some q → b.state = .unused → b.killed = a.killed → IdStep t x q a b
  | reap : b.state = .unused → b.killed = false → IdStep t x q a b
  | kill : x = .killLoop a.pid → b = a.kill → IdStep t x q a b

theorem IdStep.used (h : IdStep t x q a b) (hx : x ≠ .forkScan)
    (hchild : x.child = some q → a.state = .embryo) (hb : b.state ≠ .unused) :
    a.state ≠ .unused ∧ b.pid = a.pid ∧ b.uid = a.uid := by
  cases h with
  | keep h => exact ⟨mt h.unused.mpr hb, h.pid, h.uid⟩
  | alloc hx' => exact absurd hx' hx
  | ready hc hst hpid huid =>
    refine ⟨?_, hpid, huid⟩
    rw [hchild hc]
    exact nofun
  | gone hc hst | reap hst => exact absurd hst hb
  | kill hx' hkill =>
    subst hkill
    exact ⟨mt (slot_kill_unused a).mpr hb, rfl, rfl⟩

variable [DecidableEq P]

namespace Table

theorem kill_result (pid : ℤ) (l : List P) (t : Table P K) :
    (t.kill pid l).2 = 0 ↔ ∃ q ∈ l, (t.slot q).pid = pid := by
  induction l with
  | nil => simp [kill]
  | cons r l ih =>
    rw [kill]
    split_ifs with hr
    · exact iff_of_true rfl ⟨r, List.mem_cons_self, hr⟩
    · rw [ih]
      simp [hr]

theorem kill_changes (pid : ℤ) (l : List P) (t : Table P K) (q : P) :
    (t.kill pid l).1.slot q = t.slot q ∨
      (t.slot q).pid = pid ∧ (t.kill pid l).1.slot q = (t.slot q).kill := by
  induction l with
  | nil => exact .inl rfl
  | cons r l ih =>
    rw [kill]
    split_ifs with hr
    · by_cases hq : q = r
      · subst hq
        exact .inr ⟨hr, set_self _⟩
      · exact .inl (set_of_ne _ hq)
    · exact ih

end Table

theorem keep_set (h : Keep (t.slot r) b) : Keep (t.slot q) ((t.set r b).slot q) := by
  by_cases hq : q = r
  · subst hq
    rw [Table.set_self]
    exact h
  · rw [Table.set_of_ne _ hq]
    exact .refl _

theorem keep_setState {st : ProcState} (hr : Live (t.slot r).state) (hst : Live st) (q : P) :
    Keep (t.slot q) ((t.setState r st).slot q) :=
  keep_set (keep_of_live rfl rfl rfl hr hst)

theorem keep_setCtl (t : Table P K) (p : P) (b : Ctl P K) (q : P) :
    Keep (t.slot q) ((t.setCtl p b).slot q) :=
  keep_set ⟨rfl, rfl, rfl, .rfl, .rfl⟩

theorem idStep_set (h : IdStep t x r (t.slot r) b) :
    IdStep t x q (t.slot q) ((t.set r b).slot q) := by
  by_cases hq : q = r
  · subst hq
    rw [Table.set_self]
    exact h
  · rw [Table.set_of_ne _ hq]
    exact .keep (.refl _)

variable [DecidableEq K]

theorem keep_wakeup1 (ch : Chan P K) (l : List P) (t : Table P K) (q : P) :
    Keep (t.slot q) ((t.wakeup1 ch l).slot q) := by
  rcases Table.wakeup1_slot ch l t q with h | ⟨hs, -, h⟩
  · rw [h]
    exact .refl _
  · rw [h]
    refine keep_of_live (a := t.slot q) rfl rfl rfl ?_ (show Live .runnable by decide)
    rw [hs]
    decide

theorem keep_reparent (r q : P) : Keep (t.slot q) ((t.reparent procs init p r).slot q) := by
  have hparent : Keep (t.slot q) ((t.setParent r (some init)).slot q) :=
    keep_set ⟨rfl, rfl, rfl, .rfl, .rfl⟩
  unfold Table.reparent
  dsimp only
  split_ifs
  · exact hparent.trans (keep_wakeup1 ..)
  · exact hparent
  · exact .refl _

theorem Act.idStep (h : Act procs init p t x t' y) (hp : Live (t.slot p).state) (q : P) :
    IdStep t x q (t.slot q) (t'.slot q) := by
  have hsame : ∀ {r : P} {b : Slot P K}, b.pid = (t.slot r).pid → b.uid = (t.slot r).uid →
      b.killed = (t.slot r).killed → b.state = (t.slot r).state →
      IdStep t x r (t.slot r) b := by
    intro r b hpid huid hkilled hstate
    refine .keep ⟨hpid, huid, hkilled, ?_, ?_⟩ <;> rw [hstate]
  cases h with
  | wakeup k | exitWake r hr => exact .keep (keep_wakeup1 ..)
  | kill pid =>
    rcases Table.kill_changes pid procs t q with h | ⟨hpid, h⟩
    · rw [h]
      exact .keep (.refl _)
    · exact .kill (by rw [hpid]) h
  | sleepChan ch | tidyWait r | tidy k | stack r | dir r | father r | exec | noExec | execSet d =>
    exact idStep_set (hsame rfl rfl rfl rfl)
  | sleepState ch | zombie => exact .keep (keep_setState hp (by decide) q)
  | alloc r hr => exact idStep_set (.alloc rfl hr rfl rfl rfl rfl)
  | noStack r => exact idStep_set (.gone rfl rfl rfl)
  | noDir r =>
    by_cases hq : q = r
    · subst hq
      rw [Table.set_self]
      exact .gone rfl rfl rfl
    · rw [Table.set_of_ne _ hq]
      exact .keep (.refl _)
  | ready r => exact idStep_set (.ready rfl rfl rfl rfl rfl)
  | reparent r rest => exact .keep (keep_reparent r q)
  | reap r => exact idStep_set (.reap rfl rfl)
  | _ => exact .keep (.refl _)

variable [DecidableEq C]

theorem CpuInv.keep_or_act (hi : CpuInv s) (h : Move procs init c s u) :
    (∀ q, Keep (s.table.slot q) (u.table.slot q)) ∧ u.table.born = s.table.born ∧
        u.table.nextpid = s.table.nextpid ∨
      ∃ p x y t, (s.cpu c).thread = some p ∧ (s.table.slot p).ctl = ⟨x, none⟩ ∧
        Act procs init p s.table x t y ∧ u = (s.setTable t).goto p ⟨y, none⟩ := by
  have hgoto : ∀ p b, (∀ q, Keep (s.table.slot q) ((s.table.setCtl p b).slot q)) ∧
      s.table.born = s.table.born ∧ s.table.nextpid = s.table.nextpid :=
    fun p b => ⟨keep_setCtl s.table p b, rfl, rfl⟩
  have hstay : (∀ q, Keep (s.table.slot q) (s.table.slot q)) ∧
      s.table.born = s.table.born ∧ s.table.nextpid = s.table.nextpid :=
    ⟨fun q => .refl _, rfl, rfl⟩
  cases h with
  | act hth hctl hact => exact .inr ⟨_, _, _, _, hth, hctl, hact, rfl⟩
  | @mark p rest hth hsched =>
    -- The scheduler has found the process runnable and holds the lock since.
    have hok := (hi.each c).sched hth
    unfold State.SchedOk at hok
    rw [hsched] at hok
    refine .inl ⟨keep_setState ?_ (by decide), rfl, rfl⟩
    rw [hok.2]
    decide
  | @yieldState p x hth hctl =>
    have hlive := ((hi.each c).on p hth).1
    refine .inl ⟨fun q => ?_, rfl, rfl⟩
    exact (keep_setState hlive (by decide) q).trans (keep_setCtl ..)
  | tick | yieldAcquire | yieldSched | yieldRelease | call | acquire | release | swtch
  | switchuvm => exact .inl (hgoto _ _)
  | _ => exact .inl hstay

theorem Act.books (h : Act procs init p t x t' y) (hx : x ≠ .forkScan) :
    t'.born = t.born ∧ t'.nextpid = t.nextpid := by
  cases h with
  | wakeup k | exitWake r hr =>
    exact ⟨(Table.wakeup1_books ..).born, (Table.wakeup1_books ..).nextpid⟩
  | kill pid => exact ⟨(Table.kill_books ..).born, (Table.kill_books ..).nextpid⟩
  | reparent r rest => exact ⟨(Table.reparent_books ..).born, (Table.reparent_books ..).nextpid⟩
  | alloc | full => exact absurd rfl hx
  | _ => exact ⟨rfl, rfl⟩

theorem Act.ids (h : Act procs init p t x t' y) (hp : Live (t.slot p).state)
    (hchild : ∀ q, x.child = some q → (t.slot q).state = .embryo) (ht : Ids t) : Ids t' := by
  have hstep := h.idStep hp
  by_cases hx : x = .forkScan
  · subst hx
    cases h with
    | full => exact ht
    | alloc r hr =>
      refine ht.mono (r := some r) (Nat.le_succ _) ?_ (fun q hq hused => ?_) fun q hq => ?_
      · show Int.bmod (t.nextpid + 1) (2 ^ 32) = _
        rw [ht.next]
        exact pidOf_succ _
      · have hslot : (t.alloc r).slot q = t.slot q := Table.set_of_ne _ (fun he => hq (he ▸ rfl))
        rw [hslot] at hused ⊢
        exact ⟨hused, rfl, rfl⟩
      · obtain rfl := Option.some.inj hq
        have hslot : (t.alloc q).slot q = _ := Table.set_self _
        rw [hslot]
        exact ⟨ht.next, rfl, Nat.lt_succ_self _⟩
  · obtain ⟨hborn, hnext⟩ := h.books hx
    refine ht.mono (r := none) (Nat.le_of_eq hborn.symm) ?_ (fun q _ hused => ?_) (fun q hq => ?_)
    · rw [hnext, hborn]
      exact ht.next
    · exact (hstep q).used hx (hchild q) hused
    · cases hq

theorem CpuInv.ids_move (hi : CpuInv s) (h : Move procs init c s u) (ht : Ids s.table) :
    Ids u.table := by
  rcases hi.keep_or_act h with ⟨hkeep, hborn, hnext⟩ | ⟨p, x, y, t, hth, hctl, hact, rfl⟩
  · exact ht.keep hkeep hborn hnext
  · have hids := hact.ids ((hi.each c).on p hth).1 (hi.acting hth hctl hact).2.2.1 ht
    exact hids.keep (keep_setCtl t p _) rfl rfl

theorem Act.clean (h : Act procs init p t x t' y) (hp : Live (t.slot p).state)
    (hchild : ∀ q, x.child = some q → (t.slot q).state = .embryo)
    (hkill : ∀ pid q, x = .killLoop pid → (t.slot q).pid = pid → Live (t.slot q).state)
    (ht : Clean t) : Clean t' := by
  intro q hq
  cases h.idStep hp q with
  | keep hkeep =>
    rw [hkeep.killed]
    exact ht q (mt hkeep.live.mpr hq)
  | alloc _ hunused _ _ _ hkilled =>
    rw [hkilled]
    exact ht q fun hlive => hlive.1 hunused
  | ready _ hst =>
    rw [hst] at hq
    exact absurd (by decide) hq
  | gone hc _ hkilled =>
    rw [hkilled]
    exact ht q fun hlive => hlive.2 (hchild q hc)
  | reap _ hkilled => exact hkilled
  | kill hx hb =>
    rw [hb] at hq
    exact absurd (live_kill (hkill _ q hx rfl)) hq

theorem CpuInv.clean_move {a : Label C P K} (hi : CpuInv s) (h : Move procs init a.cpu s u)
    (hC : NoStray s a) (ht : Clean s.table) : Clean u.table := by
  rcases hi.keep_or_act h with ⟨hkeep, -, -⟩ | ⟨p, x, y, t, hth, hctl, hact, rfl⟩
  · exact ht.keep hkeep
  · have hclean : Clean t := by
      refine hact.clean ((hi.each _).on p hth).1 (hi.acting hth hctl hact).2.2.1 (fun pid q hx hq => ?_) ht
      refine hC pid ?_ q hq
      unfold State.killing
      rw [hth]
      dsimp only
      rw [hctl, hx]
      rfl
    exact hclean.keep (keep_setCtl t p _)

theorem Boot.marks (h : Boot init s) (hz : Zeroed init s)
    (hrun : Steps (step procs init) NoStray s u) : CpuInv u ∧ Ids u.table ∧ Clean u.table := by
  refine hrun.inv (I := fun s => CpuInv s ∧ Ids s.table ∧ Clean s.table) ?_
    ⟨h.cpuInv, h.ids, h.clean hz⟩
  intro s a t hs hC hstep
  have hmove := move_of_step hstep
  exact ⟨hs.1.move hmove, hs.1.ids_move hmove hs.2.1, hs.1.clean_move hmove hC hs.2.2⟩

theorem step_act {f : Bool → Table P K → Table P K × Loc P K} (ok : Bool)
    (hth : (s.cpu c).thread = some p) (hctl : (s.table.slot p).ctl = ⟨x, none⟩)
    (hcode : code procs init p x = .act f) :
    step procs init (.go c ok) s =
      some ((s.setTable (f ok s.table).1).goto p ⟨(f ok s.table).2, none⟩) := by
  unfold step
  simp only [hth, hctl, hcode, instrStep]

/-- As long as `kill` meets no entry that is free or not yet a process, no two processes have the
same number, `kill` succeeds just when there is a process with the number and touches no other, and
no child starts with `killed` set. -/
theorem kill_finds_live {t : State C P K} (hprocs : ∀ q, q ∈ procs) (hs : Boot init s)
    (hzero : Zeroed init s) (h : Steps (step procs init) NoStray s t)
    (hforks : t.table.born ≤ 2 ^ 31) :
    (∀ q r, (t.table.slot q).state ≠ .unused → (t.table.slot r).state ≠ .unused →
      (t.table.slot q).pid = (t.table.slot r).pid → q = r) ∧
    (∀ c ok pid u, t.killing c = some pid → NoStray t (.go c ok) →
      step procs init (.go c ok) t = some u →
      ∃ p r, (t.cpu c).thread = some p ∧ (u.table.slot p).ctl = ⟨.unlock r, none⟩ ∧
        (r = 0 ↔ ∃ q, (t.table.slot q).state ≠ .unused ∧ (t.table.slot q).pid = pid) ∧
        ∀ q, { u.table.slot q with ctl := (t.table.slot q).ctl } ≠ t.table.slot q →
          (t.table.slot q).state ≠ .unused ∧ (t.table.slot q).pid = pid) ∧
    ∀ c ok p q u, (t.cpu c).thread = some p → (t.table.slot p).ctl = ⟨.forkReady q, none⟩ →
      step procs init (.go c ok) t = some u →
      (u.table.slot q).state = .runnable ∧ (u.table.slot q).killed = false := by
  obtain ⟨hi, hids, hclean⟩ := hs.marks hzero h
  refine ⟨fun q r hq hr hpid => ?_, fun c ok pid u hkill hC hstep => ?_,
    fun c ok p q u hth hctl hstep => ?_⟩
  · rw [hids.pid q hq, hids.pid r hr] at hpid
    have hltq := hids.lt q hq
    have hltr := hids.lt r hr
    exact hids.uniq q r hq hr (pidOf_inj (by omega) (by omega) hpid)
  · obtain ⟨p, hth, hctl⟩ := thread_of_killing hkill
    have hfound : ∀ q, (t.table.slot q).pid = pid → (t.table.slot q).state ≠ .unused :=
      fun q hq => (hC pid hkill q hq).1
    rw [step_act ok hth hctl rfl] at hstep
    cases hstep
    refine ⟨p, (t.table.kill pid procs).2, hth, ?_, ?_, fun q hne => ?_⟩
    · exact congrArg Slot.ctl (Table.set_self _)
    · rw [Table.kill_result]
      constructor
      · rintro ⟨q, -, hq⟩
        exact ⟨q, hfound q hq, hq⟩
      · rintro ⟨q, -, hq⟩
        exact ⟨q, hprocs q, hq⟩
    · rcases Table.kill_changes pid procs t.table q with hsame | ⟨hpid, -⟩
      · -- Only the place of the caller has changed.
        refine absurd ?_ hne
        by_cases hq : q = p
        · subst hq
          have hself : (((t.table.kill pid procs).1).setCtl q
              ⟨.unlock (t.table.kill pid procs).2, none⟩).slot q = _ := Table.set_self _
          show ({ (((t.table.kill pid procs).1).setCtl q _).slot q with
            ctl := (t.table.slot q).ctl } : Slot P K) = _
          rw [hself, hsame]
        · have hother : (((t.table.kill pid procs).1).setCtl p
              ⟨.unlock (t.table.kill pid procs).2, none⟩).slot q = _ := Table.set_of_ne _ hq
          show ({ (((t.table.kill pid procs).1).setCtl p _).slot q with
            ctl := (t.table.slot q).ctl } : Slot P K) = _
          rw [hother, hsame]
      · exact ⟨hfound q hpid, hpid⟩
  · have hchild : (t.table.slot q).state = .embryo := by
      apply hi.child p q ((hi.each c).on p hth).1
      rw [hctl]
      rfl
    rw [step_act ok hth hctl rfl] at hstep
    cases hstep
    have hready : (t.table.setState q .runnable).slot q =
        { t.table.slot q with state := .runnable } := Table.set_self _
    constructor
    · refine (setCtl_state (t.table.setState q .runnable) p q _).trans ?_
      rw [hready]
    · refine (keep_setCtl (t.table.setState q .runnable) p _ q).killed.trans ?_
      rw [hready]
      exact hclean q fun hlive => hlive.2 hchild

def bootTwo : State Unit Bool Unit where
  table :=
    { slot := fun first => if first then
          ⟨.runnable, 1, none, none, false, some 0, some (0, 0), ⟨.unlock 0, none⟩, 0, 1⟩
        else ⟨.unused, 0, none, none, false, none, none, ⟨.run 0, none⟩, 0, 0⟩
      nextpid := 2, born := 1, freedStacks := [], freedDirs := [], forked := [] }
  lock := none
  cpu := fun _ => ⟨none, none, none, none, .idle⟩

theorem boot_bootTwo : Boot true bootTwo where
  first := rfl
  unused := by
    intro q hq
    cases q with
    | true => exact absurd rfl hq
    | false => exact ⟨rfl, rfl⟩
  nextpid := rfl
  born := rfl
  nothing := ⟨rfl, rfl, rfl⟩
  lock := rfl
  cpu _ := rfl

theorem zeroed_bootTwo : Zeroed true bootTwo := by
  intro q hq
  cases q with
  | true => exact absurd rfl hq
  | false => exact ⟨rfl, rfl⟩

def killRun (pid : ℤ) : List (Label Unit Bool Unit) :=
  List.replicate 6 (.go () true) ++ [.call () (.kill pid), .go () true]

def forkRun : List (Label Unit Bool Unit) :=
  List.replicate 2 (.go () true) ++ .call () .fork :: List.replicate 8 (.go () true)

/-- `kill(0)` succeeds although no process has the number 0, and the child of the next `fork` starts
with `killed` set. -/
theorem kill_zero_marks_next_child : Boot true bootTwo ∧ Zeroed true bootTwo ∧
    ∃ t u : State Unit Bool Unit, Runs (step [true, false] true) bootTwo t ∧ t.killing () = some 0 ∧
      (∀ q, (t.table.slot q).state ≠ .unused → (t.table.slot q).pid ≠ 0) ∧
      (t.table.kill 0 [true, false]).2 = 0 ∧
    Runs (step [true, false] true) t u ∧ u.table.born = 2 ∧ u.table.forked = [1] ∧
      (u.table.slot false).state = .runnable ∧ (u.table.slot false).killed = true := by
  let last : State Unit Bool Unit → Bool := fun u => decide (u.table.born = 2 ∧
    u.table.forked = [1] ∧ (u.table.slot false).state = .runnable ∧
      (u.table.slot false).killed = true)
  let test : State Unit Bool Unit → Bool := fun t => decide (t.killing () = some 0 ∧
    (∀ q, (t.table.slot q).state ≠ .unused → (t.table.slot q).pid ≠ 0) ∧
      (t.table.kill 0 [true, false]).2 = 0) &&
    (execute (step [true, false] true) forkRun t).any last
  have hrun : (execute (step [true, false] true) (killRun 0) bootTwo).any test = true := by decide
  obtain ⟨t, ht, htest⟩ := exists_of_execute hrun
  obtain ⟨hkill, hfork⟩ := (Bool.and_eq_true _ _).mp htest
  obtain ⟨u, hu, hlast⟩ := exists_of_execute hfork
  obtain ⟨h0, hno, hret⟩ := of_decide_eq_true hkill
  exact ⟨boot_bootTwo, zeroed_bootTwo, t, u, ht, h0, hno, hret, hu, of_decide_eq_true hlast⟩

/-- The first process kills itself: its number is found, and that entry only can change. -/
theorem kill_finds_live_self : ∃ t : State Unit Bool Unit,
    Steps (step [true, false] true) NoStray bootTwo t ∧ t.killing () = some 1 ∧
      ∀ u, step [true, false] true (.go () true) t = some u →
        ∃ p r, (t.cpu ()).thread = some p ∧ (u.table.slot p).ctl = ⟨.unlock r, none⟩ ∧
          (r = 0 ↔ ∃ q, (t.table.slot q).state ≠ .unused ∧ (t.table.slot q).pid = 1) ∧
          ∀ q, { u.table.slot q with ctl := (t.table.slot q).ctl } ≠ t.table.slot q →
            (t.table.slot q).state ≠ .unused ∧ (t.table.slot q).pid = 1 := by
  let test : State Unit Bool Unit → Label Unit Bool Unit → Bool := fun s a =>
    decide (∀ pid ∈ s.killing a.cpu, ∀ q, (s.table.slot q).pid = pid → Live (s.table.slot q).state)
  let last : State Unit Bool Unit → Bool := fun t =>
    decide (t.killing () = some 1 ∧ t.table.born ≤ 2 ^ 31) && test t (.go () true)
  have hrun : (executeIf (step [true, false] true) test (killRun 1) bootTwo).any last = true := by
    decide
  have htest : ∀ s a, test s a = true → NoStray s a := by
    intro s a h
    unfold NoStray
    exact of_decide_eq_true h
  obtain ⟨t, ht, hlast⟩ := exists_of_executeIf htest hrun
  obtain ⟨hkill, hC⟩ := (Bool.and_eq_true _ _).mp hlast
  obtain ⟨h1, hborn⟩ := of_decide_eq_true hkill
  refine ⟨t, ht, h1, fun u hu => ?_⟩
  exact (kill_finds_live (by decide) boot_bootTwo zeroed_bootTwo ht hborn).2.1
    () true 1 u h1 (htest t _ hC) hu

end Xv6.Sched
