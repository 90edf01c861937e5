import Xv6.Sched.Kill

namespace Xv6.Sched
open Lib Function

section Exclusion

variable {C P K : Type} [DecidableEq P] [DecidableEq K] {procs : List P} {init : P}
  {s t : State C P K} {c : C}

/-- The processor is about to call `release(&ptable.lock)`, in its scheduler, in `yield` or in
another function of the process. -/
def State.releasing (procs : List P) (init : P) (s : State C P K) (c : C) : Prop :=
  match (s.cpu c).thread with
  | none => (s.cpu c).sched = .scan []
  | some p => match (s.table.slot p).ctl with
    | ⟨_, some y⟩ => y = .release
    | ⟨x, none⟩ => ∃ y, code procs init p x = .release y

theorem inside_of_releasing (h : s.releasing procs init c) : s.inside c = true := by
  unfold State.releasing at h
  unfold State.inside
  cases hth : (s.cpu c).thread with
  | none =>
    rw [hth] at h
    exact congrArg SchedLoc.locked h
  | some p =>
    rw [hth] at h
    dsimp only at h ⊢
    generalize (s.table.slot p).ctl = a at h ⊢
    obtain ⟨x, y⟩ := a
    cases y with
    | none =>
      obtain ⟨y, hcode⟩ := h
      exact (leads_of_code hcode).1
    | some y =>
      obtain rfl : y = .release := h
      rfl

variable [DecidableEq C]

theorem Boot.cpuInv_run (hs : Boot init s) (h : Runs (step procs init) s t) : CpuInv t :=
  h.inv (fun _ _ _ hi _ hstep => hi.move (move_of_step hstep)) hs.cpuInv

/-- No process is on two processors, one processor at a time is inside `ptable.lock`, and when none
is, just the processes that run are `RUNNING`.  `sched` finds the lock held and the state of the
process changed, and `release` finds the lock held, so that neither panics. -/
theorem scheduling_exclusive (hs : Boot init s) (h : Runs (step procs init) s t) :
    (∀ c c' p, (t.cpu c).proc = some p → (t.cpu c').proc = some p → c = c') ∧
    (∀ c, t.inside c = true → t.lock = some c) ∧
    (∀ c c', t.inside c = true → t.inside c' = true → c = c') ∧
    (t.lock = none → ∀ p, (t.table.slot p).state = .running ↔ ∃ c, (t.cpu c).thread = some p) ∧
    (∀ c p, (t.cpu c).thread = some p → (t.table.slot p).ctl.leaving = true →
      t.lock = some c ∧ (t.table.slot p).state ≠ .running) ∧
    ∀ c, t.releasing procs init c → t.lock = some c := by
  have hi := hs.cpuInv_run h
  refine ⟨hi.uniq, fun c => (hi.each c).lock, fun c c' hc hc' => ?_,
    fun hfree p => ⟨fun hrun => ?_, ?_⟩, fun c p hth hleave => ⟨?_, fun hrun => ?_⟩,
    fun c hc => (hi.each c).lock (inside_of_releasing hc)⟩
  · exact Option.some.inj (((hi.each c).lock hc).symm.trans ((hi.each c').lock hc'))
  · obtain ⟨c, hc⟩ := hi.running p hrun
    exact ⟨c, (hi.settled hc (by simp [hfree])).1⟩
  · rintro ⟨c, hc⟩
    exact (hi.settled ((hi.each c).cur p hc).1 (by simp [hfree])).2
  · exact hi.held hth (CpuInv.locked_of_leaving hleave)
  · rw [((hi.each c).on p hth).2.mp hrun] at hleave
    cases hleave

end Exclusion

def bootPair : State Bool Bool Unit := ⟨bootTwo.table, none, fun _ => ⟨none, none, none, none, .idle⟩⟩

theorem boot_bootPair : Boot true bootPair :=
  { boot_bootTwo with lock := rfl, cpu := fun _ => rfl }

/-- The first process has forked and goes on, and a timer interrupt makes it call `yield`; on the
other processor its child starts with the lock that the scheduler there has taken. -/
theorem scheduling_exclusive_child : ∃ t : State Bool Bool Unit,
    Runs (step [true, false] true) bootPair t ∧ (t.cpu true).thread = some true ∧
      (t.table.slot true).ctl = ⟨.run 2, some .acquire⟩ ∧ (t.cpu false).thread = some false ∧
      t.releasing [true, false] true false ∧ t.lock = some false ∧ t.inside true = false := by
  let test : State Bool Bool Unit → Bool := fun t => decide ((t.cpu true).thread = some true ∧
    (t.table.slot true).ctl = ⟨.run 2, some .acquire⟩ ∧ (t.cpu false).thread = some false ∧
      (t.table.slot false).ctl = ⟨.unlock 0, none⟩)
  have hrun : (execute (step [true, false] true) (List.replicate 6 (.go true true) ++
      .call true .fork :: List.replicate 9 (.go true true) ++ List.replicate 6 (.go false true) ++
        [.tick true]) bootPair).any test = true := by decide
  obtain ⟨t, ht, htest⟩ := exists_of_execute hrun
  obtain ⟨hfirst, hctl, hchild, hnew⟩ := of_decide_eq_true htest
  obtain ⟨-, hin, hone, -, -, hrel⟩ := scheduling_exclusive boot_bootPair ht
  have hreleasing : t.releasing [true, false] true false := by
    unfold State.releasing
    rw [hchild]
    dsimp only
    rw [hnew]
    exact ⟨_, rfl⟩
  refine ⟨t, ht, hfirst, hctl, hchild, hreleasing, hrel false hreleasing, ?_⟩
  cases hbusy : t.inside true with
  | false => rfl
  | true => exact absurd (hone true false hbusy (inside_of_releasing hreleasing)) Bool.noConfusion

end Xv6.Sched
