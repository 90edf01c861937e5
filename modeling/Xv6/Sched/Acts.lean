import Xv6.Sched.Moves

namespace Xv6.Sched
open Lib
open Proc (ProcState)

variable {P K : Type} {procs : List P} {init p : P} {t t' : Table P K} {x y : Loc P K}

/-- The stack, the directory and the place are the same. -/
structure Same (a b : Slot P K) : Prop where
  kstack : b.kstack = a.kstack
  pgdir : b.pgdir = a.pgdir
  ctl : b.ctl = a.ctl
  uid : b.uid = a.uid
  dirs : b.dirs = a.dirs

theorem Same.refl (a : Slot P K) : Same a a := ⟨rfl, rfl, rfl, rfl, rfl⟩

/-- What an action of `p` that leads from `x` to `y` does to the entry of `q`. -/
inductive Change (p : P) (x y : Loc P K) (q : P) (a b : Slot P K) : Prop where
  | quiet : b.state = a.state → Same a b → Change p x y q a b
  | woken : x.locked = true → a.state = .sleeping → b.state = .runnable → Same a b →
      Change p x y q a b
  /-- The process itself goes to sleep or exits. -/
  | leave : q = p → y.leaving = true → b.state = .sleeping ∨ b.state = .zombie → Same a b →
      Change p x y q a b
  | exec : q = p → y.leaving = false → b.state = a.state → b.kstack = a.kstack → b.ctl = a.ctl →
      b.uid = a.uid → Change p x y q a b
  | alloc : x = .forkScan → y = .forkUnlock q → a.state = .unused → b.state = .embryo →
      Change p x y q a b
  | build : x.child = some q → y.child = some q → b.state = a.state → b.uid = a.uid →
      Change p x y q a b
  | ready : x = .forkReady q → b.state = .runnable → Same a b → Change p x y q a b
  /-- A `fork` that fails, or a `wait` that finds the process. -/
  | gone : x.child = some q ∨ x = .waitReap q → b.state = .unused → Change p x y q a b

theorem Change.refl {q : P} (a : Slot P K) : Change p x y q a a :=
  .quiet rfl (Same.refl a)

/-- Only a process that is woken up, made or reaped, or that leaves itself, does not stay. -/
theorem Change.kept {q : P} {a b : Slot P K} (h : Change p x y q a b)
    (hself : q = p → y.leaving = false) (hwoken : x.locked = true → a.state ≠ .sleeping)
    (hfree : a.state ≠ .unused) (hchild : x.child ≠ some q) (hreap : x ≠ .waitReap q) :
    b.state = a.state ∧ b.ctl = a.ctl := by
  cases h with
  | quiet hs hsame => exact ⟨hs, hsame.ctl⟩
  | woken hx hs => exact absurd hs (hwoken hx)
  | leave heq hy =>
    rw [hself heq] at hy
    cases hy
  | exec heq hy hs hk hctl => exact ⟨hs, hctl⟩
  | alloc hx hy hs => exact absurd hs hfree
  | build hx => exact absurd hx hchild
  | ready hx =>
    subst hx
    exact absurd rfl hchild
  | gone hx => exact absurd hx (not_or.mpr ⟨hchild, hreap⟩)

/-- The process is woken up, or not even that. -/
structure Wakes (a b : Slot P K) : Prop extends Same a b where
  state : b.state = a.state ∨ a.state = .sleeping ∧ b.state = .runnable

theorem Wakes.trans {a b c : Slot P K} (h : Wakes a b) (h' : Wakes b c) : Wakes a c := by
  refine ⟨⟨h'.kstack.trans h.kstack, h'.pgdir.trans h.pgdir, h'.ctl.trans h.ctl,
    h'.uid.trans h.uid, h'.dirs.trans h.dirs⟩, ?_⟩
  rcases h.state with hs | ⟨hs, hs'⟩
  · rw [← hs]
    exact h'.state
  · rcases h'.state with ht | ⟨ht, -⟩
    · exact .inr ⟨hs, ht.trans hs'⟩
    · rw [hs'] at ht
      cases ht

theorem Wakes.change {q : P} {a b : Slot P K} (h : Wakes a b) (hx : x.locked = true) :
    Change p x y q a b := by
  rcases h.state with hs | ⟨hs, hs'⟩
  · exact .quiet hs h.toSame
  · exact .woken hx hs hs' h.toSame

variable [DecidableEq P]

theorem change_set {q r : P} {b : Slot P K} (h : Change p x y r (t.slot r) b) :
    Change p x y q (t.slot q) ((t.set r b).slot q) := by
  by_cases hq : q = r
  · subst hq
    rw [Table.set_self]
    exact h
  · rw [Table.set_of_ne _ hq]
    exact .refl _


theorem wakes_kill (pid : ℤ) (l : List P) (t : Table P K) (q : P) :
    Wakes (t.slot q) ((t.kill pid l).1.slot q) := by
  rcases Table.kill_slot pid l t q with h | h
  · rw [h]
    exact ⟨Same.refl _, .inl rfl⟩
  · rw [h]
    unfold Slot.kill
    by_cases hs : (t.slot q).state = .sleeping
    · exact ⟨⟨rfl, rfl, rfl, rfl, rfl⟩, .inr ⟨hs, if_pos hs⟩⟩
    · exact ⟨⟨rfl, rfl, rfl, rfl, rfl⟩, .inl (if_neg hs)⟩

theorem wakes_setParent (t : Table P K) (r : P) (o : Option P) (q : P) :
    Wakes (t.slot q) ((t.setParent r o).slot q) := by
  by_cases hq : q = r
  · subst hq
    rw [Table.setParent, Table.set_self]
    exact ⟨⟨rfl, rfl, rfl, rfl, rfl⟩, .inl rfl⟩
  · rw [Table.setParent, Table.set_of_ne _ hq]
    exact ⟨Same.refl _, .inl rfl⟩

variable [DecidableEq K]

theorem wakes_wakeup1 (ch : Chan P K) (l : List P) (t : Table P K) (q : P) :
    Wakes (t.slot q) ((t.wakeup1 ch l).slot q) := by
  rcases Table.wakeup1_slot ch l t q with h | ⟨hs, -, h⟩
  · rw [h]
    exact ⟨Same.refl _, .inl rfl⟩
  · rw [h]
    exact ⟨⟨rfl, rfl, rfl, rfl, rfl⟩, .inr ⟨hs, rfl⟩⟩




theorem wakes_reparent (r q : P) :
    Wakes (t.slot q) ((t.reparent procs init p r).slot q) := by
  unfold Table.reparent
  dsimp only
  split_ifs
  · exact (wakes_setParent t r _ q).trans (wakes_wakeup1 _ _ _ q)
  · exact wakes_setParent t r _ q
  · exact ⟨Same.refl _, .inl rfl⟩


section

variable (h : Act procs init p t x t' y)
include h

theorem Act.change (q : P) :
    Change p x y q (t.slot q) (t'.slot q) := by
  cases h with
  | wakeup k | exitWake r hr => exact (wakes_wakeup1 ..).change rfl
  | kill pid => exact (wakes_kill ..).change rfl
  | sleepChan ch | tidyWait r | tidy k => exact change_set (.quiet rfl ⟨rfl, rfl, rfl, rfl, rfl⟩)
  | sleepState ch => exact change_set (.leave rfl rfl (.inl rfl) ⟨rfl, rfl, rfl, rfl, rfl⟩)
  | alloc r hr => exact change_set (.alloc rfl rfl hr rfl)
  | stack r | dir r | father r => exact change_set (.build rfl rfl rfl rfl)
  | noStack r => exact change_set (.gone (.inl rfl) rfl)
  | noDir r => exact change_set (t := t.freeStack _) (.gone (.inl rfl) rfl)
  | ready r => exact change_set (.ready rfl rfl ⟨rfl, rfl, rfl, rfl, rfl⟩)
  | exec | noExec | execSet d => exact change_set (.exec rfl rfl rfl rfl rfl rfl)
  | reparent r rest => exact (wakes_reparent r q).change rfl
  | zombie => exact change_set (.leave rfl rfl (.inr rfl) ⟨rfl, rfl, rfl, rfl, rfl⟩)
  | reap r => exact change_set (.gone (.inr rfl) rfl)
  | _ => exact .refl _

theorem Act.locked : y.locked = x.locked := by
  cases h <;> rfl

theorem Act.not_leaving : x.leaving = false := by
  cases h <;> rfl

theorem Act.leaving (hy : y.leaving = true) :
    (t'.slot p).state = .sleeping ∨ (t'.slot p).state = .zombie := by
  cases h with
  | sleepState ch =>
    left
    simp only [Table.setState, Table.set_self]
  | zombie =>
    right
    simp only [Table.setState, Table.set_self]
  | _ => cases hy

theorem Act.child {q : P} (hy : y.child = some q) :
    x.child = some q ∧ (t'.slot q).state = (t.slot q).state ∨
      x = .forkScan ∧ (t.slot q).state = .unused ∧ (t'.slot q).state = .embryo := by
  cases h with
  | alloc r hr =>
    obtain rfl := Option.some.inj hy
    refine .inr ⟨rfl, hr, ?_⟩
    show ((t.set r _).slot r).state = _
    rw [Table.set_self]
  | stack r | dir r =>
    cases hy
    refine .inl ⟨rfl, ?_⟩
    rw [Table.set_self]
  | father r =>
    cases hy
    refine .inl ⟨rfl, ?_⟩
    simp only [Table.setParent, Table.set_self]
  | _ => cases hy

theorem Act.built {q : P} (hy : y.built = some q) :
    x.built = some q ∧ (t'.slot q).ctl = (t.slot q).ctl ∨
      x = .forkStack q ∧ (t'.slot q).ctl = ⟨.unlock 0, none⟩ := by
  cases h with
  | stack r =>
    cases hy
    refine .inr ⟨rfl, ?_⟩
    rw [Table.set_self]
  | dir r =>
    cases hy
    refine .inl ⟨rfl, ?_⟩
    rw [Table.set_self]
  | father r =>
    cases hy
    refine .inl ⟨rfl, ?_⟩
    simp only [Table.setParent, Table.set_self]
  | _ => cases hy

end

theorem Act.reap_zombie {q : P} (h : Act procs init p t x t' (.waitReap q)) :
    x.locked = true ∧ (t'.slot q).state = .zombie := by
  cases h with
  | found _ rest havekids hparent hzombie => exact ⟨rfl, hzombie⟩

end Xv6.Sched
