import Mathlib.Algebra.BigOperators.Ring.Finset
import Xv6.Log.GroupInv

namespace Xv6.Group
open Lib Function

section Budget

variable {P : Type} [DecidableEq P]

/-- The blocks that `p` logged in its last operation. -/
def opBlocks (p : P) : List (Event P) → Finset ℕ
  | [] => ∅
  | .beginOp q :: h => if q = p then ∅ else opBlocks p h
  | .log q b :: h => if q = p then insert b (opBlocks p h) else opBlocks p h
  | _ :: h => opBlocks p h

/-- Every step of the run meets the condition. -/
def Meets (C : Act P → St P → Prop) : List (Act P) → St P → Prop
  | [], _ => True
  | a :: as, s => C a s ∧ ∀ t ∈ step a s, Meets C as t

instance decidableMeets (C : Act P → St P → Prop) [∀ a s, Decidable (C a s)] :
    (as : List (Act P)) → (s : St P) → Decidable (Meets C as s)
  | [], _ => .isTrue trivial
  | a :: as, s =>
    haveI := decidableMeets C as
    inferInstanceAs (Decidable (C a s ∧ ∀ t ∈ step a s, Meets C as t))

/-- A `log_write` call keeps its operation within `n` distinct blocks. -/
def WithinBudget (n : ℕ) : Act P → St P → Prop
  | .logCheck p b, s => (insert b (opBlocks p s.hist)).card ≤ n
  | _, _ => True

instance (n : ℕ) : (a : Act P) → (s : St P) → Decidable (WithinBudget n a s)
  | .logCheck p b, s => inferInstanceAs (Decidable ((insert b (opBlocks p s.hist)).card ≤ n))
  | .call _, _ | .tryBegin _, _ | .kill _, _ | .logAppend _, _ | .endOp _, _ | .doCommit _, _
  | .finish _, _ => .isTrue trivial

end Budget

section Admission

variable {P : Type} {pc : P → Pc} {p : P} {c : Pc} {b : ℕ}

theorem logging_of_wakeup (h : wakeup pc p = .logging b) : pc p = .logging b := by
  unfold wakeup at h
  split_ifs at h
  exact h

theorem wakeup_commit (h : pc p = .commit) : wakeup pc p = .commit := by
  rw [wakeup, if_neg (by rw [h]; nofun), h]

variable [DecidableEq P] {s t : St P}

theorem Reach.size {size : ℕ} (h : Reach size s) : s.log.size = size := by
  induction h with
  | init => rfl
  | step _ hs ih =>
    cases (step_cases hs).2 <;> exact ih

/-- The blocks that an operation of `MAXOPBLOCKS - 1` blocks may still log. -/
def due (s : St P) (p : P) : ℤ :=
  if (s.pc p).active then ((MAXOPBLOCKS - 1 : ℕ) : ℤ) - (opBlocks p s.hist).card else 0

theorem due_congr {q : P} (ha : (t.pc q).active = (s.pc q).active)
    (ho : opBlocks q t.hist = opBlocks q s.hist) : due t q = due s q := by
  rw [due, due, ha, ho]

theorem due_of_not_active (h : (s.pc p).active = false) : due s p = 0 := by
  rw [due, h]
  exact if_neg nofun

variable [Fintype P]

/-- What is in the log and what the operations may still log fits, as long as each operation logs
at most `MAXOPBLOCKS - 1` blocks. -/
structure Reserved (s : St P) : Prop where
  op : ∀ p, (opBlocks p s.hist).card ≤ MAXOPBLOCKS - 1
  pending : ∀ p b, s.pc p = .logging b → (insert b (opBlocks p s.hist)).card ≤ MAXOPBLOCKS - 1
  logged : ∀ p, (s.pc p).active = true → ∀ b ∈ opBlocks p s.hist, b ∈ s.log.lh
  idle : s.log.outstanding = 0 → (∀ p, s.pc p ≠ .commit) → s.log.lh = []
  total : s.log.lh.length + ∑ p, due s p ≤ LOGSIZE - 2

theorem reserved_init (size : ℕ) : Reserved (init P size) where
  op _ := Nat.zero_le _
  pending _ _ := nofun
  logged _ := nofun
  idle _ _ := rfl
  total := by simp [init, due, Pc.active, LOGSIZE, MAXOPBLOCKS]

theorem Inv.no_commit (hi : Inv s) (hc : s.log.committing = false) (p : P) : s.pc p ≠ .commit := by
  intro hp
  rw [hi.committing_of_commits (p := p) (by rw [hp]; rfl)] at hc
  cases hc

theorem Inv.sum_due_le (hi : Inv s) :
    ∑ p, due s p ≤ ((MAXOPBLOCKS - 1 : ℕ) : ℤ) * s.log.outstanding := by
  rw [hi.outstanding, count, Finset.mul_sum]
  apply Finset.sum_le_sum
  intro p _
  unfold due
  split_ifs <;> omega

section

variable (hr : Reserved s)
include hr

theorem Reserved.due_nonneg (p : P) : 0 ≤ due s p := by
  have := hr.op p
  unfold due
  split_ifs
  · omega
  · rfl

theorem Reserved.total_of (hne : ∀ q, q ≠ p → due t q = due s q)
    (hp : t.log.lh.length + due t p ≤ s.log.lh.length + due s p) :
    t.log.lh.length + ∑ q, due t q ≤ LOGSIZE - 2 := by
  have := hr.total
  rw [sum_of_ne (m := due t p - due s p) hne (by omega)]
  omega

/-- A step that leaves the log and the blocks of the operations. -/
theorem Reserved.move (ha : c.active = (s.pc p).active) (hc : s.pc p ≠ .commit)
    (hl : ∀ b, c = .logging b → (insert b (opBlocks p s.hist)).card ≤ MAXOPBLOCKS - 1) :
    Reserved { s with pc := update s.pc p c } where
  op := hr.op
  pending q b hq := by
    by_cases he : q = p
    · subst he
      exact hl b (by simpa using hq)
    · exact hr.pending q b (by simpa [he] using hq)
  logged q hq := by
    apply hr.logged q
    by_cases he : q = p
    · subst he
      simpa [ha] using hq
    · simpa [he] using hq
  idle ho hno := hr.idle ho fun q hq => by
    have he : q ≠ p := by
      rintro rfl
      exact hc hq
    exact hno q (by simpa [he] using hq)
  total := by
    apply hr.total_of (p := p)
    · intro q hq
      exact due_congr (by simp [hq]) rfl
    · have hp : due { s with pc := update s.pc p c } p = due s p := due_congr (by simp [ha]) rfl
      exact (congrArg _ hp).le

theorem Reserved.enter (hi : Inv s) (hp : s.pc p = .begin) (hc : s.log.committing = false)
    (hfull : ¬ s.log.full) : Reserved { s with
      log := s.log.enter, pc := update s.pc p .op, hist := .beginOp p :: s.hist } := by
  have hop (q : P) : opBlocks q (.beginOp p :: s.hist) =
      if p = q then ∅ else opBlocks q s.hist := rfl
  have hcount := count_nonneg Pc.active s.pc
  rw [← hi.outstanding] at hcount
  refine ⟨fun q => ?_, fun q x hq => ?_, fun q hq x hx => ?_, fun ho => ?_, ?_⟩
  · rw [hop]
    split_ifs
    · exact Nat.zero_le _
    · exact hr.op q
  · have he : q ≠ p := by
      rintro rfl
      simp at hq
    rw [hop, if_neg (Ne.symm he)]
    exact hr.pending q x (by simpa [he] using hq)
  · rw [hop] at hx
    split_ifs at hx with he
    · cases hx
    · exact hr.logged q (by simpa [Ne.symm he] using hq) x hx
  · simp only [Log.enter] at ho
    omega
  · have hsum := hi.sum_due_le
    rw [sum_of_ne (m := ((MAXOPBLOCKS - 1 : ℕ) : ℤ)) (g := due s) (i := p)]
    · simp only [Log.full, Log.enter, MAXOPBLOCKS, LOGSIZE, not_lt] at hfull hsum ⊢
      by_cases ho : s.log.outstanding = 0
      · rw [hr.idle ho (hi.no_commit hc), List.length_nil]
        omega
      · omega
    · intro q hq
      exact due_congr (by simp [hq]) (by rw [hop, if_neg (Ne.symm hq)])
    · rw [due_of_not_active (s := s) (by rw [hp]; rfl)]
      simp [due, hop, Pc.active]

theorem Reserved.append (hi : Inv s) (hp : s.pc p = .logging b) : Reserved { s with
      log := s.log.logWrite b, pc := update s.pc p .op, hist := .log p b :: s.hist } := by
  have hop (q : P) : opBlocks q (.log p b :: s.hist) =
      if p = q then insert b (opBlocks q s.hist) else opBlocks q s.hist := rfl
  have hact : (s.pc p).active = true := by rw [hp]; rfl
  refine ⟨fun q => ?_, fun q x hq => ?_, fun q hq x hx => ?_, fun ho => ?_, ?_⟩
  · rw [hop]
    split_ifs with hq
    · rw [← hq]
      exact hr.pending p b hp
    · exact hr.op q
  · have he : q ≠ p := by
      rintro rfl
      simp at hq
    rw [hop, if_neg (Ne.symm he)]
    exact hr.pending q x (by simpa [he] using hq)
  · rw [hop] at hx
    apply Log.mem_absorb.mpr
    split_ifs at hx with he
    · subst he
      rcases Finset.mem_insert.mp hx with rfl | hx
      · exact .inr rfl
      · exact .inl (hr.logged p hact x hx)
    · exact .inl (hr.logged q (by simpa [Ne.symm he] using hq) x hx)
  · exact absurd ho (hi.outstanding_pos hact).ne'
  · apply hr.total_of (p := p)
    · intro q hq
      exact due_congr (by simp [hq]) (by rw [hop, if_neg (Ne.symm hq)])
    · -- A block that is new to the log is new to the operation.
      have hlen := Log.length_absorb s.log.lh b
      have hcard := Finset.card_insert_of_notMem (s := opBlocks p s.hist) (a := b)
      have hle := Finset.card_le_card (Finset.subset_insert b (opBlocks p s.hist))
      have hnew := mt (hr.logged p hact b)
      have hdue : due s p = ((MAXOPBLOCKS - 1 : ℕ) : ℤ) - (opBlocks p s.hist).card := if_pos hact
      rw [hdue]
      simp only [due, hop, if_true, update_self, Pc.active, Log.logWrite]
      split_ifs at hlen with hb
      · omega
      · rw [hcard (hnew hb)]
        omega

/-- The end of an operation that does or does not lead to a commit. -/
theorem Reserved.leave {pc : P → Pc} {l : Log} (hpc : (pc p).active = false)
    (hne : ∀ q, q ≠ p → (pc q).active = (s.pc q).active)
    (hlog : ∀ q b, pc q = .logging b → s.pc q = .logging b) (hlh : l.lh = s.log.lh)
    (hidle : l.outstanding = 0 → (∀ p, pc p ≠ .commit) → l.lh = []) :
    Reserved { s with log := l, pc := pc, hist := .endOp p :: s.hist } where
  op := hr.op
  pending q b hq := hr.pending q b (hlog q b hq)
  logged q hq b hb := by
    by_cases he : q = p
    · rw [he, hpc] at hq
      cases hq
    · show b ∈ l.lh
      rw [hlh]
      exact hr.logged q (by rw [← hne q he]; exact hq) b hb
  idle := hidle
  total := by
    apply hr.total_of (p := p)
    · intro q hq
      exact due_congr (hne q hq) rfl
    · have := hr.due_nonneg p
      simp only [hlh]
      rw [due_of_not_active hpc]
      omega

theorem Reserved.doCommit (hi : Inv s) (hp : s.pc p = .commit) : Reserved { s with
      log := { s.log with lh := [] }
      pc := update s.pc p .committed
      hist := .commit s.log.lh :: s.hist } := by
  have hquiet := hi.not_active (hi.committing_of_commits (p := p) (by rw [hp]; rfl))
  have hno (q : P) : (update s.pc p .committed q).active = false := by
    by_cases he : q = p
    · rw [he, update_self]
      rfl
    · rw [update_of_ne he, hquiet]
  refine ⟨hr.op, fun q b hq => ?_, fun q hq => absurd hq (by rw [hno q]; nofun),
    fun _ _ => rfl, ?_⟩
  · have hq' := congrArg Pc.active hq
    rw [hno q] at hq'
    cases hq'
  · rw [Finset.sum_eq_zero fun q _ => due_of_not_active (hno q)]
    show (0 : ℤ) + 0 ≤ LOGSIZE - 2
    decide

theorem Reserved.finish (hp : s.pc p = .committed) : Reserved { s with
      log := { s.log with committing := false }
      pc := wakeup (update s.pc p .out) } := by
  have hout : Reserved { s with pc := update s.pc p .out } :=
    hr.move (by rw [hp]; rfl) (by rw [hp]; nofun) nofun
  refine ⟨hr.op, fun q b hq => hout.pending q b (logging_of_wakeup hq), fun q hq => ?_,
    fun ho hno => hout.idle ho fun q hq => hno q (wakeup_commit hq), ?_⟩
  · rw [wakeup_active] at hq
    exact hout.logged q hq
  · have hdue (q : P) := due_congr (t := { s with
      log := { s.log with committing := false }, pc := wakeup (update s.pc p .out) })
      (s := { s with pc := update s.pc p .out }) (wakeup_active _ q) rfl
    rw [Finset.sum_congr rfl fun q _ => hdue q]
    exact hout.total

theorem Reserved.step {a : Act P} (hi : Inv s) (hb : WithinBudget (MAXOPBLOCKS - 1) a s)
    (hs : Step s a t) : Reserved t := by
  cases hs with
  | call p hp | kill p hp | sleep p hp _ =>
    exact hr.move (by rw [hp]; rfl) (by rw [hp]; nofun) nofun
  | check p b hp _ =>
    refine hr.move (by rw [hp]; rfl) (by rw [hp]; nofun) ?_
    rintro _ ⟨⟩
    exact hb
  | enter p hp hc hfull => exact hr.enter hi hp hc hfull
  | checkPanic p b m hp _ => exact ⟨hr.op, hr.pending, hr.logged, hr.idle, hr.total⟩
  | append p b hp => exact hr.append hi hp
  | endPanic p hp _ => exact ⟨hr.op, hr.pending, hr.logged, hr.idle, hr.total⟩
  | endCommit p hp _ _ =>
    refine hr.leave (by rw [update_self]; rfl) (fun q hq => by rw [update_of_ne hq]) ?_ rfl
      fun _ hno => absurd (update_self ..) (hno p)
    intro q b hq
    by_cases he : q = p
    · subst he
      simp at hq
    · simpa [he] using hq
  | endOut p hp _ ho =>
    refine hr.leave (by rw [wakeup_active, update_self]; rfl)
      (fun q hq => by rw [wakeup_active, update_of_ne hq]) ?_ rfl fun ho' => absurd ho' ho
    intro q b hq
    have hq := logging_of_wakeup hq
    by_cases he : q = p
    · subst he
      simp at hq
    · simpa [he] using hq
  | doCommit p hp => exact hr.doCommit hi hp
  | finish p hp => exact hr.finish hp

/-- A further block fits even if the log holds it already. -/
theorem Reserved.length_lt : s.log.lh.length < LOGSIZE - 1 := by
  have := hr.total
  have := Finset.sum_nonneg fun p (_ : p ∈ Finset.univ) => hr.due_nonneg p
  simp only [LOGSIZE, MAXOPBLOCKS] at *
  omega

end

theorem not_tooBig {a : Act P} (h : Reach LOGSIZE s) (hr : Reserved s) (hs : Step s a t) :
    t.halted = s.halted := by
  cases hs with
  | checkPanic p b m hp hm =>
    exfalso
    have hlen := hr.length_lt
    have hpos := h.inv.outstanding_pos (p := p) (by rw [hp]; rfl)
    rw [Log.logWriteCheck, h.size, if_neg (by omega), if_neg (by omega)] at hm
    cases hm
  | endPanic p hp hc =>
    have := h.inv.not_active hc p
    rw [hp] at this
    cases this
  | _ => rfl

theorem Reach.reserved {as : List (Act P)} (h : Reach LOGSIZE s) (hr : Reserved s)
    (hb : Meets (WithinBudget (MAXOPBLOCKS - 1)) as s) (hrun : Group.runFrom as s = some t) :
    t.halted = s.halted ∧ Reserved t := by
  induction as generalizing s with
  | nil =>
    cases hrun
    exact ⟨rfl, hr⟩
  | cons a as ih =>
    obtain ⟨u, hu, ht⟩ := Option.bind_eq_some_iff.mp hrun
    have hstep := (step_cases hu).2
    obtain ⟨hhalt, ht⟩ := ih (h.step hu) (hr.step h.inv hb.1 hstep) (hb.2 u hu) ht
    exact ⟨hhalt.trans (not_tooBig h hr hstep), ht⟩

/-- Admission control, with the log size that `mkfs` writes: in a run in which each operation logs
at most `MAXOPBLOCKS - 1` distinct blocks, the log never holds more than `LOGSIZE - 2` blocks and
`log_write` does not panic. -/
theorem admission {as : List (Act P)} {s : St P} (h : runFrom as (init P LOGSIZE) = some s)
    (hb : Meets (WithinBudget (MAXOPBLOCKS - 1)) as (init P LOGSIZE)) :
    s.halted ≠ some Log.tooBig ∧ s.log.lh.length ≤ LOGSIZE - 2 := by
  obtain ⟨hhalt, hr⟩ := Reach.init.reserved (reserved_init LOGSIZE) hb h
  refine ⟨?_, Nat.le_pred_of_lt hr.length_lt⟩
  rw [hhalt]
  nofun

end Admission

def logAll (p : Fin 3) (bs : List ℕ) : List (Act (Fin 3)) :=
  bs.flatMap fun b => [.logCheck p b, .logAppend p]

/-- Process 1 begins an operation, and process 0 logs ten blocks in two.  Then process 2 is
admitted, and both log nine blocks. -/
def nineBlocks : List (Act (Fin 3)) :=
  [.call 1, .tryBegin 1, .call 0, .tryBegin 0] ++ logAll 0 (List.range' 100 9) ++
    [.endOp 0, .call 0, .tryBegin 0] ++ logAll 0 [109] ++ [.endOp 0, .call 2, .tryBegin 2] ++
    logAll 1 (List.range' 110 9) ++ logAll 2 (List.range' 120 9)

def afterNineBlocks : St (Fin 3) := (runFrom nineBlocks (init (Fin 3) LOGSIZE)).get rfl

/-- The bound is reached. -/
theorem admission_nineBlocks : afterNineBlocks.halted ≠ some Log.tooBig ∧
    afterNineBlocks.log.lh.length ≤ LOGSIZE - 2 ∧ afterNineBlocks.log.lh.length = 28 := by
  have hrun : runFrom nineBlocks (init (Fin 3) LOGSIZE) = some afterNineBlocks :=
    (Option.some_get _).symm
  obtain ⟨hhalt, hlen⟩ := admission hrun (by decide +kernel)
  exact ⟨hhalt, hlen, by decide +kernel⟩

/-- Three operations of ten distinct blocks each. -/
def thirtyBlocks : List (Act (Fin 3)) :=
  [.call 0, .tryBegin 0, .call 1, .tryBegin 1, .call 2, .tryBegin 2] ++
    logAll 0 (List.range' 100 10) ++ logAll 1 (List.range' 110 10) ++
    logAll 2 (List.range' 120 9) ++ [.logCheck 2 129]

theorem thirtyBlocks_panics :
    Meets (WithinBudget MAXOPBLOCKS) thirtyBlocks (init (Fin 3) LOGSIZE) ∧
    (runFrom thirtyBlocks (init (Fin 3) LOGSIZE)).map (·.halted) = some (some Log.tooBig) := by
  constructor
  · decide +kernel
  · decide +kernel

end Xv6.Group
