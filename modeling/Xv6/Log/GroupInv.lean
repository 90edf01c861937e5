import Xv6.Log.Group

namespace Xv6.Group
open Lib Function

section History

variable {P : Type} {h : List (Event P)}

/-- The blocks logged since the last commit, in the order `log_write` puts them. -/
def sinceCommit : List (Event P) → List ℕ
  | [] => []
  | .commit _ :: _ => []
  | .log _ b :: h => Log.absorb (sinceCommit h) b
  | _ :: h => sinceCommit h

def NoCommit (h : List (Event P)) : Prop := ∀ bs, .commit bs ∉ h

theorem mem_sinceCommit {b : ℕ} :
    b ∈ sinceCommit h ↔ ∃ p m a, h = m ++ .log p b :: a ∧ NoCommit m := by
  induction h with
  | nil => simp [sinceCommit]
  | cons e h ih =>
    have hskip : (∀ bs, e ≠ .commit bs) → b ∈ sinceCommit h →
        ∃ p m a, e :: h = m ++ .log p b :: a ∧ NoCommit m := by
      intro he hb
      obtain ⟨p, m, a, rfl, hm⟩ := ih.mp hb
      refine ⟨p, e :: m, a, rfl, fun bs hmem => ?_⟩
      rcases List.mem_cons.mp hmem with h | h
      · exact he bs h.symm
      · exact hm bs h
    have hback : (∃ p m a, e :: h = m ++ .log p b :: a ∧ NoCommit m) →
        (∃ p, e = .log p b) ∨ (∀ bs, e ≠ .commit bs) ∧ b ∈ sinceCommit h := by
      rintro ⟨p, m, a, he, hm⟩
      cases m with
      | nil => cases he; exact .inl ⟨p, rfl⟩
      | cons e' m =>
        cases he
        refine .inr ⟨fun bs h => hm bs (h ▸ List.mem_cons_self), ih.mpr ⟨p, m, a, rfl, ?_⟩⟩
        exact fun bs h => hm bs (List.mem_cons_of_mem _ h)
    cases e with
    | log q c =>
      rw [sinceCommit, Log.mem_absorb]
      constructor
      · rintro (hb | rfl)
        · exact hskip nofun hb
        · exact ⟨q, [], h, rfl, fun _ h => by cases h⟩
      · intro hx
        rcases hback hx with ⟨p, hp⟩ | ⟨_, hb⟩
        · cases hp; exact .inr rfl
        · exact .inl hb
    | commit bs =>
      constructor
      · intro hb; cases hb
      · intro hx
        rcases hback hx with ⟨p, hp⟩ | ⟨hc, _⟩
        · cases hp
        · exact absurd rfl (hc bs)
    | _ =>
      constructor
      · exact hskip nofun
      · intro hx
        rcases hback hx with ⟨p, hp⟩ | ⟨_, hb⟩
        · cases hp
        · exact hb

variable [DecidableEq P]

def inOp (p : P) : List (Event P) → Bool
  | [] => false
  | .beginOp q :: h => if q = p then true else inOp p h
  | .endOp q :: h => if q = p then false else inOp p h
  | _ :: h => inOp p h

def Bracketed : List (Event P) → Prop
  | [] => True
  | .beginOp p :: h => inOp p h = false ∧ Bracketed h
  | .log p _ :: h => inOp p h = true ∧ Bracketed h
  | .endOp p :: h => inOp p h = true ∧ Bracketed h
  | .commit bs :: h => (∀ p, inOp p h = false) ∧ bs = sinceCommit h ∧ Bracketed h

/-- No operation of `p` begins or ends among the events. -/
def Within (p : P) (h : List (Event P)) : Prop := .beginOp p ∉ h ∧ .endOp p ∉ h

theorem Bracketed.of_append {k : List (Event P)} (hb : Bracketed (h ++ k)) : Bracketed k := by
  induction h with
  | nil => exact hb
  | cons e h ih =>
    apply ih
    cases e with
    | beginOp p | log p b | endOp p => exact hb.2
    | commit bs => exact hb.2.2

/-- An operation that has begun and not ended is open, and no commit has happened since. -/
theorem Bracketed.within {p : P} {m a : List (Event P)}
    (hb : Bracketed (m ++ .beginOp p :: a)) (hm : Within p m) :
    inOp p (m ++ .beginOp p :: a) = true ∧ NoCommit m := by
  induction m with
  | nil => exact ⟨by simp [inOp], fun _ h => by cases h⟩
  | cons e m ih =>
    have hw : Within p m :=
      ⟨fun h => hm.1 (List.mem_cons_of_mem _ h), fun h => hm.2 (List.mem_cons_of_mem _ h)⟩
    obtain ⟨hin, hno⟩ := ih (Bracketed.of_append (h := [e]) hb) hw
    have hcons : (∀ bs, e ≠ .commit bs) → NoCommit (e :: m) := by
      intro he bs hmem
      rcases List.mem_cons.mp hmem with h | h
      · exact he bs h.symm
      · exact hno bs h
    cases e with
    | beginOp q =>
      have hq : q ≠ p := fun h => hm.1 (h ▸ List.mem_cons_self)
      exact ⟨by simpa [inOp, hq] using hin, hcons nofun⟩
    | log q b => exact ⟨hin, hcons nofun⟩
    | endOp q =>
      have hq : q ≠ p := fun h => hm.2 (h ▸ List.mem_cons_self)
      exact ⟨by simpa [inOp, hq] using hin, hcons nofun⟩
    | commit bs =>
      -- At a commit no operation is open, but this one is.
      have := hb.1 p
      rw [List.append_eq, hin] at this
      cases this

end History

def Pc.active : Pc → Bool
  | .op | .logging _ => true
  | _ => false

/-- In `end_op`, responsible for the commit. -/
def Pc.commits : Pc → Bool
  | .commit | .committed => true
  | _ => false

section Invariant

variable {P : Type} {p : P} {c : Pc} {s : St P}

theorem wakeup_active (pc : P → Pc) (p : P) : (wakeup pc p).active = (pc p).active := by
  unfold wakeup
  split_ifs with h
  · rw [h]; rfl
  · rfl

theorem wakeup_commits (pc : P → Pc) (p : P) : (wakeup pc p).commits = (pc p).commits := by
  unfold wakeup
  split_ifs with h
  · rw [h]; rfl
  · rfl

theorem wakeup_ne_asleep (pc : P → Pc) (p : P) : wakeup pc p ≠ .asleep := by
  unfold wakeup
  split_ifs with h
  · nofun
  · exact h

variable [DecidableEq P]

theorem asleep_of_update {pc : P → Pc} {q : P} (hc : c ≠ .asleep) (h : update pc p c q = .asleep) :
    pc q = .asleep := by
  by_cases he : q = p
  · subst he
    exact absurd (by simpa using h) hc
  · simpa [he] using h

variable [Fintype P]

structure Inv (s : St P) : Prop where
  outstanding : s.log.outstanding = count Pc.active s.pc
  committing : count Pc.commits s.pc = if s.log.committing then 1 else 0
  quiet : s.log.committing = true → s.log.outstanding = 0
  asleep : ∀ p, s.pc p = .asleep → s.log.committing = true ∨ s.log.full
  lh : s.log.lh = sinceCommit s.hist
  active : ∀ p, (s.pc p).active = inOp p s.hist
  bracketed : Bracketed s.hist
  halted : ∀ m, s.halted = some m → m = Log.tooBig

theorem inv_init (size : ℕ) : Inv (init P size) where
  outstanding := by simp [init, count, Pc.active]
  committing := by simp [init, count, Pc.commits]
  quiet := nofun
  asleep := nofun
  lh := rfl
  active _ := rfl
  bracketed := trivial
  halted := nofun

section

variable (h : Inv s)
include h

theorem Inv.active_update (hc : c.active = (s.pc p).active) (q : P) :
    (update s.pc p c q).active = inOp q s.hist := by
  rw [← h.active q]
  by_cases he : q = p
  · subst he
    rw [update_self, hc]
  · rw [update_of_ne he]

theorem Inv.move (ha : c.active = (s.pc p).active) (hc : c.commits = (s.pc p).commits)
    (hs : c = .asleep → s.log.committing = true ∨ s.log.full) :
    Inv { s with pc := update s.pc p c } where
  outstanding := by simp only [count_update, ha, add_sub_cancel_right, h.outstanding]
  committing := by simp only [count_update, hc, add_sub_cancel_right, h.committing]
  quiet := h.quiet
  asleep q hq := by
    by_cases he : q = p
    · subst he
      exact hs (by simpa using hq)
    · exact h.asleep q (by simpa [he] using hq)
  lh := h.lh
  active := h.active_update ha
  bracketed := h.bracketed
  halted := h.halted

theorem Inv.committing_of_commits (hp : (s.pc p).commits = true) :
    s.log.committing = true := by
  have h1 := h.committing
  have h2 := count_pos (f := s.pc) hp
  by_contra hc
  simp only [hc, if_false] at h1
  omega

theorem Inv.outstanding_pos (hp : (s.pc p).active = true) : 0 < s.log.outstanding := by
  rw [h.outstanding]
  exact count_pos hp

theorem Inv.not_active (hc : s.log.committing = true) (p : P) :
    (s.pc p).active = false := by
  apply eq_false_of_count
  rw [← h.outstanding]
  exact h.quiet hc

theorem Inv.enter (hp : s.pc p = .begin) (hc : s.log.committing = false) : Inv { s with
      log := s.log.enter, pc := update s.pc p .op, hist := .beginOp p :: s.hist } where
  outstanding := by
    rw [count_update, ← h.outstanding, hp]
    simp [Log.enter, Pc.active]
  committing := by
    show _ = if s.log.committing then 1 else 0
    rw [count_update, h.committing, hp]
    simp [Pc.commits]
  quiet hc' := by
    rw [Log.enter, hc] at hc'
    cases hc'
  asleep q hq := by
    rcases h.asleep q (asleep_of_update (c := .op) nofun hq) with hs | hs
    · rw [hc] at hs
      cases hs
    · right
      simp only [Log.full, Log.enter, MAXOPBLOCKS, LOGSIZE] at hs ⊢
      omega
  lh := h.lh
  active q := by
    by_cases he : q = p
    · simp [he, inOp, Pc.active]
    · simp [he, Ne.symm he, inOp, h.active]
  bracketed := ⟨by rw [← h.active p, hp]; rfl, h.bracketed⟩
  halted := h.halted

theorem Inv.append {b : ℕ} (hp : s.pc p = .logging b) : Inv { s with
      log := s.log.logWrite b, pc := update s.pc p .op, hist := .log p b :: s.hist } where
  outstanding := by
    rw [count_update, ← h.outstanding, hp]
    simp [Log.logWrite, Pc.active]
  committing := by
    show _ = if s.log.committing then 1 else 0
    rw [count_update, h.committing, hp]
    simp [Pc.commits]
  quiet := h.quiet
  asleep q hq := by
    rcases h.asleep q (asleep_of_update (c := .op) nofun hq) with hs | hs
    · exact .inl hs
    · right
      have hl := Log.length_absorb s.log.lh b
      simp only [Log.full, Log.logWrite, MAXOPBLOCKS, LOGSIZE] at hs ⊢
      split_ifs at hl <;> omega
  lh := by rw [sinceCommit, ← h.lh]; rfl
  active := h.active_update (by rw [hp]; rfl)
  bracketed := ⟨by rw [← h.active p, hp]; rfl, h.bracketed⟩
  halted := h.halted

theorem Inv.endOp_active (hc : c.active = false) (q : P) :
    (update s.pc p c q).active = inOp q (.endOp p :: s.hist) := by
  by_cases he : q = p
  · simp [he, inOp, hc]
  · simp [he, Ne.symm he, inOp, h.active]

theorem Inv.endCommit (hp : s.pc p = .op) (hc : s.log.committing = false)
    (ho : s.log.outstanding - 1 = 0) : Inv { s with
      log := { s.log with outstanding := s.log.outstanding - 1, committing := true }
      pc := update s.pc p .commit
      hist := .endOp p :: s.hist } where
  outstanding := by
    rw [count_update, ← h.outstanding, hp]
    simp [Pc.active]
  committing := by
    rw [count_update, h.committing, hp, hc]
    simp [Pc.commits]
  quiet _ := ho
  asleep _ _ := .inl rfl
  lh := h.lh
  active := h.endOp_active rfl
  bracketed := ⟨by rw [← h.active p, hp]; rfl, h.bracketed⟩
  halted := h.halted

theorem Inv.endOut (hp : s.pc p = .op) (hc : s.log.committing = false) : Inv { s with
      log := { s.log with outstanding := s.log.outstanding - 1, committing := false }
      pc := wakeup (update s.pc p .out)
      hist := .endOp p :: s.hist } where
  outstanding := by
    rw [count_congr (wakeup_active _), count_update, ← h.outstanding, hp]
    simp [Pc.active]
  committing := by
    rw [count_congr (wakeup_commits _), count_update, h.committing, hp, hc]
    simp [Pc.commits]
  quiet := nofun
  asleep q hq := absurd hq (wakeup_ne_asleep _ q)
  lh := h.lh
  active q := by rw [wakeup_active, h.endOp_active rfl q]
  bracketed := ⟨by rw [← h.active p, hp]; rfl, h.bracketed⟩
  halted := h.halted

theorem Inv.doCommit (hp : s.pc p = .commit) : Inv { s with
      log := { s.log with lh := [] }
      pc := update s.pc p .committed
      hist := .commit s.log.lh :: s.hist } where
  outstanding := by
    rw [count_update, ← h.outstanding, hp]
    simp [Pc.active]
  committing := by
    rw [count_update, h.committing, hp]
    simp [Pc.commits]
  quiet := h.quiet
  asleep _ _ := .inl (h.committing_of_commits (by rw [hp]; rfl))
  lh := rfl
  active := h.active_update (by rw [hp]; rfl)
  bracketed := by
    have hc := h.committing_of_commits (p := p) (by rw [hp]; rfl)
    exact ⟨fun q => by rw [← h.active q, h.not_active hc q], h.lh, h.bracketed⟩
  halted := h.halted

theorem Inv.finish (hp : s.pc p = .committed) : Inv { s with
      log := { s.log with committing := false }
      pc := wakeup (update s.pc p .out) } where
  outstanding := by
    rw [count_congr (wakeup_active _), count_update, ← h.outstanding, hp]
    simp [Pc.active]
  committing := by
    have hc := h.committing_of_commits (p := p) (by rw [hp]; rfl)
    rw [count_congr (wakeup_commits _), count_update, h.committing, hp, hc]
    simp [Pc.commits]
  quiet := nofun
  asleep q hq := absurd hq (wakeup_ne_asleep _ q)
  lh := h.lh
  active q := by rw [wakeup_active, h.active_update (by rw [hp]; rfl) q]
  bracketed := h.bracketed
  halted := h.halted

theorem Inv.logWriteCheck {m : String} (hp : s.pc p = .op)
    (hm : s.log.logWriteCheck = some m) : m = Log.tooBig := by
  have hpos := h.outstanding_pos (p := p) (by rw [hp]; rfl)
  unfold Log.logWriteCheck at hm
  split_ifs at hm
  · exact (Option.some.inj hm).symm
  · omega

theorem Inv.step {t : St P} {a : Act P} (hs : Step s a t) : Inv t := by
  cases hs with
  | call p hp | kill p hp | check p b hp _ => exact h.move (by rw [hp]; rfl) (by rw [hp]; rfl) nofun
  | sleep p hp hc => exact h.move (by rw [hp]; rfl) (by rw [hp]; rfl) fun _ => hc
  | enter p hp hc _ => exact h.enter hp hc
  | checkPanic p b m hp hm =>
    have hb : ∀ m', some m = some m' → m' = Log.tooBig := by
      rintro _ ⟨⟩
      exact h.logWriteCheck hp hm
    exact ⟨h.outstanding, h.committing, h.quiet, h.asleep, h.lh, h.active, h.bracketed, hb⟩
  | append p b hp => exact h.append hp
  | endPanic p hp hc =>
    have := h.not_active hc p
    rw [hp] at this
    cases this
  | endCommit p hp hc ho => exact h.endCommit hp hc ho
  | endOut p hp hc _ => exact h.endOut hp hc
  | doCommit p hp => exact h.doCommit hp
  | finish p hp => exact h.finish hp

end

theorem Reach.inv {size : ℕ} (h : Reach size s) : Inv s := by
  induction h with
  | init => exact inv_init size
  | step _ hs ih => exact ih.step (step_cases hs).2

theorem no_log (h : Inv s) (hc : s.log.committing = true) (p : P) (b : ℕ) :
    step (.logCheck p b) s = none ∧ step (.logAppend p) s = none := by
  have hp := h.not_active hc p
  cases hq : s.pc p with
  | op | logging c => rw [hq] at hp; cases hp
  | _ => simp [step, hq]

/-- Group commit, in every state that any interleaving reaches: nobody is inside an operation
while a commit runs; the blocks of an operation are all written by the first commit after its
end, which writes what was logged since the commit before it and nothing else; the panics for a
broken protocol are not reached; and nobody sleeps in `begin_op` without a reason. -/
theorem group_commit {size : ℕ} {s : St P} (h : Reach size s) :
    (s.log.committing = true →
      s.log.outstanding = 0 ∧
      ∀ p b, step (.logCheck p b) s = none ∧ step (.logAppend p) s = none) ∧
    (∀ post bs later p during before,
      s.hist = post ++ .commit bs :: (later ++ .endOp p :: (during ++ .beginOp p :: before)) →
      NoCommit later → Within p during →
      NoCommit during ∧ ∀ b, .log p b ∈ during → b ∈ bs) ∧
    (∀ post bs pre, s.hist = post ++ .commit bs :: pre →
      ∀ b, b ∈ bs ↔ ∃ p m a, pre = m ++ .log p b :: a ∧ NoCommit m) ∧
    s.halted ≠ some Log.stillCommitting ∧ s.halted ≠ some Log.outsideTrans ∧
    ∀ p, s.pc p = .asleep → ¬ (s.log.committing = false ∧
      s.log.lh.length + (s.log.outstanding + 1) * MAXOPBLOCKS ≤ LOGSIZE) := by
  have hi := h.inv
  have hb := hi.bracketed
  have writes : ∀ post bs pre, s.hist = post ++ .commit bs :: pre →
      ∀ b, b ∈ bs ↔ ∃ p m a, pre = m ++ .log p b :: a ∧ NoCommit m := by
    intro post bs pre hh b
    have hc : Bracketed (.commit bs :: pre) := (hh ▸ hb).of_append
    rw [hc.2.1]
    exact mem_sinceCommit
  refine ⟨fun hc => ⟨hi.quiet hc, no_log hi hc⟩, ?_, writes, ?_, ?_, ?_⟩
  · intro post bs later p during before hh hl hw
    have hop : Bracketed (during ++ .beginOp p :: before) := by
      have hc : Bracketed (.commit bs :: (later ++ .endOp p :: (during ++ .beginOp p :: before))) :=
        (hh ▸ hb).of_append
      exact hc.2.2.of_append.2
    obtain ⟨_, hd⟩ := hop.within hw
    refine ⟨hd, fun b hlog => (writes _ _ _ hh b).mpr ?_⟩
    -- The event of `b` lies behind `later`, the end of the operation and a part of `during`.
    obtain ⟨m, a, rfl⟩ := List.append_of_mem hlog
    refine ⟨p, later ++ .endOp p :: m, a ++ .beginOp p :: before, by simp, fun bs' hmem => ?_⟩
    rcases List.mem_append.mp hmem with h' | h'
    · exact hl bs' h'
    · rcases List.mem_cons.mp h' with h'' | h''
      · cases h''
      · exact hd bs' (List.mem_append_left _ h'')
  · intro hh
    have := hi.halted _ hh
    simp [Log.stillCommitting, Log.tooBig] at this
  · intro hh
    have := hi.halted _ hh
    simp [Log.outsideTrans, Log.tooBig] at this
  · rintro p hp ⟨hc, hf⟩
    rcases hi.asleep p hp with h' | h'
    · rw [hc] at h'
      cases h'
    · exact absurd hf (not_le.mpr h')

end Invariant

/-- Two operations of one group: process 0 logs block 5, process 1 logs block 7 and commits. -/
def twoOps : List (Act (Fin 2)) :=
  [.call 0, .tryBegin 0, .call 1, .tryBegin 1, .logCheck 0 5, .logAppend 0, .logCheck 1 7,
    .endOp 0, .logAppend 1, .endOp 1, .doCommit 1]

def afterTwoOps : St (Fin 2) := (runFrom twoOps (init (Fin 2) LOGSIZE)).get rfl

theorem group_commit_twoOps : afterTwoOps.log.committing = true ∧
    afterTwoOps.log.outstanding = 0 ∧ afterTwoOps.hist.head? = some (.commit [5, 7]) ∧
    5 ∈ [5, 7] ∧ afterTwoOps.halted ≠ some Log.stillCommitting := by
  have hrun : runFrom twoOps (init (Fin 2) LOGSIZE) = some afterTwoOps := (Option.some_get _).symm
  have h := group_commit (Reach.init.runFrom hrun)
  refine ⟨rfl, (h.1 rfl).1, rfl, ?_, h.2.2.2.1⟩
  refine (h.2.1 [] [5, 7] [.endOp 1, .log 1 7] 0 [.log 0 5, .beginOp 1] [] rfl ?_ ?_).2 5 ?_
  · simp [NoCommit]
  · simp [Within]
  · simp

end Xv6.Group
