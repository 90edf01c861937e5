import Xv6.Lib.Prog
import Mathlib.Order.RelClasses

namespace Xv6.Lib
open Function

/-- The shared state and what each process has still to do. -/
structure Config (σ L P α : Type) where
  shared : Shared σ L P
  prog : P → Prog σ L α

namespace Config

variable {σ L P α : Type} [DecidableEq L] [DecidableEq P] {C : Config σ L P α → P → Prop}
  {c d e : Config σ L P α}

/-- One action of process `p`, if it has one and does not wait or panic. -/
def step (p : P) (c : Config σ L P α) : Option (Config σ L P α) :=
  match c.prog p with
  | .ret _ => none
  | .act f k => match f c.shared.st with
    | .done b t => some ⟨{ c.shared with st := t }, update c.prog p (k b)⟩
    | .blocked => none
    | .panic _ => none
  | .acquire l k => match c.shared.owner l with
    | none => some ⟨{ c.shared with owner := update c.shared.owner l (some p) },
        update c.prog p k⟩
    | some _ => none
  | .release l k => some ⟨{ c.shared with owner := update c.shared.owner l none },
      update c.prog p k⟩
  | .held l k => some ⟨c.shared, update c.prog p (k (c.shared.owner l).isSome)⟩

/-- The panic that process `p` is about to run into. -/
def panics (p : P) (c : Config σ L P α) : Option String :=
  match c.prog p with
  | .act f _ => match f c.shared.st with
    | .panic m => some m
    | _ => none
  | _ => none

/-- A schedule: the processes in the order in which they act. -/
def exec : List P → Config σ L P α → Option (Config σ L P α)
  | [], c => some c
  | p :: ps, c => (step p c).bind (exec ps)

/-- The runs from `c` in which every step is taken in a configuration that allows it. -/
inductive Run (C : Config σ L P α → P → Prop) (c : Config σ L P α) : Config σ L P α → Prop where
  | refl : Run C c c
  | tail {d e : Config σ L P α} {p : P} : Run C c d → C d p → step p d = some e → Run C c e

abbrev Reach (c d : Config σ L P α) : Prop := Run (fun _ _ => True) c d

theorem Run.head {p : P} (hc : C c p) (hs : step p c = some d) (h : Run C d e) : Run C c e := by
  induction h with
  | refl => exact .tail .refl hc hs
  | tail _ hC hst ih => exact .tail ih hC hst

theorem reach_of_exec {ps : List P} (h : exec ps c = some d) : Reach c d := by
  induction ps generalizing c with
  | nil => cases h; exact .refl
  | cons p ps ih =>
    obtain ⟨e, he, hd⟩ := Option.bind_eq_some_iff.mp h
    exact .head trivial he (ih hd)

/-- Runs together with the number of their steps that are marked by `M`. -/
inductive RunCount (C M : Config σ L P α → P → Prop) (c : Config σ L P α) :
    ℕ → Config σ L P α → Prop where
  | refl : RunCount C M c 0 c
  | tail {n : ℕ} {d e : Config σ L P α} {p : P} :
      RunCount C M c n d → C d p → ¬ M d p → step p d = some e → RunCount C M c n e
  | mark {n : ℕ} {d e : Config σ L P α} {p : P} :
      RunCount C M c n d → C d p → M d p → step p d = some e → RunCount C M c (n + 1) e

/-- The schedule passes only configurations that pass the test. -/
def along (test : Config σ L P α → Bool) : List P → Config σ L P α → Bool
  | [], _ => true
  | p :: ps, c => test c && (step p c).all (along test ps)

theorem RunCount.exec {M : Config σ L P α → P → Prop} {test : Config σ L P α → Bool}
    (ht : ∀ c p, test c = true → C c p) {n : ℕ} {ps : List P} (h : RunCount C M c n d)
    (ha : along test ps d = true) (he : Config.exec ps d = some e) : ∃ m, RunCount C M c m e := by
  induction ps generalizing d n with
  | nil => cases he; exact ⟨n, h⟩
  | cons p ps ih =>
    obtain ⟨d', hd, he'⟩ := Option.bind_eq_some_iff.mp he
    simp only [along, hd, Bool.and_eq_true, Option.all_some] at ha
    by_cases hM : M d p
    · exact ih (.mark h (ht d p ha.1) hM hd) ha.2 he'
    · exact ih (.tail h (ht d p ha.1) hM hd) ha.2 he'

/-- The steps of process `p`, one for each kind of action. -/
inductive Acts (p : P) (c : Config σ L P α) : Config σ L P α → Prop where
  | act {β : Type} {f : σ → Outcome σ β} {k : β → Prog σ L α} {b : β} {t : σ} :
      c.prog p = .act f k → f c.shared.st = .done b t →
      Acts p c ⟨{ c.shared with st := t }, update c.prog p (k b)⟩
  | acquire {l : L} {k : Prog σ L α} : c.prog p = .acquire l k → c.shared.owner l = none →
      Acts p c ⟨{ c.shared with owner := update c.shared.owner l (some p) }, update c.prog p k⟩
  | release {l : L} {k : Prog σ L α} : c.prog p = .release l k →
      Acts p c ⟨{ c.shared with owner := update c.shared.owner l none }, update c.prog p k⟩
  | held {l : L} {k : Bool → Prog σ L α} : c.prog p = .held l k →
      Acts p c ⟨c.shared, update c.prog p (k (c.shared.owner l).isSome)⟩

theorem acts_of_step {p : P} (hs : step p c = some d) : Acts p c d := by
  unfold step at hs
  split at hs
  · cases hs
  · next hc =>
    split at hs
    · next hf =>
      cases hs
      exact .act hc hf
    · cases hs
    · cases hs
  · next hc =>
    split at hs
    · next ho =>
      cases hs
      exact .acquire hc ho
    · cases hs
  · next hc =>
    cases hs
    exact .release hc
  · next hc =>
    cases hs
    exact .held hc

theorem step_prog_of_ne {p q : P} (hs : step p c = some d) (h : q ≠ p) : d.prog q = c.prog q := by
  cases acts_of_step hs <;> exact update_of_ne h _ _

end Config

namespace Prog

section Child

variable {σ L P α : Type}

/-- `y` is what can be left of `x` after its first action. -/
inductive Child : Prog σ L α → Prog σ L α → Prop where
  | act {β : Type} (f : σ → Outcome σ β) (k : β → Prog σ L α) (b : β) : Child (k b) (act f k)
  | acquire (l : L) (k : Prog σ L α) : Child k (acquire l k)
  | release (l : L) (k : Prog σ L α) : Child k (release l k)
  | held (l : L) (k : Bool → Prog σ L α) (b : Bool) : Child (k b) (held l k)

theorem child_wf : WellFounded (Child : Prog σ L α → Prog σ L α → Prop) := by
  refine ⟨fun x => ?_⟩
  induction x with
  | ret a => exact ⟨_, fun y h => by cases h⟩
  | act f k ih | held l k ih => exact ⟨_, fun y h => by cases h; exact ih _⟩
  | acquire l k ih | release l k ih => exact ⟨_, fun y h => by cases h; exact ih⟩

theorem not_transGen_child (x : Prog σ L α) : ¬ Relation.TransGen Child x x :=
  fun h => child_wf.transGen.asymmetric _ _ h h

theorem step_child [DecidableEq L] [DecidableEq P] {p : P} {c d : Config σ L P α}
    (hs : c.step p = some d) : Child (d.prog p) (c.prog p) := by
  cases Config.acts_of_step hs with
  | act hc | acquire hc | release hc | held hc =>
    dsimp only
    rw [hc, update_self]
    constructor

end Child

variable {σ L P α β : Type} {x : Prog σ L α} {f : α → Prog σ L β}

/-- The actions of the program keep `I`, and it takes and gives back no lock. -/
def Keeps (I : σ → Prop) : Prog σ L α → Prop
  | ret _ => True
  | act f k => (∀ s, I s → (f s).Sat (fun _ => True) fun _ t => I t) ∧ ∀ b, (k b).Keeps I
  | acquire _ _ => False
  | release _ _ => False
  | held _ k => ∀ b, (k b).Keeps I

theorem Keeps.bind {I : σ → Prop} (h : x.Keeps I) (hf : ∀ a, (f a).Keeps I) :
    (x.bind f).Keeps I := by
  induction x with
  | ret a => exact hf a
  | act g k ih => exact ⟨h.1, fun b => ih b (h.2 b)⟩
  | acquire l k ih | release l k ih => exact h.elim
  | held l k ih => exact fun b => ih b (h b)

theorem Keeps.atomic {I : σ → Prop} {f : σ → Outcome σ α}
    (h : ∀ s, I s → (f s).Sat (fun _ => True) fun _ t => I t) :
    (Prog.atomic f : Prog σ L α).Keeps I := ⟨h, fun _ => trivial⟩

theorem Keeps.read {I : σ → Prop} {f : σ → α} : (Prog.read f : Prog σ L α).Keeps I :=
  ⟨fun _ h => h, fun _ => trivial⟩

theorem Keeps.modify {I : σ → Prop} {f : σ → σ} (h : ∀ s, I s → I (f s)) :
    (Prog.modify f : Prog σ L Unit).Keeps I := ⟨h, fun _ => trivial⟩

theorem Keeps.when {I : σ → Prop} {c : Prop} [Decidable c] {x : Prog σ L Unit} (h : x.Keeps I) :
    (Prog.when c x).Keeps I := by
  unfold Prog.when
  split_ifs
  · exact h
  · trivial

variable [DecidableEq L]

/-- If `p` runs the program and the others do nothing, `I` holds before every action and `Q` at
the end. -/
def Always (p : P) (I : Shared σ L P → Prop) (Q : α → Shared σ L P → Prop) :
    Prog σ L α → Shared σ L P → Prop
  | ret a, s => Q a s
  | act f k, s => I s ∧ (f s.st).Sat (fun _ => True) fun b t =>
      (k b).Always p I Q { s with st := t }
  | acquire l k, s => I s ∧ (s.owner l = none →
      k.Always p I Q { s with owner := update s.owner l (some p) })
  | release l k, s => I s ∧ k.Always p I Q { s with owner := update s.owner l none }
  | held l k, s => I s ∧ (k (s.owner l).isSome).Always p I Q s

variable {p : P} {I : Shared σ L P → Prop} {Q : α → Shared σ L P → Prop} {s : Shared σ L P}

theorem Always.bind {R : β → Shared σ L P → Prop}
    (h : x.Always p I (fun a t => (f a).Always p I R t) s) : (x.bind f).Always p I R s := by
  induction x generalizing s with
  | ret a => exact h
  | act g k ih =>
    refine ⟨h.1, h.2.mono (fun _ => id) ?_⟩
    intro b t ht
    exact ih b ht
  | acquire l k ih => exact ⟨h.1, fun ho => ih (h.2 ho)⟩
  | release l k ih => exact ⟨h.1, ih h.2⟩
  | held l k ih => exact ⟨h.1, ih _ h.2⟩

theorem Always.mono {Q' : α → Shared σ L P → Prop} (h : x.Always p I Q s)
    (hQ : ∀ a t, Q a t → Q' a t) : x.Always p I Q' s := by
  induction x generalizing s with
  | ret a => exact hQ a s h
  | act g k ih => exact ⟨h.1, h.2.mono (fun _ => id) fun b t ht => ih b ht⟩
  | acquire l k ih => exact ⟨h.1, fun ho => ih (h.2 ho)⟩
  | release l k ih => exact ⟨h.1, ih h.2⟩
  | held l k ih => exact ⟨h.1, ih _ h.2⟩

theorem Keeps.always {I : σ → Prop} (h : x.Keeps I) (hI : I s.st) (hx : wp p (fun _ => True) x Q s) :
    x.Always p (fun t => I t.st) (fun a t => I t.st ∧ Q a t) s := by
  induction x generalizing s with
  | ret a => exact ⟨hI, hx⟩
  | act f k ih =>
    refine ⟨hI, ?_⟩
    have h1 := h.1 s.st hI
    rw [wp_act] at hx
    cases hf : f s.st with
    | done b t =>
      rw [hf] at h1 hx
      exact ih b (h.2 b) h1 hx
    | blocked | panic m => trivial
  | acquire l k ih | release l k ih => exact h.elim
  | held l k ih => exact ⟨hI, ih _ (h _) hI hx⟩

theorem Always.step [DecidableEq P] {c d : Config σ L P α} (hs : c.step p = some d)
    (h : (c.prog p).Always p I Q c.shared) : (d.prog p).Always p I Q d.shared := by
  cases Config.acts_of_step hs with
  | act hc hf =>
    rw [hc] at h
    have h2 := h.2
    simp only [hf] at h2
    simpa using h2
  | acquire hc ho =>
    rw [hc] at h
    simpa using h.2 ho
  | release hc | held hc =>
    rw [hc] at h
    simpa using h.2

end Prog

/-- A ghost discipline: the invariant, the locks a process may wait for in a
ghost state, and the panics that are not excluded. -/
structure Protocol (σ L P Γ : Type) where
  Inv : Shared σ L P → (P → Γ) → Prop
  May : P → Γ → L → Prop
  Err : String → Prop

namespace Prog

variable {σ L P Γ α β : Type} [DecidableEq L] [DecidableEq P] {x : Prog σ L α}

/-- Every action of the program keeps the invariant, whatever other processes
do in between, if the process's ghost value is updated along with it. -/
def Safe (R : Protocol σ L P Γ) (p : P) (Q : α → Γ → Prop) : Prog σ L α → Γ → Prop
  | ret a, g => Q a g
  | act f k, g => ∀ s G, R.Inv s G → G p = g → (f s.st).Sat R.Err fun b t =>
      ∃ g', R.Inv { s with st := t } (update G p g') ∧ (k b).Safe R p Q g'
  | acquire l k, g => R.May p g l ∧ ∀ s G, R.Inv s G → G p = g → s.owner l = none →
      ∃ g', R.Inv { s with owner := update s.owner l (some p) }
        (update G p g') ∧ k.Safe R p Q g'
  | release l k, g => ∀ s G, R.Inv s G → G p = g →
      ∃ g', R.Inv { s with owner := update s.owner l none }
        (update G p g') ∧ k.Safe R p Q g'
  | held l k, g => ∀ s G, R.Inv s G → G p = g → (k (s.owner l).isSome).Safe R p Q g

variable {R : Protocol σ L P Γ} {p : P} {Q : α → Γ → Prop} {g : Γ}

theorem Safe.bind {Q' : β → Γ → Prop} {f : α → Prog σ L β} (h : x.Safe R p Q g)
    (hf : ∀ a g', Q a g' → (f a).Safe R p Q' g') : (x.bind f).Safe R p Q' g := by
  induction x generalizing g with
  | ret a => exact hf a g h
  | act a k ih =>
    intro s G hi hg
    refine (h s G hi hg).mono (fun _ => id) ?_
    rintro b t ⟨g', hi', hk⟩
    exact ⟨g', hi', ih b hk⟩
  | acquire l k ih =>
    refine ⟨h.1, fun s G hi hg ho => ?_⟩
    obtain ⟨g', hi', hk⟩ := h.2 s G hi hg ho
    exact ⟨g', hi', ih hk⟩
  | release l k ih =>
    intro s G hi hg
    obtain ⟨g', hi', hk⟩ := h s G hi hg
    exact ⟨g', hi', ih hk⟩
  | held l k ih =>
    intro s G hi hg
    exact ih _ (h s G hi hg)

theorem Safe.mono {Q' : α → Γ → Prop} (h : x.Safe R p Q g) (hQ : ∀ a g, Q a g → Q' a g) :
    x.Safe R p Q' g := by
  have hbind : (x.bind Prog.ret).Safe R p Q' g := h.bind hQ
  rwa [bind_ret] at hbind

theorem Safe.atomic {f : σ → Outcome σ α}
    (h : ∀ s G, R.Inv s G → G p = g → (f s.st).Sat R.Err fun a t =>
      ∃ g', R.Inv { s with st := t } (update G p g') ∧ Q a g') :
    (Prog.atomic f).Safe R p Q g := h

theorem Safe.read {f : σ → α} (h : ∀ s G, R.Inv s G → G p = g → Q (f s.st) g) :
    (Prog.read f).Safe R p Q g := by
  intro s G hi hg
  refine ⟨g, ?_, h s G hi hg⟩
  rwa [← hg, update_eq_self]

theorem Safe.modify {Q : Unit → Γ → Prop} {f : σ → σ}
    (h : ∀ s G, R.Inv s G → G p = g →
      ∃ g', R.Inv { s with st := f s.st } (update G p g') ∧ Q () g') :
    (Prog.modify f).Safe R p Q g := h

end Prog

namespace Config

variable {σ L P Γ α : Type} [DecidableEq L] [DecidableEq P] {p : P}

/-- The invariant holds and every process has a safe rest of its program. -/
def AllSafe (R : Protocol σ L P Γ) (Q : P → α → Γ → Prop) (c : Config σ L P α) : Prop :=
  ∃ G, R.Inv c.shared G ∧ ∀ p, (c.prog p).Safe R p (Q p) (G p)

variable {R : Protocol σ L P Γ} {Q : P → α → Γ → Prop} {c d : Config σ L P α}

theorem safe_update {G : P → Γ} {pr : P → Prog σ L α} {x : Prog σ L α} {g : Γ}
    (h : ∀ q, (pr q).Safe R q (Q q) (G q)) (hx : x.Safe R p (Q p) g) (q : P) :
    (update pr p x q).Safe R q (Q q) (update G p g q) := by
  by_cases hq : q = p
  · subst hq
    simpa using hx
  · simpa [update_of_ne hq] using h q

theorem AllSafe.step (h : AllSafe R Q c) (hs : step p c = some d) : AllSafe R Q d := by
  obtain ⟨G, hi, hp⟩ := h
  have hpp := hp p
  cases acts_of_step hs with
  | act hc hf =>
    rw [hc] at hpp
    have ha := hpp c.shared G hi rfl
    simp only [hf] at ha
    obtain ⟨g', hi', hk⟩ := ha
    exact ⟨_, hi', safe_update hp hk⟩
  | acquire hc ho =>
    rw [hc] at hpp
    obtain ⟨g', hi', hk⟩ := hpp.2 c.shared G hi rfl ho
    exact ⟨_, hi', safe_update hp hk⟩
  | release hc =>
    rw [hc] at hpp
    obtain ⟨g', hi', hk⟩ := hpp c.shared G hi rfl
    exact ⟨_, hi', safe_update hp hk⟩
  | held hc =>
    rw [hc] at hpp
    refine ⟨G, hi, fun q => ?_⟩
    have hq := safe_update (g := G p) hp (hpp c.shared G hi rfl) q
    rwa [update_eq_self] at hq

theorem AllSafe.run {C : Config σ L P α → P → Prop} (h : AllSafe R Q c) (hr : Run C c d) :
    AllSafe R Q d := by
  induction hr with
  | refl => exact h
  | tail _ _ hs ih => exact ih.step hs

theorem AllSafe.panics {m : String} (h : AllSafe R Q c) (hm : panics p c = some m) : R.Err m := by
  obtain ⟨G, hi, hp⟩ := h
  have hpp := hp p
  unfold Config.panics at hm
  cases hc : c.prog p with
  | act f k =>
    rw [hc] at hm hpp
    have ha := hpp c.shared G hi rfl
    cases hf : f c.shared.st with
    | panic m' =>
      simp only [hf] at hm ha
      cases hm
      exact ha
    | done b t | blocked => simp only [hf] at hm; cases hm
  | ret a | acquire l k | release l k | held l k => rw [hc] at hm; cases hm

end Config

end Xv6.Lib
