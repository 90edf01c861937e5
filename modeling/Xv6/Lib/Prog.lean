import Mathlib.Logic.Function.Basic
import Mathlib.Tactic.SplitIfs

namespace Xv6.Lib
open Function

/-- How one action ends: with a value, not yet (the caller waits), or in a panic. -/
inductive Outcome (σ α : Type) where
  | done (a : α) (s : σ)
  | blocked
  | panic (msg : String)

namespace Outcome

variable {σ α : Type} {o : Outcome σ α}

/-- What is promised of an outcome: `Q` if it is done, `E` of the message if it is a panic. -/
def Sat (o : Outcome σ α) (E : String → Prop) (Q : α → σ → Prop) : Prop :=
  match o with
  | done a s => Q a s
  | blocked => True
  | panic m => E m

@[simp] theorem sat_done (a : α) (s : σ) (E : String → Prop) (Q : α → σ → Prop) :
    (done a s).Sat E Q ↔ Q a s := Iff.rfl

@[simp] theorem sat_blocked (E : String → Prop) (Q : α → σ → Prop) :
    (blocked : Outcome σ α).Sat E Q := trivial

theorem Sat.mono {E E' : String → Prop} {Q Q' : α → σ → Prop} (h : o.Sat E Q) (hE : ∀ m, E m → E' m)
    (hQ : ∀ a s, Q a s → Q' a s) : o.Sat E' Q' := by
  cases o with
  | done a s => exact hQ a s h
  | blocked => trivial
  | panic m => exact hE m h

def result : Outcome σ α → Option (α × σ)
  | done a s => some (a, s)
  | _ => none

def message : Outcome σ α → Option String
  | panic m => some m
  | _ => none

theorem eq_panic {m : String} (h : o.message = some m) : o = panic m := by
  cases o with
  | panic m' =>
    cases h
    rfl
  | done a s | blocked => cases h

theorem eq_done (h : o.result.isSome) : o = done (o.result.get h).1 (o.result.get h).2 := by
  cases o with
  | done a s => rfl
  | blocked | panic m => cases h

theorem eq_done_of_fst {a : α} (h : o.result.isSome) (ha : (o.result.get h).1 = a) :
    o = done a (o.result.get h).2 := by
  subst ha
  exact eq_done h

theorem eq_done_of_result {a : α} {s : σ} (h : o.result = some (a, s)) : o = done a s := by
  cases o with
  | done b t =>
    cases h
    rfl
  | blocked | panic m => cases h

end Outcome

/-- Programs: a result, an atomic action on the state, taking a lock, giving it
back, or asking whether it is taken. -/
inductive Prog (σ L α : Type) : Type 1 where
  | ret (a : α)
  | act {β : Type} (f : σ → Outcome σ β) (k : β → Prog σ L α)
  | acquire (l : L) (k : Prog σ L α)
  | release (l : L) (k : Prog σ L α)
  | held (l : L) (k : Bool → Prog σ L α)

/-- What all processes see: the state and the process that holds each lock. -/
structure Shared (σ L P : Type) where
  st : σ
  owner : L → Option P

namespace Prog

variable {σ L P α β γ : Type}

def bind : Prog σ L α → (α → Prog σ L β) → Prog σ L β
  | ret a, g => g a
  | act f k, g => act f fun b => (k b).bind g
  | acquire l k, g => acquire l (k.bind g)
  | release l k, g => release l (k.bind g)
  | held l k, g => held l fun b => (k b).bind g

instance : Monad (Prog σ L) where
  pure := ret
  bind := bind

@[simp] theorem pure_eq (a : α) : (pure a : Prog σ L α) = ret a := rfl

@[simp] theorem bind_eq (x : Prog σ L α) (g : α → Prog σ L β) : x >>= g = x.bind g := rfl

@[simp] theorem ret_bind (a : α) (g : α → Prog σ L β) : (ret a : Prog σ L α).bind g = g a := rfl

@[simp] theorem act_bind {δ : Type} (f : σ → Outcome σ δ) (k : δ → Prog σ L α)
    (g : α → Prog σ L β) : (act f k).bind g = act f fun b => (k b).bind g := rfl

@[simp] theorem acquire_bind (l : L) (k : Prog σ L α) (g : α → Prog σ L β) :
    (acquire l k).bind g = acquire l (k.bind g) := rfl

@[simp] theorem release_bind (l : L) (k : Prog σ L α) (g : α → Prog σ L β) :
    (release l k).bind g = release l (k.bind g) := rfl

@[simp] theorem held_bind (l : L) (k : Bool → Prog σ L α) (g : α → Prog σ L β) :
    (held l k).bind g = held l fun b => (k b).bind g := rfl

theorem bind_ret (x : Prog σ L α) : x.bind ret = x := by
  induction x with
  | ret a => rfl
  | act f k ih | held l k ih => simp only [bind, ih]
  | acquire l k ih | release l k ih => rw [bind, ih]

theorem bind_assoc (x : Prog σ L α) (g : α → Prog σ L β) (h : β → Prog σ L γ) :
    (x.bind g).bind h = x.bind fun a => (g a).bind h := by
  induction x with
  | ret a => rfl
  | act f k ih => simp only [act_bind, ih]
  | acquire l k ih => simp only [acquire_bind, ih]
  | release l k ih => simp only [release_bind, ih]
  | held l k ih => simp only [held_bind, ih]

def atomic (f : σ → Outcome σ α) : Prog σ L α := act f ret

def panic (m : String) : Prog σ L α := act (fun _ => .panic m) ret

def read (f : σ → α) : Prog σ L α := act (fun s => .done (f s) s) ret

def modify (f : σ → σ) : Prog σ L Unit := act (fun s => .done () (f s)) ret

def when (c : Prop) [Decidable c] (x : Prog σ L Unit) : Prog σ L Unit := if c then x else ret ()

def wants : Prog σ L α → Option L
  | acquire l _ => some l
  | _ => none

section Run

variable [DecidableEq L] {E' : String → Prop} {Q' : α → Shared σ L P → Prop} {x : Prog σ L α}

def run (p : P) : Prog σ L α → Shared σ L P → Outcome (Shared σ L P) α
  | ret a, s => .done a s
  | act f k, s => match f s.st with
    | .done b t => (k b).run p { s with st := t }
    | .blocked => .blocked
    | .panic m => .panic m
  | acquire l k, s => match s.owner l with
    | none => k.run p { s with owner := update s.owner l (some p) }
    | some _ => .blocked
  | release l k, s => k.run p { s with owner := update s.owner l none }
  | held l k, s => (k (s.owner l).isSome).run p s

/-- The weakest precondition of a run by one process, where panics with a
message in `E` are allowed and waiting for ever is. -/
def wp (p : P) (E : String → Prop) (x : Prog σ L α) (Q : α → Shared σ L P → Prop)
    (s : Shared σ L P) : Prop :=
  (x.run p s).Sat E Q

variable {p : P} {E : String → Prop} {Q : α → Shared σ L P → Prop} {s : Shared σ L P}

theorem run_bind (x : Prog σ L α) (g : α → Prog σ L β) (s : Shared σ L P) :
    (x.bind g).run p s = match x.run p s with
      | .done a t => (g a).run p t
      | .blocked => .blocked
      | .panic m => .panic m := by
  induction x generalizing s with
  | ret a => rfl
  | act f k ih =>
    simp only [act_bind, run]
    cases f s.st with
    | done b t => exact ih b _
    | blocked | panic m => rfl
  | acquire l k ih =>
    simp only [acquire_bind, run]
    cases s.owner l with
    | none => exact ih _
    | some q => rfl
  | release l k ih => exact ih _
  | held l k ih => exact ih _ _

@[simp] theorem wp_ret (a : α) : wp p E (ret a) Q s ↔ Q a s := Iff.rfl

@[simp] theorem wp_act {δ : Type} (f : σ → Outcome σ δ) (k : δ → Prog σ L α) :
    wp p E (act f k) Q s ↔ (f s.st).Sat E fun b t => wp p E (k b) Q { s with st := t } := by
  simp only [wp, run]
  cases f s.st <;> rfl

@[simp] theorem wp_acquire (l : L) (k : Prog σ L α) :
    wp p E (acquire l k) Q s ↔
      (s.owner l = none → wp p E k Q { s with owner := update s.owner l (some p) }) := by
  simp only [wp, run]
  cases h : s.owner l <;> simp

@[simp] theorem wp_release (l : L) (k : Prog σ L α) :
    wp p E (release l k) Q s ↔
      wp p E k Q { s with owner := update s.owner l none } := Iff.rfl

theorem wp_bind {R : β → Shared σ L P → Prop} (x : Prog σ L α) (g : α → Prog σ L β) :
    wp p E (x.bind g) R s ↔ wp p E x (fun a t => wp p E (g a) R t) s := by
  unfold wp
  rw [run_bind]
  cases x.run p s <;> rfl

@[simp] theorem wp_atomic (f : σ → Outcome σ α) :
    wp p E (atomic f) Q s ↔ (f s.st).Sat E fun a t => Q a { s with st := t } :=
  wp_act f ret

@[simp] theorem wp_panic (m : String) : wp p E (panic m) Q s ↔ E m := Iff.rfl

@[simp] theorem wp_read (f : σ → α) : wp p E (read f) Q s ↔ Q (f s.st) s := Iff.rfl

@[simp] theorem wp_modify {Q : Unit → Shared σ L P → Prop} (f : σ → σ) :
    wp p E (modify f) Q s ↔ Q () { s with st := f s.st } := Iff.rfl

theorem wp_when {Q : Unit → Shared σ L P → Prop} {c : Prop} [Decidable c] {x : Prog σ L Unit} :
    wp p E (when c x) Q s ↔ if c then wp p E x Q s else Q () s := by
  unfold when
  split_ifs <;> rfl

theorem wp_mono (h : wp p E x Q s) (hE : ∀ m, E m → E' m) (hQ : ∀ a t, Q a t → Q' a t) :
    wp p E' x Q' s :=
  Outcome.Sat.mono h hE hQ

theorem wp_imp (h : wp p E x Q s) (hQ : ∀ a t, Q a t → Q' a t) : wp p E x Q' s :=
  wp_mono h (fun _ => id) hQ

theorem wp_and (h : wp p E x Q s) (h' : wp p E' x Q' s) :
    wp p E x (fun a t => Q a t ∧ Q' a t) s := by
  unfold wp at *
  cases hx : x.run p s with
  | done a t => rw [hx] at h h'; exact ⟨h, h'⟩
  | blocked => trivial
  | panic m => rw [hx] at h; exact h

theorem wp_done {a : α} {t : Shared σ L P} (h : wp p E x Q s) (hx : x.run p s = .done a t) :
    Q a t := by
  unfold wp at h
  rwa [hx] at h

end Run

end Prog

end Xv6.Lib
