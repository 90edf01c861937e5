import Xv6.Lib.Halt
import Xv6.Lib.Triple

namespace Xv6.Lib.Prog

variable {σ L P α β : Type}

/-- The program does nothing with locks, and no action of it waits. -/
def Prompt : Prog σ L α → Prop
  | ret _ => True
  | act f k => (∀ s, f s ≠ .blocked) ∧ ∀ b, (k b).Prompt
  | acquire .. => False
  | release .. => False
  | held .. => False

namespace Prompt

variable {x : Prog σ L α}

theorem bind {f : α → Prog σ L β} (hx : x.Prompt) (hf : ∀ a, (f a).Prompt) :
    (x.bind f).Prompt := by
  induction x with
  | ret a => exact hf a
  | act g k ih => exact ⟨hx.1, fun b => ih b (hx.2 b)⟩
  | acquire l k ih | release l k ih | held l k ih => exact hx.elim

theorem atomic {f : σ → Outcome σ α} (h : ∀ s, f s ≠ .blocked) :
    (Prog.atomic f : Prog σ L α).Prompt := ⟨h, fun _ => trivial⟩

theorem read (f : σ → α) : (Prog.read f : Prog σ L α).Prompt := atomic fun _ => nofun

theorem modify (f : σ → σ) : (Prog.modify f : Prog σ L Unit).Prompt := atomic fun _ => nofun

theorem panic (m : String) : (Prog.panic m : Prog σ L α).Prompt := atomic fun _ => nofun

theorem ite {c : Prop} [Decidable c] {y : Prog σ L α} (hx : x.Prompt) (hy : y.Prompt) :
    (if c then x else y).Prompt := by
  split_ifs
  · exact hx
  · exact hy

end Prompt

section Finish

variable [DecidableEq L]

/-- `E` has the message of the panic, or `none` if the run waits for ever. -/
def Finishes (p : P) (E : Option String → Prop) (x : Prog σ L α) (s : Shared σ L P)
    (Q : α → Shared σ L P → Prop) : Prop :=
  match x.run p s with
  | .done a t => Q a t
  | .blocked => E none
  | .panic m => E (some m)

namespace Finishes

variable {p : P} {E E' : Option String → Prop} {s t : Shared σ L P} {Q Q' : α → Shared σ L P → Prop}
  {x : Prog σ L α} {R : β → Shared σ L P → Prop} {f : σ → σ} {l : L} {a : α}

theorem of_run (hx : x.run p s = .done a t) (h : Q a t) : Finishes p E x s Q := by
  unfold Finishes
  rw [hx]
  exact h

theorem ret (h : Q a s) : Finishes p E (Prog.ret a : Prog σ L α) s Q := h

theorem conseq (h : Finishes p E x s Q) (hE : ∀ m, E m → E' m) (hQ : ∀ a t, Q a t → Q' a t) :
    Finishes p E' x s Q' := by
  unfold Finishes at h ⊢
  cases hx : x.run p s with
  | done a t =>
    rw [hx] at h
    exact hQ a t h
  | blocked | panic m =>
    rw [hx] at h
    exact hE _ h

theorem mono (h : Finishes p E x s Q) (hQ : ∀ a t, Q a t → Q' a t) : Finishes p E x s Q' :=
  h.conseq (fun _ => id) hQ

theorem bind {f : α → Prog σ L β} (h : Finishes p E x s Q)
    (hf : ∀ a t, Q a t → Finishes p E (f a) t R) : Finishes p E (x.bind f) s R := by
  unfold Finishes at h ⊢
  rw [run_bind]
  cases hx : x.run p s with
  | done a t =>
    rw [hx] at h
    exact hf a t h
  | blocked | panic m =>
    rw [hx] at h
    exact h

theorem bind2 {γ : Type} {x : Prog σ L β} {f : β → Prog σ L α} {g : α → Prog σ L γ}
    {R : γ → Shared σ L P → Prop} (h : Finishes p E (x.bind f) s Q)
    (hg : ∀ a t, Q a t → Finishes p E (g a) t R) :
    Finishes p E (x.bind fun b => (f b).bind g) s R := by
  rw [← bind_assoc]
  exact h.bind hg

theorem ite {c : Prop} [Decidable c] {y : Prog σ L α} (hx : c → Finishes p E x s Q)
    (hy : ¬ c → Finishes p E y s Q) : Finishes p E (if c then x else y) s Q := by
  split_ifs with hc
  · exact hx hc
  · exact hy hc

theorem when {c : Prop} [Decidable c] {x : Prog σ L Unit} {Q : Unit → Shared σ L P → Prop}
    (hx : c → Finishes p E x s Q) (hn : ¬ c → Q () s) : Finishes p E (Prog.when c x) s Q :=
  Finishes.ite hx fun hc => .ret (hn hc)

theorem bind_read {f : σ → α} {g : α → Prog σ L β} (h : Finishes p E (g (f s.st)) s R) :
    Finishes p E ((Prog.read f).bind g) s R := h

theorem modify {Q : Unit → Shared σ L P → Prop} (h : Q () ⟨f s.st, s.owner⟩) :
    Finishes p E (Prog.modify f : Prog σ L Unit) s Q := h

theorem bind_modify {g : Unit → Prog σ L β} (h : Finishes p E (g ()) ⟨f s.st, s.owner⟩ R) :
    Finishes p E ((Prog.modify f).bind g) s R := h

theorem atomic {f : σ → Outcome σ α} {t : σ} (hf : f s.st = .done a t)
    (h : Q a ⟨t, s.owner⟩) : Finishes p E (Prog.atomic f : Prog σ L α) s Q := by
  refine .of_run (a := a) (t := ⟨t, s.owner⟩) ?_ h
  simp only [Prog.atomic, Prog.run, hf]

theorem atomic_panic {f : σ → Outcome σ α} {m : String} (hf : f s.st = .panic m)
    (h : E (some m)) : Finishes p E (Prog.atomic f : Prog σ L α) s Q := by
  unfold Finishes
  simp only [Prog.atomic, Prog.run, hf]
  exact h

theorem atomic_owner {f : σ → Outcome σ α} :
    Finishes p (fun _ => True) (Prog.atomic f : Prog σ L α) s fun _ t => t.owner = s.owner := by
  unfold Finishes
  simp only [Prog.atomic, Prog.run]
  cases f s.st with
  | done a t => rfl
  | blocked | panic m => trivial

theorem acquire (hl : s.owner l = none)
    (h : Finishes p E x ⟨s.st, Function.update s.owner l (some p)⟩ Q) :
    Finishes p E (Prog.acquire l x) s Q := by
  unfold Finishes
  simp only [Prog.run, hl]
  exact h

theorem acquire_held {q : P} (hl : s.owner l = some q) (h : E none) :
    Finishes p E (Prog.acquire l x) s Q := by
  unfold Finishes
  simp only [Prog.run, hl]
  exact h

theorem release (h : Finishes p E x ⟨s.st, Function.update s.owner l none⟩ Q) :
    Finishes p E (Prog.release l x) s Q := h

theorem held {x : Bool → Prog σ L α} (h : Finishes p E (x (s.owner l).isSome) s Q) :
    Finishes p E (Prog.held l x) s Q := h

theorem of_done (h : Finishes p E x s Q) (hx : x.run p s = .done a t) : Q a t := by
  unfold Finishes at h
  rwa [hx] at h

theorem does {F : String → Prop} {Q' : α → σ → Prop} (h : Finishes p E x s Q)
    (hd : Does p F x s.st Q') : Finishes p E x s fun a t => Q a t ∧ Q' a t.st := by
  unfold Finishes at h ⊢
  cases hx : x.run p s with
  | done a t =>
    rw [hx] at h
    exact ⟨h, hd.run hx⟩
  | blocked | panic m =>
    rw [hx] at h
    exact h

theorem of_does {F : String → Prop} {Q' : α → σ → Prop} (hd : Does p F x s.st Q') :
    Finishes p (fun _ => True) x s fun a t => Q' a t.st := by
  unfold Finishes
  cases hx : x.run p s with
  | done a t => exact hd.run hx
  | blocked | panic m => trivial

/-- The messages that are left to the run are those that are left to a partial specification. -/
theorem and_does {F : String → Prop} {Q' : α → σ → Prop}
    (h : Finishes p (fun e => e ≠ none) x s Q) (hd : Does p F x s.st Q') :
    Finishes p (fun e => ∃ m, F m ∧ e = some m) x s fun a t => Q a t ∧ Q' a t.st := by
  have ho : (x.run p s).Sat F fun a t => Q' a t.st := hd s.owner
  unfold Finishes at h ⊢
  cases hx : x.run p s with
  | done a t =>
    rw [hx] at h ho
    exact ⟨h, ho⟩
  | blocked =>
    rw [hx] at h
    exact absurd rfl h
  | panic m =>
    rw [hx] at ho
    exact ⟨m, ho, rfl⟩

theorem run (h : Finishes p (fun _ => False) x s Q) : ∃ a t, x.run p s = .done a t ∧ Q a t := by
  unfold Finishes at h
  cases hx : x.run p s with
  | done a t =>
    rw [hx] at h
    exact ⟨a, t, rfl, h⟩
  | blocked | panic m =>
    rw [hx] at h
    exact h.elim

theorem exactly {c : Prop} {m : String}
    (h : Finishes p (fun e => e = some m ∧ ¬ c) x s fun a t => c ∧ Q a t) :
    (c → ∃ a t, x.run p s = .done a t ∧ Q a t) ∧ (¬ c → x.run p s = .panic m) := by
  unfold Finishes at h
  cases hx : x.run p s with
  | done a t =>
    rw [hx] at h
    exact ⟨fun _ => ⟨a, t, rfl, h.2⟩, fun hc => absurd h.1 hc⟩
  | blocked =>
    rw [hx] at h
    cases h.1
  | panic m' =>
    rw [hx] at h
    cases h.1
    exact ⟨fun hc => absurd hc h.2, fun _ => rfl⟩

end Finishes

theorem Prompt.finishes {p : P} {s : Shared σ L P} {x : Prog σ L α} (hx : x.Prompt) :
    Finishes p (fun e => e ≠ none) x s fun _ t => t.owner = s.owner := by
  unfold Finishes
  induction x generalizing s with
  | ret b => rfl
  | act f k ih =>
    simp only [Prog.run]
    cases hf : f s.st with
    | done b u => exact ih b (s := ⟨u, s.owner⟩) (hx.2 b)
    | blocked => exact absurd hf (hx.1 _)
    | panic m => exact Option.some_ne_none m
  | acquire l k ih | release l k ih | held l k ih => exact hx.elim

theorem Halts.does {p : P} {E : String → Prop} {x : Prog σ L α} {s : σ} {Q : α → σ → Prop}
    (h : Halts p (fun _ _ => False) x s Q) : Does p E x s Q := by
  intro o
  obtain ⟨a, t, hx, ht⟩ := h.run o
  unfold wp
  rw [hx]
  exact ht

end Finish

end Xv6.Lib.Prog
