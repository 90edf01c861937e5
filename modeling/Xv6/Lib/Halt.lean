import Xv6.Lib.Prog

namespace Xv6.Lib.Prog

variable {σ L P α β : Type} [DecidableEq L]

def last (p : P) : Prog σ L α → Shared σ L P → Shared σ L P
  | ret _, s => s
  | act f k, s => match f s.st with
    | .done b t => (k b).last p { s with st := t }
    | .blocked => s
    | .panic _ => s
  | acquire l k, s => match s.owner l with
    | none => k.last p { s with owner := Function.update s.owner l (some p) }
    | some _ => s
  | release l k, s => k.last p { s with owner := Function.update s.owner l none }
  | held l k, s => (k (s.owner l).isSome).last p s

variable {p : P}

theorem last_bind (x : Prog σ L α) (g : α → Prog σ L β) (s : Shared σ L P) :
    (x.bind g).last p s = match x.run p s with
      | .done a t => (g a).last p t
      | .blocked => x.last p s
      | .panic _ => x.last p s := by
  induction x generalizing s with
  | ret a => rfl
  | act f k ih =>
    simp only [act_bind, run, last]
    cases f s.st with
    | done b t => exact ih b _
    | blocked | panic m => rfl
  | acquire l k ih =>
    simp only [acquire_bind, run, last]
    cases s.owner l with
    | none => exact ih _
    | some q => rfl
  | release l k ih => exact ih _
  | held l k ih => exact ih _ _

theorem last_of_done {x : Prog σ L α} {a : α} {s t : Shared σ L P} (h : x.run p s = .done a t) :
    x.last p s = t := by
  induction x generalizing s with
  | ret b =>
    cases h
    rfl
  | act f k ih =>
    simp only [run, last] at h ⊢
    cases hf : f s.st with
    | done b u =>
      rw [hf] at h
      exact ih b h
    | blocked | panic m =>
      rw [hf] at h
      cases h
  | acquire l k ih =>
    simp only [run, last] at h ⊢
    cases ho : s.owner l with
    | none =>
      rw [ho] at h
      exact ih h
    | some q =>
      rw [ho] at h
      cases h
  | release l k ih => exact ih h
  | held l k ih => exact ih _ h

/-- `E` has the message of the panic, or `none` if the run waits. -/
def Halts (p : P) (E : Option String → σ → Prop) (x : Prog σ L α) (s : σ) (Q : α → σ → Prop) :
    Prop :=
  ∀ o : L → Option P, match x.run p ⟨s, o⟩ with
    | .done a t => Q a t.st
    | .blocked => E none (x.last p ⟨s, o⟩).st
    | .panic m => E (some m) (x.last p ⟨s, o⟩).st

namespace Halts

variable {E : Option String → σ → Prop} {s : σ} {Q : α → σ → Prop} {x : Prog σ L α}
  {E' : Option String → σ → Prop} {Q' : α → σ → Prop} {R : β → σ → Prop} {l : L}

theorem ret {a : α} (h : Q a s) : Halts p E (Prog.ret a : Prog σ L α) s Q := fun _ => h

theorem mono (h : Halts p E x s Q) (hE : ∀ m t, E m t → E' m t) (hQ : ∀ a t, Q a t → Q' a t) :
    Halts p E' x s Q' := by
  intro o
  have ho := h o
  cases hx : x.run p ⟨s, o⟩ with
  | done a t =>
    rw [hx] at ho
    exact hQ a t.st ho
  | blocked | panic m =>
    rw [hx] at ho
    exact hE _ _ ho

theorem and (h : Halts p E x s Q) (h' : Halts p E' x s Q') :
    Halts p (fun m t => E m t ∧ E' m t) x s fun a t => Q a t ∧ Q' a t := by
  intro o
  have ho := h o
  have ho' := h' o
  cases hx : x.run p ⟨s, o⟩ with
  | done a t | blocked | panic m =>
    rw [hx] at ho ho'
    exact ⟨ho, ho'⟩

theorem bind {f : α → Prog σ L β} (h : Halts p E x s Q) (hf : ∀ a t, Q a t → Halts p E (f a) t R) :
    Halts p E (x.bind f) s R := by
  intro o
  have ho := h o
  rw [run_bind, last_bind]
  cases hx : x.run p ⟨s, o⟩ with
  | done a t =>
    rw [hx] at ho
    exact hf a t.st ho t.owner
  | blocked | panic m =>
    rw [hx] at ho
    exact ho

theorem panic {m : String} (h : E (some m) s) : Halts p E (Prog.panic m : Prog σ L α) s Q :=
  fun _ => h

theorem ite {c : Prop} [Decidable c] {y : Prog σ L α} (hx : c → Halts p E x s Q)
    (hy : ¬ c → Halts p E y s Q) : Halts p E (if c then x else y) s Q := by
  split_ifs with hc
  · exact hx hc
  · exact hy hc

theorem when {c : Prop} [Decidable c] {x : Prog σ L Unit} {Q : Unit → σ → Prop}
    (hx : c → Halts p E x s Q) (hn : ¬ c → Q () s) : Halts p E (Prog.when c x) s Q :=
  Halts.ite hx fun hc => .ret (hn hc)

theorem bind_read {f : σ → α} {g : α → Prog σ L β} (h : Halts p E (g (f s)) s R) :
    Halts p E ((Prog.read f).bind g) s R := fun o => h o

theorem bind_modify {f : σ → σ} {g : Unit → Prog σ L β} (h : Halts p E (g ()) (f s) R) :
    Halts p E ((Prog.modify f).bind g) s R := fun o => h o

theorem atomic {f : σ → Outcome σ α}
    (h : match f s with
      | .done a t => Q a t
      | .blocked => E none s
      | .panic m => E (some m) s) : Halts p E (Prog.atomic f : Prog σ L α) s Q := by
  intro o
  simp only [Prog.atomic, run, last]
  cases hf : f s with
  | done a t | blocked | panic m =>
    rw [hf] at h
    exact h

theorem acquire (h : Halts p E x s Q) (hE : E none s) : Halts p E (Prog.acquire l x) s Q := by
  intro o
  simp only [run, last]
  cases o l with
  | none => exact h _
  | some q => exact hE

theorem release (h : Halts p E x s Q) : Halts p E (Prog.release l x) s Q :=
  fun _ => h _

theorem held {x : Bool → Prog σ L α} (h : ∀ b, Halts p E (x b) s Q) :
    Halts p E (Prog.held l x) s Q := fun o => h _ o

theorem last {R : σ → Prop} (h : Halts p (fun _ => R) x s fun _ => R) (o : L → Option P) :
    R (x.last p ⟨s, o⟩).st := by
  have ho := h o
  cases hx : x.run p ⟨s, o⟩ with
  | done a t =>
    rw [hx] at ho
    rw [last_of_done hx]
    exact ho
  | blocked | panic m =>
    rw [hx] at ho
    exact ho

theorem run (h : Halts p (fun _ _ => False) x s Q) (o : L → Option P) :
    ∃ a t, x.run p ⟨s, o⟩ = .done a t ∧ Q a t.st := by
  have ho := h o
  cases hx : x.run p ⟨s, o⟩ with
  | done a t =>
    rw [hx] at ho
    exact ⟨a, t, rfl, ho⟩
  | blocked | panic m =>
    rw [hx] at ho
    exact ho.elim

theorem run_or_panic (h : Halts p E x s Q) (hE : ∀ t, ¬ E none t) (o : L → Option P) :
    (∃ a t, x.run p ⟨s, o⟩ = .done a t ∧ Q a t.st) ∨
      ∃ m, x.run p ⟨s, o⟩ = .panic m ∧ E (some m) (x.last p ⟨s, o⟩).st := by
  have ho := h o
  cases hx : x.run p ⟨s, o⟩ with
  | done a t =>
    rw [hx] at ho
    exact .inl ⟨a, t, rfl, ho⟩
  | blocked =>
    rw [hx] at ho
    exact absurd ho (hE _)
  | panic m =>
    rw [hx] at ho
    exact .inr ⟨m, rfl, ho⟩

end Halts

end Xv6.Lib.Prog
