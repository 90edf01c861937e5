import Xv6.Lib.Prog

namespace Xv6.Lib.Prog

variable {σ L P α β : Type} [DecidableEq L]

def Does (p : P) (E : String → Prop) (x : Prog σ L α) (s : σ) (Q : α → σ → Prop) : Prop :=
  ∀ o : L → Option P, wp p E x (fun a t => Q a t.st) ⟨s, o⟩

namespace Does

variable {p : P} {E : String → Prop} {s : σ} {Q : α → σ → Prop} {x : Prog σ L α} {R : β → σ → Prop}
  {f : σ → α} {l : L} {o : L → Option P}

theorem ret {a : α} (h : Q a s) : Does p E (Prog.ret a : Prog σ L α) s Q := fun _ => h

theorem any : Does p (fun _ => True) x s fun _ _ => True := by
  intro o
  unfold wp
  cases x.run p ⟨s, o⟩ with
  | done a t | blocked | panic m => trivial

theorem mono {Q' : α → σ → Prop} (h : Does p E x s Q) (hQ : ∀ a t, Q a t → Q' a t) :
    Does p E x s Q' :=
  fun o => wp_imp (h o) fun a t => hQ a t.st

theorem bind {f : α → Prog σ L β} (h : Does p E x s Q) (hf : ∀ a t, Q a t → Does p E (f a) t R) :
    Does p E (x.bind f) s R := by
  intro o
  rw [wp_bind]
  exact wp_imp (h o) fun a t ht => hf a t.st ht t.owner

theorem bind2 {γ : Type} {x : Prog σ L β} {f : β → Prog σ L α} {g : α → Prog σ L γ}
    {R : γ → σ → Prop} (h : Does p E (x.bind f) s Q) (hg : ∀ a t, Q a t → Does p E (g a) t R) :
    Does p E (x.bind fun b => (f b).bind g) s R := by
  rw [← bind_assoc]
  exact h.bind hg

theorem panic {m : String} (h : E m) : Does p E (Prog.panic m : Prog σ L α) s Q := fun _ => h

theorem when {c : Prop} [Decidable c] {x : Prog σ L Unit} {Q : Unit → σ → Prop}
    (hx : c → Does p E x s Q) (hn : ¬ c → Q () s) : Does p E (Prog.when c x) s Q := by
  unfold Prog.when
  split_ifs with hc
  · exact hx hc
  · exact .ret (hn hc)

theorem ite {c : Prop} [Decidable c] {y : Prog σ L α} (hx : c → Does p E x s Q)
    (hy : ¬ c → Does p E y s Q) : Does p E (if c then x else y) s Q := by
  split_ifs with hc
  · exact hx hc
  · exact hy hc

theorem atomic {f : σ → Outcome σ α} (h : (f s).Sat E Q) :
    Does p E (Prog.atomic f : Prog σ L α) s Q := by
  intro o
  rw [wp_atomic]
  exact h

theorem modify {f : σ → σ} {Q : Unit → σ → Prop} (h : Q () (f s)) :
    Does p E (Prog.modify f : Prog σ L Unit) s Q := fun _ => h

theorem acquire (h : Does p E x s Q) : Does p E (Prog.acquire l x) s Q := by
  intro o
  rw [wp_acquire]
  exact fun _ => h _

theorem release (h : Does p E x s Q) : Does p E (Prog.release l x) s Q := fun _ => h _

theorem held {f : Bool → Prog σ L α} (h : ∀ b, Does p E (f b) s Q) :
    Does p E (Prog.held l f) s Q := fun _ => h _ _

theorem bind_read {g : α → Prog σ L β} (h : Does p E (g (f s)) s R) :
    Does p E ((Prog.read f).bind g) s R := fun o => h o

theorem run {a : α} {t : Shared σ L P} (h : Does p E x s Q) (hx : x.run p ⟨s, o⟩ = .done a t) :
    Q a t.st :=
  wp_done (h o) hx

theorem no_panic {m : String} (h : Does p E x s Q) (hm : ¬ E m) : x.run p ⟨s, o⟩ ≠ .panic m := by
  intro hx
  have := h o
  rw [wp, hx] at this
  exact hm this

end Does

end Xv6.Lib.Prog
