import Xv6.Lib.Finish

namespace Xv6.Lib.Prog

variable {σ L P α β : Type} [DecidableEq L]

def Ends (p : P) (E : String → Prop) (x : Prog σ L α) (s : σ) (Q : α → σ → Prop) : Prop :=
  ∀ o : L → Option P, (∃ a t, x.run p ⟨s, o⟩ = .done a t ∧ Q a t.st) ∨
    ∃ m, x.run p ⟨s, o⟩ = .panic m ∧ E m

namespace Ends

variable {p : P} {E : String → Prop} {s : σ} {Q : α → σ → Prop} {x : Prog σ L α} {R : β → σ → Prop}
  {f : σ → σ}

theorem ret {a : α} (h : Q a s) : Ends p E (Prog.ret a : Prog σ L α) s Q :=
  fun o => .inl ⟨a, ⟨s, o⟩, rfl, h⟩

theorem mono {Q' : α → σ → Prop} (h : Ends p E x s Q) (hQ : ∀ a t, Q a t → Q' a t) :
    Ends p E x s Q' := by
  intro o
  rcases h o with ⟨a, t, hx, ht⟩ | hm
  · exact .inl ⟨a, t, hx, hQ a t.st ht⟩
  · exact .inr hm

theorem bind {f : α → Prog σ L β} (h : Ends p E x s Q) (hf : ∀ a t, Q a t → Ends p E (f a) t R) :
    Ends p E (x.bind f) s R := by
  intro o
  rw [run_bind]
  rcases h o with ⟨a, t, hx, ht⟩ | ⟨m, hx, hm⟩
  · rw [hx]
    exact hf a t.st ht t.owner
  · rw [hx]
    exact .inr ⟨m, rfl, hm⟩

theorem panic {m : String} (h : E m) : Ends p E (Prog.panic m : Prog σ L α) s Q :=
  fun _ => .inr ⟨m, rfl, h⟩

theorem ite {c : Prop} [Decidable c] {y : Prog σ L α} (hx : c → Ends p E x s Q)
    (hy : ¬ c → Ends p E y s Q) : Ends p E (if c then x else y) s Q := by
  split_ifs with hc
  · exact hx hc
  · exact hy hc

theorem when {c : Prop} [Decidable c] {x : Prog σ L Unit} {Q : Unit → σ → Prop}
    (hx : c → Ends p E x s Q) (hn : ¬ c → Q () s) : Ends p E (Prog.when c x) s Q :=
  Ends.ite hx fun hc => .ret (hn hc)

theorem bind_read {f : σ → α} {g : α → Prog σ L β} (h : Ends p E (g (f s)) s R) :
    Ends p E ((Prog.read f).bind g) s R := fun o => h o

theorem modify {Q : Unit → σ → Prop} (h : Q () (f s)) :
    Ends p E (Prog.modify f : Prog σ L Unit) s Q :=
  fun o => .inl ⟨(), ⟨f s, o⟩, rfl, h⟩

theorem bind_modify {g : Unit → Prog σ L β} (h : Ends p E (g ()) (f s) R) :
    Ends p E ((Prog.modify f).bind g) s R := fun o => h o

theorem atomic {f : σ → Outcome σ α} {a : α} {t : σ} (hf : f s = .done a t) (h : Q a t) :
    Ends p E (Prog.atomic f : Prog σ L α) s Q := by
  refine fun o => .inl ⟨a, ⟨t, o⟩, ?_, h⟩
  simp only [Prog.atomic, Prog.run, hf]

theorem does (h : Ends p E x s Q) : Does p E x s Q := by
  intro o
  unfold wp
  rcases h o with ⟨a, t, hx, ht⟩ | ⟨m, hx, hm⟩
  · rw [hx]
    exact ht
  · rw [hx]
    exact hm

theorem run (h : Ends p (fun _ => False) x s Q) (o : L → Option P) :
    ∃ a t, x.run p ⟨s, o⟩ = .done a t ∧ Q a t.st :=
  (h o).resolve_right fun ⟨_, _, hm⟩ => hm

end Ends

end Xv6.Lib.Prog
