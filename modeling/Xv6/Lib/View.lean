import Xv6.Lib.Prog

namespace Xv6.Lib.Prog

variable {σ L P V α β : Type} [DecidableEq L] {a : α} {x y : Prog σ L α} {f : α → Prog σ L β}
  {c : Prop}

/-- A run of `x` by `p` from the view `v` ends with a result and a view in `Q`, or it panics or
waits for ever. -/
def Views (abs : Shared σ L P → V) (p : P) (x : Prog σ L α) (v : V) (Q : α → V → Prop) : Prop :=
  ∀ s, abs s = v → wp p (fun _ => True) x (fun a t => Q a (abs t)) s

variable {abs : Shared σ L P → V} {p : P} {v : V} {Q : α → V → Prop}

theorem Views.ret (h : Q a v) : Views abs p (ret a) v Q := by
  rintro s rfl
  exact h

theorem Views.mono {Q' : α → V → Prop} (h : Views abs p x v Q) (hQ : ∀ a w, Q a w → Q' a w) :
    Views abs p x v Q' :=
  fun s hs => wp_imp (h s hs) fun a t => hQ a (abs t)

theorem Views.bind {R : β → V → Prop} (h : Views abs p x v Q)
    (hf : ∀ a w, Q a w → Views abs p (f a) w R) : Views abs p (x.bind f) v R := by
  intro s hs
  rw [wp_bind]
  exact wp_imp (h s hs) fun a t ht => hf a (abs t) ht t rfl

theorem Views.seq {u : α → V} {R : β → V → Prop} (h : Views abs p x v fun a w => w = u a)
    (hf : ∀ a, Views abs p (f a) (u a) R) : Views abs p (x.bind f) v R :=
  h.bind fun a _ hw => hw ▸ hf a

theorem Views.panic {m : String} : Views abs p (Prog.panic m : Prog σ L α) v Q := by
  intro s _
  simp

theorem Views.when [Decidable c] {x : Prog σ L Unit} {Q : Unit → V → Prop}
    (hx : c → Views abs p x v Q) (hn : ¬ c → Q () v) : Views abs p (when c x) v Q := by
  unfold Prog.when
  split_ifs with hc
  · exact hx hc
  · exact .ret (hn hc)

theorem Views.ite [Decidable c] (hx : Views abs p x v Q) (hy : Views abs p y v Q) :
    Views abs p (if c then x else y) v Q := by
  split_ifs
  · exact hx
  · exact hy

theorem Views.atomic {f : σ → Outcome σ α} (hQ : ∀ a, Q a v)
    (h : ∀ s, abs s = v →
      (f s.st).Sat (fun _ => True) fun _ t => abs { s with st := t } = v) :
    Views abs p (atomic f) v Q := by
  intro s hs
  rw [wp_atomic]
  refine (h s hs).mono (fun _ => id) ?_
  rintro a t ht
  rw [ht]
  exact hQ a

theorem Views.read {f : σ → α} (h : ∀ a, Q a v) : Views abs p (read f) v Q := by
  rintro s rfl
  exact h _

theorem Views.run {s t : Shared σ L P} (h : Views abs p x (abs s) Q) (hx : x.run p s = .done a t) :
    Q a (abs t) :=
  wp_done (h s rfl) hx

/-- Programs that do not change the view. -/
def Still (abs : Shared σ L P → V) (p : P) (x : Prog σ L α) : Prop :=
  ∀ v, Views abs p x v fun _ w => w = v

theorem Still.views (h : Still abs p x) (hQ : ∀ a, Q a v) : Views abs p x v Q :=
  (h v).mono fun a _ hw => hw ▸ hQ a

theorem Still.seq {R : β → V → Prop} (h : Still abs p x) (hf : ∀ a, Views abs p (f a) v R) :
    Views abs p (x.bind f) v R := (h v).seq hf

theorem Still.ret : Still abs p (ret a : Prog σ L α) := fun _ => .ret rfl

theorem Still.panic {m : String} : Still abs p (Prog.panic m : Prog σ L α) := fun _ => .panic

theorem Still.bind (h : Still abs p x) (hf : ∀ a, Still abs p (f a)) : Still abs p (x.bind f) :=
  fun v => (h v).bind fun a _ hw => hw ▸ hf a v

theorem Still.when [Decidable c] {x : Prog σ L Unit} (h : Still abs p x) :
    Still abs p (Prog.when c x) :=
  fun v => .when (fun _ => h v) fun _ => rfl

theorem Still.ite [Decidable c] (hx : Still abs p x) (hy : Still abs p y) :
    Still abs p (if c then x else y) := by
  split_ifs
  · exact hx
  · exact hy

theorem Still.read {f : σ → α} : Still abs p (Prog.read f) := fun _ => .read fun _ => rfl

theorem Still.atomic {f : σ → Outcome σ α}
    (h : ∀ s, (f s.st).Sat (fun _ => True) fun _ t => abs { s with st := t } = abs s) :
    Still abs p (Prog.atomic f) := by
  intro v
  refine .atomic (fun _ => rfl) ?_
  rintro s rfl
  exact h s

theorem Still.modify {f : σ → σ} (h : ∀ s : Shared σ L P, abs { s with st := f s.st } = abs s) :
    Still abs p (Prog.modify f) := Still.atomic fun s => h s

end Xv6.Lib.Prog
