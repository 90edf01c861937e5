import Mathlib.Data.List.Induction
import Xv6.Lib.Halt
import Xv6.Lib.Threads
import Xv6.Lib.Triple

namespace Xv6.Lib
open Function

namespace Config

variable {σ L P α : Type} [DecidableEq L] [DecidableEq P]

/-- The processes that get the lock, in order. -/
def holders (l : L) : List P → Config σ L P α → List P
  | [], _ => []
  | p :: ps, c => match step p c with
    | none => []
    | some d => if (c.prog p).wants = some l then p :: holders l ps d else holders l ps d

variable {c d e : Config σ L P α} {p : P} {ps : List P} {l : L}

theorem exec_concat (h : exec (ps ++ [p]) c = some e) :
    ∃ d, exec ps c = some d ∧ step p d = some e := by
  induction ps generalizing c with
  | nil =>
    obtain ⟨d, hd, he⟩ := Option.bind_eq_some_iff.mp h
    cases he
    exact ⟨c, rfl, hd⟩
  | cons q ps ih =>
    obtain ⟨b, hb, h⟩ := Option.bind_eq_some_iff.mp h
    obtain ⟨d, hd, he⟩ := ih h
    exact ⟨d, Option.bind_eq_some_iff.mpr ⟨b, hb, hd⟩, he⟩

theorem holders_concat (h : exec ps c = some d) (hs : step p d = some e) :
    holders l (ps ++ [p]) c =
      holders l ps c ++ if (d.prog p).wants = some l then [p] else [] := by
  induction ps generalizing c with
  | nil =>
    cases h
    simp only [List.nil_append, holders, hs]
  | cons q ps ih =>
    obtain ⟨b, hb, h⟩ := Option.bind_eq_some_iff.mp h
    simp only [List.cons_append, holders, hb]
    rw [ih h]
    split_ifs <;> simp

end Config

section Deal

variable {P ε : Type} [DecidableEq P]

/-- Every process in turn gives the first of its events that is left. -/
def deal (es : P → List ε) : List P → List (P × ε)
  | [] => []
  | p :: ps => match es p with
    | [] => deal es ps
    | e :: rest => (p, e) :: deal (update es p rest) ps

def undealt (es : P → List ε) : List P → P → List ε
  | [] => es
  | p :: ps => match es p with
    | [] => undealt es ps
    | _ :: rest => undealt (update es p rest) ps

theorem deal_concat {es : P → List ε} {ps : List P} {p : P} {e : ε} {rest : List ε}
    (h : undealt es ps p = e :: rest) : deal es (ps ++ [p]) = deal es ps ++ [(p, e)] ∧
      undealt es (ps ++ [p]) = update (undealt es ps) p rest := by
  induction ps generalizing es with
  | nil =>
    have h : es p = e :: rest := h
    constructor
    · simp only [List.nil_append, deal, h]
    · simp only [List.nil_append, undealt, h]
  | cons q ps ih =>
    rw [List.cons_append, deal, undealt, deal, undealt]
    rw [undealt] at h
    cases hq : es q with
    | nil =>
      rw [hq] at h
      exact ih h
    | cons e' rest' =>
      rw [hq] at h
      obtain ⟨hdeal, hleft⟩ := ih h
      exact ⟨by rw [List.cons_append, ← hdeal], hleft⟩

theorem deal_grows (es : P → List ε) (ps qs : List P) : deal es ps <+: deal es (ps ++ qs) := by
  induction ps generalizing es with
  | nil => exact List.nil_prefix
  | cons p ps ih =>
    rw [List.cons_append, deal, deal]
    cases es p with
    | nil => exact ih es
    | cons e rest => exact List.cons_prefix_cons.mpr ⟨rfl, ih _⟩

theorem deal_filter (es : P → List ε) (ps : List P) (q : P) :
    ((deal es ps).filter (·.1 = q)).map Prod.snd ++ undealt es ps q = es q := by
  induction ps generalizing es with
  | nil => rfl
  | cons p ps ih =>
    rw [deal, undealt]
    cases hp : es p with
    | nil => exact ih es
    | cons e rest =>
      have h := ih (update es p rest)
      by_cases hq : p = q
      · subst hq
        rw [update_self] at h
        rw [List.filter_cons_of_pos (by simp), List.map_cons, List.cons_append, h, hp]
      · rw [update_of_ne (Ne.symm hq)] at h
        rw [List.filter_cons_of_neg (by simpa using hq)]
        exact h

end Deal

/-- What the lock protects: states are compared up to the part that it does not protect, `inv` holds
at all times, `idle` while nobody has the lock, and `does e s t` says what the section `e` does when
it fits. -/
structure Discipline (σ L ε : Type) where
  lock : L
  same : σ → σ → Prop
  inv : σ → Prop
  idle : σ → Prop
  fits : ε → σ → Prop
  does : ε → σ → σ → Prop
  same_refl : ∀ s, same s s
  same_symm : ∀ {s t}, same s t → same t s
  same_trans : ∀ {s t u}, same s t → same t u → same s u
  inv_same : ∀ {s t}, same s t → inv s → inv t
  idle_same : ∀ {s t}, same s t → idle s → idle t
  inv_idle : ∀ {s}, idle s → inv s

namespace Prog

variable {σ L P ε α β : Type} {x : Prog σ L α} {f : σ → Outcome σ β} {g k : β → Prog σ L α} {s0 : σ}

/-- A program with the sections `es` still to come.  In a section, `some (s0, s)` has the state in
which it began and the state up to what the lock does not protect. -/
def Turns (D : Discipline σ L ε) (Q : α → List ε → Option (σ × σ) → Prop) :
    Prog σ L α → List ε → Option (σ × σ) → Prop
  | ret a, es, m => Q a es m
  | act f k, es, none => ∀ s b t, D.inv s → f s = .done b t →
      D.same s t ∧ (k b).Turns D Q es none
  | act f k, es, some (s₀, s) => ∀ u b t, D.same u s → f u = .done b t →
      ∃ s', D.same t s' ∧ D.inv s' ∧ (k b).Turns D Q es (some (s₀, s'))
  | acquire l k, es, none => l = D.lock ∧ ∃ e rest, es = e :: rest ∧
      ∀ s, D.idle s → D.fits e s → ∃ s', D.same s s' ∧ k.Turns D Q es (some (s, s'))
  | acquire _ _, _, some _ => False
  | release _ _, _, none => False
  | release l k, es, some (s₀, s) => l = D.lock ∧ ∃ e rest, es = e :: rest ∧
      D.does e s₀ s ∧ D.idle s ∧ k.Turns D Q rest none
  | held _ k, es, none => ∀ b, (k b).Turns D Q es none
  | held l k, es, some m => l = D.lock ∧ (k true).Turns D Q es (some m)

variable {D : Discipline σ L ε} {Q : α → List ε → Option (σ × σ) → Prop} {es : List ε}
  {m : Option (σ × σ)}

theorem Turns.bind {R : β → List ε → Option (σ × σ) → Prop} {g : α → Prog σ L β}
    (h : x.Turns D Q es m) (hg : ∀ a es' m', Q a es' m' → (g a).Turns D R es' m') :
    (x.bind g).Turns D R es m := by
  induction x generalizing es m with
  | ret a => exact hg a es m h
  | act f k ih =>
    cases m with
    | none =>
      intro s b t hs hf
      obtain ⟨hsame, hk⟩ := h s b t hs hf
      exact ⟨hsame, ih b hk⟩
    | some m =>
      intro u b t hu hf
      obtain ⟨s', ht, hinv, hk⟩ := h u b t hu hf
      exact ⟨s', ht, hinv, ih b hk⟩
  | acquire l k ih =>
    cases m with
    | none =>
      obtain ⟨hl, e, rest, hes, hk⟩ := h
      refine ⟨hl, e, rest, hes, fun s hs hfit => ?_⟩
      obtain ⟨s', hs', hk⟩ := hk s hs hfit
      exact ⟨s', hs', ih hk⟩
    | some m => exact h.elim
  | release l k ih =>
    cases m with
    | none => exact h.elim
    | some m =>
      obtain ⟨hl, e, rest, hes, hdoes, hidle, hk⟩ := h
      exact ⟨hl, e, rest, hes, hdoes, hidle, ih hk⟩
  | held l k ih =>
    cases m with
    | none => exact fun b => ih b (h b)
    | some m => exact ⟨h.1, ih true h.2⟩

theorem Turns.wants {l : L} (h : x.Turns D Q es m) (hx : x.wants = some l) : l = D.lock := by
  cases x with
  | acquire l' k =>
    cases hx
    cases m with
    | none => exact h.1
    | some m => exact h.elim
  | ret a | act f k | release l' k | held l' k => cases hx

theorem Turns.bind_read_out {f : σ → β} (h : ∀ s, D.inv s → (g (f s)).Turns D Q es none) :
    ((Prog.read f).bind g).Turns D Q es none := by
  rintro s _ _ hs ⟨⟩
  exact ⟨D.same_refl s, h s hs⟩

theorem Turns.bind_atomic_out (hf : ∀ s b t, f s = .done b t → D.same s t)
    (h : ∀ b, (g b).Turns D Q es none) :
    ((Prog.atomic f).bind g).Turns D Q es none := fun s b t _ hs => ⟨hf s b t hs, h b⟩

/-- In a section, a value that does not depend on what the lock does not protect. -/
theorem Turns.bind_read_in {f : σ → β} {s : σ} (hf : ∀ u, D.same u s → f u = f s) (hs : D.inv s)
    (h : (g (f s)).Turns D Q es (some (s0, s))) :
    ((Prog.read f).bind g).Turns D Q es (some (s0, s)) := by
  rintro u _ _ hu ⟨⟩
  rw [hf u hu]
  exact ⟨s, hu, hs, h⟩

/-- The program takes and gives back no lock, and `A` holds of its actions. -/
def Each (A : ∀ {β : Type}, (σ → Outcome σ β) → Prop) : Prog σ L α → Prop
  | ret _ => True
  | act f k => A f ∧ ∀ b, (k b).Each A
  | acquire _ _ => False
  | release _ _ => False
  | held _ _ => False

section Each

variable {A : ∀ {β : Type}, (σ → Outcome σ β) → Prop} {x : Prog σ L α}

theorem Each.bind {g : α → Prog σ L β} (h : x.Each A) (hg : ∀ a, (g a).Each A) :
    (x.bind g).Each A := by
  induction x with
  | ret a => exact hg a
  | act f k ih => exact ⟨h.1, fun b => ih b (h.2 b)⟩
  | acquire l k ih | release l k ih | held l k ih => exact h.elim

theorem Each.mono {B : ∀ {β : Type}, (σ → Outcome σ β) → Prop} (h : x.Each A)
    (hAB : ∀ {β : Type} (f : σ → Outcome σ β), A f → B f) : x.Each B := by
  induction x with
  | ret a => trivial
  | act f k ih => exact ⟨hAB f h.1, fun b => ih b (h.2 b)⟩
  | acquire l k ih | release l k ih | held l k ih => exact h.elim

theorem Each.atomic {f : σ → Outcome σ α} (h : A f) : (Prog.atomic f : Prog σ L α).Each A :=
  ⟨h, fun _ => trivial⟩

theorem Each.ite {c : Prop} [Decidable c] {y : Prog σ L α} (hx : x.Each A) (hy : y.Each A) :
    (if c then x else y).Each A := by
  split_ifs
  · exact hx
  · exact hy

end Each

variable [DecidableEq L] {p : P} {E : Option String → σ → Prop} {R : α → σ → Prop} {s : σ}

theorem Halts.act_done {b : β} {t : σ} (h : Halts p E (act f k) s R) (hf : f s = .done b t) :
    Halts p E (k b) t R := by
  intro o
  have ho := h o
  simp only [Prog.run, Prog.last, hf] at ho
  exact ho

theorem Halts.act_stuck (h : Halts p E (act f k) s R) (hf : ∀ b t, f s ≠ .done b t) :
    ∃ m, E m s := by
  have ho := h fun _ => none
  cases hs : f s with
  | done b t => exact absurd hs (hf b t)
  | blocked | panic m =>
    simp only [Prog.run, Prog.last, hs] at ho
    exact ⟨_, ho⟩

theorem Does.halts {E : String → Prop} (h : Does p E x s R) : Halts p (fun _ _ => True) x s R := by
  intro o
  have ho := h o
  unfold wp at ho
  cases hx : x.run p ⟨s, o⟩ with
  | done a t =>
    rw [hx] at ho
    exact ho
  | blocked | panic m => trivial

theorem Each.halts {A : ∀ {β : Type}, (σ → Outcome σ β) → Prop} {I : σ → Prop}
    (hA : ∀ {β : Type} (f : σ → Outcome σ β), A f → ∀ s b t, I s → f s = .done b t → I t)
    (hx : x.Each A) (hs : I s) : Halts p (fun _ => I) x s fun _ => I := by
  induction x generalizing s with
  | ret a => exact .ret hs
  | act f k ih =>
    intro o
    simp only [Prog.run, Prog.last]
    cases hf : f s with
    | done b t => exact ih b (hx.2 b) (hA f hx.1 s b t hs hf) o
    | blocked | panic m => exact hs
  | acquire l k ih | release l k ih | held l k ih => exact hx.elim

/-- The action does the same whatever the part is that the lock does not protect, or it cannot be
done where `ok` fails. -/
def Tracks (D : Discipline σ L ε) (ok : σ → Prop) {β : Type} (f : σ → Outcome σ β) : Prop :=
  ∀ u s b t, D.same u s → D.inv s → f u = .done b t →
    (∃ s', f s = .done b s' ∧ D.same t s' ∧ D.inv s') ∨ (∀ b' t', f s ≠ .done b' t') ∧ ¬ ok s

/-- A section does what its program does alone, when that does not get stuck for want of `ok`. -/
theorem Turns.of_halts {ok : σ → Prop} (hx : x.Each (Tracks D ok)) (hs : D.inv s)
    (h : Halts p (fun _ => ok) x s R) :
    x.Turns D (fun a es' m => es' = es ∧ ∃ s', m = some (s0, s') ∧ D.inv s' ∧ R a s') es
      (some (s0, s)) := by
  induction x generalizing s with
  | ret a => exact ⟨rfl, s, rfl, hs, h fun _ => none⟩
  | act f k ih =>
    intro u b t hu hf
    rcases hx.1 u s b t hu hs hf with ⟨s', hf', hsame, hs'⟩ | ⟨hstuck, hok⟩
    · exact ⟨s', hsame, hs', ih b (hx.2 b) hs' (h.act_done hf')⟩
    · obtain ⟨_, hE⟩ := h.act_stuck hstuck
      exact absurd hE hok
  | acquire l k ih | release l k ih | held l k ih => exact hx.elim

end Prog

namespace Discipline

variable {σ L P ε α : Type} (D : Discipline σ L ε) {s u : σ}

/-- The sections in order, with changes of the rest of the state in between. -/
def Chain : List ε → σ → σ → Prop
  | [], s, t => D.same s t
  | e :: es, s, t => ∃ s' u, D.same s s' ∧ D.idle s' ∧ D.fits e s' ∧ D.does e s' u ∧ Chain es u t

variable {D}

theorem Chain.same {es : List ε} {t : σ} (h : D.Chain es s t) (htu : D.same t u) :
    D.Chain es s u := by
  induction es generalizing s with
  | nil => exact D.same_trans h htu
  | cons e es ih =>
    obtain ⟨s', v, hs, hidle, hfit, hdoes, hv⟩ := h
    exact ⟨s', v, hs, hidle, hfit, hdoes, ih hv⟩

theorem Chain.concat {es : List ε} {e : ε} {t : σ} (h : D.Chain es s t) (hidle : D.idle t)
    (hfit : D.fits e t) (hdoes : D.does e t u) : D.Chain (es ++ [e]) s u := by
  induction es generalizing s with
  | nil => exact ⟨t, u, h, hidle, hfit, hdoes, D.same_refl u⟩
  | cons e' es ih =>
    obtain ⟨s', v, hs, hidle', hfit', hdoes', hv⟩ := h
    exact ⟨s', v, hs, hidle', hfit', hdoes', ih hv⟩

variable [DecidableEq L] [DecidableEq P]

/-- Where the processes are when the processes `tr` have had the lock in this order. -/
def Track (D : Discipline σ L ε) (Q : P → α → List ε → Option (σ × σ) → Prop) (es : P → List ε)
    (s₀ : σ) (tr : List P) (c : Config σ L P α) : Prop :=
  match c.shared.owner D.lock with
  | none => D.idle c.shared.st ∧ D.Chain ((deal es tr).map Prod.snd) s₀ c.shared.st ∧
      ∀ p, (c.prog p).Turns D (Q p) (undealt es tr p) none
  | some q => ∃ hist e u s, (deal es tr).map Prod.snd = hist ++ [e] ∧ D.Chain hist s₀ u ∧
      D.idle u ∧ D.fits e u ∧ D.same c.shared.st s ∧ D.inv s ∧
      (c.prog q).Turns D (Q q) (e :: undealt es tr q) (some (u, s)) ∧
      ∀ p, p ≠ q → (c.prog p).Turns D (Q p) (undealt es tr p) none

variable {Q : P → α → List ε → Option (σ × σ) → Prop} {es : P → List ε} {s0 : σ} {tr : List P}
  {c d : Config σ L P α} {p : P}

theorem Track.step_out (h : (c.prog p).Turns D (Q p) (undealt es tr p) none)
    (hinv : D.inv c.shared.st) (hs : c.step p = some d) (hw : (c.prog p).wants = none) :
    D.same c.shared.st d.shared.st ∧ d.shared.owner = c.shared.owner ∧
      (d.prog p).Turns D (Q p) (undealt es tr p) none := by
  cases Config.acts_of_step hs with
  | act hc hf =>
    rw [hc] at h
    obtain ⟨hsame, hk⟩ := h _ _ _ hinv hf
    refine ⟨hsame, rfl, ?_⟩
    simpa using hk
  | acquire hc =>
    rw [hc] at hw
    cases hw
  | release hc =>
    rw [hc] at h
    exact h.elim
  | held hc =>
    rw [hc] at h
    refine ⟨D.same_refl _, rfl, ?_⟩
    simpa using h _

theorem Track.step_acquire (h : (c.prog p).Turns D (Q p) (undealt es tr p) none)
    (hidle : D.idle c.shared.st) (hs : c.step p = some d) (hw : (c.prog p).wants = some D.lock)
    (hfit : ∀ e rest, undealt es tr p = e :: rest → D.fits e c.shared.st) :
    d.shared.st = c.shared.st ∧ d.shared.owner D.lock = some p ∧
      ∃ e rest s, undealt es tr p = e :: rest ∧ D.same c.shared.st s ∧
        (d.prog p).Turns D (Q p) (e :: rest) (some (c.shared.st, s)) := by
  cases Config.acts_of_step hs with
  | acquire hc ho =>
    rw [hc] at h
    obtain ⟨rfl, e, rest, hes, hk⟩ := h
    obtain ⟨s, hsame, hk⟩ := hk _ hidle (hfit e rest hes)
    refine ⟨rfl, update_self .., e, rest, s, hes, hsame, ?_⟩
    rw [← hes]
    simpa using hk
  | act hc | release hc | held hc =>
    rw [hc] at hw
    cases hw

theorem Track.step_in {e : ε} {rest : List ε}
    (h : (c.prog p).Turns D (Q p) (e :: rest) (some (u, s))) (hinv : D.inv s)
    (hsame : D.same c.shared.st s) (howner : c.shared.owner D.lock = some p)
    (hs : c.step p = some d) : (c.prog p).wants = none ∧
      ((d.shared.owner D.lock = some p ∧ ∃ s', D.same d.shared.st s' ∧ D.inv s' ∧
          (d.prog p).Turns D (Q p) (e :: rest) (some (u, s'))) ∨
        d.shared.owner D.lock = none ∧ D.same d.shared.st s ∧ D.idle s ∧ D.does e u s ∧
          (d.prog p).Turns D (Q p) rest none) := by
  cases Config.acts_of_step hs with
  | act hc hf =>
    rw [hc] at h ⊢
    obtain ⟨s', ht, hs', hk⟩ := h _ _ _ hsame hf
    refine ⟨rfl, .inl ⟨howner, s', ht, hs', ?_⟩⟩
    simpa using hk
  | acquire hc =>
    rw [hc] at h
    exact h.elim
  | release hc =>
    rw [hc] at h ⊢
    obtain ⟨rfl, e', rest', hes, hdoes, hidle, hk⟩ := h
    cases hes
    refine ⟨rfl, .inr ⟨update_self .., hsame, hidle, hdoes, ?_⟩⟩
    simpa using hk
  | held hc =>
    rw [hc] at h ⊢
    obtain ⟨rfl, hk⟩ := h
    refine ⟨rfl, .inl ⟨howner, s, hsame, hinv, ?_⟩⟩
    simpa [howner] using hk

theorem Track.step (h : D.Track Q es s0 tr c) (hs : c.step p = some d)
    (hfit : (c.prog p).wants = some D.lock → ∀ hist e s,
      (deal es (tr ++ [p])).map Prod.snd = hist ++ [e] → D.Chain hist s0 s → D.idle s →
        D.fits e s) :
    D.Track Q es s0 (tr ++ if (c.prog p).wants = some D.lock then [p] else []) d := by
  have hother : ∀ q, q ≠ p → d.prog q = c.prog q := fun q hq => Config.step_prog_of_ne hs hq
  unfold Track at h
  cases howner : c.shared.owner D.lock with
  | none =>
    rw [howner] at h
    obtain ⟨hidle, hchain, hprog⟩ := h
    cases hw : (c.prog p).wants with
    | none =>
      obtain ⟨hsame, howner', hp⟩ := Track.step_out (hprog p) (D.inv_idle hidle) hs hw
      rw [if_neg (by simp), List.append_nil]
      unfold Track
      rw [howner', howner]
      refine ⟨D.idle_same hsame hidle, hchain.same hsame, fun q => ?_⟩
      by_cases hq : q = p
      · rw [hq]
        exact hp
      · rw [hother q hq]
        exact hprog q
    | some l =>
      obtain rfl := (hprog p).wants hw
      have hlast : ∀ e rest, undealt es tr p = e :: rest →
          (deal es (tr ++ [p])).map Prod.snd = (deal es tr).map Prod.snd ++ [e] := by
        intro e rest hes
        rw [(deal_concat hes).1, List.map_append]
        rfl
      have hfits : ∀ e rest, undealt es tr p = e :: rest → D.fits e c.shared.st :=
        fun e rest hes => hfit hw _ e _ (hlast e rest hes) hchain hidle
      obtain ⟨hst, howner', e, rest, s, hes, hsame, hp⟩ :=
        Track.step_acquire (hprog p) hidle hs hw hfits
      rw [if_pos rfl]
      unfold Track
      rw [howner']
      refine ⟨_, e, c.shared.st, s, hlast e rest hes, hchain, hidle, hfits e rest hes, ?_,
        D.inv_same hsame (D.inv_idle hidle), ?_, fun q hq => ?_⟩
      · rw [hst]
        exact hsame
      · rw [(deal_concat hes).2, update_self]
        exact hp
      · rw [(deal_concat hes).2, update_of_ne hq, hother q hq]
        exact hprog q
  | some q =>
    rw [howner] at h
    obtain ⟨hist, e, u, s, hdeal, hchain, hidle, hfits, hsame, hinv, hq, hprog⟩ := h
    by_cases hpq : p = q
    · subst hpq
      obtain ⟨hw, hcase⟩ := Track.step_in hq hinv hsame howner hs
      rw [hw, if_neg (by simp), List.append_nil]
      unfold Track
      rcases hcase with ⟨howner', s', hsame', hinv', hp⟩ | ⟨howner', hsame', hidle', hdoes, hp⟩
      · rw [howner']
        refine ⟨hist, e, u, s', hdeal, hchain, hidle, hfits, hsame', hinv', hp, fun r hr => ?_⟩
        rw [hother r hr]
        exact hprog r hr
      · rw [howner']
        refine ⟨D.idle_same (D.same_symm hsame') hidle', ?_, fun r => ?_⟩
        · rw [hdeal]
          exact (hchain.concat hidle hfits hdoes).same (D.same_symm hsame')
        · by_cases hr : r = p
          · rw [hr]
            exact hp
          · rw [hother r hr]
            exact hprog r hr
    · have hinv' : D.inv c.shared.st := D.inv_same (D.same_symm hsame) hinv
      have hw : (c.prog p).wants = none := by
        cases hc : c.prog p with
        | acquire l k =>
          -- The lock is taken, so there is no step.
          have hp := hprog p hpq
          rw [hc] at hp
          obtain ⟨rfl, -⟩ := hp
          unfold Config.step at hs
          simp only [hc, howner] at hs
          cases hs
        | ret a | act f k | release l k | held l k => rfl
      obtain ⟨hsame', howner', hp⟩ := Track.step_out (hprog p hpq) hinv' hs hw
      rw [hw, if_neg (by simp), List.append_nil]
      unfold Track
      rw [howner', howner]
      refine ⟨hist, e, u, s, hdeal, hchain, hidle, hfits,
        D.same_trans (D.same_symm hsame') hsame, hinv, ?_, fun r hr => ?_⟩
      · rw [hother q (Ne.symm hpq)]
        exact hq
      · by_cases hrp : r = p
        · rw [hrp]
          exact hp
        · rw [hother r hrp]
          exact hprog r hr

omit [DecidableEq L] in
theorem Track.returned {a : α} (h : D.Track Q es s0 tr c) (hp : c.prog p = .ret a) :
    c.shared.owner D.lock ≠ some p ∧ Q p a (undealt es tr p) none ∨ ∃ rest m, Q p a rest (some m) := by
  unfold Track at h
  cases howner : c.shared.owner D.lock with
  | none =>
    rw [howner] at h
    have hturns := h.2.2 p
    rw [hp] at hturns
    exact .inl ⟨nofun, hturns⟩
  | some q =>
    rw [howner] at h
    obtain ⟨hist, e, u, s, -, -, -, -, -, -, hq, hprog⟩ := h
    by_cases hpq : p = q
    · subst hpq
      rw [hp] at hq
      exact .inr ⟨_, _, hq⟩
    · have hturns := hprog p hpq
      rw [hp] at hturns
      exact .inl ⟨fun heq => hpq (Option.some.inj heq).symm, hturns⟩

theorem track_run {ps : List P} (hidle : D.idle c.shared.st) (hfree : c.shared.owner D.lock = none)
    (hprog : ∀ p, (c.prog p).Turns D (Q p) (es p) none) (h : c.exec ps = some d)
    (hfit : ∀ hist e s, hist ++ [e] <+: (deal es (c.holders D.lock ps)).map Prod.snd →
      D.Chain hist c.shared.st s → D.idle s → D.fits e s) :
    D.Track Q es c.shared.st (c.holders D.lock ps) d := by
  induction ps using List.reverseRecOn generalizing d with
  | nil =>
    cases h
    unfold Track
    rw [hfree]
    exact ⟨hidle, D.same_refl _, hprog⟩
  | append_singleton ps p ih =>
    obtain ⟨b, hb, hs⟩ := Config.exec_concat h
    have hholders := Config.holders_concat (l := D.lock) hb hs
    rw [hholders] at hfit ⊢
    refine Track.step (ih hb fun hist e s hpre => hfit hist e s (hpre.trans ?_)) hs ?_
    · exact (deal_grows ..).map _
    · intro hw hist e s heq
      rw [if_pos hw, heq] at hfit
      exact hfit hist e s List.prefix_rfl

end Discipline

end Xv6.Lib
