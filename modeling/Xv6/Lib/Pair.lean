import Xv6.Lib.Total

namespace Xv6.Lib

variable {σ τ L P α : Type}

def Outcome.withSnd (t : τ) : Outcome σ α → Outcome (σ × τ) α
  | .done a s => .done a (s, t)
  | .blocked => .blocked
  | .panic m => .panic m

def Outcome.withFst (s : σ) : Outcome τ α → Outcome (σ × τ) α
  | .done a t => .done a (s, t)
  | .blocked => .blocked
  | .panic m => .panic m

namespace Prog

/-- A program without locks on the first half. -/
def onFst : Prog σ Empty α → Prog (σ × τ) L α
  | ret a => ret a
  | act f k => act (fun s => (f s.1).withSnd s.2) fun b => (k b).onFst
  | acquire l _ => l.elim
  | release l _ => l.elim
  | held l _ => l.elim

/-- A program on the second half. -/
def onSnd : Prog τ L α → Prog (σ × τ) L α
  | ret a => ret a
  | act f k => act (fun s => (f s.2).withFst s.1) fun b => (k b).onSnd
  | acquire l k => acquire l k.onSnd
  | release l k => release l k.onSnd
  | held l k => held l fun b => (k b).onSnd

variable [DecidableEq L] {p : P} {E : String → Prop}

theorem Ends.onFst {x : Prog σ Empty α} {s : σ} {t : τ} {Q : α → σ → Prop} (h : Ends p E x s Q) :
    Ends p E (x.onFst : Prog (σ × τ) L α) (s, t) fun a st => Q a st.1 ∧ st.2 = t := by
  induction x generalizing s with
  | ret a =>
    rcases h Empty.elim with ⟨a', t', hrun, hq⟩ | ⟨m, hrun, -⟩
    · cases hrun
      exact .ret ⟨hq, rfl⟩
    · cases hrun
  | act f k ih =>
    intro o
    cases hf : f s with
    | done b s' =>
      have hk : Ends p E (k b) s' Q := by
        intro o'
        have := h o'
        simp only [Prog.run, hf] at this
        exact this
      have := ih b hk o
      simp only [Prog.onFst, Prog.run, hf, Outcome.withSnd]
      exact this
    | blocked =>
      rcases h Empty.elim with ⟨a', t', hrun, -⟩ | ⟨m, hrun, -⟩
      · simp only [Prog.run, hf] at hrun
        cases hrun
      · simp only [Prog.run, hf] at hrun
        cases hrun
    | panic m =>
      rcases h Empty.elim with ⟨a', t', hrun, -⟩ | ⟨m', hrun, hm⟩
      · simp only [Prog.run, hf] at hrun
        cases hrun
      · simp only [Prog.run, hf] at hrun
        refine .inr ⟨m', ?_, hm⟩
        simp only [Prog.onFst, Prog.run, hf, Outcome.withSnd]
        cases hrun
        rfl
  | acquire l k _ | release l k _ | held l k _ => exact l.elim

end Prog

end Xv6.Lib
