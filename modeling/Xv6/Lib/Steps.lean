import Mathlib.Data.Option.Basic
import Mathlib.Tactic.SplitIfs

namespace Xv6.Lib

section

variable {S A : Type} {step : A → S → Option S} {C : S → A → Prop} {s t u : S} {a : A}

/-- The runs whose steps all meet the condition. -/
inductive Steps (step : A → S → Option S) (C : S → A → Prop) (s : S) : S → Prop where
  | refl : Steps step C s s
  | tail {t u : S} {a : A} : Steps step C s t → C t a → step a t = some u → Steps step C s u

abbrev Runs (step : A → S → Option S) : S → S → Prop := Steps step fun _ _ => True

namespace Steps

theorem trans (h : Steps step C s t) (h' : Steps step C t u) : Steps step C s u := by
  induction h' with
  | refl => exact h
  | tail _ hC hstep ih => exact .tail ih hC hstep

theorem single (hC : C s a) (h : step a s = some t) : Steps step C s t := .tail .refl hC h

theorem inv {I : S → Prop} (hI : ∀ s a t, I s → C s a → step a s = some t → I t)
    (h : Steps step C s t) (hs : I s) : I t := by
  induction h with
  | refl => exact hs
  | tail _ hC hstep ih => exact hI _ _ _ ih hC hstep

end Steps

/-- The state after the steps with the given labels. -/
def execute (step : A → S → Option S) : List A → S → Option S
  | [], s => some s
  | a :: l, s => (step a s).bind (execute step l)

theorem runs_of_execute {l : List A} (h : execute step l s = some t) : Runs step s t := by
  induction l generalizing s with
  | nil =>
    cases h
    exact .refl
  | cons a l ih =>
    obtain ⟨u, hu, ht⟩ := Option.bind_eq_some_iff.mp h
    exact (Steps.single trivial hu).trans (ih ht)

theorem exists_of_execute {l : List A} {test : S → Bool}
    (h : (execute step l s).any test = true) : ∃ t, Runs step s t ∧ test t = true := by
  obtain ⟨t, ht, htest⟩ := (Option.any_eq_true _ _).mp h
  exact ⟨t, runs_of_execute ht, htest⟩

/-- The steps with the given labels, as long as each of them meets the test. -/
def executeIf (step : A → S → Option S) (test : S → A → Bool) : List A → S → Option S
  | [], s => some s
  | a :: l, s => if test s a then (step a s).bind (executeIf step test l) else none

theorem steps_of_executeIf {test : S → A → Bool} (ht : ∀ s a, test s a = true → C s a) {l : List A}
    (h : executeIf step test l s = some t) : Steps step C s t := by
  induction l generalizing s with
  | nil =>
    cases h
    exact .refl
  | cons a l ih =>
    unfold executeIf at h
    split_ifs at h with hc
    obtain ⟨u, hu, htu⟩ := Option.bind_eq_some_iff.mp h
    exact (Steps.single (ht _ _ hc) hu).trans (ih htu)

theorem exists_of_executeIf {test : S → A → Bool} (ht : ∀ s a, test s a = true → C s a) {l : List A}
    {final : S → Bool} (h : (executeIf step test l s).any final = true) :
    ∃ t, Steps step C s t ∧ final t = true := by
  obtain ⟨t, hrun, hfinal⟩ := (Option.any_eq_true _ _).mp h
  exact ⟨t, steps_of_executeIf ht hrun, hfinal⟩

end

end Xv6.Lib
