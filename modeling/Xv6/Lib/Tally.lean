import Mathlib.Data.Set.Card

namespace Xv6.Lib
open Function

variable {ι α : Type} {f : ι → Option α} {i : ι} {a b : α}

def places (f : ι → Option α) (a : α) : Set ι := {i | f i = some a}

/-- How often the table has the value `a`. -/
noncomputable def tally (f : ι → Option α) (a : α) : ℕ := (places f a).ncard

def Finitely (f : ι → Option α) : Prop := {i | f i ≠ none}.Finite

theorem Finitely.places (h : Finitely f) (a : α) : (places f a).Finite := by
  refine h.subset fun i hi => ?_
  have hi' : f i = some a := hi
  simp [hi']

theorem tally_eq_zero (h : Finitely f) : tally f a = 0 ↔ ∀ i, f i ≠ some a := by
  rw [tally, Set.ncard_eq_zero (h.places a), Set.eq_empty_iff_forall_notMem]
  rfl

theorem tally_pos (h : Finitely f) (hi : f i = some a) : 0 < tally f a := by
  rw [Nat.pos_iff_ne_zero, ne_eq, tally_eq_zero h]
  exact fun hno => hno i hi

theorem tally_eq_one (hi : f i = some a) (hone : ∀ j, f j = some a → j = i) : tally f a = 1 := by
  have hp : places f a = {i} := by
    ext j
    constructor
    · exact fun hj => hone j hj
    · rintro rfl
      exact hi
  rw [tally, hp, Set.ncard_singleton]

theorem two_le_tally (h : Finitely f) {j : ι} (hij : i ≠ j) (hi : f i = some a)
    (hj : f j = some a) : 2 ≤ tally f a := by
  have hsub : {i, j} ⊆ places f a := by
    rintro _ (rfl | rfl)
    · exact hi
    · exact hj
  calc 2 = ({i, j} : Set ι).ncard := (Set.ncard_pair hij).symm
    _ ≤ tally f a := Set.ncard_le_ncard hsub (h.places a)

variable [DecidableEq ι]

theorem Finitely.update (h : Finitely f) (i : ι) (x : Option α) :
    Finitely (update f i x) := by
  refine (h.insert i).subset fun j hj => ?_
  by_cases hji : j = i
  · exact .inl hji
  · refine .inr ?_
    simpa [hji] using hj

variable [DecidableEq α]

theorem tally_set (h : Finitely f) (hi : f i = none) :
    tally (update f i (some b)) a = tally f a + if a = b then 1 else 0 := by
  have hnot : i ∉ places f a := by
    intro hmem
    have hmem' : f i = some a := hmem
    rw [hi] at hmem'
    cases hmem'
  split_ifs with hab
  · subst hab
    have hp : places (update f i (some a)) a = insert i (places f a) := by
      ext j
      by_cases hj : j = i
      · subst hj
        simp [places]
      · simp [places, hj]
    rw [tally, hp, Set.ncard_insert_of_notMem hnot (h.places a), tally]
  · have hp : places (update f i (some b)) a = places f a := by
      ext j
      by_cases hj : j = i
      · subst hj
        simp [places, hi, Ne.symm hab]
      · simp [places, hj]
    rw [tally, hp, tally, Nat.add_zero]

theorem tally_clear (h : Finitely f) (hi : f i = some b) :
    tally (update f i none) a + (if a = b then 1 else 0) = tally f a := by
  have hback := tally_set (a := a) (b := b) (h.update i none) (i := i) (by simp)
  rw [update_idem, ← hi, update_eq_self] at hback
  exact hback.symm

end Xv6.Lib
