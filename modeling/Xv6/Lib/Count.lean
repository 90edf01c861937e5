import Mathlib.Algebra.Order.BigOperators.Group.Finset
import Mathlib.Data.Fintype.BigOperators
import Mathlib.Tactic.Linarith
import Mathlib.Tactic.Ring

namespace Xv6.Lib
open Function

variable {ι α : Type} [Fintype ι]

def count (c : α → Bool) (f : ι → α) : ℤ := ∑ i, if c (f i) then 1 else 0

theorem count_nonneg (c : α → Bool) (f : ι → α) : 0 ≤ count c f :=
  Finset.sum_nonneg fun i _ => by split_ifs <;> omega

theorem sum_of_ne {M : Type} [AddCommMonoid M] {f g : ι → M} {i : ι} {m : M}
    (h : ∀ j, j ≠ i → f j = g j) (hi : f i = g i + m) : ∑ j, f j = ∑ j, g j + m := by
  classical
  have hrest : ∑ j ∈ Finset.univ.erase i, f j = ∑ j ∈ Finset.univ.erase i, g j :=
    Finset.sum_congr rfl fun j hj => h j (Finset.ne_of_mem_erase hj)
  rw [← Finset.add_sum_erase _ _ (Finset.mem_univ i), hrest, hi, add_right_comm,
    Finset.add_sum_erase _ _ (Finset.mem_univ i)]

theorem sum_update [DecidableEq ι] (g : α → ℤ) (f : ι → α) (i : ι) (x : α) :
    ∑ j, g (update f i x j) = ∑ j, g (f j) + g x - g (f i) := by
  rw [sum_of_ne (f := fun j => g (update f i x j)) (g := fun j => g (f j)) (i := i)
    (m := g x - g (f i)), add_sub_assoc]
  · intro j hj
    rw [update_of_ne hj]
  · rw [update_self, add_sub_cancel]

theorem count_update [DecidableEq ι] (c : α → Bool) (f : ι → α) (i : ι) (x : α) :
    count c (update f i x) =
      count c f + (if c x then 1 else 0) - (if c (f i) then 1 else 0) :=
  sum_update (fun a => if c a then 1 else 0) f i x

theorem count_congr {c d : α → Bool} {f h : ι → α} (e : ∀ i, c (f i) = d (h i)) :
    count c f = count d h := by
  unfold count
  simp only [e]

theorem count_pos {c : α → Bool} {f : ι → α} {i : ι} (h : c (f i) = true) : 0 < count c f := by
  unfold count
  apply Finset.sum_pos' (fun j _ => by split_ifs <;> omega)
  exact ⟨i, Finset.mem_univ i, by simp [h]⟩

theorem eq_false_of_count {c : α → Bool} {f : ι → α} (h : count c f = 0) (i : ι) :
    c (f i) = false := by
  cases hc : c (f i) with
  | false => rfl
  | true =>
    have := count_pos hc
    omega

theorem sum_update_add {M : Type} [AddCommMonoid M] [DecidableEq ι] (g : ι → α → M) (f : ι → α)
    (i : ι) (x : α) (m : M) (h : g i x = g i (f i) + m) :
    ∑ j, g j (update f i x j) = ∑ j, g j (f j) + m := by
  apply sum_of_ne (i := i)
  · intro j hj
    rw [update_of_ne hj]
  · rw [update_self, h]

end Xv6.Lib
