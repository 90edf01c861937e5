import Mathlib.Data.Int.Notation
import Mathlib.Data.Nat.Notation
import Mathlib.Logic.Function.Basic
import Mathlib.Tactic.SplitIfs
import Mathlib.Tactic.Tauto

namespace Xv6.Lib
open Function

/-- The number of the last use of every object, whether it is still in use, how many are about to
finish a use, and how often a use has been finished. -/
structure Life (ι : Type) where
  gen : ι → ℕ
  live : ι → Prop
  todo : ι → ℕ → ℤ
  done : ι → ℕ → ℕ

namespace Life

variable {ι : Type} {l l' : Life ι} {i : ι} {n : ℕ}

/-- Use `n` of the object has ended. -/
def Over (l : Life ι) (i : ι) (n : ℕ) : Prop := 1 ≤ n ∧ n ≤ l.gen i ∧ (n = l.gen i → ¬ l.live i)

/-- Every use that has ended is finished once, or there is one who will do it, and no other use is
finished. -/
structure Once (l : Life ι) : Prop where
  ended : ∀ i n, l.Over i n → l.done i n + l.todo i n = 1
  not_over : ∀ i n, ¬ l.Over i n → l.done i n = 0 ∧ l.todo i n = 0

theorem Once.congr (h : l.Once) (hover : ∀ i n, l'.Over i n ↔ l.Over i n)
    (hsum : ∀ i n, l'.done i n + l'.todo i n = l.done i n + l.todo i n)
    (hnot : ∀ i n, ¬ l.Over i n → l'.done i n = l.done i n) : l'.Once where
  ended i n hn := (hsum i n).trans (h.ended i n ((hover i n).mp hn))
  not_over i n hn := by
    have hn' : ¬ l.Over i n := fun h => hn ((hover i n).mpr h)
    have h0 := h.not_over i n hn'
    have hd := hnot i n hn'
    have hs := hsum i n
    omega

theorem Once.of_todo (h : l.Once) (hpos : 0 < l.todo i n) : l.Over i n ∧ l.done i n = 0 := by
  by_cases ho : l.Over i n
  · have := h.ended i n ho
    exact ⟨ho, by omega⟩
  · have := h.not_over i n ho
    omega

variable [DecidableEq ι]

theorem Once.start (h : l.Once) (hi : ¬ l.live i)
    (hgen : l'.gen = update l.gen i (l.gen i + 1))
    (hlive : ∀ j, j ≠ i → (l'.live j ↔ l.live j))
    (hself : l'.live i) (htodo : l'.todo = l.todo) (hdone : l'.done = l.done) : l'.Once := by
  refine h.congr (fun j n => ?_) (fun j n => by rw [htodo, hdone]) fun j n _ => by rw [hdone]
  unfold Over
  by_cases hj : j = i
  · subst hj
    rw [hgen, update_self]
    constructor
    · rintro ⟨h1, h2, h3⟩
      have : n ≠ l.gen j + 1 := fun he => h3 he hself
      exact ⟨h1, by omega, fun _ => hi⟩
    · rintro ⟨h1, h2, -⟩
      exact ⟨h1, by omega, fun he => by omega⟩
  · rw [hgen, update_of_ne hj, hlive j hj]

theorem Once.stop (h : l.Once) (hi : l.live i) (hpos : 1 ≤ l.gen i) (hgen : l'.gen = l.gen)
    (hlive : ∀ j, j ≠ i → (l'.live j ↔ l.live j)) (hself : ¬ l'.live i)
    (htodo : ∀ j n, l'.todo j n = l.todo j n + if j = i ∧ n = l.gen i then 1 else 0)
    (hdone : l'.done = l.done) : l'.Once := by
  have hnow : ¬ l.Over i (l.gen i) := fun ho => ho.2.2 rfl hi
  have h0 := h.not_over i (l.gen i) hnow
  have hover : ∀ j n, ¬ (j = i ∧ n = l.gen i) → (l'.Over j n ↔ l.Over j n) := by
    intro j n hne
    unfold Over
    by_cases hj : j = i
    · subst hj
      have hn : n ≠ l.gen j := fun he => hne ⟨rfl, he⟩
      rw [hgen]
      tauto
    · rw [hgen, hlive j hj]
  refine ⟨fun j n ho => ?_, fun j n ho => ?_⟩
  · rw [htodo, hdone]
    by_cases hjn : j = i ∧ n = l.gen i
    · obtain ⟨rfl, rfl⟩ := hjn
      rw [if_pos ⟨rfl, rfl⟩]
      omega
    · rw [if_neg hjn]
      have := h.ended j n ((hover j n hjn).mp ho)
      omega
  · have hjn : ¬ (j = i ∧ n = l.gen i) := by
      rintro ⟨rfl, rfl⟩
      exact ho ⟨hpos, Nat.le_of_eq (congrFun hgen j).symm, fun _ => hself⟩
    have h1 := h.not_over j n fun h => ho ((hover j n hjn).mpr h)
    rw [htodo, hdone, if_neg hjn]
    exact ⟨h1.1, by omega⟩

theorem Once.finish (h : l.Once) (hpos : 0 < l.todo i n) (hgen : l'.gen = l.gen)
    (hlive : ∀ j, l'.live j ↔ l.live j)
    (htodo : ∀ j m, l'.todo j m = l.todo j m - if j = i ∧ m = n then 1 else 0)
    (hdone : ∀ j m, l'.done j m = l.done j m + if j = i ∧ m = n then 1 else 0) : l'.Once := by
  refine h.congr (fun j m => ?_) (fun j m => ?_) fun j m hm => ?_
  · unfold Over
    rw [hgen, hlive]
  · rw [htodo, hdone]
    split_ifs
    · push_cast
      omega
    · simp
  · have h0 := h.not_over j m hm
    have hne : ¬ (j = i ∧ m = n) := by
      rintro ⟨rfl, rfl⟩
      omega
    rw [hdone, if_neg hne, Nat.add_zero]

end Life

end Xv6.Lib
