import Mathlib.Logic.Function.Basic
import Mathlib.Data.Nat.Notation
import Mathlib.Tactic.SplitIfs

namespace Xv6.Lib
open Function

variable {ι : Type}

structure Covers (lo hi : ℕ) (bits : ℕ → Bool) (holds : ι → ℕ → Prop) : Prop where
  range : ∀ x b, holds x b → lo ≤ b ∧ b < hi
  inj : ∀ x y b, holds x b → holds y b → x = y
  marked : ∀ x b, holds x b → bits b = true
  reserved : ∀ b, b < lo → b < hi → bits b = true

namespace Covers

variable {lo hi : ℕ} {bits : ℕ → Bool} {holds holds' : ι → ℕ → Prop}

theorem fresh (h : Covers lo hi bits holds) {b : ℕ} (hb : bits b = false) (hhi : b < hi) :
    lo ≤ b ∧ ∀ x, ¬ holds x b := by
  constructor
  · apply Nat.le_of_not_lt
    intro hlo
    rw [h.reserved b hlo hhi] at hb
    cases hb
  · intro x hx
    rw [h.marked x b hx] at hb
    cases hb

theorem insert (h : Covers lo hi bits holds) {x : ι} {b : ℕ} (hb : bits b = false) (hhi : b < hi)
    (hh : ∀ y c, holds' y c ↔ holds y c ∨ y = x ∧ c = b) :
    Covers lo hi (update bits b true) holds' where
  range y c hc := by
    rcases (hh y c).mp hc with hc | ⟨_, rfl⟩
    · exact h.range y c hc
    · exact ⟨(h.fresh hb hhi).1, hhi⟩
  inj y z c hy hz := by
    have hf := (h.fresh hb hhi).2
    rcases (hh y c).mp hy with hy | ⟨rfl, rfl⟩
    · rcases (hh z c).mp hz with hz | ⟨_, rfl⟩
      · exact h.inj y z c hy hz
      · exact absurd hy (hf y)
    · rcases (hh z c).mp hz with hz | ⟨rfl, _⟩
      · exact absurd hz (hf z)
      · rfl
  marked y c hc := by
    rcases (hh y c).mp hc with hc | ⟨_, rfl⟩
    · have hcb : c ≠ b := fun he => (h.fresh hb hhi).2 y (he ▸ hc)
      rw [update_of_ne hcb, h.marked y c hc]
    · rw [update_self]
  reserved c hc hchi := by
    have hcb : c ≠ b := Nat.ne_of_lt (Nat.lt_of_lt_of_le hc (h.fresh hb hhi).1)
    rw [update_of_ne hcb, h.reserved c hc hchi]

theorem congr (h : Covers lo hi bits holds) (hh : ∀ y c, holds' y c ↔ holds y c) :
    Covers lo hi bits holds' where
  range y c hc := h.range y c ((hh y c).mp hc)
  inj y z c hy hz := h.inj y z c ((hh y c).mp hy) ((hh z c).mp hz)
  marked y c hc := h.marked y c ((hh y c).mp hc)
  reserved := h.reserved

end Covers

structure Exact (lo hi : ℕ) (bits : ℕ → Bool) (holds : ι → ℕ → Prop) : Prop where
  range : ∀ x b, holds x b → lo ≤ b ∧ b < hi
  inj : ∀ x y b, holds x b → holds y b → x = y
  bits : ∀ b, b < hi → (bits b = true ↔ b < lo ∨ ∃ x, holds x b)

namespace Exact

variable {lo hi : ℕ} {bits : ℕ → Bool} {holds holds' : ι → ℕ → Prop}

section

variable (h : Exact lo hi bits holds)
include h

theorem covers : Covers lo hi bits holds where
  range := h.range
  inj := h.inj
  marked x b hb := (h.bits b (h.range x b hb).2).mpr (.inr ⟨x, hb⟩)
  reserved b hlo hhi := (h.bits b hhi).mpr (.inl hlo)

theorem insert {x : ι} {b : ℕ} (hb : bits b = false) (hhi : b < hi)
    (hh : ∀ y c, holds' y c ↔ holds y c ∨ y = x ∧ c = b) :
    Exact lo hi (update bits b true) holds' where
  range := (h.covers.insert hb hhi hh).range
  inj := (h.covers.insert hb hhi hh).inj
  bits c hc := by
    by_cases hcb : c = b
    · subst hcb
      simp only [update_self, true_iff]
      exact .inr ⟨x, (hh x c).mpr (.inr ⟨rfl, rfl⟩)⟩
    · rw [update_of_ne hcb, h.bits c hc]
      constructor
      · rintro (hlo | ⟨y, hy⟩)
        · exact .inl hlo
        · exact .inr ⟨y, (hh y c).mpr (.inl hy)⟩
      · rintro (hlo | ⟨y, hy⟩)
        · exact .inl hlo
        · rcases (hh y c).mp hy with hy | ⟨_, rfl⟩
          · exact .inr ⟨y, hy⟩
          · exact absurd rfl hcb

theorem remove {g : ι → Prop} {f : ℕ → Prop} [DecidablePred f]
    (hf : ∀ b, f b ↔ ∃ x, g x ∧ holds x b) (hh : ∀ y c, holds' y c ↔ holds y c ∧ ¬ g y) :
    Exact lo hi (fun b => bits b && decide (¬ f b)) holds' where
  range y c hc := h.range y c ((hh y c).mp hc).1
  inj y z c hy hz := h.inj y z c ((hh y c).mp hy).1 ((hh z c).mp hz).1
  bits c hc := by
    simp only [Bool.and_eq_true, decide_eq_true_eq, h.bits c hc, hf]
    constructor
    · rintro ⟨hlo | ⟨y, hy⟩, hn⟩
      · exact .inl hlo
      · exact .inr ⟨y, (hh y c).mpr ⟨hy, fun hg => hn ⟨y, hg, hy⟩⟩⟩
    · rintro (hlo | ⟨y, hy⟩)
      · refine ⟨.inl hlo, ?_⟩
        rintro ⟨x, _, hx⟩
        exact absurd (h.range x c hx).1 (by omega)
      · obtain ⟨hy, hng⟩ := (hh y c).mp hy
        refine ⟨.inr ⟨y, hy⟩, ?_⟩
        rintro ⟨x, hg, hx⟩
        exact hng (h.inj x y c hx hy ▸ hg)

theorem congr (hh : ∀ y c, holds' y c ↔ holds y c) :
    Exact lo hi bits holds' where
  range y c hc := h.range y c ((hh y c).mp hc)
  inj y z c hy hz := h.inj y z c ((hh y c).mp hy) ((hh z c).mp hz)
  bits c hc := by simp only [h.bits c hc, hh]

end

end Exact

end Xv6.Lib
