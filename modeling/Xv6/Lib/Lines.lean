import Mathlib.Data.List.Basic

namespace Xv6.Lib

section

variable {α : Type} [DecidableEq α] {sep : α} {l s t : List α}

/-- The lines that end in a separator, without it. -/
def lines (sep : α) : List α → List (List α)
  | [] => []
  | x :: s =>
    if x = sep then [] :: lines sep s
    else match lines sep s with
      | [] => []
      | l :: ls => (x :: l) :: ls

/-- What comes after the last separator. -/
def unfinished (sep : α) : List α → List α
  | [] => []
  | x :: s => if x ≠ sep ∧ sep ∉ s then x :: s else unfinished sep s

theorem lines_of_not_mem (h : sep ∉ l) : lines sep l = [] := by
  induction l with
  | nil => rfl
  | cons x l ih =>
    rw [List.mem_cons, not_or] at h
    rw [lines, if_neg (Ne.symm h.1), ih h.2]

theorem unfinished_of_not_mem (h : sep ∉ l) : unfinished sep l = l := by
  cases l with
  | nil => rfl
  | cons x l =>
    rw [List.mem_cons, not_or] at h
    rw [unfinished, if_pos ⟨Ne.symm h.1, h.2⟩]

theorem not_mem_unfinished (sep : α) (s : List α) : sep ∉ unfinished sep s := by
  induction s with
  | nil => exact List.not_mem_nil
  | cons x s ih =>
    by_cases h : x ≠ sep ∧ sep ∉ s
    · rw [unfinished, if_pos h, List.mem_cons, not_or]
      exact ⟨h.1.symm, h.2⟩
    · rw [unfinished, if_neg h]
      exact ih

theorem mem_of_mem_unfinished {x : α} (h : x ∈ unfinished sep s) : x ∈ s := by
  induction s with
  | nil => exact h
  | cons y s ih =>
    rw [unfinished] at h
    split at h
    · exact h
    · exact List.mem_cons_of_mem y (ih h)

theorem lines_cons (h : sep ∉ l) (s : List α) : lines sep (l ++ sep :: s) = l :: lines sep s := by
  induction l with
  | nil =>
    rw [List.nil_append, lines, if_pos rfl]
  | cons x l ih =>
    rw [List.mem_cons, not_or] at h
    rw [List.cons_append, lines, if_neg (Ne.symm h.1), ih h.2]

theorem unfinished_cons (l s : List α) : unfinished sep (l ++ sep :: s) = unfinished sep s := by
  induction l with
  | nil =>
    rw [List.nil_append, unfinished, if_neg]
    exact fun h => h.1 rfl
  | cons x l ih =>
    rw [List.cons_append, unfinished, if_neg, ih]
    exact fun h => h.2 (List.mem_append_right l List.mem_cons_self)

theorem length_unfinished_le (sep : α) (s : List α) : (unfinished sep s).length ≤ s.length := by
  induction s with
  | nil => exact Nat.le_refl _
  | cons x s ih =>
    rw [unfinished]
    split
    · exact Nat.le_refl _
    · exact Nat.le_succ_of_le ih

theorem length_unfinished_lt (h : sep ∈ s) : (unfinished sep s).length < s.length := by
  obtain ⟨l, r, rfl, -⟩ := List.eq_append_cons_of_mem h
  rw [unfinished_cons, List.length_append, List.length_cons]
  have hle := length_unfinished_le sep r
  omega

theorem lines_append (sep : α) (s t : List α) :
    lines sep (s ++ t) = lines sep s ++ lines sep (unfinished sep s ++ t) := by
  by_cases h : sep ∈ s
  · -- One line at a time.
    obtain ⟨l, r, hs, hl⟩ := List.eq_append_cons_of_mem h
    have hlt : r.length < s.length := by
      rw [hs, List.length_append, List.length_cons]
      omega
    rw [hs, List.append_assoc, List.cons_append, lines_cons hl, lines_cons hl, unfinished_cons,
      lines_append sep r t, List.cons_append]
  · rw [lines_of_not_mem h, unfinished_of_not_mem h, List.nil_append]
termination_by s.length

end

end Xv6.Lib
