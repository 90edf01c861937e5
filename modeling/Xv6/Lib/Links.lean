import Mathlib.Data.List.Chain

namespace Xv6.Lib

variable {α : Type} {next next' : α → α} {l l1 l2 : List α} {x y h : α}

def Links (next : α → α) (l : List α) (h : α) : Prop :=
  List.IsChain (fun x y => next x = y) (l ++ [h])

namespace Links

theorem nil : Links next [] h := .singleton h

theorem singleton : Links next [x] h ↔ next x = h := List.isChain_pair

theorem cons_cons : Links next (x :: y :: l) h ↔ next x = y ∧ Links next (y :: l) h :=
  List.isChain_cons_cons

theorem append_cons :
    Links next (l1 ++ x :: l2) h ↔ Links next l1 x ∧ Links next (x :: l2) h := by
  unfold Links
  rw [List.append_assoc, List.cons_append]
  exact List.isChain_split

theorem tail (hl : Links next (x :: l) h) : Links next l h := List.IsChain.tail hl

theorem upto (hl : Links next l h) (hsplit : l ++ [h] = l1 ++ x :: l2) : Links next l1 x := by
  unfold Links at hl
  rw [hsplit] at hl
  exact (List.isChain_split.mp hl).1

theorem congr (hl : Links next l h) (heq : ∀ x ∈ l, next' x = next x) : Links next' l h := by
  induction l with
  | nil => exact nil
  | cons x l ih =>
    have hx := heq x List.mem_cons_self
    have ih := ih hl.tail fun y hy => heq y (List.mem_cons_of_mem x hy)
    cases l with
    | nil =>
      rw [singleton] at hl ⊢
      rw [hx, hl]
    | cons y l =>
      rw [cons_cons] at hl ⊢
      exact ⟨hx.trans hl.1, ih⟩

theorem rotate (hl : Links next (l1 ++ x :: l2) h) (hh : (l1 ++ x :: l2).head? = some h) :
    Links next (x :: (l2 ++ l1)) x := by
  obtain ⟨hl1, hl2⟩ := append_cons.mp hl
  cases l1 with
  | nil =>
    obtain rfl : x = h := Option.some.inj hh
    rw [List.append_nil]
    exact hl2
  | cons a l1 =>
    obtain rfl : a = h := Option.some.inj hh
    have hsplit : Links next ((x :: l2) ++ a :: l1) x := append_cons.mpr ⟨hl2, hl1⟩
    exact hsplit

theorem exists_next (hl : Links next l h) (hx : x ∈ l) (hne : next x ≠ h) :
    ∃ l1 l2, l = l1 ++ x :: next x :: l2 := by
  obtain ⟨l1, l2, rfl⟩ := List.append_of_mem hx
  obtain ⟨-, hl2⟩ := append_cons.mp hl
  cases l2 with
  | nil => exact absurd (singleton.mp hl2) hne
  | cons y l2 =>
    obtain ⟨hy, -⟩ := cons_cons.mp hl2
    exact ⟨l1, l2, by rw [hy]⟩

end Links

end Xv6.Lib
