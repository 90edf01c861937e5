import Mathlib.Data.List.Basic
import Mathlib.Data.List.GetD

namespace Xv6.Lib

variable {α : Type} {l a b src : List α} {off : ℕ}

def splice (l : List α) (off : ℕ) (src : List α) : List α :=
  l.take off ++ (src ++ l.drop (off + src.length))

@[simp] theorem splice_nil (l : List α) (off : ℕ) : splice l off [] = l := by
  rw [splice, List.length_nil, Nat.add_zero, List.nil_append, List.take_append_drop]

theorem length_splice (h : off ≤ l.length) :
    (splice l off src).length = max l.length (off + src.length) := by
  rw [splice, List.length_append, List.length_append, List.length_take, List.length_drop]
  omega

theorem splice_append (h : off ≤ l.length) :
    splice (splice l off a) (off + a.length) b = splice l off (a ++ b) := by
  have htake : (l.take off).length = off := List.length_take_of_le h
  have hfront : (splice l off a).take (off + a.length) = l.take off ++ a := by
    rw [splice, ← List.append_assoc, List.take_left' (by rw [List.length_append, htake])]
  have hback : (splice l off a).drop (off + a.length + b.length) =
      l.drop (off + (a.length + b.length)) := by
    rw [← List.drop_drop, splice, ← List.append_assoc,
      List.drop_left' (by rw [List.length_append, htake]), List.drop_drop, Nat.add_assoc]
  rw [splice, hfront, hback, splice, List.length_append, List.append_assoc, List.append_assoc]

theorem map_range_eq_splice {f g : ℕ → α} {n : ℕ} (z : α) (hoff : off ≤ n)
    (hnew : ∀ x, off ≤ x → x < off + src.length → g x = src.getD (x - off) z)
    (hkept : ∀ x < n, ¬ (off ≤ x ∧ x < off + src.length) → g x = f x) :
    (List.range (max n (off + src.length))).map g = splice ((List.range n).map f) off src := by
  have hn : ((List.range n).map f).length = n := by rw [List.length_map, List.length_range]
  have hlen : (splice ((List.range n).map f) off src).length =
      max ((List.range n).map f).length (off + src.length) := length_splice (by rwa [hn])
  unfold splice at hlen ⊢
  apply List.ext_getElem
  · rw [hlen, hn, List.length_map, List.length_range]
  · intro x hx _
    rw [List.length_map, List.length_range] at hx
    rw [List.getElem_map, List.getElem_range]
    have htake : (((List.range n).map f).take off).length = off := by
      rw [List.length_take, hn]
      omega
    by_cases h1 : x < off
    · rw [List.getElem_append_left (by rwa [htake]), List.getElem_take, List.getElem_map,
        List.getElem_range]
      exact hkept x (by omega) (by omega)
    · rw [List.getElem_append_right (by omega)]
      by_cases h2 : x < off + src.length
      · rw [List.getElem_append_left (by omega), hnew x (by omega) h2,
          List.getD_eq_getElem _ _ (by omega)]
        simp only [htake]
      · rw [List.getElem_append_right (by omega), List.getElem_drop, List.getElem_map,
          List.getElem_range]
        have hidx : off + src.length + (x - (((List.range n).map f).take off).length - src.length) = x := by
          omega
        rw [hidx]
        exact hkept x (by omega) (by omega)

end Xv6.Lib
