import Mathlib.Data.List.Basic
import Mathlib.Data.List.GetD

namespace Xv6.Lib

variable {α β : Type} {f : ℕ → α} {addr a : ℕ} {l l' : List α}

def overlay (f : ℕ → α) (addr : ℕ) (l : List α) : ℕ → α :=
  fun a => if addr ≤ a then l.getD (a - addr) (f a) else f a

theorem overlay_of_lt (h : a < addr) : overlay f addr l a = f a := if_neg (Nat.not_le.mpr h)

theorem overlay_of_ge (h : addr + l.length ≤ a) : overlay f addr l a = f a := by
  unfold overlay
  rw [if_pos (by omega), List.getD_eq_default _ _ (by omega)]

theorem overlay_of_mem (h : addr ≤ a) (h' : a < addr + l.length) (z : α) :
    overlay f addr l a = l.getD (a - addr) z := by
  have hlt : a - addr < l.length := by omega
  unfold overlay
  rw [if_pos h, List.getD_eq_getElem _ _ hlt, List.getD_eq_getElem _ _ hlt]

@[simp] theorem overlay_nil : overlay f addr [] = f := by
  funext a
  unfold overlay
  rw [List.getD_nil, ite_self]

theorem overlay_append :
    overlay (overlay f addr l) (addr + l.length) l' = overlay f addr (l ++ l') := by
  funext a
  rcases Nat.lt_or_ge a (addr + l.length) with h | h
  · rw [overlay_of_lt h]
    rcases Nat.lt_or_ge a addr with h' | h'
    · rw [overlay_of_lt h', overlay_of_lt h']
    · rw [overlay_of_mem h' h (f a), overlay_of_mem h' (by rw [List.length_append]; omega) (f a),
        List.getD_append _ _ _ _ (by omega)]
  · rcases Nat.lt_or_ge a (addr + l.length + l'.length) with h' | h'
    · rw [overlay_of_mem h h' (f a), overlay_of_mem (by omega) (by rw [List.length_append]; omega)
        (f a), List.getD_append_right _ _ _ _ (by omega), Nat.sub_add_eq]
    · rw [overlay_of_ge h', overlay_of_ge h, overlay_of_ge (by rw [List.length_append]; omega)]

theorem overlay_map (g : α → β) (a : ℕ) :
    overlay (fun a => g (f a)) addr (l.map g) a = g (overlay f addr l a) := by
  unfold overlay
  split_ifs with h
  · rw [List.getD_map]
  · rfl

/-- The list of `n` values from the address on. -/
def valuesAt (f : ℕ → α) (addr n : ℕ) : List α := (List.range n).map fun i => f (addr + i)

theorem valuesAt_congr {g : ℕ → α} {n addr' : ℕ} (h : ∀ i, i < n → g (addr' + i) = f (addr + i)) :
    valuesAt g addr' n = valuesAt f addr n :=
  List.map_congr_left fun i hi => h i (List.mem_range.mp hi)

/-- The list stands at the address. -/
def Reads (f : ℕ → α) (addr : ℕ) (l : List α) : Prop :=
  ∀ i z, i < l.length → f (addr + i) = l.getD i z

theorem reads_overlay : Reads (overlay f addr l) addr l := by
  intro i z hi
  rw [overlay_of_mem (Nat.le_add_right _ _) (by omega) z, Nat.add_sub_cancel_left]

theorem Reads.congr {g : ℕ → α} (h : Reads f addr l)
    (hg : ∀ a, addr ≤ a → a < addr + l.length → g a = f a) : Reads g addr l := by
  intro i z hi
  rw [hg _ (Nat.le_add_right _ _) (by omega)]
  exact h i z hi

end Xv6.Lib
