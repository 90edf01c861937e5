import Mathlib.Data.List.Basic
import Mathlib.Data.Nat.ModEq

namespace Xv6.Lib

section

variable {α : Type} {N M r n : ℕ} {get get' : ℕ → α}

def ring (N : ℕ) (get : ℕ → α) (r n : ℕ) : List α := (List.range n).map fun i => get ((r + i) % N)

@[simp] theorem ring_length : (ring N get r n).length = n := by simp [ring]

theorem ring_add (m : ℕ) : ring N get r (m + n) = ring N get r m ++ ring N get (r + m) n := by
  unfold ring
  rw [List.range_add, List.map_append, List.map_map]
  congr 1
  refine List.map_congr_left fun i _ => ?_
  simp only [Function.comp_apply, Nat.add_assoc]

theorem ring_succ : ring N get r (n + 1) = get (r % N) :: ring N get (r + 1) n := by
  rw [Nat.add_comm n 1, ring_add]
  rfl

theorem ring_succ_last : ring N get r (n + 1) = ring N get r n ++ [get ((r + n) % N)] := by
  rw [ring_add]
  rfl

theorem ring_mod (h : N ∣ M) : ring N get (r % M) n = ring N get r n := by
  unfold ring
  refine List.map_congr_left fun i _ => ?_
  have hmod : (r % M + i) % N = (r + i) % N := by
    rw [Nat.add_mod, Nat.mod_mod_of_dvd r h, ← Nat.add_mod]
  rw [hmod]

theorem ring_congr (h : ∀ i, i < n → get' ((r + i) % N) = get ((r + i) % N)) :
    ring N get' r n = ring N get r n :=
  List.map_congr_left fun i hi => h i (List.mem_range.mp hi)

theorem add_mod_ne {i j : ℕ} (hij : i < j) (hj : j < N + i) : (r + i) % N ≠ (r + j) % N := by
  intro h
  have hmod : i ≡ j [MOD N] := Nat.ModEq.add_left_cancel' r h
  have hdvd := (Nat.modEq_iff_dvd' hij.le).mp hmod
  have hle := Nat.le_of_dvd (by omega) hdvd
  omega

theorem ring_push {b : α} (hn : n < N) (hself : get' ((r + n) % N) = b)
    (hother : ∀ j, j < N → j ≠ (r + n) % N → get' j = get j) :
    ring N get' r (n + 1) = ring N get r n ++ [b] := by
  rw [ring_succ_last, hself]
  congr 1
  refine ring_congr fun i hi => ?_
  exact hother _ (Nat.mod_lt _ (by omega)) (add_mod_ne hi (by omega))

end

end Xv6.Lib
