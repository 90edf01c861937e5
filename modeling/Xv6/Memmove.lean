import Mathlib.Algebra.Order.Ring.Int
import Mathlib.Data.List.Basic

namespace Xv6.Memmove
open Function

abbrev Mem := ℕ → UInt8

/-- `while(n-- > 0) *d++ = *s++;` -/
def copyUp (m : Mem) : ℕ → ℕ → ℕ → Mem
  | 0, _, _ => m
  | n + 1, d, s => copyUp (update m d (m s)) n ((d + 1) % 2 ^ 32) ((s + 1) % 2 ^ 32)

/-- `--p` -/
def before (p : ℕ) : ℕ := if p = 0 then 2 ^ 32 - 1 else p - 1

/-- `while(n-- > 0) *--d = *--s;` -/
def copyDown (m : Mem) : ℕ → ℕ → ℕ → Mem
  | 0, _, _ => m
  | n + 1, d, s =>
    copyDown (update m (before d) (m (before s))) n (before d) (before s)

def memmove (m : Mem) (dst src n : ℕ) : Mem :=
  if src < dst ∧ (src + n) % 2 ^ 32 > dst then
    copyDown m n ((dst + n) % 2 ^ 32) ((src + n) % 2 ^ 32)
  else copyUp m n dst src

/-- `memmove` of `ulib.c`, which takes the 32 bits of `n` for an `int`. -/
def umemmove (m : Mem) (vdst vsrc n : ℕ) : Mem := copyUp m (Int.bmod n (2 ^ 32)).toNat vdst vsrc

/-- `r` has the bytes of the source, as they were in `m`, in the place of the destination. -/
def Moved (m : Mem) (dst src n : ℕ) (r : Mem) : Prop :=
  (∀ i, i < n → r (dst + i) = m (src + i)) ∧ ∀ a, a < dst ∨ dst + n ≤ a → r a = m a

def moved (m : Mem) (dst src n : ℕ) : Mem :=
  fun a => if dst ≤ a ∧ a < dst + n then m (src + (a - dst)) else m a

/-- From the `k`-th on, every byte of the source is the one `k` places before it. -/
def Repeats (m : Mem) (src n k : ℕ) : Prop := ∀ i, i < n → m (src + i) = m (src + i % k)

/-- When the library's `memmove` moves the bytes: the destination does not begin inside the
source, or the source repeats itself from there on.  A length that is no `int` copies nothing. -/
def LibraryMoves (m : Mem) (dst src n : ℕ) : Prop :=
  if n < 2 ^ 31 then dst ≤ src ∨ src + n ≤ dst ∨ Repeats m src n (dst - src)
  else ∀ i, i < n → m (dst + i) = m (src + i)

section

variable {m : Mem} {dst src n : ℕ}

theorem moved_zero : moved m dst src 0 = m := by
  funext a
  exact if_neg (by omega)

theorem moved_iff {r : Mem} : Moved m dst src n r ↔ r = moved m dst src n := by
  constructor
  · rintro ⟨hin, hout⟩
    funext a
    unfold moved
    split_ifs with h
    · rw [← hin (a - dst) (by omega), show dst + (a - dst) = a by omega]
    · exact hout a (by omega)
  · rintro rfl
    refine ⟨fun i hi => ?_, fun a ha => if_neg (by omega)⟩
    unfold moved
    rw [if_pos (by omega), Nat.add_sub_cancel_left]

theorem moved_first (h : dst ≤ src ∨ src + n < dst) :
    moved (update m dst (m src)) (dst + 1) (src + 1) n = moved m dst src (n + 1) := by
  funext a
  unfold moved
  by_cases ha : a = dst
  · rw [ha, if_neg (by omega), if_pos (by omega), update_self, Nat.sub_self, Nat.add_zero]
  · split_ifs with h1 h2 h2
    · rw [show src + 1 + (a - (dst + 1)) = src + (a - dst) by omega,
        update_of_ne (by omega)]
    · omega
    · omega
    · exact update_of_ne ha _ _

/-- What copying upwards leaves when the destination begins inside the source. -/
def repeated (m : Mem) (dst src n : ℕ) : Mem :=
  fun a => if dst ≤ a ∧ a < dst + n then m (src + (a - dst) % (dst - src)) else m a

theorem repeated_zero : repeated m dst src 0 = m := by
  funext a
  exact if_neg (by omega)

theorem repeated_first (h : src < dst) :
    repeated (update m dst (m src)) (dst + 1) (src + 1) n = repeated m dst src (n + 1) := by
  obtain ⟨k, rfl⟩ : ∃ k, dst = src + (k + 1) := ⟨dst - src - 1, by omega⟩
  funext a
  unfold repeated
  rw [show src + (k + 1) + 1 - (src + 1) = k + 1 by omega, Nat.add_sub_cancel_left]
  by_cases ha : a = src + (k + 1)
  · rw [ha, if_neg (by omega), if_pos (by omega), update_self, Nat.sub_self, Nat.zero_mod,
      Nat.add_zero]
  · split_ifs with h1 h2 h2
    · obtain ⟨i, rfl⟩ : ∃ i, a = src + (k + 1) + (i + 1) := ⟨a - (src + (k + 1)) - 1, by omega⟩
      rw [show src + (k + 1) + (i + 1) - (src + (k + 1) + 1) = i by omega,
        Nat.add_sub_cancel_left]
      have hlt : i % (k + 1) < k + 1 := Nat.mod_lt i (by omega)
      have hnext : (i + 1) % (k + 1) = (i % (k + 1) + 1) % (k + 1) := (Nat.mod_add_mod i _ 1).symm
      -- Behind the last byte of a period comes the first one, which has just been written.
      by_cases hlast : i % (k + 1) = k
      · rw [hnext, hlast, Nat.mod_self, show src + 1 + k = src + (k + 1) by omega, update_self,
          Nat.add_zero]
      · rw [hnext, Nat.mod_eq_of_lt (by omega : i % (k + 1) + 1 < k + 1),
          update_of_ne (by omega), show src + 1 + i % (k + 1) = src + (i % (k + 1) + 1) by omega]
    · omega
    · omega
    · exact update_of_ne ha _ _

theorem moved_repeated :
    Moved m dst src n (repeated m dst src n) ↔ Repeats m src n (dst - src) := by
  have hin : ∀ i, i < n → repeated m dst src n (dst + i) = m (src + i % (dst - src)) := by
    intro i hi
    unfold repeated
    rw [if_pos (by omega), Nat.add_sub_cancel_left]
  constructor
  · intro h i hi
    rw [← h.1 i hi, hin i hi]
  · intro h
    refine ⟨fun i hi => ?_, fun a ha => if_neg (by omega)⟩
    rw [hin i hi, h i hi]

theorem moved_last (h : src ≤ dst) :
    moved (update m (dst + n) (m (src + n))) dst src n = moved m dst src (n + 1) := by
  funext a
  unfold moved
  by_cases ha : a = dst + n
  · rw [ha, if_neg (by omega), if_pos (by omega), update_self, Nat.add_sub_cancel_left]
  · split_ifs with h1 h2 h2
    · exact update_of_ne (by omega) _ _
    · omega
    · omega
    · exact update_of_ne ha _ _

section

variable (hdst : dst + n ≤ 2 ^ 32)
include hdst

section

variable (hsrc : src + n ≤ 2 ^ 32)
include hsrc

theorem copyUp_eq (h : dst ≤ src ∨ src + n ≤ dst) :
    copyUp m n (dst % 2 ^ 32) (src % 2 ^ 32) = moved m dst src n := by
  induction n generalizing m dst src with
  | zero => exact moved_zero.symm
  | succ n ih =>
    rw [copyUp, Nat.mod_add_mod, Nat.mod_add_mod, Nat.mod_eq_of_lt (by omega : dst < 2 ^ 32),
      Nat.mod_eq_of_lt (by omega : src < 2 ^ 32), ih (by omega) (by omega) (by omega),
      moved_first (by omega)]

theorem copyDown_eq (h : src ≤ dst) :
    copyDown m n ((dst + n) % 2 ^ 32) ((src + n) % 2 ^ 32) = moved m dst src n := by
  induction n generalizing m with
  | zero => exact moved_zero.symm
  | succ n ih =>
    have hback : ∀ p, p + (n + 1) ≤ 2 ^ 32 → before ((p + (n + 1)) % 2 ^ 32) = p + n := by
      intro p hp
      unfold before
      split_ifs with h <;> omega
    rw [copyDown, hback dst hdst, hback src hsrc]
    have ih := ih (m := update m (dst + n) (m (src + n))) (by omega) (by omega)
    rw [Nat.mod_eq_of_lt (by omega : dst + n < 2 ^ 32),
      Nat.mod_eq_of_lt (by omega : src + n < 2 ^ 32)] at ih
    exact ih.trans (moved_last h)

theorem memmove_eq (hn : n < 2 ^ 32) :
    memmove m dst src n = moved m dst src n := by
  cases n with
  | zero =>
    unfold memmove
    rw [moved_zero]
    exact ite_self m
  | succ n =>
    unfold memmove
    split_ifs with h
    · exact copyDown_eq hdst hsrc (Nat.le_of_lt h.1)
    · have hup := copyUp_eq (m := m) hdst hsrc (by omega)
      rwa [Nat.mod_eq_of_lt (by omega), Nat.mod_eq_of_lt (by omega)] at hup

theorem copyUp_inside (h : src < dst) :
    copyUp m n (dst % 2 ^ 32) (src % 2 ^ 32) = repeated m dst src n := by
  induction n generalizing m dst src with
  | zero => exact repeated_zero.symm
  | succ n ih =>
    rw [copyUp, Nat.mod_add_mod, Nat.mod_add_mod, Nat.mod_eq_of_lt (by omega : dst < 2 ^ 32),
      Nat.mod_eq_of_lt (by omega : src < 2 ^ 32), ih (by omega) (by omega) (by omega),
      repeated_first h]

theorem umemmove_iff (hn : n < 2 ^ 32) :
    Moved m dst src n (umemmove m dst src n) ↔ LibraryMoves m dst src n := by
  unfold umemmove LibraryMoves
  split_ifs with hint
  · rw [Int.bmod_eq_of_le (by omega) (by omega), Int.toNat_natCast]
    rcases Nat.eq_zero_or_pos n with rfl | hpos
    · exact ⟨fun _ => .inr (.inr fun i hi => absurd hi (Nat.not_lt_zero i)), fun _ =>
        moved_iff.mpr moved_zero.symm⟩
    by_cases hin : dst ≤ src ∨ src + n ≤ dst
    · have hup := copyUp_eq (m := m) hdst hsrc hin
      rw [Nat.mod_eq_of_lt (by omega), Nat.mod_eq_of_lt (by omega)] at hup
      exact ⟨fun _ => by tauto, fun _ => moved_iff.mpr hup⟩
    · have hup := copyUp_inside (m := m) hdst hsrc (by omega)
      rw [Nat.mod_eq_of_lt (by omega), Nat.mod_eq_of_lt (by omega)] at hup
      rw [hup, moved_repeated]
      tauto
  · have hneg : (Int.bmod n (2 ^ 32)).toNat = 0 := by
      rw [Int.bmod_def]
      omega
    rw [hneg]
    exact ⟨And.left, fun h => ⟨h, fun _ _ => rfl⟩⟩

end

end

/-- The kernel's `memmove` moves the bytes, and the one of the user library moves them exactly
under its condition. -/
theorem memmoves_agree (m : Mem) (dst src n : ℕ) (hdst : dst + n ≤ 2 ^ 32)
    (hsrc : src + n ≤ 2 ^ 32) (hn : n < 2 ^ 32) :
    Moved m dst src n (memmove m dst src n) ∧
      (Moved m dst src n (umemmove m dst src n) ↔ LibraryMoves m dst src n) :=
  ⟨moved_iff.mpr (memmove_eq hdst hsrc hn), umemmove_iff hdst hsrc hn⟩

/-- Three bytes, two of which are moved down by one, and two equal bytes that are moved up. -/
theorem memmoves_agree_overlap :
    Moved (fun a => a.toUInt8) 7 8 2 (umemmove (fun a => a.toUInt8) 7 8 2) ∧
      Moved (fun _ => 5) 8 7 2 (umemmove (fun _ => 5) 8 7 2) := by
  refine ⟨(memmoves_agree _ 7 8 2 (by decide) (by decide) (by decide)).2.mpr ?_,
    (memmoves_agree _ 8 7 2 (by decide) (by decide) (by decide)).2.mpr ?_⟩
  · exact .inl (by decide)
  · exact .inr (.inr fun _ _ => rfl)

/-- Moved up by one, the second byte has been overwritten when its turn comes. -/
theorem umemmove_overwrites :
    let m : Mem := fun a => a.toUInt8
    umemmove m 8 7 2 (8 + 1) = m 7 ∧ memmove m 8 7 2 (8 + 1) = m (7 + 1) ∧ m 7 ≠ m (7 + 1) := by
  decide

end

end Xv6.Memmove
