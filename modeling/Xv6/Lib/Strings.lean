import Mathlib.Data.List.Basic

namespace Xv6.Lib

variable {a r : List UInt8}

/-- The string at the beginning of a piece of memory. -/
def cstr (mem : List UInt8) : List UInt8 := mem.takeWhile (· ≠ 0)

theorem cstr_append (ha : 0 ∉ a) : cstr (a ++ 0 :: r) = a := by
  rw [cstr, List.takeWhile_append_of_pos, List.takeWhile_cons_of_neg, List.append_nil]
  · simp
  · intro x hx
    have hne : x ≠ 0 := fun h => ha (h ▸ hx)
    simpa using hne

end Xv6.Lib
