import Xv6.Param
import Mathlib.Data.Finset.Card

namespace Xv6

/-- `lh` is the list of the block numbers `lh.block[0..n)`. -/
structure Log where
  size : ℕ
  outstanding : ℤ
  committing : Bool
  lh : List ℕ

namespace Log

/-- `begin_op` sleeps: a commit is running, or this operation might exhaust the log. -/
def full (l : Log) : Prop :=
  l.lh.length + (l.outstanding + 1) * MAXOPBLOCKS > LOGSIZE

instance (l : Log) : Decidable l.full := inferInstanceAs (Decidable (_ > _))

def enter (l : Log) : Log := { l with outstanding := l.outstanding + 1 }

def tooBig : String := "too big a transaction"

def outsideTrans : String := "log_write outside of trans"

def stillCommitting : String := "log.committing"

/-- The tests at the start of `log_write`, made without the lock. -/
def logWriteCheck (l : Log) : Option String :=
  if l.lh.length ≥ LOGSIZE ∨ (l.lh.length : ℤ) ≥ (l.size : ℤ) - 1 then some tooBig
  else if l.outstanding < 1 then some outsideTrans
  else none

/-- Log absorption: a block that is in the list already stays where it is. -/
def absorb (lh : List ℕ) (b : ℕ) : List ℕ := if b ∈ lh then lh else lh ++ [b]

def logWrite (l : Log) (b : ℕ) : Log := { l with lh := absorb l.lh b }

/-- The first critical section of `end_op`. -/
def leave (l : Log) : Except String Log :=
  if l.committing then .error stillCommitting
  else .ok { l with
    outstanding := l.outstanding - 1
    committing := decide (l.outstanding - 1 = 0) }

theorem mem_absorb {lh : List ℕ} {b x : ℕ} : x ∈ absorb lh b ↔ x ∈ lh ∨ x = b := by
  unfold absorb
  split_ifs with h
  · constructor
    · exact Or.inl
    · rintro (hx | rfl)
      · exact hx
      · exact h
  · simp

theorem nodup_absorb {lh : List ℕ} (b : ℕ) (h : lh.Nodup) : (absorb lh b).Nodup := by
  unfold absorb
  split_ifs with hb
  · exact h
  · rw [List.nodup_append]
    exact ⟨h, by simp, by
      rintro x hx y hy rfl
      exact hb (List.mem_singleton.mp hy ▸ hx)⟩

theorem length_absorb (lh : List ℕ) (b : ℕ) :
    (absorb lh b).length = if b ∈ lh then lh.length else lh.length + 1 := by
  unfold absorb
  split_ifs <;> simp

end Log

end Xv6
