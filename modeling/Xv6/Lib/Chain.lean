import Mathlib.Data.List.Basic

namespace Xv6.Lib

section

variable {α : Type} {next next' : α → Option α} {o : Option α} {l : List α}

/-- The links from `o` on lead through the nodes of the list and end. -/
inductive Chain (next : α → Option α) : Option α → List α → Prop where
  | nil : Chain next none []
  | cons {a : α} {l : List α} : Chain next (next a) l → Chain next (some a) (a :: l)

theorem Chain.congr (h : Chain next o l) (heq : ∀ a ∈ l, next' a = next a) : Chain next' o l := by
  induction h with
  | nil => exact .nil
  | @cons a l _ ih =>
    rw [← heq a List.mem_cons_self] at ih
    exact .cons (ih fun b hb => heq b (List.mem_cons_of_mem a hb))

/-- The first node from `o` on that passes the test, if there is one.  The search gives up after
`fuel` rounds. -/
def search (next : α → Option α) (test : α → Bool) : ℕ → Option α → Option (Option α)
  | 0, _ => none
  | _ + 1, none => some none
  | fuel + 1, some a => if test a then some (some a) else search next test fuel (next a)

theorem Chain.search_eq {test : α → Bool} {fuel : ℕ} (h : Chain next o l)
    (hfuel : l.length < fuel) : search next test fuel o = some (l.find? test) := by
  induction h generalizing fuel with
  | nil =>
    cases fuel with
    | zero => exact absurd hfuel (Nat.not_lt_zero _)
    | succ fuel => rfl
  | @cons a l _ ih =>
    cases fuel with
    | zero => exact absurd hfuel (Nat.not_lt_zero _)
    | succ fuel =>
      rw [search, List.find?_cons]
      cases htest : test a with
      | true => rfl
      | false => exact ih (Nat.lt_of_succ_lt_succ hfuel)

end

end Xv6.Lib
