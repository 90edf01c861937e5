import Xv6.Vm.Proc
import Xv6.Vm.Spaces

namespace Xv6.Vm
open Lib Prog Function

section Growth

variable {p : Pid} {U : Page → Prop} {s s' : State} {b : Books} {a : Space} {d : Page}

/-- A free page stays free or becomes a table, if the address space shows the same. -/
theorem Apart.free_or_table (h : Apart a b s s') (hg : Good U s b) (hg' : Good U s' b)
    (hdir : b.dir a = some d) (hview : ∀ v, view s'.mem d v = view s.mem d v) {x : Page}
    (hx : x ∈ s.freelist) : x ∈ s'.freelist ∨ ∃ i, entry s'.mem d i = some x := by
  obtain ⟨r, hr⟩ := (hg'.all x).mp ((hg.all x).mpr ⟨.free, hx⟩)
  have hfree : ∀ r, Holds s.mem s.freelist b r x → r = .free :=
    fun r hr => hg.excl r .free x hr hx
  by_cases hout : r.Outside a
  · have := hfree r ((h.holds_iff hout).mp hr)
    subst this
    exact hout.elim
  cases r with
  | free => exact .inl hr
  | hand | stack p | pipe => exact absurd trivial hout
  | dir c => cases hfree (.dir c) hr
  | table c i =>
    obtain rfl : c = a := not_not.mp hout
    obtain ⟨d', hdir', he⟩ := hr
    rw [hdir] at hdir'
    cases hdir'
    exact .inr ⟨i, he⟩
  | user c v =>
    obtain rfl : c = a := not_not.mp hout
    obtain ⟨hv, d', t, hdir', ht, he⟩ := hr
    rw [hdir] at hdir'
    cases hdir'
    obtain ⟨hp, rfl⟩ := entry_some he
    have hw : lookup s.mem d v = some (word s'.mem t (v % 1024)) := by
      rw [← lookup_eq_of_view (hview v), lookup_of_entry ht, if_pos hp]
    cases hfree (.user c v) (holds_user hdir hv hw)

theorem lt_PGROUNDUP {n v : ℕ} (h : n ≤ KERNBASE) : v * PGSIZE < PGROUNDUP n ↔ v * PGSIZE < n := by
  rw [← not_le, ← not_le, PGROUNDUP_le h]

/-- The address space grows to the new size with pages of zeros, or it shows what it has shown
before: the new size reaches into the kernel's part, or memory is short. -/
theorem allocuvm_all_or_nothing {oldsz newsz : ℕ} (h : Good U s b) (hdir : b.dir a = some d)
    (hmapped : ∀ v, v * PGSIZE < PGROUNDUP oldsz → lookup s.mem d v ≠ none)
    (habove : ∀ v, PGROUNDUP oldsz ≤ v * PGSIZE → v * PGSIZE < KERNBASE →
      lookup s.mem d v = none) :
    Ends p (fun _ => False) (allocuvm d oldsz newsz) s fun r s' =>
      (KERNBASE ≤ newsz → r = 0) ∧
      (r = max oldsz newsz ∧
          (∀ v, v * PGSIZE < KERNBASE →
            (lookup s'.mem d v ≠ none ↔ v * PGSIZE < PGROUNDUP r)) ∧
          (∀ v, PGROUNDUP oldsz ≤ v * PGSIZE → v * PGSIZE < PGROUNDUP r → ∃ x,
            view s'.mem d v = some (x * PGSIZE + (PTE_P ||| PTE_W ||| PTE_U), some (fill 0))) ∧
          (∀ v, v * PGSIZE < PGROUNDUP oldsz → view s'.mem d v = view s.mem d v) ∨
        r = 0 ∧ (KERNBASE ≤ newsz ∨ ∀ K, (∀ v, v * PGSIZE < newsz → v / 1024 ∈ K) →
            Lacks d K (allocPages oldsz newsz) s) ∧
          (∀ v, view s'.mem d v = view s.mem d v) ∧
          ∀ x ∈ s.freelist, x ∈ s'.freelist ∨ ∃ i, entry s'.mem d i = some x) := by
  have hrange : oldsz ≤ newsz → newsz < KERNBASE → ∀ v, oldsz ≤ v * PGSIZE →
      v * PGSIZE < newsz → lookup s.mem d v = none := by
    intro hle hlt v h1 h2
    exact habove v ((PGROUNDUP_le (hle.trans hlt.le)).mpr h1) (h2.trans hlt)
  refine (ends_allocuvm h hdir ?_).mono ?_
  · rintro hle hlt ⟨v, h1, h2, hne⟩
    exact hne (hrange hle hlt v h1 h2)
  rintro r s' ⟨hapart, hgood, hcase⟩
  rcases hcase with ⟨hge, rfl, rfl⟩ | ⟨hlt, hless, rfl, rfl⟩ |
    ⟨hlt, hle, rfl, hlacks, hgone, hview⟩ | ⟨hlt, hle, rfl, -, hzero⟩
  · exact ⟨fun _ => rfl, .inr ⟨rfl, .inl hge, fun _ => rfl, fun x hx => .inl hx⟩⟩
  · refine ⟨fun hge => absurd hlt hge.not_gt, .inl ⟨(max_eq_left hless.le).symm, fun v hv => ?_,
      fun v h1 h2 => absurd h2 h1.not_gt, fun _ _ => rfl⟩⟩
    refine ⟨fun hne => ?_, hmapped v⟩
    by_contra hcon
    exact hne (habove v (Nat.le_of_not_lt hcon) hv)
  · -- The pages that were allocated are unmapped again, and there were none in their place.
    have hsame : ∀ v, view s'.mem d v = view s.mem d v := by
      intro v
      by_cases hv : oldsz ≤ v * PGSIZE ∧ v * PGSIZE < newsz
      · rw [view_none.mpr (hgone v hv.1 hv.2), view_none.mpr (hrange hle hlt v hv.1 hv.2)]
      · exact hview v hv
    exact ⟨fun _ => rfl, .inr ⟨rfl, .inr hlacks, hsame,
      fun x => hapart.free_or_table h hgood hdir hsame⟩⟩
  · have hold : oldsz ≤ KERNBASE := hle.trans hlt.le
    refine ⟨fun hge => absurd hlt hge.not_gt, .inl ⟨(max_eq_right hle).symm, fun v hv => ?_,
      fun v h1 h2 => ?_, fun v hv => ?_⟩⟩
    · rw [lt_PGROUNDUP hlt.le]
      by_cases hv' : oldsz ≤ v * PGSIZE ∧ v * PGSIZE < r
      · obtain ⟨x, hx⟩ := hzero.new v hv'
        rw [lookup_eq_view, hx]
        exact ⟨fun _ => hv'.2, fun _ => Option.some_ne_none _⟩
      · rw [lookup_eq_of_view (hzero.other v hv')]
        constructor
        · intro hne
          by_contra hcon
          exact hne (habove v ((PGROUNDUP_le hold).mpr (by omega)) hv)
        · exact fun hlt' => hmapped v ((lt_PGROUNDUP hold).mpr (by omega))
    · rw [PGROUNDUP_le hold] at h1
      rw [lt_PGROUNDUP hlt.le] at h2
      exact hzero.new v ⟨h1, h2⟩
    · rw [lt_PGROUNDUP hold] at hv
      exact hzero.other v fun hcon => absurd hv hcon.1.not_gt

end Growth

def smallLayout : Layout := ⟨0x101000, 0x102000, by decide, by decide, by decide, by decide⟩

def small : State := { State.empty smallLayout fun _ => false with freelist := [1025, 1026, 1027] }

def smallBooks : Books where
  dir a := if a = .new then some 1024 else none
  stack _ := none
  pipe _ := false
  hand := []

theorem entry_small (x i : ℕ) : entry small.mem x i = none := by
  have hzero : small.mem = update small.mem x (fill 0) := by
    funext z
    by_cases hz : z = x
    · subst hz
      rw [update_self]
      rfl
    · exact (update_of_ne hz _ _).symm
  rw [hzero, entry_fill_zero]

theorem good_small : Good (fun x => x = 1024 ∨ x ∈ small.freelist) small smallBooks := by
  have hdir : ∀ a x, smallBooks.dir a = some x ↔ a = .new ∧ x = 1024 := by
    intro a x
    by_cases ha : a = .new
    · simp [smallBooks, ha, eq_comm]
    · simp [smallBooks, ha]
  have hold : ∀ r (x : ℕ), Holds small.mem small.freelist smallBooks r x ↔
      r = .free ∧ x ∈ small.freelist ∨ r = .dir .new ∧ x = 1024 := by
    intro r x
    cases r with
    | free => simp [Holds]
    | dir c => simp [Holds, hdir]
    | hand | stack p | pipe => simp [Holds, smallBooks]
    | table c i | user c v => simp [Holds, entry_small]
  have hmem : ∀ x : ℕ, x ∈ small.freelist ↔ x = 1025 ∨ x = 1026 ∨ x = 1027 := fun x => by simp [small]
  refine ⟨?_, by decide, by decide, ?_, ?_⟩
  · intro r r' x hr hr'
    rw [hold, hmem] at hr hr'
    rcases hr with ⟨rfl, hx⟩ | ⟨rfl, hx⟩
    · rcases hr' with ⟨rfl, -⟩ | ⟨rfl, hx'⟩
      · rfl
      · omega
    · rcases hr' with ⟨rfl, hx'⟩ | ⟨rfl, -⟩
      · omega
      · rfl
  · intro r x hr
    rw [hold, hmem] at hr
    have hx : x = 1024 ∨ x = 1025 ∨ x = 1026 ∨ x = 1027 := by
      rcases hr with ⟨-, hx⟩ | ⟨-, hx⟩
      · exact .inr hx
      · exact .inl hx
    rcases hx with rfl | rfl | rfl | rfl
    · exact ⟨by decide, by decide⟩
    · exact ⟨by decide, by decide⟩
    · exact ⟨by decide, by decide⟩
    · exact ⟨by decide, by decide⟩
  · intro x
    simp only [hold]
    constructor
    · rintro (rfl | hx)
      · exact ⟨_, .inr ⟨rfl, rfl⟩⟩
      · exact ⟨_, .inl ⟨rfl, hx⟩⟩
    · rintro ⟨r, ⟨-, hx⟩ | ⟨-, hx⟩⟩
      · exact .inr hx
      · exact .inl hx

/-- Three free pages are enough for a table and two pages. -/
theorem allocuvm_all_or_nothing_small :
    ∃ t, (allocuvm 1024 0 5000).run initproc ⟨small, fun _ => none⟩ = .done 5000 t ∧
      ∀ v, v * PGSIZE < KERNBASE → (lookup t.st.mem 1024 v ≠ none ↔ v < 2) := by
  have hempty : ∀ v, lookup small.mem 1024 v = none := fun v => lookup_of_none (entry_small _ _)
  have hends : Ends initproc (fun _ => False) (allocuvm 1024 0 5000) small _ :=
    allocuvm_all_or_nothing good_small (a := .new) rfl
      (fun _ hv => absurd hv (Nat.not_lt_zero _)) fun v _ _ => hempty v
  obtain ⟨r, t, hrun, -, hres⟩ := hends.run fun _ => none
  rcases hres with ⟨rfl, hmapped, -⟩ | ⟨-, hge | hlacks, -⟩
  · refine ⟨t, hrun, fun v hv => (hmapped v hv).trans ?_⟩
    rw [lt_PGROUNDUP (by decide)]
    simp only [PGSIZE]
    omega
  · exact absurd hge (by decide)
  · obtain ⟨n, hn, hshort⟩ := hlacks {0} fun v hv => by
      rw [Finset.mem_singleton]
      unfold PGSIZE at hv
      omega
    have hone : vacant small.mem 1024 {0} ≤ 1 := vacant_le _ _ _
    have htwo : allocPages 0 5000 = 2 := by decide
    exact (hshort.absurd (fun _ => rfl) (by show n < 3; omega)).elim

end Xv6.Vm
