namespace Xv6.Lib

variable {R X : Type} {H H' : R → X → Prop}

/-- No thing is in two roles. -/
def Exclusive (H : R → X → Prop) : Prop := ∀ r r' x, H r x → H r' x → r = r'

/-- One thing moves from a role to another; all others stay. -/
structure Move (H H' : R → X → Prop) (r₁ r₀ : R) (y : X) : Prop where
  src : H r₁ y
  dst : H' r₀ y
  stays : ∀ r x, H r x → r = r₁ ∧ x = y ∨ H' r x
  comes : ∀ r x, H' r x → r = r₀ ∧ x = y ∨ H r x ∧ (r = r₁ → x ≠ y)

theorem Move.taken {r1 r0 : R} {y x : X} (hm : Move H H' r1 r0 y) :
    (∃ r, H' r x) ↔ ∃ r, H r x := by
  constructor
  · rintro ⟨r, hr⟩
    rcases hm.comes r x hr with ⟨-, rfl⟩ | ⟨hold, -⟩
    · exact ⟨r1, hm.src⟩
    · exact ⟨r, hold⟩
  · rintro ⟨r, hr⟩
    rcases hm.stays r x hr with ⟨-, rfl⟩ | hnew
    · exact ⟨r0, hm.dst⟩
    · exact ⟨r, hnew⟩

namespace Exclusive

theorem mono (h : Exclusive H) (hs : ∀ r x, H' r x → H r x) : Exclusive H' :=
  fun r r' x hr hr' => h r r' x (hs r x hr) (hs r' x hr')

theorem move (h : Exclusive H) {r1 r0 : R} {y : X} (hm : Move H H' r1 r0 y) : Exclusive H' := by
  have hne : ∀ r x, H r x ∧ (r = r1 → x ≠ y) → x ≠ y := by
    rintro r x ⟨hr, hx⟩ rfl
    exact hx (h r r1 x hr hm.src) rfl
  intro r r' x hr hr'
  rcases hm.comes r x hr with ⟨rfl, rfl⟩ | hold
  · rcases hm.comes r' x hr' with ⟨rfl, -⟩ | hold'
    · rfl
    · exact absurd rfl (hne r' x hold')
  · rcases hm.comes r' x hr' with ⟨-, rfl⟩ | hold'
    · exact absurd rfl (hne r x hold)
    · exact h r r' x hold.1 hold'.1

theorem merge (h : Exclusive H) (g : R → R) (hm : ∀ r x, H' r x → ∃ k, H k x ∧ g k = r) :
    Exclusive H' := by
  intro r r' x hr hr'
  obtain ⟨k, hk, rfl⟩ := hm r x hr
  obtain ⟨k', hk', rfl⟩ := hm r' x hr'
  rw [h k k' x hk hk']

theorem ne (h : Exclusive H) (r r' : R) {x x' : X} (hr : H r x) (hr' : H r' x') (hne : r ≠ r') :
    x ≠ x' := by
  rintro rfl
  exact hne (h r r' x hr hr')

end Exclusive

end Xv6.Lib
