import Xv6.Vm.Growth

namespace Xv6.Vm
open Lib Prog Function

/-- The tables `e` of the directory `d` are distinct pages, and neither they nor `d` are free. -/
structure TwoLevel (e : ℕ → Option Page) (f : List Page) (d : Page) : Prop where
  inj : ∀ i j t, e i = some t → e j = some t → i = j
  dir : ∀ i, e i ≠ some d
  nodup : f.Nodup
  free : ∀ x ∈ f, x ≠ d ∧ x < 2 ^ 20 ∧ ∀ i, e i ≠ some x

section Map

variable {p : Pid} {E : String → Prop} {s : State} {m : Mem} {e : ℕ → Option Page} {l : List Page}
  {d t : Page} {K : Finset ℕ} {i x u v va w perm : ℕ}

theorem TwoLevel.link (h : TwoLevel e (t :: l) d) : TwoLevel (update e i (some t)) l d := by
  obtain ⟨hinj, hdir, hnodup, hfree⟩ := h
  obtain ⟨ht, hl⟩ := List.nodup_cons.mp hnodup
  obtain ⟨htd, -, htab⟩ := hfree t List.mem_cons_self
  refine ⟨fun j k y hj hk => ?_, fun j => ?_, hl, fun x hx => ?_⟩
  · simp only [update_apply] at hj hk
    grind
  · rw [update_apply]
    grind
  · obtain ⟨hxd, hx20, hxe⟩ := hfree x (List.mem_cons_of_mem _ hx)
    refine ⟨hxd, hx20, fun j => ?_⟩
    rw [update_apply]
    grind

theorem lookup_link (htd : t ≠ d) (htab : ∀ j, entry m d j ≠ some t)
    (hdir : ∀ j, entry m d j ≠ some d) (hnone : entry m d i = none)
    (he : entry (putWord (update m t (fill 0)) d i w) d = update (entry m d) i (some t)) :
    lookup (putWord (update m t (fill 0)) d i w) d v = lookup m d v := by
  by_cases hv : v / 1024 = i
  · have hentry : entry (putWord (update m t (fill 0)) d i w) d (v / 1024) = some t := by
      rw [he, hv, update_self]
    have hword : word (putWord (update m t (fill 0)) d i w) t (v % 1024) = 0 := by
      rw [word_putWord_of_ne (.inl htd), word_fill_zero]
    rw [lookup_of_entry hentry, hword, lookup_of_none (hv ▸ hnone)]
    rfl
  · refine lookup_congr (by rw [he, update_of_ne hv]) fun t' ht' => ?_
    rw [word_putWord_of_ne (.inl fun h => hdir _ (ht'.trans (congrArg some h))),
      word_update_of_ne fun h => htab _ (ht'.trans (congrArg some h))]

theorem TwoLevel.walk (h : TwoLevel (entry s.mem d) s.freelist d) (va : ℕ) :
    Ends p E (walkpgdir d va true) s fun r s' =>
      TwoLevel (entry s'.mem d) s'.freelist d ∧ s'.deny = s.deny ∧
      (∀ v, lookup s'.mem d v = lookup s.mem d v) ∧
      (r = none ∧ FirstShort s 0 ∧ entry s.mem d (PDX va) = none ∨
        ∃ t, r = some (t, PTX va) ∧ entry s'.mem d (PDX va) = some t ∧
          Linked d (PDX va) 0 s s') := by
  refine Ends.bind_read (Ends.ite (fun hp => ?_) fun hp => ?_)
  · have ht : entry s.mem d (PDX va) = some (pteAddr (s.word d (PDX va))) := entry_of_present hp
    exact .ret ⟨h, rfl, fun _ => rfl, .inr ⟨_, rfl, ht, .refl (ht ▸ Option.some_ne_none _)⟩⟩
  have hnone : entry s.mem d (PDX va) = none := entry_of_absent hp
  refine Ends.bind ends_kalloc_eq ?_
  rintro _ _ (⟨rfl, hshort, rfl⟩ | ⟨t, l, rfl, hf, hdrew, rfl⟩)
  · exact .ret ⟨h, rfl, fun _ => rfl, .inl ⟨rfl, hshort, hnone⟩⟩
  · refine Ends.bind_modify (Ends.bind_modify (.ret ?_))
    rw [hf] at h
    obtain ⟨htd, ht20, htab⟩ := h.free t List.mem_cons_self
    have hlt {y : ℕ} (hy : y < 2 ^ 20) : y * PGSIZE + (PTE_P ||| PTE_W ||| PTE_U) < 2 ^ 32 := by
      have hflags : (PTE_P ||| PTE_W ||| PTE_U) < PGSIZE := by decide
      unfold PGSIZE at *
      omega
    have he : entry (putWord (update s.mem t (fill 0)) d (PDX va)
        (t * PGSIZE + (PTE_P ||| PTE_W ||| PTE_U))) d =
          update (entry s.mem d) (PDX va) (some t) := by
      funext j
      by_cases hj : j = PDX va
      · subst hj
        rw [entry_putWord_self (PDX_lt va) (hlt ht20), if_pos (present_mk (by decide)),
          pteAddr_mk (by decide), update_self]
      · rw [entry_putWord_of_ne (.inr hj), entry_update_of_ne htd.symm, update_of_ne hj]
    refine ⟨?_, rfl, fun v => lookup_link htd htab h.dir hnone he, .inr ⟨t, rfl, ?_, ?_, ?_, ?_⟩⟩
    · show TwoLevel (entry (putWord (update s.mem t (fill 0)) d _ _) d) l d
      rw [he]
      exact h.link
    · exact (congrFun he _).trans (update_self ..)
    · exact (congrFun he _).trans (update_self ..) ▸ Option.some_ne_none t
    · exact fun j hj => (congrFun he j).trans (update_of_ne hj ..)
    · rw [if_pos hnone]
      exact hdrew.of_eq rfl rfl

theorem TwoLevel.lookup_put (h : TwoLevel (entry m d) l d) (ht : entry m d (v / 1024) = some t) :
    entry (putWord m t (v % 1024) w) d = entry m d ∧
      (u ≠ v → lookup (putWord m t (v % 1024) w) d u = lookup m d u) := by
  have he : entry (putWord m t (v % 1024) w) d = entry m d := by
    funext j
    exact entry_putWord_of_ne (.inl fun hd => h.dir _ (ht.trans (congrArg some hd.symm)))
  refine ⟨he, fun hne => lookup_congr (congrFun he (u / 1024)) fun t' ht' => word_putWord_of_ne ?_⟩
  by_contra hcon
  rw [not_or, not_not, not_not] at hcon
  obtain ⟨rfl, hmod⟩ := hcon
  have := h.inj _ _ _ ht' ht
  omega

/-- The word that `mappages` writes for the page `x`. -/
def pte (x perm : ℕ) : ℕ := (x * PGSIZE ||| perm ||| PTE_P) % 2 ^ 32

theorem present_pte (x perm : ℕ) : Present (pte x perm) := by
  have hodd := flags_mod (x * PGSIZE ||| perm)
  unfold Present pte
  omega

theorem pteAddr_pte (x : ℕ) (h : perm < PGSIZE) :
    pteAddr (pte x perm) = x % 2 ^ 20 ∧ pteFlags (pte x perm) = perm ||| PTE_P := by
  have hlt := flags_lt h
  unfold pte pteAddr pteFlags
  rw [or_flags x h]
  unfold PGSIZE at *
  have haddr : (x * 4096 + (perm ||| PTE_P)) % 2 ^ 32 / 4096 = x % 2 ^ 20 := by omega
  exact ⟨haddr, by omega⟩

theorem TwoLevel.mapPage (h : TwoLevel (entry s.mem d) s.freelist d) (hv : v < 2 ^ 20)
    (hnone : lookup s.mem d v = none) :
    Ends p E (mapPage d perm (v * PGSIZE) x) s fun ok s' =>
      TwoLevel (entry s'.mem d) s'.freelist d ∧ s'.deny = s.deny ∧
      (∀ u, u ≠ v → lookup s'.mem d u = lookup s.mem d u) ∧
      (ok = false ∧ FirstShort s 0 ∧ entry s.mem d (v / 1024) = none ∨
        ok = true ∧ Linked d (v / 1024) 0 s s' ∧ lookup s'.mem d v = some (pte x perm)) := by
  have hdx : PDX (v * PGSIZE) = v / 1024 := by
    unfold PDX PGSIZE
    omega
  have htx : PTX (v * PGSIZE) = v % 1024 := by
    unfold PTX PGSIZE
    omega
  refine Ends.bind (h.walk _) ?_
  rw [hdx, htx]
  rintro _ s1 ⟨h1, hdeny, hlook, ⟨rfl, hshort, hent⟩ | ⟨t, rfl, ht, hlinked⟩⟩
  · exact .ret ⟨h1, hdeny, fun u _ => hlook u, .inl ⟨rfl, hshort, hent⟩⟩
  have hput {u : ℕ} := h1.lookup_put (w := x * PGSIZE ||| perm ||| PTE_P) (u := u) ht
  refine Ends.bind_read (Ends.ite (fun hp => ?_) fun _ => Ends.bind_modify (.ret ?_))
  · have hsome : lookup s1.mem d v = some (s1.word t (v % 1024)) :=
      (lookup_of_entry ht).trans (if_pos hp)
    rw [hlook, hnone] at hsome
    cases hsome
  · refine ⟨(hput (u := v)).1.symm ▸ h1, hdeny, fun u hu => (hput.2 hu).trans (hlook u), .inr ⟨rfl,
      ⟨?_, fun j hj => ?_, hlinked.drew.of_eq rfl rfl⟩, ?_⟩⟩
    · exact (congrFun (hput (u := v)).1 _).trans ht ▸ Option.some_ne_none t
    · exact (congrFun (hput (u := v)).1 j).trans (hlinked.other j hj)
    · refine (lookup_of_entry ((congrFun (hput (u := v)).1 _).trans ht)).trans ?_
      rw [word_putWord_mod (Nat.mod_lt _ (by decide))]
      exact if_pos (present_pte x perm)

theorem TwoLevel.mapLoop (n : ℕ) (h : TwoLevel (entry s.mem d) s.freelist d)
    (hv : v + n ≤ 2 ^ 20) (hnone : ∀ k < n, lookup s.mem d (v + k) = none)
    (hK : ∀ k < n, (v + k) / 1024 ∈ K) :
    Ends p E (mapLoop d perm n (v * PGSIZE) x) s fun ok s' =>
      TwoLevel (entry s'.mem d) s'.freelist d ∧
      (∀ u, ¬ (v ≤ u ∧ u < v + n) → lookup s'.mem d u = lookup s.mem d u) ∧
      (ok = false ∧ Lacks d K 0 s ∨
        ok = true ∧ ∀ k < n, lookup s'.mem d (v + k) = some (pte (x + k) perm)) := by
  induction n generalizing s v x with
  | zero => exact .ret ⟨h, fun _ _ => rfl, .inr ⟨rfl, fun k hk => by omega⟩⟩
  | succ n ih =>
    refine Ends.bind (h.mapPage (by omega) (hnone 0 (by omega))) ?_
    rintro ok s1 ⟨h1, hdeny, hother, ⟨rfl, hshort, hent⟩ | ⟨rfl, hlinked, hself⟩⟩
    · have hpos : 0 < vacant s.mem d K := vacant_pos (hK 0 (by omega)) hent
      exact .ret ⟨h1, fun u hu => hother u (by omega), .inl ⟨rfl, 0, by omega, hshort⟩⟩
    · have hshift : ∀ k, v + 1 + k = v + (k + 1) := by omega
      rw [if_pos rfl, ← Nat.succ_mul]
      refine (ih h1 (by omega) (fun k hk => ?_) fun k hk => ?_).mono ?_
      · rw [hother _ (by omega), hshift]
        exact hnone (k + 1) (by omega)
      · rw [hshift]
        exact hK (k + 1) (by omega)
      · rintro ok s2 ⟨h2, hother2, hrest⟩
        refine ⟨h2, fun u hu => ?_, ?_⟩
        · rw [hother2 u (by omega), hother u (by omega)]
        · rcases hrest with ⟨rfl, hlacks⟩ | ⟨rfl, hlook⟩
          · exact .inl ⟨rfl, (hlinked.took (hK 0 (by omega))).lacks hdeny hlacks⟩
          · refine .inr ⟨rfl, fun k hk => ?_⟩
            cases k with
            | zero => rw [hother2 _ (by omega), Nat.add_zero, hself, Nat.add_zero]
            | succ k => rw [← hshift, hlook k (by omega), Nat.add_assoc, Nat.add_comm 1 k]

instance (k : Kmap) (v : ℕ) : Decidable (k.Covers v) := inferInstanceAs (Decidable (_ ∧ _))

/-- What `kmap` has for the virtual page `v`. -/
def kernelEntry (l : Layout) (v : ℕ) : Option ℕ :=
  ((kmap l).find? fun k => k.Covers v).map fun k => k.entry v

theorem lookup_eq_kernelEntry {l : Layout} (hfresh : Fresh m d)
    (hlook : ∀ k ∈ kmap l, ∀ v, k.Covers v → lookup m d v = some (k.entry v)) (hv : v < 2 ^ 20) :
    lookup m d v = kernelEntry l v := by
  unfold kernelEntry
  cases hk : (kmap l).find? fun k => k.Covers v with
  | none =>
    refine hfresh.user v fun hdirect => ?_
    obtain ⟨k, hmem, hcov⟩ := (direct_iff_kmap l hv).mp hdirect
    exact List.find?_eq_none.mp hk k hmem (decide_eq_true hcov)
  | some k =>
    have hcov := List.find?_some hk
    exact hlook k (List.mem_of_find?_eq_some hk) v (of_decide_eq_true hcov)

theorem good_free (hf : s.freelist.Nodup) (hu : ∀ x ∈ s.freelist, s.layout.Usable x) :
    Good (· ∈ s.freelist) s ⟨fun _ => none, fun _ => none, fun _ => false, []⟩ := by
  have hold : ∀ r x, Holds s.mem s.freelist ⟨fun _ => none, fun _ => none, fun _ => false, []⟩ r x ↔
      r = .free ∧ x ∈ s.freelist := by
    intro r x
    cases r <;> simp [Holds]
  refine ⟨fun r r' x hr hr' => ?_, hf, List.nodup_nil, fun r x hr => ?_, fun x => ?_⟩
  · rw [((hold r x).mp hr).1, ((hold r' x).mp hr').1]
  · exact hu x ((hold r x).mp hr).2
  · exact ⟨fun hx => ⟨.free, hx⟩, fun hx => hx.elim fun r hr => ((hold r x).mp hr).2⟩

def rangeTables (va size : ℕ) : Finset ℕ :=
  (Finset.range (rangePages va size)).image fun k => (va / PGSIZE + k) / 1024

/-- `mappages` maps its range and nothing else, unless memory is too short for the tables of the
range.  All address spaces from `setupkvm` show the same. -/
theorem mappages_exact (p : Pid) :
    (∀ s d va size x perm, TwoLevel (entry s.mem d) s.freelist d → 0 < size →
      va + size ≤ 2 ^ 32 → (∀ k < rangePages va size, lookup s.mem d (va / PGSIZE + k) = none) →
      Ends p (fun _ => False) (mappages d va size x perm) s fun ok s' =>
        TwoLevel (entry s'.mem d) s'.freelist d ∧
        (∀ v, (∀ k < rangePages va size, v ≠ va / PGSIZE + k) →
          lookup s'.mem d v = lookup s.mem d v) ∧
        (ok = false ∧ Lacks d (rangeTables va size) 0 s ∨
          ok = true ∧ ∀ k < rangePages va size,
            lookup s'.mem d (va / PGSIZE + k) = some (pte (x + k) perm) ∧
              Present (pte (x + k) perm) ∧ (perm < PGSIZE →
                pteAddr (pte (x + k) perm) = (x + k) % 2 ^ 20 ∧
                  pteFlags (pte (x + k) perm) = perm ||| PTE_P))) ∧
    ∀ s, s.freelist.Nodup → (∀ x ∈ s.freelist, s.layout.Usable x) →
      Ends p (fun _ => False) setupkvm s fun r s' =>
        r = none ∧ (∃ n, n < 65 ∧ FirstShort s n) ∨
          ∃ d, r = some d ∧ ∀ v < 2 ^ 20, lookup s'.mem d v = kernelEntry s.layout v := by
  refine ⟨fun s d va size x perm h hsize hva hnone => ?_, fun s hf hu => ?_⟩
  · have hrange : va / PGSIZE + rangePages va size ≤ 2 ^ 20 := by
      unfold rangePages PGSIZE
      omega
    have hK : ∀ k < rangePages va size, (va / PGSIZE + k) / 1024 ∈ rangeTables va size :=
      fun k hk => Finset.mem_image_of_mem _ (Finset.mem_range.mpr hk)
    rw [mappages_eq hsize hva]
    refine (h.mapLoop _ hrange hnone hK).mono ?_
    rintro ok s' ⟨h', hother, hrest⟩
    refine ⟨h', fun v hv => hother v fun hin => ?_, hrest.imp_right fun hok => ⟨hok.1, ?_⟩⟩
    · exact hv (v - va / PGSIZE) (by omega) (by omega)
    · exact fun k hk => ⟨hok.2 k hk, present_pte _ _, pteAddr_pte _⟩
  · refine (ends_setupkvm (a := .new) (good_free hf hu) rfl).mono ?_
    rintro r s' ⟨-, ⟨rfl, -, hshort⟩ | ⟨d, rfl, -, -, -, hfresh, hlook⟩⟩
    · exact .inl ⟨rfl, hshort⟩
    · exact .inr ⟨d, rfl, fun v hv => lookup_eq_kernelEntry hfresh hlook hv⟩

theorem twoLevel_small : TwoLevel (entry small.mem 1024) small.freelist 1024 := by
  have he : entry small.mem 1024 = fun _ => none := funext (entry_small 1024)
  rw [he]
  refine ⟨fun _ _ _ => ?_, fun _ => ?_, by decide, ?_⟩
  · rintro ⟨⟩
  · rintro ⟨⟩
  · simp [small]

def roomy : State := { small with freelist := List.range' 1025 65 }

/-- The last 1025 pages of the address space, with two new tables, and a new address space. -/
theorem mappages_exact_top :
    (∃ t, (mappages 1024 (2 ^ 32 - 2 ^ 22 - 1) (2 ^ 22 + 1) 5 PTE_W).run initproc
        ⟨small, fun _ => none⟩ = .done true t ∧
      ∀ k < 1025, lookup t.st.mem 1024 (0xFFBFF + k) = some (pte (5 + k) PTE_W)) ∧
    ∃ d t, setupkvm.run initproc ⟨roomy, fun _ => none⟩ = .done (some d) t ∧
      ∀ v < 2 ^ 20, lookup t.st.mem d v = kernelEntry smallLayout v := by
  constructor
  · have hends := (mappages_exact initproc).1 small 1024 (2 ^ 32 - 2 ^ 22 - 1) (2 ^ 22 + 1) 5 PTE_W
      twoLevel_small (by decide) (by decide) fun k _ => lookup_of_none (entry_small _ _)
    obtain ⟨ok, t, hrun, -, -, ⟨rfl, n, hn, hshort⟩ | ⟨rfl, hlook⟩⟩ := hends.run fun _ => none
    · have htables : rangeTables (2 ^ 32 - 2 ^ 22 - 1) (2 ^ 22 + 1) ⊆ {1022, 1023} := by
        intro i hi
        obtain ⟨k, hk, rfl⟩ := Finset.mem_image.mp hi
        have hk : k < 1025 := Finset.mem_range.mp hk
        rw [Finset.mem_insert, Finset.mem_singleton]
        unfold PGSIZE
        omega
      have htwo : vacant small.mem 1024 (rangeTables (2 ^ 32 - 2 ^ 22 - 1) (2 ^ 22 + 1)) ≤ 2 :=
        (vacant_le _ _ _).trans (Finset.card_le_card htables)
      exact (hshort.absurd (fun _ => rfl) (by show n < 3; omega)).elim
    · exact ⟨t, hrun, fun k hk => (hlook k hk).1⟩
  · have husable : ∀ x ∈ roomy.freelist, roomy.layout.Usable x := by
      intro x hx
      obtain ⟨k, hk, rfl⟩ := List.mem_range'.mp hx
      show 0x102000 ≤ (1025 + 1 * k) * 4096 ∧ (1025 + 1 * k) * 4096 < 0xE000000
      omega
    have hends := (mappages_exact initproc).2 roomy List.nodup_range' husable
    obtain ⟨r, t, hrun, ⟨rfl, n, hn, hshort⟩ | ⟨d, rfl, hlook⟩⟩ := hends.run fun _ => none
    · exact (hshort.absurd (fun _ => rfl) (by rw [roomy, List.length_range']; exact hn)).elim
    · exact ⟨d, t, hrun, hlook⟩

end Map

end Xv6.Vm
