import Xv6.Lib.Total
import Xv6.Vm.Frame

namespace Xv6.Vm
open Lib Prog Function

variable {p : Pid} {E : String → Prop} {U : Page → Prop} {s : State} {b : Books} {d : Page}
  {a : Space} {va : ℕ}

section Alloc

variable {x : Page}

theorem ends_kalloc_eq : Ends p E kalloc s fun r s' =>
    r = none ∧ FirstShort s 0 ∧ s' = { s with kallocs := s.kallocs + 1 } ∨
      ∃ x l, r = some x ∧ s.freelist = x :: l ∧ Drew s s' 1 ∧
        s' = { s with kallocs := s.kallocs + 1, freelist := l } := by
  by_cases hdeny : s.deny s.kallocs = true
  · refine Ends.atomic (a := none) (t := { s with kallocs := s.kallocs + 1 }) ?_ ?_
    · simp only [hdeny, if_true]
    · exact .inl ⟨rfl, ⟨fun _ hk => by omega, Nat.zero_le _, .inl hdeny⟩, rfl⟩
  · have hgrant : s.deny s.kallocs = false := Bool.eq_false_iff.mpr hdeny
    cases hf : s.freelist with
    | nil =>
      refine Ends.atomic (a := none) (t := { s with kallocs := s.kallocs + 1 }) ?_ ?_
      · simp only [hgrant, hf, Bool.false_eq_true, if_false]
      · exact .inl ⟨rfl, ⟨fun _ hk => by omega, Nat.zero_le _, .inr (by rw [hf]; rfl)⟩,
          by rw [hf]⟩
    | cons x l =>
      refine Ends.atomic (a := some x) (t := { s with kallocs := s.kallocs + 1, freelist := l })
        ?_ ?_
      · simp only [hgrant, hf, Bool.false_eq_true, if_false]
      · refine .inr ⟨x, l, rfl, rfl, ⟨rfl, by rw [hf]; rfl, fun k hk => ?_⟩, rfl⟩
        obtain rfl : k = 0 := by omega
        exact hgrant

theorem ends_kalloc (h : Good U s b) : Ends p E kalloc s fun r s' => Same s s' ∧ s'.mem = s.mem ∧
    (r = none ∧ FirstShort s 0 ∧ s'.freelist = s.freelist ∧ Good U s' b ∨
      ∃ x, r = some x ∧ s.freelist = x :: s'.freelist ∧ Drew s s' 1 ∧
        Good U s' { b with hand := x :: b.hand }) := by
  refine ends_kalloc_eq.mono ?_
  rintro _ _ (⟨rfl, hshort, rfl⟩ | ⟨x, l, rfl, hf, hdrew, rfl⟩)
  · exact ⟨⟨rfl, rfl, rfl, rfl, rfl⟩, rfl, .inl ⟨rfl, hshort, rfl, h⟩⟩
  · have hk : Inv s.layout U s.mem (x :: l) b := hf ▸ h
    exact ⟨⟨rfl, rfl, rfl, rfl, rfl⟩, rfl, .inr ⟨x, rfl, hf, hdrew, hk.kalloc⟩⟩

/-- `kfree` of a page that may be freed. -/
def State.free (s : State) (x : Page) : State :=
  { s.setPage x (fill 1) with freelist := x :: s.freelist }

theorem ends_kfree_usable (h : s.layout.Usable x) :
    Ends p E (kfree x) s fun _ s' => s' = s.free x :=
  Ends.atomic (if_neg (not_or.mpr ⟨h.1.not_gt, h.2.not_ge⟩)) rfl

theorem ends_kfree (h : Good U s b) (hx : x ∈ b.hand) : Ends p E (kfree x) s fun _ s' =>
    Same s s' ∧ s'.mem = update s.mem x (fill 1) ∧ s'.freelist = x :: s.freelist ∧
      Good U s' { b with hand := b.hand.erase x } := by
  refine (ends_kfree_usable (h.usable .hand x hx)).mono ?_
  rintro _ _ rfl
  exact ⟨⟨rfl, rfl, rfl, rfl, rfl⟩, rfl, rfl, (h.write_hand hx).toFree hx⟩

end Alloc

section Tables

variable {s1 s2 : State} {K : Finset ℕ} {i j k k' : ℕ}

/-- The table with number `i` is there and has been allocated if it was not, and `k` more pages have
been allocated. -/
structure Linked (d : Page) (i k : ℕ) (s s' : State) : Prop where
  self : entry s'.mem d i ≠ none
  other : ∀ j, j ≠ i → entry s'.mem d j = entry s.mem d j
  drew : Drew s s' (k + if entry s.mem d i = none then 1 else 0)

/-- A page has been allocated for each table with a number in `K` that is new, and `k` more. -/
def Took (d : Page) (K : Finset ℕ) (k : ℕ) (s s' : State) : Prop :=
  ∃ n, Drew s s' n ∧ n + vacant s'.mem d K = k + vacant s.mem d K

/-- There are not enough pages for the tables with numbers in `K` and `k` pages more. -/
def Lacks (d : Page) (K : Finset ℕ) (k : ℕ) (s : State) : Prop :=
  ∃ n, n < k + vacant s.mem d K ∧ FirstShort s n

theorem Linked.refl (h : entry s.mem d i ≠ none) : Linked d i 0 s s := by
  refine ⟨h, fun _ _ => rfl, ?_⟩
  rw [if_neg h]
  exact .refl s

theorem Linked.took (h : Linked d i k s s1) (hi : i ∈ K) : Took d K k s s1 := by
  refine ⟨_, h.drew, ?_⟩
  split_ifs with hnone
  · have := vacant_link hi hnone h.self h.other
    omega
  · have hsame : vacant s1.mem d K = vacant s.mem d K := by
      unfold vacant
      refine congrArg Finset.card (Finset.filter_congr fun j _ => ?_)
      by_cases hj : j = i
      · subst hj
        exact ⟨fun hn => absurd hn h.self, fun hn => absurd hn hnone⟩
      · rw [h.other j hj]
    omega

theorem Took.refl (d : Page) (K : Finset ℕ) (s : State) : Took d K 0 s s :=
  ⟨0, .refl s, rfl⟩

theorem Took.trans (h1 : Took d K k s s1) (hdeny : s1.deny = s.deny) (h2 : Took d K k' s1 s2) :
    Took d K (k + k') s s2 := by
  obtain ⟨n1, hd1, hv1⟩ := h1
  obtain ⟨n2, hd2, hv2⟩ := h2
  exact ⟨n1 + n2, hd1.trans hdeny hd2, by omega⟩

theorem Took.lacks (h1 : Took d K k s s1) (hdeny : s1.deny = s.deny) (h2 : Lacks d K k' s1) :
    Lacks d K (k + k') s := by
  obtain ⟨n1, hd1, hv1⟩ := h1
  obtain ⟨n2, hlt, hs⟩ := h2
  exact ⟨n1 + n2, by omega, hd1.firstShort hdeny hs⟩

theorem Drew.linked (h1 : Drew s s1 k) (hdeny : s1.deny = s.deny)
    (he : ∀ j, entry s1.mem d j = entry s.mem d j) (h2 : Linked d i k' s1 s2) :
    Linked d i (k + k') s s2 := by
  refine ⟨h2.self, fun j hj => (h2.other j hj).trans (he j), ?_⟩
  have := h1.trans hdeny h2.drew
  rwa [he, ← Nat.add_assoc] at this

end Tables

section Walk

variable {x perm : ℕ}

theorem PDX_lt (va : ℕ) : PDX va < 1024 := Nat.mod_lt _ (by decide)

theorem PDX_eq (h : va < 2 ^ 32) : PDX va = va / PGSIZE / 1024 := by
  unfold PDX PGSIZE
  omega

theorem PTX_eq (va : ℕ) : PTX va = va / PGSIZE % 1024 := rfl

theorem ends_walk (va : ℕ) : Ends p E (walkpgdir d va false) s fun r s' => s = s' ∧
    r = (entry s.mem d (PDX va)).map fun t => (t, PTX va) := by
  refine Ends.bind_read ?_
  refine Ends.ite (fun hp => .ret ⟨rfl, ?_⟩) fun hp => .ret ⟨rfl, ?_⟩
  · rw [entry_of_present hp]
    rfl
  · rw [entry_of_absent hp]
    rfl

theorem ends_walk_alloc (h : Good U s b) (hdir : b.dir a = some d) (va : ℕ) :
    Ends p E (walkpgdir d va true) s fun r s' => Good U s' b ∧ Apart a b s s' ∧
      (∀ v, view s'.mem d v = view s.mem d v) ∧
      (r = none ∧ s'.mem = s.mem ∧ FirstShort s 0 ∧ entry s.mem d (PDX va) = none ∨
        ∃ t, r = some (t, PTX va) ∧ entry s'.mem d (PDX va) = some t ∧
          Linked d (PDX va) 0 s s') := by
  refine Ends.bind_read ?_
  refine Ends.ite (fun hp => ?_) fun hp => ?_
  · have ht : entry s.mem d (PDX va) = some (pteAddr (s.word d (PDX va))) := entry_of_present hp
    exact .ret ⟨h, .refl a b s, fun _ => rfl, .inr ⟨_, rfl, ht, .refl (ht ▸ Option.some_ne_none _)⟩⟩
  have hnone : entry s.mem d (PDX va) = none := entry_of_absent hp
  refine Ends.bind (ends_kalloc h) ?_
  rintro r s1 ⟨hsame, hmem, ⟨rfl, hshort, -, hgood⟩ | ⟨t, rfl, hfree, hdrew, hgood⟩⟩
  · refine .ret ⟨hgood, ⟨hsame, fun _ x _ _ => by rw [hmem]⟩, fun v => by rw [hmem], .inl ⟨rfl,
      hmem, hshort, hnone⟩⟩
  · -- The new table is cleared and then linked.
    refine Ends.bind_modify (Ends.bind_modify (.ret ?_))
    have ht : t ∈ t :: b.hand := List.mem_cons_self
    have htf : t ∈ s.freelist := hfree ▸ List.mem_cons_self
    have htd : d ≠ t := h.excl.ne (.dir a) .free hdir htf (by rintro ⟨⟩)
    have hclear : Inv s1.layout U (update s1.mem t (fill 0)) s1.freelist
        { b with hand := t :: b.hand } := hgood.write_hand ht
    have hnone1 : entry (update s1.mem t (fill 0)) d (PDX va) = none := by
      rw [entry_update_of_ne htd, hmem, hnone]
    have hlink := hclear.table hdir (PDX_lt va) hnone1 ht fun j => entry_fill_zero
    rw [List.erase_cons_head] at hlink
    have hself : entry (putWord (update s1.mem t (fill 0)) d (PDX va)
        (t * PGSIZE + (PTE_P ||| PTE_W ||| PTE_U))) d (PDX va) = some t := by
      rw [entry_putWord_self (PDX_lt va) (mk_lt (hclear.usable .hand t ht).2 (by decide)),
        if_pos (present_mk (by decide)), pteAddr_mk (by decide)]
    refine ⟨hlink, ?_, fun v => ?_, .inr ⟨t, rfl, hself, ?_, fun j hj => ?_, ?_⟩⟩
    · refine h.apart (hsame.trans ⟨rfl, rfl, rfl, rfl, rfl⟩) fun z => ?_
      show update (update s1.mem t (fill 0)) d _ z = _ ∨ _
      by_cases hzd : z = d
      · subst hzd
        exact .inr ⟨.dir a, fun hne => hne rfl, hdir⟩
      · by_cases hzt : z = t
        · subst hzt
          exact .inr ⟨.free, id, htf⟩
        · rw [update_of_ne hzd, update_of_ne hzt, hmem]
          exact .inl rfl
    · have h1 := hclear.view_table hdir (PDX_lt va) hnone1 ht (fun j => word_fill_zero) v
      refine h1.trans (h.view_other (.inl rfl) hdir htf (fun z hz => ?_) v)
      rw [update_of_ne hz, hmem]
    · exact hself ▸ Option.some_ne_none _
    · show entry (putWord (update s1.mem t (fill 0)) d (PDX va) _) d j = _
      rw [entry_putWord_of_ne (.inr hj), entry_update_of_ne htd, hmem]
    · rw [if_pos hnone]
      exact hdrew.of_eq rfl rfl

theorem flags_mod (perm : ℕ) : (perm ||| PTE_P) % 2 = 1 := by
  rw [Nat.or_mod_two_eq_one]
  exact .inr rfl

theorem flags_lt (h : perm < PGSIZE) : perm ||| PTE_P < PGSIZE :=
  Nat.or_lt_two_pow (n := 12) h (by decide)

theorem or_flags (x : ℕ) (h : perm < PGSIZE) :
    x * PGSIZE ||| perm ||| PTE_P = x * PGSIZE + (perm ||| PTE_P) := by
  have hlt : perm ||| PTE_P < 2 ^ 12 := flags_lt h
  rw [Nat.or_assoc, Nat.mul_comm, show PGSIZE = 2 ^ 12 from rfl, Nat.two_pow_add_eq_or_of_lt hlt]

/-- The entry for `v` is `w` and has been absent; everything else shows the same. -/
structure Added (d : Page) (v w : ℕ) (m m' : Mem) : Prop where
  absent : lookup m d v = none
  self : lookup m' d v = some w
  other : ∀ v', v' ≠ v → view m' d v' = view m d v'

theorem ends_mapPage (b' : Books) (h : Good U s b) (hdir : b.dir a = some d) (hva : va < 2 ^ 32)
    (hperm : perm < PGSIZE) (hw : x * PGSIZE + (perm ||| PTE_P) < 2 ^ 32)
    (hE : lookup s.mem d (va / PGSIZE) ≠ none → E "remap")
    (hput : lookup s.mem d (va / PGSIZE) = none → ∀ m f t, Inv s.layout U m f b →
      entry m d (va / PGSIZE / 1024) = some t → entry m t (va / PGSIZE % 1024) = none →
      Inv s.layout U (putWord m t (va / PGSIZE % 1024) (x * PGSIZE + (perm ||| PTE_P))) f b') :
    Ends p E (mapPage d perm va x) s fun ok s' => Apart a b s s' ∧
      (ok = false ∧ Good U s' b ∧ s'.mem = s.mem ∧ FirstShort s 0 ∧
          entry s.mem d (PDX va) = none ∨
        ok = true ∧ Good U s' b' ∧ Linked d (PDX va) 0 s s' ∧
          Added d (va / PGSIZE) (x * PGSIZE + (perm ||| PTE_P)) s.mem s'.mem) := by
  rw [mapPage, or_flags x hperm]
  refine Ends.bind (ends_walk_alloc h hdir va) ?_
  rintro r s1 ⟨hgood, hapart, hview, ⟨rfl, hmem, hshort, hnone⟩ | ⟨t, rfl, ht, hlinked⟩⟩
  · exact .ret ⟨hapart, .inl ⟨rfl, hgood, hmem, hshort, hnone⟩⟩
  · refine Ends.bind_read ?_
    have ht' : entry s1.mem d (va / PGSIZE / 1024) = some t := by rw [← PDX_eq hva, ht]
    have hlook : lookup s1.mem d (va / PGSIZE) = lookup s.mem d (va / PGSIZE) :=
      lookup_eq_of_view (hview _)
    refine Ends.ite (fun hp => .panic (hE ?_)) fun hp => Ends.bind_modify (.ret ?_)
    · have hp' : Present (word s1.mem t (PTX va)) := hp
      rw [← hlook, lookup_of_entry ht', ← PTX_eq, if_pos hp']
      exact Option.some_ne_none _
    · have hp' : ¬ Present (word s1.mem t (PTX va)) := hp
      have habsent : lookup s.mem d (va / PGSIZE) = none := by
        rw [← hlook, lookup_of_entry ht', ← PTX_eq, if_neg hp']
      have hgood' : Inv s.layout U s1.mem s1.freelist b := hapart.layout ▸ hgood
      have hi := hput habsent s1.mem s1.freelist t hgood' ht' (entry_of_absent hp')
      refine ⟨hapart.trans (.refl a b) (hgood.apart ⟨rfl, rfl, rfl, rfl, rfl⟩ fun z => ?_),
        .inr ⟨rfl, ?_, ⟨?_, fun j hj => ?_, hlinked.drew.of_eq rfl rfl⟩, habsent, ?_,
          fun v' hv' => ?_⟩⟩
      · show update s1.mem t _ z = _ ∨ _
        by_cases hz : z = t
        · subst hz
          exact .inr ⟨.table a (PDX va), fun hne => hne rfl, d, hdir, ht⟩
        · exact .inl (update_of_ne hz _ _)
      · show Inv s1.layout U (putWord s1.mem t (PTX va) _) s1.freelist b'
        rw [hapart.layout]
        exact hi
      · show entry (putWord s1.mem t (PTX va) _) d (PDX va) ≠ none
        rw [hgood.dir_of_putTable hdir ht hdir]
        exact hlinked.self
      · show entry (putWord s1.mem t (PTX va) _) d j = _
        rw [hgood.dir_of_putTable hdir ht hdir]
        exact hlinked.other j hj
      · have := hgood.lookup_put_self hdir ht' hw
        rw [if_pos (present_mk (flags_mod perm))] at this
        exact this
      · exact (hgood.view_put_of_ne hdir ht' hv').trans (hview v')

theorem ends_mapLoop (hperm : perm < PGSIZE) (n : ℕ) (h : Good U s b) (hdir : b.dir a = some d)
    (halign : va % PGSIZE = 0) (hva : va + n * PGSIZE ≤ 2 ^ 32) (hx : (x + n : ℕ) ≤ 2 ^ 20)
    (hdirect : ∀ v, va / PGSIZE ≤ v → v < va / PGSIZE + n → Direct v)
    (hE : (∃ v, va / PGSIZE ≤ v ∧ v < va / PGSIZE + n ∧ lookup s.mem d v ≠ none) → E "remap") :
    Ends p E (mapLoop d perm n va x) s fun ok s' => Apart a b s s' ∧ Good U s' b ∧
      (∀ v, ¬ (va / PGSIZE ≤ v ∧ v < va / PGSIZE + n) → view s'.mem d v = view s.mem d v) ∧
      (∀ i, (∀ k, k < n → PDX (va + k * PGSIZE) ≠ i) → entry s'.mem d i = entry s.mem d i) ∧
      (ok = false ∧ (∀ K, (∀ k, k < n → PDX (va + k * PGSIZE) ∈ K) → Lacks d K 0 s) ∨
        ok = true ∧ (∀ K, (∀ k, k < n → PDX (va + k * PGSIZE) ∈ K) → Took d K 0 s s') ∧
          ∀ v, va / PGSIZE ≤ v → v < va / PGSIZE + n →
            lookup s'.mem d v = some ((x + (v - va / PGSIZE)) * PGSIZE + (perm ||| PTE_P))) := by
  induction n generalizing s va x with
  | zero =>
    exact .ret ⟨.refl a b s, h, fun _ _ => rfl, fun _ _ => rfl,
      .inr ⟨rfl, fun K _ => .refl d K s, fun v _ _ => by omega⟩⟩
  | succ n ih =>
    have hsize : PGSIZE = 4096 := rfl
    have hva' : va < 2 ^ 32 := by rw [hsize] at hva; omega
    have hw : x * PGSIZE + (perm ||| PTE_P) < 2 ^ 32 := by
      have hlt := flags_lt hperm
      rw [hsize] at hlt ⊢
      omega
    have hnext : (va + PGSIZE) / PGSIZE = va / PGSIZE + 1 := Nat.add_div_right _ (by decide)
    have hstep : ∀ k, va + PGSIZE + k * PGSIZE = va + (k + 1) * PGSIZE := by
      intro k
      rw [Nat.succ_mul, Nat.add_comm (k * PGSIZE), ← Nat.add_assoc]
    have hfirst : ∀ K : Finset ℕ, (∀ k, k < n + 1 → PDX (va + k * PGSIZE) ∈ K) → PDX va ∈ K := by
      intro K hK
      simpa using hK 0 (by omega)
    refine Ends.bind (ends_mapPage b h hdir hva' hperm hw ?_ ?_) ?_
    · exact fun hne => hE ⟨va / PGSIZE, le_rfl, by omega, hne⟩
    · exact fun _ m f t hi ht _ => hi.direct hdir ht (hdirect _ le_rfl (by omega))
    rintro ok s1 ⟨hapart, ⟨rfl, hgood, hmem, hshort, hnone⟩ | ⟨rfl, hgood, hlinked, hadded⟩⟩
    · refine .ret ⟨hapart, hgood, fun v _ => by rw [hmem], fun i _ => by rw [hmem], .inl ⟨rfl,
        fun K hK => ⟨0, ?_, hshort⟩⟩⟩
      have := vacant_pos (hfirst K hK) hnone
      omega
    · refine (ih hgood ?_ ?_ (by omega) ?_ ?_).mono ?_
      · rw [Nat.add_mod_right, halign]
      · rw [Nat.succ_mul] at hva
        omega
      · intro v h1 h2
        rw [hnext] at h1 h2
        exact hdirect v (by omega) (by omega)
      · rintro ⟨v, h1, h2, hne⟩
        rw [hnext] at h1 h2
        rw [lookup_eq_of_view (hadded.other v (by omega))] at hne
        exact hE ⟨v, by omega, by omega, hne⟩
      · rintro ok s2 ⟨hapart2, hgood2, hview2, hentry2, hrest⟩
        rw [hnext] at hview2
        simp only [hstep] at hentry2 hrest
        refine ⟨hapart.trans (.refl a b) hapart2, hgood2, fun v hv => ?_, fun i hi => ?_, ?_⟩
        · rw [hview2 v (by omega), hadded.other v (by omega)]
        · rw [hentry2 i fun k hk => hi (k + 1) (by omega), hlinked.other i]
          have := hi 0 (by omega)
          rw [Nat.zero_mul, Nat.add_zero] at this
          exact this.symm
        · rcases hrest with ⟨rfl, hlacks⟩ | ⟨rfl, htook, hlook⟩
          · refine .inl ⟨rfl, fun K hK => ?_⟩
            exact (hlinked.took (hfirst K hK)).lacks hapart.deny
              (hlacks K fun k hk => hK (k + 1) (by omega))
          · refine .inr ⟨rfl, fun K hK => ?_, fun v h1 h2 => ?_⟩
            · exact (hlinked.took (hfirst K hK)).trans hapart.deny
                (htook K fun k hk => hK (k + 1) (by omega))
            · by_cases hv0 : v = va / PGSIZE
              · subst hv0
                rw [lookup_eq_of_view (hview2 _ (by omega)), hadded.self, Nat.sub_self,
                  Nat.add_zero]
              · rw [hlook v (by omega) (by omega)]
                have hidx : x + 1 + (v - (va / PGSIZE + 1)) = x + (v - va / PGSIZE) := by omega
                rw [hnext, hidx]

theorem PGROUNDDOWN_eq (h : va % PGSIZE = 0) : PGROUNDDOWN va = va :=
  Nat.div_mul_cancel (Nat.dvd_of_mod_eq_zero h)

theorem mapUntil_eq {k : ℕ} (n : ℕ) (hlast : va + k * PGSIZE < 2 ^ 32) :
    mapUntil d perm (va + k * PGSIZE) (k + n + 1) va x = mapLoop d perm (k + 1) va x := by
  induction k generalizing va x with
  | zero =>
    rw [mapUntil, mapLoop, Nat.zero_mul, Nat.add_zero]
    congr 1
    funext ok
    rw [if_pos rfl]
    rfl
  | succ k ih =>
    have hnext : uadd va PGSIZE = va + PGSIZE := by
      unfold uadd PGSIZE at *
      omega
    have hmul : va + (k + 1) * PGSIZE = va + PGSIZE + k * PGSIZE := by ring
    have hne : va ≠ va + PGSIZE + k * PGSIZE := by
      unfold PGSIZE
      omega
    rw [hmul] at hlast ⊢
    rw [Nat.succ_add k n, mapUntil, mapLoop]
    simp only [if_neg hne, hnext, ih hlast]

def rangePages (va size : ℕ) : ℕ := (va % PGSIZE + size + (PGSIZE - 1)) / PGSIZE

theorem mappages_eq {size : ℕ} (hsize : 0 < size) (hva : va + size ≤ 2 ^ 32) :
    mappages d va size x perm = mapLoop d perm (rangePages va size) (PGROUNDDOWN va) x := by
  obtain ⟨k, hk⟩ : ∃ k, rangePages va size = k + 1 := Nat.exists_eq_succ_of_ne_zero (by
    unfold rangePages PGSIZE
    omega)
  have hlast : PGROUNDDOWN (uadd va (uadd size 0xFFFFFFFF)) = PGROUNDDOWN va + k * PGSIZE ∧
      PGROUNDDOWN va + k * PGSIZE < 2 ^ 32 := by
    unfold PGROUNDDOWN uadd
    unfold rangePages at hk
    simp only [PGSIZE] at *
    omega
  have hn : 2 ^ 20 = k + (2 ^ 20 - 1 - k) + 1 := by
    simp only [PGROUNDDOWN, PGSIZE] at hlast
    omega
  show mapUntil d perm (PGROUNDDOWN (uadd va (uadd size 0xFFFFFFFF))) (2 ^ 20) _ x = _
  rw [hlast.1, hn, mapUntil_eq _ hlast.2, hk]

/-- A page in hand is mapped.  Where the kernel has mapped something there is no room. -/
theorem ends_mappages (h : Good U s b) (hdir : b.dir a = some d) (hx : x ∈ b.hand)
    (hperm : perm < PGSIZE) (halign : va % PGSIZE = 0) (hva : va < 2 ^ 32)
    (hdirect : Direct (va / PGSIZE) → lookup s.mem d (va / PGSIZE) ≠ none)
    (hE : lookup s.mem d (va / PGSIZE) ≠ none → E "remap") :
    Ends p E (mappages d va PGSIZE x perm) s fun ok s' => Apart a b s s' ∧
      (ok = false ∧ Good U s' b ∧ s'.mem = s.mem ∧ FirstShort s 0 ∧
          entry s.mem d (PDX va) = none ∨
        ok = true ∧ Good U s' { b with hand := b.hand.erase x } ∧ Linked d (PDX va) 0 s s' ∧
          Added d (va / PGSIZE) (x * PGSIZE + (perm ||| PTE_P)) s.mem s'.mem) := by
  have hone : rangePages va PGSIZE = 1 := by
    unfold rangePages
    rw [halign]
    rfl
  rw [mappages_eq (by decide) (by simp only [PGSIZE] at halign ⊢; omega), PGROUNDDOWN_eq halign, hone]
  refine Ends.bind (ends_mapPage { b with hand := b.hand.erase x } h hdir hva hperm
    (mk_lt (h.usable .hand x hx).2 (flags_lt hperm)) hE ?_) ?_
  · intro hnone m f t hi ht hj
    exact hi.page hdir ht hx (fun hv => hdirect hv hnone) hj (flags_lt hperm) (flags_mod perm)
  · rintro ok s1 ⟨hapart, ⟨rfl, hrest⟩ | ⟨rfl, hrest⟩⟩
    · exact .ret ⟨hapart, .inl ⟨rfl, hrest⟩⟩
    · exact .ret ⟨hapart, .inr ⟨rfl, hrest⟩⟩

end Walk

section Dealloc

variable {x v : ℕ}

theorem not_direct (h : v * PGSIZE < KERNBASE) : ¬ Direct v := by
  have hdev : KERNBASE < DEVSPACE := by decide
  rintro (⟨h1, -⟩ | h1)
  · exact absurd h h1.not_gt
  · exact absurd (h.trans hdev) h1.not_gt

theorem Layout.Usable.ne_zero {l : Layout} (h : l.Usable x) : x ≠ 0 := by
  rintro rfl
  have h1 := h.1
  have h2 := l.extmem_lt
  have h3 := l.data_le
  rw [Nat.zero_mul] at h1
  omega

/-- The pages in `V` are not mapped any more; everything else shows the same. -/
structure Cleared (d : Page) (V : ℕ → Prop) (m m' : Mem) : Prop where
  gone : ∀ v, V v → lookup m' d v = none
  other : ∀ v, ¬ V v → view m' d v = view m d v
  tables : ∀ i, entry m' d i = entry m d i

namespace Cleared

variable {V V' : ℕ → Prop} {m m1 m2 : Mem}

theorem mono (h : Cleared d V m m1) (hV : ∀ v, V v → V' v)
    (hnone : ∀ v, V' v → ¬ V v → lookup m d v = none) : Cleared d V' m m1 := by
  refine ⟨fun v hv => ?_, fun v hv => h.other v fun hc => hv (hV v hc), h.tables⟩
  by_cases hVv : V v
  · exact h.gone v hVv
  · rw [lookup_eq_of_view (h.other v hVv)]
    exact hnone v hv hVv

theorem trans (h1 : Cleared d V m m1) (h2 : Cleared d V' m1 m2) :
    Cleared d (fun v => V v ∨ V' v) m m2 := by
  refine ⟨fun v hv => ?_, fun v hv => ?_, fun i => (h2.tables i).trans (h1.tables i)⟩
  · by_cases hv' : V' v
    · exact h2.gone v hv'
    · rw [lookup_eq_of_view (h2.other v hv')]
      exact h1.gone v (hv.resolve_right hv')
  · rw [not_or] at hv
    rw [h2.other v hv.2, h1.other v hv.1]

end Cleared

theorem Good.unmap {t : Page} (h : Good U s b) (hdir : b.dir a = some d)
    (ht : entry s.mem d (v / 1024) = some t) (hx : entry s.mem t (v % 1024) = some x)
    (hv : ¬ Direct v) :
    Good U ((s.free x).setWord t (v % 1024) 0) b ∧
      Apart a b s ((s.free x).setWord t (v % 1024) 0) ∧
      Cleared d (· = v) s.mem (putWord (update s.mem x (fill 1)) t (v % 1024) 0) := by
  have huser : Holds s.mem s.freelist b (.user a v) x := ⟨hv, d, t, hdir, ht, hx⟩
  have htable : Holds s.mem s.freelist b (.table a (v / 1024)) t := ⟨d, hdir, ht⟩
  have hxt : t ≠ x := h.excl.ne (.table a (v / 1024)) (.user a v) htable huser (by rintro ⟨⟩)
  have hcomm : putWord (update s.mem x (fill 1)) t (v % 1024) 0 =
      update (putWord s.mem t (v % 1024) 0) x (fill 1) := by
    unfold putWord
    rw [update_of_ne hxt, update_comm hxt]
  have hclear := h.clear hdir ht hx hv
  have hmem : x ∈ x :: b.hand := List.mem_cons_self
  have hwalk := hclear.not_walked (r := .hand) hmem (fun _ => by rintro ⟨⟩) fun _ _ => by rintro ⟨⟩
  refine ⟨?_, h.apart ⟨rfl, rfl, rfl, rfl, rfl⟩ fun z => ?_, fun v' hv' => ?_, fun v' hv' => ?_,
    fun i => ?_⟩
  · have hfree := (hclear.write_hand (c := fill 1) hmem).toFree hmem
    rw [List.erase_cons_head] at hfree
    show Inv s.layout U (putWord (update s.mem x (fill 1)) t (v % 1024) 0)
      (x :: s.freelist) b
    rw [hcomm]
    exact hfree
  · show putWord (update s.mem x (fill 1)) t (v % 1024) 0 z = _ ∨ _
    rw [hcomm]
    by_cases hzx : z = x
    · subst hzx
      exact .inr ⟨.user a v, fun hne => hne rfl, huser⟩
    · by_cases hzt : z = t
      · subst hzt
        exact .inr ⟨.table a (v / 1024), fun hne => hne rfl, htable⟩
      · exact .inl ((update_of_ne hzx _ _).trans (update_of_ne hzt _ _))
  · subst hv'
    have hself := h.lookup_put_self (w := 0) hdir ht (by decide)
    rw [if_neg (by decide)] at hself
    rw [hcomm, ← hself]
    refine lookup_congr (entry_update_of_ne (hwalk.1 a d hdir)) fun t' ht' => ?_
    exact word_update_of_ne (hwalk.2 a d _ t' hdir ht')
  · rw [hcomm, ← h.view_put_of_ne (w := 0) hdir ht hv']
    refine view_congr (lookup_congr (entry_update_of_ne (hwalk.1 a d hdir)) fun t' ht' => ?_)
      fun w hv'' hw => ?_
    · exact word_update_of_ne (hwalk.2 a d _ t' hdir ht')
    · rw [lookup_eq_of_view (h.view_put_of_ne (w := 0) hdir ht hv')] at hw
      have hne : pteAddr w ≠ x := h.excl.ne (.user a v') (.user a v) (holds_user hdir hv'' hw) huser
        (by rintro ⟨⟩; exact hv' rfl)
      exact update_of_ne hne _ _
  · rw [hcomm, entry_update_of_ne (hwalk.1 a d hdir), h.dir_of_putTable hdir ht hdir]

/-- One round of the loop of `deallocuvm`: the page at `v` is freed if it is present. -/
def State.wipe (s : State) (d : Page) (v : ℕ) : State :=
  match entry s.mem d (v / 1024) with
  | none => s
  | some t =>
    match entry s.mem t (v % 1024) with
    | none => s
    | some x => (s.free x).setWord t (v % 1024) 0

theorem State.wipe_of_none (h : lookup s.mem d v = none) : s.wipe d v = s := by
  unfold State.wipe
  cases ht : entry s.mem d (v / 1024) with
  | none => rfl
  | some t =>
    have hp : ¬ Present (Vm.word s.mem t (v % 1024)) := by
      intro hp
      rw [lookup_of_entry ht, if_pos hp] at h
      cases h
    simp only [entry_of_absent hp]

theorem State.wipe_of_entry {t : Page} (ht : entry s.mem d (v / 1024) = some t)
    (hx : entry s.mem t (v % 1024) = some x) : s.wipe d v =
      (s.free x).setWord t (v % 1024) 0 := by
  simp only [State.wipe, ht, hx]

/-- The rule for the loop: what `wipe` keeps for one page after another holds in the end. -/
theorem ends_deallocLoop {skip : ℕ → ℕ} {I : ℕ → State → Prop} {oldsz K : ℕ}
    (hK : ∀ v, v * PGSIZE < oldsz ↔ v < K) (hK19 : K ≤ 2 ^ 19)
    (hskip : ∀ v < K, ∃ v', skip (v * PGSIZE) = v' * PGSIZE ∧ v ≤ v' ∧ v' / 1024 = v / 1024)
    (huse : ∀ v s w, v < K → I v s → lookup s.mem d v = some w → s.layout.Usable (pteAddr w))
    (hstep : ∀ v s, v < K → I v s → I (v + 1) (s.wipe d v)) (n : ℕ) (hn : K ≤ v + n)
    (h : I (min v K) s) :
    Ends p E (deallocLoop skip d oldsz (n + 1) (v * PGSIZE)) s fun _ => I K := by
  have huadd : ∀ u < 2 ^ 20 - 1, uadd (u * PGSIZE) PGSIZE = (u + 1) * PGSIZE := by
    intro u hu
    unfold uadd PGSIZE
    omega
  have hdone {n v : ℕ} {s : State} (hv : K ≤ v) (h : I (min v K) s) :
      Ends p E (deallocLoop skip d oldsz (n + 1) (v * PGSIZE)) s fun _ => I K := by
    rw [min_eq_right hv] at h
    exact Ends.ite (fun hlt => absurd ((hK v).mp hlt) hv.not_gt) fun _ => .ret h
  induction n generalizing v s with
  | zero => exact hdone hn h
  | succ n ih =>
    by_cases hv : v < K
    · have hlt := (hK v).mpr hv
      rw [min_eq_left hv.le] at h
      have hdx : PDX (v * PGSIZE) = v / 1024 := by
        unfold PDX PGSIZE
        omega
      have htx : PTX (v * PGSIZE) = v % 1024 := by
        unfold PTX PGSIZE
        omega
      have hnext : I (min (v + 1) K) (s.wipe d v) := by
        rw [min_eq_left hv]
        exact hstep v s hv h
      have ihv {s : State} := ih (v := v + 1) (s := s) (by omega)
      rw [← huadd v (by omega)] at ihv
      refine Ends.ite (fun _ => Ends.bind (ends_walk _) ?_) fun hge => absurd hlt hge
      rintro r _ ⟨rfl, rfl⟩
      rw [hdx, htx]
      cases ht : entry s.mem d (v / 1024) with
      | none =>
        -- The rounds for the rest of the table would change nothing.
        obtain ⟨v', hskip, hle, hsame⟩ := hskip v hv
        have hrest : ∀ u, v ≤ u → u ≤ v' + 1 → I (min u K) s := by
          intro u hu
          induction u, hu using Nat.le_induction with
          | base => exact fun _ => (min_eq_left hv.le).symm ▸ h
          | succ u hu ihu =>
            intro hle'
            have hi := ihu (by omega)
            by_cases huK : u < K
            · have hnone : lookup s.mem d u = none :=
                lookup_of_none (by rw [show u / 1024 = v / 1024 by omega, ht])
              rw [min_eq_left huK.le] at hi
              rw [min_eq_left huK, ← State.wipe_of_none hnone]
              exact hstep u s huK hi
            · rw [min_eq_right (by omega)] at hi ⊢
              exact hi
        show Ends p E (deallocLoop skip d oldsz (n + 1) (uadd (skip (v * PGSIZE)) PGSIZE)) s _
        rw [hskip, huadd v' (by omega)]
        exact ih (by omega) (hrest _ (by omega) le_rfl)
      | some t =>
        refine Ends.bind_read (Ends.ite (fun hp => ?_) fun hp => ?_)
        · have hlook : lookup s.mem d v = some (s.word t (v % 1024)) :=
            (lookup_of_entry ht).trans (if_pos hp)
          have hu := huse v s _ hv h hlook
          rw [State.wipe_of_entry ht (entry_of_present hp)] at hnext
          refine Ends.ite (fun h0 => absurd h0 hu.ne_zero) fun _ => ?_
          refine Ends.bind (ends_kfree_usable hu) ?_
          rintro _ _ rfl
          exact Ends.bind_modify (ihv hnext)
        · have hnone : lookup s.mem d v = none := (lookup_of_entry ht).trans (if_neg hp)
          rw [State.wipe_of_none hnone] at hnext
          exact ihv hnext
    · exact hdone (Nat.le_of_not_lt hv) h

theorem PGROUNDUP_eq {n : ℕ} (h : n ≤ KERNBASE) :
    PGROUNDUP n = (n + (PGSIZE - 1)) / PGSIZE * PGSIZE := by
  have hlt : n + (PGSIZE - 1) < 2 ^ 32 := (Nat.add_le_add_right h _).trans_lt (by decide)
  unfold PGROUNDUP PGROUNDDOWN uadd
  rw [Nat.mod_eq_of_lt hlt]

theorem PGROUNDUP_le {n : ℕ} (h : n ≤ KERNBASE) : PGROUNDUP n ≤ v * PGSIZE ↔ n ≤ v * PGSIZE := by
  rw [PGROUNDUP_eq h]
  simp only [PGSIZE]
  omega

theorem lastOfTable_eq (hv : v < 2 ^ 19) :
    ∃ v', lastOfTable (v * PGSIZE) = v' * PGSIZE ∧ v ≤ v' ∧ v' / 1024 = v / 1024 := by
  refine ⟨v / 1024 * 1024 + 1023, ?_, by omega, by omega⟩
  unfold lastOfTable PDX uadd PGSIZE
  omega

theorem ends_deallocBy {skip : ℕ → ℕ} {I : ℕ → State → Prop} {oldsz newsz : ℕ}
    (hlt : newsz < oldsz) (hold : oldsz ≤ KERNBASE)
    (hskip : ∀ v < 2 ^ 19, ∃ v', skip (v * PGSIZE) = v' * PGSIZE ∧ v ≤ v' ∧ v' / 1024 = v / 1024)
    (huse : ∀ v s w, v * PGSIZE < oldsz → I v s → lookup s.mem d v = some w →
      s.layout.Usable (pteAddr w))
    (hstep : ∀ v s, v * PGSIZE < oldsz → I v s → I (v + 1) (s.wipe d v))
    (h : I (PGROUNDUP newsz / PGSIZE) s) :
    Ends p E (deallocBy skip d oldsz newsz) s fun r s' =>
      r = newsz ∧ I (PGROUNDUP oldsz / PGSIZE) s' := by
  have hround {n : ℕ} (hn : n ≤ KERNBASE) : PGROUNDUP n / PGSIZE = (n + (PGSIZE - 1)) / PGSIZE := by
    rw [PGROUNDUP_eq hn, Nat.mul_div_cancel _ (by decide)]
  have hK : ∀ v, v * PGSIZE < oldsz ↔ v < PGROUNDUP oldsz / PGSIZE := by
    intro v
    rw [hround hold]
    unfold PGSIZE
    omega
  have hK19 : PGROUNDUP oldsz / PGSIZE ≤ 2 ^ 19 := by
    rw [hround hold]
    unfold KERNBASE at hold
    unfold PGSIZE
    omega
  have hmin : min (PGROUNDUP newsz / PGSIZE) (PGROUNDUP oldsz / PGSIZE) =
      PGROUNDUP newsz / PGSIZE := by
    rw [hround hold, hround (hlt.le.trans hold)]
    exact min_eq_left (Nat.div_le_div_right (by omega))
  have hback : PGROUNDUP newsz / PGSIZE * PGSIZE = PGROUNDUP newsz :=
    Nat.div_mul_cancel (Nat.dvd_mul_left ..)
  refine Ends.ite (fun hge => absurd hge hlt.not_ge) fun _ => Ends.bind ?_ fun _ s' hi =>
    .ret ⟨rfl, hi⟩
  rw [← hback]
  refine ends_deallocLoop hK hK19 (fun v hv => hskip v (hv.trans_le hK19)) ?_ ?_ (2 ^ 20 - 1)
    (hK19.trans (le_add_left (by decide))) (hmin.symm ▸ h)
  · exact fun v s w hv => huse v s w ((hK v).mpr hv)
  · exact fun v s hv => hstep v s ((hK v).mpr hv)

theorem Good.wipe (h : Good U s b) (hdir : b.dir a = some d) (hv : ¬ Direct v) :
    Good U (s.wipe d v) b ∧ Apart a b s (s.wipe d v) ∧
      Cleared d (· = v) s.mem (s.wipe d v).mem := by
  cases hw : lookup s.mem d v with
  | none =>
    rw [State.wipe_of_none hw]
    exact ⟨h, .refl a b s, fun _ he => he ▸ hw, fun _ _ => rfl, fun _ => rfl⟩
  | some w =>
    obtain ⟨t, ht, rfl, hp⟩ := lookup_some hw
    rw [State.wipe_of_entry ht (entry_of_present hp)]
    exact h.unmap hdir ht (entry_of_present hp) hv

theorem ends_deallocuvm {oldsz newsz : ℕ} (hold : oldsz ≤ KERNBASE) (h : Good U s b)
    (hdir : b.dir a = some d) :
    Ends p E (deallocuvm d oldsz newsz) s fun _ s' => Good U s' b ∧ Apart a b s s' ∧
      Cleared d (fun v => newsz ≤ v * PGSIZE ∧ v * PGSIZE < oldsz) s.mem s'.mem := by
  refine (em (newsz < oldsz)).elim (fun hlt => ?_) fun hge => ?_
  · have hlow {v : ℕ} (hv : v * PGSIZE < oldsz) : ¬ Direct v := not_direct (hv.trans_le hold)
    have hiff : ∀ v, PGROUNDUP newsz / PGSIZE ≤ v ∧ v < PGROUNDUP oldsz / PGSIZE ↔
        newsz ≤ v * PGSIZE ∧ v * PGSIZE < oldsz := by
      intro v
      rw [PGROUNDUP_eq hold, PGROUNDUP_eq (hlt.le.trans hold)]
      unfold PGSIZE
      omega
    refine (ends_deallocBy (I := fun v t => PGROUNDUP newsz / PGSIZE ≤ v ∧ Good U t b ∧
      Apart a b s t ∧ Cleared d (fun u => PGROUNDUP newsz / PGSIZE ≤ u ∧ u < v) s.mem t.mem) hlt
      hold (fun v hv => lastOfTable_eq hv) ?_ ?_ ⟨le_rfl, h, .refl a b s, fun _ _ => by omega,
        fun _ _ => rfl, fun _ => rfl⟩).mono ?_
    · rintro v t w hv ⟨-, hgood, -⟩ hw
      exact hgood.usable _ _ (holds_user hdir (hlow hv) hw)
    · rintro v t hv ⟨hle, hgood, hapart, hcl⟩
      obtain ⟨hgood', hapart', hcl'⟩ := hgood.wipe hdir (hlow hv)
      refine ⟨by omega, hgood', hapart.trans (.refl a b) hapart', (hcl.trans hcl').mono ?_ ?_⟩
      · omega
      · omega
    · rintro r t ⟨-, -, hgood, hapart, hcl⟩
      simp only [hiff] at hcl
      exact ⟨hgood, hapart, hcl⟩
  · exact Ends.ite (fun _ => .ret ⟨h, .refl a b s, fun v hv => by omega, fun _ _ => rfl,
      fun _ => rfl⟩) fun hlt => absurd (Nat.lt_of_not_le hlt) hge

theorem tables_congr {m m' : Mem} {l : List ℕ} (h : m' d = m d) : tables m' d l = tables m d l := by
  have he : entry m' d = entry m d := by
    funext i
    exact entry_congr (by unfold word; rw [h])
  unfold tables
  rw [he]

theorem ends_freeTables (n i : ℕ)
    (hu : ∀ t ∈ tables s.mem d (List.range' i n), s.layout.Usable t ∧ t ≠ d) :
    Ends p E (freeTables d n i) s fun _ s' =>
      s' = (tables s.mem d (List.range' i n)).foldl State.free s := by
  induction n generalizing s i with
  | zero => exact .ret rfl
  | succ n ih =>
    refine Ends.bind_read ?_
    have hstep : tables s.mem d (List.range' i (n + 1)) =
        (entry s.mem d i).toList ++ tables s.mem d (List.range' (i + 1) n) := by
      unfold tables
      rw [List.range'_succ, List.filterMap_cons]
      cases entry s.mem d i <;> rfl
    rw [hstep] at hu ⊢
    by_cases hp : Present (s.word d i)
    · have ht : entry s.mem d i = some (pteAddr (s.word d i)) := entry_of_present hp
      rw [ht] at hu ⊢
      obtain ⟨hut, htd⟩ := hu _ (List.mem_append_left _ List.mem_cons_self)
      have hsame : tables (s.free (pteAddr (s.word d i))).mem d (List.range' (i + 1) n) =
          tables s.mem d (List.range' (i + 1) n) := tables_congr (update_of_ne htd.symm _ _)
      refine Ends.bind (Ends.when (fun _ => ends_kfree_usable hut) fun hn => absurd hp hn) ?_
      rintro _ _ rfl
      refine (ih (i + 1) fun t ht => ?_).mono ?_
      · exact hu t (List.mem_append_right _ (hsame ▸ ht))
      · rintro _ _ rfl
        rw [hsame]
        rfl
    · rw [entry_of_absent hp] at hu ⊢
      refine Ends.bind (Q := fun _ s' => s' = s) (Ends.when (fun h => absurd h hp) fun _ => rfl) ?_
      rintro _ _ rfl
      exact ih (i + 1) hu

theorem Good.freeAll {L H : List Page} (h : Good U s b) (hhand : b.hand = d :: (L ++ H)) :
    Same s (L.foldl State.free s) ∧ Good U (L.foldl State.free s) { b with hand := d :: H } ∧
      ∀ y ∉ L, (L.foldl State.free s).mem y = s.mem y := by
  induction L generalizing s b with
  | nil =>
    have hb : b = { b with hand := d :: H } := by rw [← show b.hand = d :: H from hhand]
    exact ⟨.refl s, hb ▸ h, fun _ _ => rfl⟩
  | cons x L ih =>
    have hx : x ∈ b.hand := by simp [hhand]
    have hnodup := h.hand
    rw [hhand, List.nodup_cons] at hnodup
    have hdx : d ≠ x := fun he => hnodup.1 (by simp [he])
    have hfree : Good U (s.free x) { b with hand := d :: (L ++ H) } := by
      have hgood := (h.write_hand (c := fill 1) hx).toFree hx
      rw [hhand, List.erase_cons_tail (by simpa using hdx), List.cons_append,
        List.erase_cons_head] at hgood
      exact hgood
    obtain ⟨hsame, hgood, hmem⟩ := ih hfree rfl
    have hsame' : Same s (s.free x) := ⟨rfl, rfl, rfl, rfl, rfl⟩
    refine ⟨hsame'.trans hsame, hgood, fun y hy => ?_⟩
    rw [List.mem_cons, not_or] at hy
    exact (hmem y hy.2).trans (update_of_ne hy.1 _ _)

/-- An address space is freed as a whole.  User pages above `KERNBASE` are lost. -/
theorem ends_freevm (h : Good U s b) (hdir : b.dir a = some d) :
    Ends p E (freevm d) s fun _ s' => Apart a b s s' ∧ ∃ U', Good U' s' (b.setDir a none) ∧
      ((∀ v, KERNBASE ≤ v * PGSIZE → ¬ Direct v → lookup s.mem d v = none) → U' = U) := by
  refine Ends.bind (ends_deallocuvm le_rfl h hdir) ?_
  rintro _ s1 ⟨hgood1, hapart1, hcl⟩
  have hclose := hgood1.closeDir hdir
  rw [List.range_eq_range'] at hclose
  refine Ends.bind (ends_freeTables NPDENTRIES 0 fun t ht => ?_) ?_
  · obtain ⟨i, -, hi⟩ := mem_tables.mp ht
    have htable : Holds s1.mem s1.freelist b (.table a i) t := ⟨d, hdir, hi⟩
    exact ⟨hgood1.usable _ _ htable, hgood1.excl.ne _ (.dir a) htable hdir (by rintro ⟨⟩)⟩
  rintro _ _ rfl
  obtain ⟨hsame2, hgood2, hmem2⟩ := Good.freeAll hclose rfl
  refine (ends_kfree hgood2 List.mem_cons_self).mono ?_
  rintro _ s3 ⟨hsame3, hmem3, -, hgood3⟩
  refine ⟨hapart1.trans (.refl a b) (hgood1.apart (hsame2.trans hsame3) fun z => ?_),
    fun x => U x ∧ ¬ ∃ v, Holds s1.mem s1.freelist b (.user a v) x, ?_, fun hhigh => ?_⟩
  · -- The directory and its tables are written.
    rw [hmem3]
    by_cases hzd : z = d
    · subst hzd
      exact .inr ⟨.dir a, fun hne => hne rfl, hdir⟩
    · rw [update_of_ne hzd]
      by_cases hzt : z ∈ tables s1.mem d (List.range' 0 NPDENTRIES)
      · obtain ⟨i, -, hi⟩ := mem_tables.mp hzt
        exact .inr ⟨.table a i, fun hne => hne rfl, d, hdir, hi⟩
      · exact .inl (hmem2 z hzt)
  · rw [List.erase_cons_head] at hgood3
    exact hgood3
  · -- No user page is left when the tables are freed.
    have hnone : ∀ v x, ¬ Holds s1.mem s1.freelist b (.user a v) x := by
      rintro v x ⟨hv, d', t, hdir', ht, hx⟩
      rw [hdir] at hdir'
      cases hdir'
      have hlook : lookup s1.mem d v = none := by
        by_cases hlow : v * PGSIZE < KERNBASE
        · exact hcl.gone v ⟨Nat.zero_le _, hlow⟩
        · rw [lookup_eq_of_view (hcl.other v fun hc => hlow hc.2)]
          exact hhigh v (Nat.le_of_not_lt hlow) hv
      rw [lookup_of_entry ht, if_pos (entry_some hx).1] at hlook
      cases hlook
    funext x
    exact propext ⟨And.left, fun hx => ⟨hx, fun ⟨v, hv⟩ => hnone v x hv⟩⟩

end Dealloc

end Xv6.Vm
