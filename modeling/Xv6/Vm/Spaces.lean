import Mathlib.Order.Interval.Finset.Nat
import Xv6.Vm.Walk

namespace Xv6.Vm
open Lib Prog Function

variable {p : Pid} {E : String → Prop} {U : Page → Prop} {s : State} {b : Books} {a : Space}
  {d : Page} {v : ℕ}

section Kernel

variable {k : Kmap}

def Kmap.pages (k : Kmap) : ℕ := k.size / PGSIZE

def Kmap.Covers (k : Kmap) (v : ℕ) : Prop := k.virt / PGSIZE ≤ v ∧ v < k.virt / PGSIZE + k.pages

def Kmap.entry (k : Kmap) (v : ℕ) : ℕ :=
  (k.physStart / PGSIZE + (v - k.virt / PGSIZE)) * PGSIZE + (k.perm ||| PTE_P)

/-- Whole pages of the direct map, not for users. -/
structure Kmap.Ok (k : Kmap) : Prop where
  align : k.virt % PGSIZE = 0
  size : k.size = k.pages * PGSIZE
  pos : 0 < k.pages
  top : k.virt + k.pages * PGSIZE ≤ 2 ^ 32
  phys : k.physStart / PGSIZE + k.pages ≤ 2 ^ 20
  perm : k.perm = 0 ∨ k.perm = PTE_W
  direct : ∀ v, k.Covers v → Direct v

theorem Kmap.Ok.perm_lt (h : k.Ok) : k.perm < PGSIZE := by
  rcases h.perm with h | h
  · rw [h]
    decide
  · rw [h]
    decide

theorem Kmap.Ok.not_user (h : k.Ok) (v : ℕ) : ¬ User (k.entry v) := by
  unfold User Kmap.entry PGSIZE
  rcases h.perm with h | h
  · rw [h, show (0 ||| PTE_P) = 1 from rfl]
    omega
  · rw [h, show (PTE_W ||| PTE_P) = 3 from rfl]
    omega

theorem ends_mapKmap (hk : k.Ok) (h : Good U s b) (hdir : b.dir a = some d)
    (hnone : ∀ v, k.Covers v → lookup s.mem d v = none) :
    Ends p E (mappages d k.virt k.size (k.physStart / PGSIZE) k.perm) s fun ok s' =>
      Apart a b s s' ∧ Good U s' b ∧ (∀ v, ¬ k.Covers v → view s'.mem d v = view s.mem d v) ∧
      (∀ i, (∀ v, k.Covers v → v / 1024 ≠ i) → entry s'.mem d i = entry s.mem d i) ∧
      (ok = false ∧ (∀ K, (∀ v, k.Covers v → v / 1024 ∈ K) → Lacks d K 0 s) ∨
        ok = true ∧ (∀ K, (∀ v, k.Covers v → v / 1024 ∈ K) → Took d K 0 s s') ∧
          ∀ v, k.Covers v → lookup s'.mem d v = some (k.entry v)) := by
  have hround : rangePages k.virt (k.pages * PGSIZE) = k.pages := by
    unfold rangePages
    rw [hk.align]
    unfold PGSIZE
    omega
  have hpos := hk.pos
  rw [hk.size, mappages_eq (by unfold PGSIZE; omega) hk.top, PGROUNDDOWN_eq hk.align, hround]
  -- The table for each round.
  have hidx : ∀ j, j < k.pages → ∃ v, k.Covers v ∧ PDX (k.virt + j * PGSIZE) = v / 1024 := by
    intro j hj
    refine ⟨k.virt / PGSIZE + j, ⟨by omega, by omega⟩, ?_⟩
    have hlt : k.virt + j * PGSIZE < 2 ^ 32 := by
      have := hk.top
      simp only [PGSIZE] at this ⊢
      omega
    rw [PDX_eq hlt, Nat.add_mul_div_right _ _ (by decide)]
  have hK : ∀ K : Finset ℕ, (∀ v, k.Covers v → v / 1024 ∈ K) →
      ∀ j, j < k.pages → PDX (k.virt + j * PGSIZE) ∈ K := by
    intro K hK j hj
    obtain ⟨v, hv, heq⟩ := hidx j hj
    rw [heq]
    exact hK v hv
  refine (ends_mapLoop hk.perm_lt k.pages h hdir hk.align hk.top hk.phys
    (fun v h1 h2 => hk.direct v ⟨h1, h2⟩) ?_).mono ?_
  · rintro ⟨v, h1, h2, hne⟩
    exact absurd (hnone v ⟨h1, h2⟩) hne
  · rintro ok s1 ⟨hapart, hgood, hview, hentry, hrest⟩
    refine ⟨hapart, hgood, hview, fun i hi => hentry i fun j hj => ?_, ?_⟩
    · obtain ⟨v, hv, heq⟩ := hidx j hj
      rw [heq]
      exact hi v hv
    · rcases hrest with ⟨rfl, hlacks⟩ | ⟨rfl, htook, hlook⟩
      · exact .inl ⟨rfl, fun K hcov => hlacks K (hK K hcov)⟩
      · exact .inr ⟨rfl, fun K hcov => htook K (hK K hcov), fun v hv => hlook v hv.1 hv.2⟩

theorem ends_mapKernel (ks : List Kmap) (hok : ∀ k ∈ ks, k.Ok)
    (hdisj : ks.Pairwise fun k k' => ∀ v, k.Covers v → ¬ k'.Covers v) (h : Good U s b)
    (hdir : b.dir a = some d) (hnone : ∀ k ∈ ks, ∀ v, k.Covers v → lookup s.mem d v = none) :
    Ends p E (mapKernel d ks) s fun ok s' => Apart a b s s' ∧ Good U s' b ∧
      (∀ v, (∀ k ∈ ks, ¬ k.Covers v) → view s'.mem d v = view s.mem d v) ∧
      (∀ i, (∀ k ∈ ks, ∀ v, k.Covers v → v / 1024 ≠ i) → entry s'.mem d i = entry s.mem d i) ∧
      (ok = false ∧ (∀ K, (∀ k ∈ ks, ∀ v, k.Covers v → v / 1024 ∈ K) → Lacks d K 0 s) ∨
        ok = true ∧ (∀ K, (∀ k ∈ ks, ∀ v, k.Covers v → v / 1024 ∈ K) → Took d K 0 s s') ∧
          ∀ k ∈ ks, ∀ v, k.Covers v → lookup s'.mem d v = some (k.entry v)) := by
  induction ks generalizing s with
  | nil =>
    exact .ret ⟨.refl a b s, h, fun _ _ => rfl, fun _ _ => rfl, .inr ⟨rfl, fun K _ => .refl d K s,
      fun k hk => by cases hk⟩⟩
  | cons k ks ih =>
    simp only [List.forall_mem_cons] at hok hnone ⊢
    obtain ⟨hkd, hdisj'⟩ := List.pairwise_cons.mp hdisj
    refine Ends.bind (ends_mapKmap hok.1 h hdir hnone.1) ?_
    rintro ok s1 ⟨hapart, hgood, hview, hentry, ⟨rfl, hlacks⟩ | ⟨rfl, htook, hlook⟩⟩
    · exact .ret ⟨hapart, hgood, fun v hv => hview v hv.1, fun i hi => hentry i hi.1,
        .inl ⟨rfl, fun K hK => hlacks K hK.1⟩⟩
    · refine (ih hok.2 hdisj' hgood fun k' hk' v hv => ?_).mono ?_
      · rw [lookup_eq_of_view (hview v fun hkv => hkd k' hk' v hkv hv)]
        exact hnone.2 k' hk' v hv
      · rintro ok s2 ⟨hapart2, hgood2, hview2, hentry2, hrest⟩
        refine ⟨hapart.trans (.refl a b) hapart2, hgood2, fun v hv => ?_, fun i hi => ?_, ?_⟩
        · rw [hview2 v hv.2, hview v hv.1]
        · rw [hentry2 i hi.2, hentry i hi.1]
        · rcases hrest with ⟨rfl, hlacks2⟩ | ⟨rfl, htook2, hlook2⟩
          · exact .inl ⟨rfl, fun K hK => (htook K hK.1).lacks hapart.deny (hlacks2 K hK.2)⟩
          · refine .inr ⟨rfl, fun K hK => (htook K hK.1).trans hapart.deny (htook2 K hK.2),
              fun v hv => ?_, hlook2⟩
            rw [lookup_eq_of_view (hview2 v fun k' hk' => hkd k' hk' v hv)]
            exact hlook v hv

theorem kmap_ok (l : Layout) : ∀ k ∈ kmap l, k.Ok := by
  have h1 := l.data_aligned
  have h2 := l.extmem_lt
  have h3 := l.data_le
  have h4 := l.kend_le
  simp only [PGSIZE, EXTMEM] at h1 h2
  simp only [kmap, List.forall_mem_cons, List.not_mem_nil, false_imp_iff, forall_true_iff, and_true]
  refine ⟨⟨?_, ?_, ?_, ?_, ?_, .inr rfl, ?_⟩, ⟨?_, ?_, ?_, ?_, ?_, .inl rfl, ?_⟩,
    ⟨?_, ?_, ?_, ?_, ?_, .inr rfl, ?_⟩, ⟨?_, ?_, ?_, ?_, ?_, .inr rfl, ?_⟩⟩ <;>
  simp only [Kmap.pages, Kmap.size, Kmap.Covers, Direct, KERNBASE, KERNLINK, EXTMEM, PHYSTOP,
    DEVSPACE, PGSIZE] <;> omega

theorem kmap_disjoint (l : Layout) :
    (kmap l).Pairwise fun k k' => ∀ v, k.Covers v → ¬ k'.Covers v := by
  have h1 := l.data_aligned
  have h2 := l.extmem_lt
  have h3 := l.data_le
  have h4 := l.kend_le
  simp only [PGSIZE, EXTMEM] at h1 h2
  simp only [kmap, List.pairwise_cons, List.forall_mem_cons, List.not_mem_nil, false_imp_iff,
    forall_true_iff, and_true, List.Pairwise.nil]
  refine ⟨⟨?_, ?_, ?_⟩, ⟨?_, ?_⟩, ?_⟩ <;>
  simp only [Kmap.pages, Kmap.size, Kmap.Covers, KERNBASE, KERNLINK, EXTMEM, PHYSTOP,
    DEVSPACE, PGSIZE] <;> omega

theorem direct_iff_kmap (l : Layout) {v : ℕ} (hv : v < 2 ^ 20) :
    Direct v ↔ ∃ k ∈ kmap l, k.Covers v := by
  refine ⟨fun h => ?_, fun ⟨k, hk, hkv⟩ => (kmap_ok l k hk).direct v hkv⟩
  have h1 := l.data_aligned
  have h2 := l.extmem_lt
  have h3 := l.data_le
  have h4 := l.kend_le
  simp only [PGSIZE, EXTMEM] at h1 h2
  simp only [kmap, List.exists_mem_cons_iff, List.not_mem_nil, false_and, exists_false, or_false]
  simp only [Direct, KERNBASE, PHYSTOP, DEVSPACE, PGSIZE] at h
  simp only [Kmap.pages, Kmap.size, Kmap.Covers, KERNBASE, KERNLINK, EXTMEM, PHYSTOP,
    DEVSPACE, PGSIZE]
  omega

def kernelTables : Finset ℕ := Finset.Ico 512 568 ∪ Finset.Ico 1016 1024

theorem mem_kernelTables {v : ℕ} (hd : Direct v) (hv : v < 2 ^ 20) : v / 1024 ∈ kernelTables := by
  unfold kernelTables
  rw [Finset.mem_union, Finset.mem_Ico, Finset.mem_Ico]
  simp only [Direct, KERNBASE, PHYSTOP, DEVSPACE, PGSIZE] at hd
  omega

theorem direct_of_mem_kernelTables {i : ℕ} (hi : i ∈ kernelTables) :
    Direct (i * 1024) ∧ i * 1024 < 2 ^ 20 := by
  unfold kernelTables at hi
  rw [Finset.mem_union, Finset.mem_Ico, Finset.mem_Ico] at hi
  simp only [Direct, KERNBASE, PHYSTOP, DEVSPACE, PGSIZE]
  omega

/-- The kernel's part is complete and closed to users, and the rest of the address space empty. -/
structure Fresh (m : Mem) (d : Page) : Prop where
  direct : ∀ v, Direct v → v < 2 ^ 20 → ∃ w, lookup m d v = some w ∧ ¬ User w
  user : ∀ v, ¬ Direct v → lookup m d v = none
  tables : ∀ i, i ∉ kernelTables → entry m d i = none

theorem setDir_back (hnone : b.dir a = none) : (b.setDir a (some d)).setDir a none = b := by
  have hdir : update (update b.dir a (some d)) a none = b.dir := by
    rw [update_idem, ← hnone, update_eq_self]
  show { b with dir := update (update b.dir a (some d)) a none } = b
  rw [hdir]

theorem ends_mapKernel_kmap (h : Good U s b) (hdir : b.dir a = some d)
    (hempty : ∀ i, entry s.mem d i = none) :
    Ends p E (mapKernel d (kmap s.layout)) s fun ok s' => Apart a b s s' ∧ Good U s' b ∧
      (∀ v, ¬ Direct v → lookup s'.mem d v = none) ∧
      (ok = false ∧ (∃ n, n < 64 ∧ FirstShort s n) ∨ ok = true ∧ Drew s s' 64 ∧ Fresh s'.mem d ∧
        ∀ k ∈ kmap s.layout, ∀ v, k.Covers v → lookup s'.mem d v = some (k.entry v)) := by
  have hcard : kernelTables.card = 64 := by decide +kernel
  have hvacant : vacant s.mem d kernelTables = 64 := by
    rw [vacant_eq_card fun i _ => hempty i, hcard]
  have hlt : ∀ k ∈ kmap s.layout, ∀ v, k.Covers v → v < 2 ^ 20 := by
    intro k hk v hv
    have htop := (kmap_ok s.layout k hk).top
    have halign := (kmap_ok s.layout k hk).align
    have hv2 := hv.2
    simp only [PGSIZE] at htop halign hv2
    omega
  have hK : ∀ k ∈ kmap s.layout, ∀ v, k.Covers v → v / 1024 ∈ kernelTables :=
    fun k hk v hv => mem_kernelTables ((kmap_ok s.layout k hk).direct v hv) (hlt k hk v hv)
  refine (ends_mapKernel (kmap s.layout) (kmap_ok _) (kmap_disjoint _) h hdir
    fun k _ v _ => lookup_of_none (hempty _)).mono ?_
  rintro ok s1 ⟨hapart, hgood, hview, hentry, hrest⟩
  have huser : ∀ v, ¬ Direct v → lookup s1.mem d v = none := by
    intro v hv
    rw [lookup_eq_of_view (hview v fun k hk hkv => hv ((kmap_ok s.layout k hk).direct v hkv))]
    exact lookup_of_none (hempty _)
  refine ⟨hapart, hgood, huser, ?_⟩
  rcases hrest with ⟨rfl, hlacks⟩ | ⟨rfl, htook, hlook⟩
  · obtain ⟨n, hn, hshort⟩ := hlacks kernelTables hK
    exact .inl ⟨rfl, n, by omega, hshort⟩
  · have hdirect : ∀ v, Direct v → v < 2 ^ 20 → ∃ w, lookup s1.mem d v = some w ∧ ¬ User w := by
      intro v hv hv20
      obtain ⟨k, hk, hkv⟩ := (direct_iff_kmap s.layout hv20).mp hv
      exact ⟨_, hlook k hk v hkv, (kmap_ok s.layout k hk).not_user v⟩
    have hfull : vacant s1.mem d kernelTables = 0 := by
      refine vacant_eq_zero fun i hi hcon => ?_
      obtain ⟨hd, h20⟩ := direct_of_mem_kernelTables hi
      obtain ⟨w, hw, -⟩ := hdirect _ hd h20
      rw [lookup_of_none (by rwa [Nat.mul_div_cancel _ (by decide)])] at hw
      cases hw
    obtain ⟨n, hdrew, hn⟩ := htook kernelTables hK
    obtain rfl : n = 64 := by omega
    refine .inr ⟨rfl, hdrew, ⟨hdirect, huser, fun i hi => ?_⟩, hlook⟩
    rw [hentry i fun k hk v hv heq => hi (heq ▸ hK k hk v hv)]
    exact hempty i

theorem ends_setupkvm (h : Good U s b) (hnone : b.dir a = none) :
    Ends p E setupkvm s fun r s' => Apart a b s s' ∧
      (r = none ∧ Good U s' b ∧ (∃ n, n < 65 ∧ FirstShort s n) ∨
        ∃ d, r = some d ∧ s.freelist.head? = some d ∧ Good U s' (b.setDir a (some d)) ∧
          Drew s s' 65 ∧ Fresh s'.mem d ∧
            ∀ k ∈ kmap s.layout, ∀ v, k.Covers v → lookup s'.mem d v = some (k.entry v)) := by
  refine Ends.bind (ends_kalloc h) ?_
  rintro r s1 ⟨hsame1, hmem1, ⟨rfl, hshort, -, hgood1⟩ | ⟨d, rfl, hfree, hdrew1, hgood1⟩⟩
  · exact .ret ⟨⟨hsame1, fun _ _ _ _ => by rw [hmem1]⟩, .inl ⟨rfl, hgood1, 0, by omega, hshort⟩⟩
  have hd : d ∈ d :: b.hand := List.mem_cons_self
  have hdf : d ∈ s.freelist := hfree ▸ List.mem_cons_self
  refine Ends.bind_modify ?_
  have hclear : Inv s1.layout U (update s1.mem d (fill 0)) s1.freelist
      { b with hand := d :: b.hand } := hgood1.write_hand hd
  have hopen := hclear.openDir hnone hd fun i => entry_fill_zero
  rw [List.erase_cons_head] at hopen
  have hgood1' : Good U (s1.setPage d (fill 0)) (b.setDir a (some d)) := hopen
  have hdir : (b.setDir a (some d)).dir a = some d := b.setDir_self _ _
  have hapart1 : Apart a b s (s1.setPage d (fill 0)) :=
    .write_free ⟨hsame1, fun _ _ _ _ => by rw [hmem1]⟩ h hdf ⟨rfl, rfl, rfl, rfl, rfl⟩
      fun z hz => update_of_ne hz _ _
  have hdrew1' : Drew s (s1.setPage d (fill 0)) 1 := hdrew1.of_eq rfl rfl
  refine Ends.bind (Q := fun _ s' => s' = s1.setPage d (fill 0))
    (Ends.when (fun hc => absurd hc (by decide)) fun _ => rfl) ?_
  rintro _ _ rfl
  refine Ends.bind_read ?_
  refine Ends.bind (ends_mapKernel_kmap hgood1' hdir fun i => entry_fill_zero) ?_
  rintro ok s2 ⟨hapart2, hgood2, huser, ⟨rfl, n, hn, hshort⟩ | ⟨rfl, hdrew2, hfresh, hlook⟩⟩
  · refine Ends.bind (ends_freevm hgood2 hdir) ?_
    rintro _ s3 ⟨hapart3, U', hgood3, hU⟩
    rw [setDir_back hnone] at hgood3
    rw [hU fun v _ hv => huser v hv] at hgood3
    refine .ret ⟨hapart1.trans (.setDir a b (some d)) (hapart2.trans (.refl a _) hapart3),
      .inl ⟨rfl, hgood3, 1 + n, by omega, ?_⟩⟩
    exact hdrew1'.firstShort hapart1.deny hshort
  · refine .ret ⟨hapart1.trans (.setDir a b (some d)) hapart2, .inr ⟨d, rfl, ?_, hgood2,
      hdrew1'.trans hapart1.deny hdrew2, hfresh, hsame1.layout ▸ hlook⟩⟩
    rw [hfree]
    rfl

end Kernel

section User

variable {va sz : ℕ} {pgdir : Page}

theorem ends_mapFresh {s1 : State} {x : ℕ} (c : Bytes PGSIZE) (perm : ℕ) (h : Good U s b)
    (hsame1 : Same s s1) (hmem1 : s1.mem = s.mem) (hfree : s.freelist = x :: s1.freelist)
    (hdrew1 : Drew s s1 1) (hgood1 : Good U s1 { b with hand := x :: b.hand })
    (hdir : b.dir a = some d) (hperm : perm < PGSIZE) (halign : va % PGSIZE = 0) (hva : va < 2 ^ 32)
    (hdirect : Direct (va / PGSIZE) → lookup s.mem d (va / PGSIZE) ≠ none)
    (hE : lookup s.mem d (va / PGSIZE) ≠ none → E "remap") :
    Ends p E (mappages d va PGSIZE x perm) (s1.setPage x c) fun ok s' => Apart a b s s' ∧
      (ok = false ∧ Good U s' { b with hand := x :: b.hand } ∧
          (∀ v, view s'.mem d v = view s.mem d v) ∧ (∀ i, entry s'.mem d i = entry s.mem d i) ∧
          FirstShort s 1 ∧ entry s.mem d (PDX va) = none ∨
        ok = true ∧ Good U s' b ∧ Linked d (PDX va) 1 s s' ∧
          lookup s.mem d (va / PGSIZE) = none ∧
          view s'.mem d (va / PGSIZE) = some (x * PGSIZE + (perm ||| PTE_P), some c) ∧
          ∀ v, v ≠ va / PGSIZE → view s'.mem d v = view s.mem d v) := by
  have hx : x ∈ x :: b.hand := List.mem_cons_self
  have hxf : x ∈ s.freelist := hfree ▸ List.mem_cons_self
  have hfill : Good U (s1.setPage x c) { b with hand := x :: b.hand } := hgood1.write_hand hx
  have hother : ∀ z, z ≠ x → update s1.mem x c z = s.mem z := by
    intro z hz
    rw [update_of_ne hz, hmem1]
  have hapart1 : Apart a b s (s1.setPage x c) :=
    .write_free ⟨hsame1, fun _ _ _ _ => by rw [hmem1]⟩ h hxf ⟨rfl, rfl, rfl, rfl, rfl⟩
      fun z hz => update_of_ne hz _ _
  have hview1 : ∀ v, view (s1.setPage x c).mem d v = view s.mem d v :=
    h.view_other (.inl rfl) hdir hxf hother
  have hdx : d ≠ x := h.excl.ne (.dir a) .free hdir hxf (by rintro ⟨⟩)
  have hentry1 : ∀ i, entry (s1.setPage x c).mem d i = entry s.mem d i := by
    intro i
    show entry (update s1.mem x c) d i = _
    rw [entry_update_of_ne hdx, hmem1]
  have hdrew1' : Drew s (s1.setPage x c) 1 := hdrew1.of_eq rfl rfl
  have hlook1 := lookup_eq_of_view (hview1 (va / PGSIZE))
  refine (ends_mappages (b := { b with hand := x :: b.hand }) hfill hdir hx hperm halign hva
    (by rwa [hlook1]) (by rwa [hlook1])).mono ?_
  rintro ok s2 ⟨hapart2, hrest⟩
  refine ⟨hapart1.trans (.cons a b x) hapart2, ?_⟩
  rcases hrest with ⟨rfl, hgood2, hmem2, hshort, hnone⟩ | ⟨rfl, hgood2, hlinked, hadded⟩
  · refine .inl ⟨rfl, hgood2, fun v => by rw [hmem2, hview1], fun i => by rw [hmem2, hentry1],
      hdrew1'.firstShort hapart1.deny hshort, ?_⟩
    rwa [hentry1] at hnone
  · rw [List.erase_cons_head] at hgood2
    have habsent : lookup s.mem d (va / PGSIZE) = none := hlook1 ▸ hadded.absent
    refine .inr ⟨rfl, hgood2, hdrew1'.linked hapart1.deny hentry1 hlinked, habsent, ?_,
      fun v hv => (hadded.other v hv).trans (hview1 v)⟩
    have hv : ¬ Direct (va / PGSIZE) := fun hcon => hdirect hcon habsent
    have hc : s2.mem x = c := (hapart2.hand hx).trans (update_self _ _ _)
    rw [view_some hv hadded.self, pteAddr_mk (flags_lt hperm), hc]

/-- The loop of `allocuvm`.  When it fails, the pages of all rounds are given back. -/
theorem ends_allocLoop {oldsz newsz : ℕ} (hnew : newsz < KERNBASE) (n : ℕ) (h : Good U s b)
    (hdir : b.dir a = some d) (halign : va % PGSIZE = 0) (hold : oldsz ≤ va)
    (hround : ∀ k, k < n → va + k * PGSIZE < newsz) (hlast : newsz ≤ va + n * PGSIZE)
    (hE : (∃ v, va ≤ v * PGSIZE ∧ v * PGSIZE < newsz ∧ lookup s.mem d v ≠ none) → E "remap") :
    Ends p E (allocLoop d oldsz newsz n va) s fun r s' => Apart a b s s' ∧ Good U s' b ∧
      (r = 0 ∧ (∀ K, (∀ v, v * PGSIZE < newsz → v / 1024 ∈ K) → Lacks d K n s) ∧
          (∀ v, oldsz ≤ v * PGSIZE → v * PGSIZE < newsz → lookup s'.mem d v = none) ∧
          (∀ v, ¬ (oldsz ≤ v * PGSIZE ∧ v * PGSIZE < newsz) → view s'.mem d v = view s.mem d v) ∨
        r = newsz ∧ (∀ K, (∀ v, v * PGSIZE < newsz → v / 1024 ∈ K) → Took d K n s s') ∧
          (∀ v, va ≤ v * PGSIZE → v * PGSIZE < newsz → ∃ x,
            view s'.mem d v = some (x * PGSIZE + ((PTE_W ||| PTE_U) ||| PTE_P), some (fill 0))) ∧
          ∀ v, ¬ (va ≤ v * PGSIZE ∧ v * PGSIZE < newsz) → view s'.mem d v = view s.mem d v) := by
  have hkern : KERNBASE < 2 ^ 32 := by decide
  induction n generalizing s va with
  | zero =>
    exact .ret ⟨.refl a b s, h, .inr ⟨rfl, fun K _ => .refl d K s, fun v h1 h2 => by omega,
      fun _ _ => rfl⟩⟩
  | succ n ih =>
    have hva : va < newsz := by simpa using hround 0 (by omega)
    have hva' : va < 2 ^ 32 := (hva.trans hnew).trans hkern
    have hback : va / PGSIZE * PGSIZE = va := Nat.div_mul_cancel (Nat.dvd_of_mod_eq_zero halign)
    have hnot : ¬ Direct (va / PGSIZE) := not_direct (by rw [hback]; exact hva.trans hnew)
    have hK0 : ∀ K : Finset ℕ, (∀ v, v * PGSIZE < newsz → v / 1024 ∈ K) → PDX va ∈ K := by
      intro K hK
      rw [PDX_eq hva']
      exact hK _ (by rw [hback]; exact hva)
    refine Ends.bind (ends_kalloc h) ?_
    rintro r s1 ⟨hsame1, hmem1, ⟨rfl, hshort, -, hgood1⟩ | ⟨x, rfl, hfree, hdrew1, hgood1⟩⟩
    · refine Ends.bind (ends_deallocuvm hnew.le hgood1 hdir) ?_
      rintro _ s2 ⟨hgood2, hapart2, hcl⟩
      have hapart1 : Apart a b s s1 := ⟨hsame1, fun _ _ _ _ => by rw [hmem1]⟩
      refine .ret ⟨hapart1.trans (.refl a b) hapart2, hgood2, .inl ⟨rfl, fun K _ =>
        ⟨0, by omega, hshort⟩, fun v h1 h2 => hcl.gone v ⟨h1, h2⟩, fun v hv => ?_⟩⟩
      rw [hcl.other v hv, hmem1]
    refine Ends.bind_modify (Ends.bind (ends_mapFresh (fill 0) (PTE_W ||| PTE_U) h hsame1 hmem1
      hfree hdrew1 hgood1 hdir (by decide) halign hva' (fun hcon => absurd hcon hnot) ?_) ?_)
    · exact fun hcon => hE ⟨va / PGSIZE, hback.ge, by rw [hback]; exact hva, hcon⟩
    rintro ok s2 ⟨hapart2, ⟨rfl, hgood2, hview2, -, hshort, hnone⟩ |
      ⟨rfl, hgood2, hlinked, -, hself, hview2⟩⟩
    · -- There is no page for a table.
      have hx : x ∈ x :: b.hand := List.mem_cons_self
      refine Ends.bind (ends_deallocuvm hnew.le hgood2 hdir) ?_
      rintro _ s3 ⟨hgood3, hapart3, hcl⟩
      have hapart3' : Apart a b s s3 := hapart2.trans (.cons a b x) hapart3
      refine Ends.bind (ends_kfree hgood3 hx) ?_
      rintro _ s4 ⟨hsame4, hmem4, -, hgood4⟩
      rw [List.erase_cons_head] at hgood4
      have hother4 : ∀ z, z ≠ x → s4.mem z = s3.mem z := by
        intro z hz
        rw [hmem4, update_of_ne hz]
      have hview4 : ∀ v, view s4.mem d v = view s3.mem d v :=
        hgood3.view_other (r := .hand) (.inr trivial) hdir hx hother4
      refine .ret ⟨hapart3'.write_free h (hfree ▸ List.mem_cons_self) hsame4 hother4, hgood4,
        .inl ⟨rfl, fun K hK => ⟨1, ?_, hshort⟩, fun v h1 h2 => ?_, fun v hv => ?_⟩⟩
      · have := vacant_pos (hK0 K hK) hnone
        omega
      · rw [lookup_eq_of_view (hview4 v)]
        exact hcl.gone v ⟨h1, h2⟩
      · rw [hview4, hcl.other v hv, hview2]
    · refine (ih hgood2 ?_ (hold.trans (Nat.le_add_right _ _)) ?_ ?_ ?_).mono ?_
      · rw [Nat.add_mod_right, halign]
      · intro k hk
        have := hround (k + 1) (by omega)
        rwa [Nat.succ_mul, Nat.add_comm (k * PGSIZE), ← Nat.add_assoc] at this
      · rwa [Nat.succ_mul, Nat.add_comm (n * PGSIZE), ← Nat.add_assoc] at hlast
      · rintro ⟨v, h1, h2, hcon⟩
        have hne : v ≠ va / PGSIZE := by
          rintro rfl
          rw [hback] at h1
          exact absurd h1 (by simp [PGSIZE])
        rw [lookup_eq_of_view (hview2 v hne)] at hcon
        exact hE ⟨v, (Nat.le_add_right _ _).trans h1, h2, hcon⟩
      · rintro r s3 ⟨hapart3, hgood3, hrest⟩
        have htook : ∀ K : Finset ℕ, (∀ v, v * PGSIZE < newsz → v / 1024 ∈ K) → Took d K 1 s s2 :=
          fun K hK => hlinked.took (hK0 K hK)
        refine ⟨hapart2.trans (.refl a b) hapart3, hgood3, ?_⟩
        rcases hrest with ⟨rfl, hlacks, hgone, hview3⟩ | ⟨rfl, htook3, hnew3, hview3⟩
        · refine .inl ⟨rfl, fun K hK => ?_, hgone, fun v hv => ?_⟩
          · rw [Nat.add_comm n 1]
            exact (htook K hK).lacks hapart2.deny (hlacks K hK)
          · rw [hview3 v hv, hview2 v]
            rintro rfl
            rw [hback] at hv
            exact hv ⟨hold, hva⟩
        · refine .inr ⟨rfl, fun K hK => ?_, fun v h1 h2 => ?_, fun v hv => ?_⟩
          · rw [Nat.add_comm n 1]
            exact (htook K hK).trans hapart2.deny (htook3 K hK)
          · by_cases hv0 : v = va / PGSIZE
            · subst hv0
              refine ⟨x, ?_⟩
              rw [hview3 _ fun hcon => absurd hcon.1 (by rw [hback]; simp [PGSIZE]), hself]
            · refine hnew3 v ?_ h2
              simp only [PGSIZE] at h1 hback hv0 ⊢
              omega
          · rw [hview3 v fun hcon => hv ⟨by omega, hcon.2⟩, hview2 v]
            rintro rfl
            rw [hback] at hv
            exact hv ⟨le_rfl, hva⟩

def allocPages (oldsz newsz : ℕ) : ℕ := (newsz - PGROUNDUP oldsz + (PGSIZE - 1)) / PGSIZE

/-- Zeroed pages for users at the virtual pages in `V`; everything else shows the same. -/
structure Zeroed (d : Page) (V : ℕ → Prop) (m m' : Mem) : Prop where
  new : ∀ v, V v → ∃ x, view m' d v = some (x * PGSIZE + 7, some (fill 0))
  other : ∀ v, ¬ V v → view m' d v = view m d v

theorem ends_allocuvm {oldsz newsz : ℕ} (h : Good U s b) (hdir : b.dir a = some d)
    (hE : oldsz ≤ newsz → newsz < KERNBASE →
      (∃ v, oldsz ≤ v * PGSIZE ∧ v * PGSIZE < newsz ∧ lookup s.mem d v ≠ none) → E "remap") :
    Ends p E (allocuvm d oldsz newsz) s fun r s' => Apart a b s s' ∧ Good U s' b ∧
      (KERNBASE ≤ newsz ∧ r = 0 ∧ s' = s ∨
        newsz < KERNBASE ∧ newsz < oldsz ∧ r = oldsz ∧ s' = s ∨
        newsz < KERNBASE ∧ oldsz ≤ newsz ∧ r = 0 ∧
          (∀ K, (∀ v, v * PGSIZE < newsz → v / 1024 ∈ K) →
            Lacks d K (allocPages oldsz newsz) s) ∧
          (∀ v, oldsz ≤ v * PGSIZE → v * PGSIZE < newsz → lookup s'.mem d v = none) ∧
          (∀ v, ¬ (oldsz ≤ v * PGSIZE ∧ v * PGSIZE < newsz) → view s'.mem d v = view s.mem d v) ∨
        newsz < KERNBASE ∧ oldsz ≤ newsz ∧ r = newsz ∧
          (∀ K, (∀ v, v * PGSIZE < newsz → v / 1024 ∈ K) →
            Took d K (allocPages oldsz newsz) s s') ∧
          Zeroed d (fun v => oldsz ≤ v * PGSIZE ∧ v * PGSIZE < newsz) s.mem s'.mem) := by
  refine Ends.ite (fun hge => .ret ⟨.refl a b s, h, .inl ⟨hge, rfl, rfl⟩⟩) fun hlt => ?_
  have hnew : newsz < KERNBASE := Nat.lt_of_not_le hlt
  refine Ends.ite (fun hless => .ret ⟨.refl a b s, h, .inr (.inl ⟨hnew, hless, rfl, rfl⟩)⟩)
    fun hle => ?_
  have hle' : oldsz ≤ newsz := Nat.le_of_not_lt hle
  have hold : oldsz ≤ KERNBASE := hle'.trans hnew.le
  have hup : oldsz ≤ PGROUNDUP oldsz := by
    rw [PGROUNDUP_eq hold]
    simp only [PGSIZE]
    omega
  have halign : PGROUNDUP oldsz % PGSIZE = 0 := Nat.mul_mod_left _ _
  refine (ends_allocLoop hnew (allocPages oldsz newsz) h hdir halign hup ?_ ?_ ?_).mono ?_
  · intro k hk
    simp only [allocPages, PGSIZE] at hk ⊢
    omega
  · simp only [allocPages, PGSIZE]
    omega
  · rintro ⟨v, h1, h2, hcon⟩
    exact hE hle' hnew ⟨v, hup.trans h1, h2, hcon⟩
  · rintro r s' ⟨hapart, hgood, ⟨rfl, hlacks, hgone, hview⟩ | ⟨rfl, htook, hzero, hview⟩⟩
    · exact ⟨hapart, hgood, .inr (.inr (.inl ⟨hnew, hle', rfl, hlacks, hgone, hview⟩))⟩
    · simp only [PGROUNDUP_le hold] at hzero hview
      exact ⟨hapart, hgood, .inr (.inr (.inr ⟨hnew, hle', rfl, htook,
        fun v hv => hzero v hv.1 hv.2, hview⟩))⟩

def hidden (w : ℕ) : ℕ := if User w then w - PTE_U else w

theorem hidden_spec (w : ℕ) :
    (Present (hidden w) ↔ Present w) ∧ pteAddr (hidden w) = pteAddr w ∧ ¬ User (hidden w) ∧
      hidden w ≤ w := by
  unfold hidden
  by_cases h : User w
  · rw [if_pos h]
    unfold User at h
    have hmod : (w - 4) % 2 = 1 ↔ w % 2 = 1 := by omega
    have hdiv : (w - 4) / 4096 = w / 4096 := by omega
    have huser : ¬ (w - 4) / 4 % 2 = 1 := by omega
    exact ⟨hmod, hdiv, huser, Nat.sub_le _ _⟩
  · rw [if_neg h]
    exact ⟨Iff.rfl, rfl, h, le_rfl⟩

theorem ends_clearpteu {uva w : ℕ} {c : Option (Bytes PGSIZE)} (h : Good U s b)
    (hdir : b.dir a = some d) (huva : uva < 2 ^ 32)
    (hview : view s.mem d (uva / PGSIZE) = some (w, c)) :
    Ends p E (clearpteu d uva) s fun _ s' => Apart a b s s' ∧ Good U s' b ∧
      view s'.mem d (uva / PGSIZE) = some (hidden w, c) ∧
      ∀ v, v ≠ uva / PGSIZE → view s'.mem d v = view s.mem d v := by
  have hw : lookup s.mem d (uva / PGSIZE) = some w := by rw [lookup_eq_view, hview]; rfl
  obtain ⟨t, ht, hword, hp⟩ := lookup_some hw
  obtain ⟨hpres, haddr, -, hle⟩ := hidden_spec w
  have hlt : hidden w < 2 ^ 32 := hle.trans_lt (hword ▸ word_lt _ _ _)
  refine Ends.bind (ends_walk uva) ?_
  rintro r _ ⟨rfl, rfl⟩
  rw [PDX_eq huva, ht]
  refine Ends.bind_read (Ends.modify ?_)
  have hput : (if User (s.word t (PTX uva)) then s.word t (PTX uva) - PTE_U else
      s.word t (PTX uva)) = hidden w := by
    rw [← hword]
    rfl
  rw [hput]
  have htable : Holds s.mem s.freelist b (.table a (uva / PGSIZE / 1024)) t := ⟨d, hdir, ht⟩
  have hsame : entry (putWord s.mem t (uva / PGSIZE % 1024) (hidden w)) t (uva / PGSIZE % 1024) =
      entry s.mem t (uva / PGSIZE % 1024) := by
    rw [entry_putWord_self (Nat.mod_lt _ (by omega)) hlt, if_pos (hpres.mpr hp)]
    unfold entry
    rw [hword, if_pos hp, haddr]
  refine ⟨h.apart ⟨rfl, rfl, rfl, rfl, rfl⟩ fun z => ?_, h.flags hdir ht hsame, ?_,
    fun v hv => h.view_put_of_ne hdir ht hv⟩
  · by_cases hz : z = t
    · subst hz
      exact .inr ⟨.table a _, fun hne => hne rfl, htable⟩
    · exact .inl (update_of_ne hz _ _)
  · have hself := h.lookup_put_self hdir ht hlt
    rw [if_pos (hpres.mpr hp)] at hself
    have hc : c = if Direct (uva / PGSIZE) then none else some (s.mem (pteAddr w)) := by
      unfold view at hview
      rw [hw] at hview
      exact (congrArg Prod.snd (Option.some.inj hview)).symm
    show view (putWord s.mem t (uva / PGSIZE % 1024) (hidden w)) d (uva / PGSIZE) = _
    unfold view
    rw [hself, hc, Option.map_some, haddr]
    by_cases hv : Direct (uva / PGSIZE)
    · rw [if_pos hv, if_pos hv]
    · have hne : pteAddr w ≠ t := h.excl.ne (.user a _) (.table a _) (holds_user hdir hv hw) htable
        (by rintro ⟨⟩)
      rw [if_neg hv, if_neg hv]
      exact congrArg (fun y => some (hidden w, some y)) (update_of_ne hne _ _)

theorem pteFlags_lt (w : ℕ) : pteFlags w < PGSIZE := Nat.mod_lt _ (by decide)

theorem pteFlags_or {w : ℕ} (h : Present w) : pteFlags w ||| PTE_P = pteFlags w := by
  have hodd : pteFlags w % 2 = 1 := by
    unfold Present at h
    unfold pteFlags PGSIZE
    omega
  refine Nat.eq_of_testBit_eq fun i => ?_
  rw [Nat.testBit_or]
  cases i with
  | zero => simp [hodd]
  | succ i => simp [PTE_P, Nat.testBit_succ]

/-- The virtual page `v` of one address space is a copy of that of another. -/
def Copied (m : Mem) (pgdir : Page) (m' : Mem) (d : Page) (v : ℕ) : Prop :=
  ∃ x w c, view m pgdir v = some (w, some c) ∧ view m' d v = some (x * PGSIZE + pteFlags w, some c)

/-- The number of calls of `kalloc` for the first `v` pages of a copy. -/
def copyCalls (v : ℕ) : ℕ := v + (v + 1023) / 1024

/-- The address at which the table for the page `v` starts, if that is its first page. -/
theorem table_base (h : v % 1024 = 0) : v / 1024 * 2 ^ 22 = v * PGSIZE := by
  unfold PGSIZE
  omega

/-- The first `v` pages have been copied: their tables are there, and above them only the kernel's
part. -/
structure Started (m : Mem) (d : Page) (v : ℕ) : Prop where
  shut : ∀ v', Direct v' → v' < 2 ^ 20 → ∃ w, lookup m d v' = some w ∧ ¬ User w
  empty : ∀ v', v ≤ v' → ¬ Direct v' → lookup m d v' = none
  tables : ∀ i, i < 512 → (entry m d i = none ↔ (v + 1023) / 1024 ≤ i)

theorem Fresh.started {m : Mem} (h : Fresh m d) : Started m d 0 := by
  refine ⟨h.direct, fun v _ hv => h.user v hv, fun i hi => ⟨fun _ => by omega, fun _ => ?_⟩⟩
  refine h.tables i fun hmem => ?_
  unfold kernelTables at hmem
  rw [Finset.mem_union, Finset.mem_Ico, Finset.mem_Ico] at hmem
  omega

namespace Started

variable {m m' : Mem}

theorem lt (h : Started m d v) (hv : v ≤ 2 ^ 19) (hnone : lookup m d v = none) : v < 2 ^ 19 := by
  by_contra hcon
  obtain rfl : v = 2 ^ 19 := by omega
  obtain ⟨w, hw, -⟩ := h.shut (2 ^ 19) (.inl (by decide)) (by decide)
  rw [hnone] at hw
  cases hw

theorem table_iff (h : Started m d v) (hv : v < 2 ^ 19) :
    entry m d (v / 1024) = none ↔ v % 1024 = 0 := by
  rw [h.tables _ (by omega)]
  omega

theorem succ (h : Started m d v) (hv : v < 2 ^ 19) (hself : entry m' d (v / 1024) ≠ none)
    (hentry : ∀ j, j ≠ v / 1024 → entry m' d j = entry m d j)
    (hview : ∀ v', v' ≠ v → view m' d v' = view m d v') : Started m' d (v + 1) := by
  have hdirect : ∀ v', Direct v' → v' ≠ v := by
    rintro _ hd rfl
    refine not_direct ?_ hd
    simp only [PGSIZE, KERNBASE]
    omega
  refine ⟨fun v' hd hlt => ?_, fun v' hle hd => ?_, fun i hi => ?_⟩
  · rw [lookup_eq_of_view (hview v' (hdirect v' hd))]
    exact h.shut v' hd hlt
  · rw [lookup_eq_of_view (hview v' (by omega))]
    exact h.empty v' (by omega) hd
  · by_cases hi' : i = v / 1024
    · subst hi'
      exact ⟨fun hcon => absurd hcon hself, fun hcon => by omega⟩
    · rw [hentry i hi', h.tables i hi]
      omega

theorem calls (h : Started m d v) (hv : v < 2 ^ 19) :
    copyCalls v + (1 + if entry m d (v / 1024) = none then 1 else 0) = copyCalls (v + 1) := by
  unfold copyCalls
  simp only [h.table_iff hv]
  split_ifs <;> omega

end Started

theorem copyCalls_mono {v' : ℕ} (h : v ≤ v') : copyCalls v ≤ copyCalls v' := by
  unfold copyCalls
  omega

theorem le_div_page (h : v * PGSIZE < sz) : v ≤ sz / PGSIZE :=
  (Nat.le_div_iff_mul_le (by decide)).mpr h.le

theorem copyCalls_mod (v : ℕ) : copyCalls v % 1025 ≠ 1 := by
  unfold copyCalls
  omega

/-- The `k`-th call of `kalloc` is for a page table of the copy, where the first of these is call
number `n`. -/
def TableCall (n sz k : ℕ) : Prop := ∃ j, j * 2 ^ 22 < sz ∧ k = n + 1025 * j

theorem tableCall_add {i n k : ℕ} : TableCall (i + n) sz (i + k) ↔ TableCall n sz k :=
  exists_congr fun j => and_congr_right fun _ => by omega

/-- One page has been copied, or memory was short: for the page, or for its table, and then the page
is lost. -/
structure PageCopied (U : Page → Prop) (b : Books) (pgdir d : Page) (v : ℕ) (s : State) (ok : Bool)
    (s' : State) : Prop where
  other : ∀ v', v' ≠ v → view s'.mem d v' = view s.mem d v'
  copied : ok = true → v < 2 ^ 19 ∧ Good U s' b ∧ Copied s.mem pgdir s'.mem d v ∧
    entry s'.mem d (v / 1024) ≠ none ∧ (∀ i, i ≠ v / 1024 → entry s'.mem d i = entry s.mem d i) ∧
    Drew s s' (1 + if entry s.mem d (v / 1024) = none then 1 else 0)
  short : ok = false → lookup s'.mem d v = lookup s.mem d v ∧
    (FirstShort s 0 ∧ Good U s' b ∨ FirstShort s 1 ∧ v % 1024 = 0 ∧
      ∃ x, U x ∧ Good (fun y => U y ∧ y ≠ x) s' b)

section

variable (h : Good U s b) (hdir : b.dir a = some d) (hst : Started s.mem d v)
include h hdir hst

theorem ends_copyPage (hv : v ≤ 2 ^ 19)
    (hE : lookup s.mem pgdir v = none ∨ Direct v → ∀ e, E e) :
    Ends p E (copyPage pgdir d (v * PGSIZE)) s fun ok s' => Apart a b s s' ∧
      PageCopied U b pgdir d v s ok s' := by
  have hsize : PGSIZE = 4096 := rfl
  have hva : v * PGSIZE < 2 ^ 32 := by rw [hsize]; omega
  have hdiv : v * PGSIZE / PGSIZE = v := Nat.mul_div_cancel _ (by decide)
  refine Ends.bind (ends_walk (v * PGSIZE)) ?_
  rintro r _ ⟨rfl, rfl⟩
  rw [PDX_eq hva, hdiv]
  cases ht : entry s.mem pgdir (v / 1024) with
  | none => exact .panic (hE (.inl (lookup_of_none ht)) _)
  | some t =>
    have hread : s.word t (PTX (v * PGSIZE)) = word s.mem t (v % 1024) := by
      rw [PTX_eq, hdiv]
      rfl
    refine Ends.bind_read ?_
    rw [hread]
    set w := word s.mem t (v % 1024) with hwdef
    refine Ends.ite (fun hp => .panic (hE (.inl ?_) _)) fun hp => ?_
    · rw [lookup_of_entry ht, if_neg hp]
    have hp' : Present w := not_not.mp hp
    have hw : lookup s.mem pgdir v = some w := by rw [lookup_of_entry ht, if_pos hp']
    refine Ends.bind (ends_kalloc h) ?_
    rintro r s1 ⟨hsame1, hmem1, ⟨rfl, hshort, -, hgood1⟩ | ⟨x, rfl, hfree, hdrew1, hgood1⟩⟩
    · exact .ret ⟨⟨hsame1, fun _ _ _ _ => by rw [hmem1]⟩, fun _ _ => by rw [hmem1], by rintro ⟨⟩,
        fun _ => ⟨by rw [hmem1], .inl ⟨hshort, hgood1⟩⟩⟩
    have hfits : Direct v → lookup s.mem d v ≠ none := by
      intro hd
      obtain ⟨w', hw', -⟩ := hst.shut v hd (by omega)
      exact hw' ▸ Option.some_ne_none w'
    refine Ends.bind_modify ((ends_mapFresh (s1.mem (pteAddr w)) (pteFlags w) h hsame1
      hmem1 hfree hdrew1 hgood1 hdir (pteFlags_lt w) (Nat.mul_mod_left _ _) hva
      (by rwa [hdiv]) ?_).mono ?_)
    · rw [hdiv]
      intro hne
      by_cases hd : Direct v
      · exact hE (.inr hd) _
      · exact absurd (hst.empty v le_rfl hd) hne
    rw [PDX_eq hva, hdiv, hmem1, pteFlags_or hp']
    rintro ok s2 ⟨hapart2, ⟨rfl, hgood2, hview2, -, hshort, hnone⟩ |
      ⟨rfl, hgood2, hlinked, habsent, hself, hview2⟩⟩
    · -- The page that could not be mapped is lost.
      have hv' : v < 2 ^ 19 := hst.lt hv (lookup_of_none hnone)
      have hlost := hgood2.forget (x := x) List.mem_cons_self
      rw [List.erase_cons_head] at hlost
      exact ⟨hapart2, fun v' _ => hview2 v', by rintro ⟨⟩, fun _ => ⟨lookup_eq_of_view (hview2 v),
        .inr ⟨hshort, (hst.table_iff hv').mp hnone, x,
          (hgood2.all x).mpr ⟨.hand, List.mem_cons_self⟩, hlost⟩⟩⟩
    · have hv' : v < 2 ^ 19 := hst.lt hv habsent
      refine ⟨hapart2, hview2, fun _ => ⟨hv', hgood2, ⟨x, w, s.mem (pteAddr w),
        view_some (not_direct ?_) hw, hself⟩, hlinked.self, hlinked.other, hlinked.drew⟩,
        by rintro ⟨⟩⟩
      simp only [PGSIZE, KERNBASE]
      omega

/-- When memory runs out at a page table, a page is lost. -/
theorem ends_copyLoop {a' : Space} (hpar : b.dir a' = some pgdir) (ha : a' ≠ a) (s0 : State) (n : ℕ) (hv : v ≤ 2 ^ 19) (hfuel : 2 ^ 19 < v + n)
    (hdrew : Drew s0 s (copyCalls v)) (hdeny : s.deny = s0.deny)
    (hE : (∃ v, v * PGSIZE < sz ∧ (lookup s.mem pgdir v = none ∨ Direct v)) → ∀ e, E e) :
    Ends p E (copyLoop pgdir d sz n (v * PGSIZE)) s fun ok s' => Apart a b s s' ∧
      (ok = false ∧ (∃ U' k, Good U' s' b ∧ k ≤ copyCalls (sz / PGSIZE) + 1 ∧ FirstShort s0 k ∧
            (U' = U ↔ ¬ TableCall 1 sz k)) ∧
          (∀ v', KERNBASE ≤ v' * PGSIZE → ¬ Direct v' → lookup s'.mem d v' = none) ∨
        ok = true ∧ Good U s' b ∧
          (∃ v', sz ≤ v' * PGSIZE ∧ (v' = v ∨ v' ≤ sz / PGSIZE + 1) ∧ Drew s0 s' (copyCalls v')) ∧
          (∀ v', v ≤ v' → v' * PGSIZE < sz → Copied s.mem pgdir s'.mem d v') ∧
          ∀ v', ¬ (v ≤ v' ∧ v' * PGSIZE < sz) → view s'.mem d v' = view s.mem d v') := by
  have hsize : PGSIZE = 4096 := rfl
  have hkern : KERNBASE = 2 ^ 31 := rfl
  induction n generalizing s v with
  | zero => omega
  | succ n ih =>
    refine Ends.ite (fun hlt => ?_) fun hge => .ret ⟨.refl a b s, .inr ⟨rfl, h,
      ⟨v, Nat.le_of_not_lt hge, .inl rfl, hdrew⟩, fun v' h1 h2 => ?_, fun _ _ => rfl⟩⟩
    swap
    · rw [hsize] at h2 hge
      omega
    have hhigh : ∀ v', KERNBASE ≤ v' * PGSIZE → v ≤ v' := by
      intro v' hv'
      rw [hsize, hkern] at hv'
      omega
    have hcalls := copyCalls_mono (le_div_page hlt)
    refine Ends.bind (ends_copyPage h hdir hst hv fun hcon => hE ⟨v, hlt, hcon⟩) ?_
    rintro ok s1 ⟨hapart1, hpage⟩
    cases ok with
    | false =>
      obtain ⟨hsame, hcase⟩ := hpage.short rfl
      have hempty : ∀ v', KERNBASE ≤ v' * PGSIZE → ¬ Direct v' → lookup s1.mem d v' = none := by
        intro v' h1 h2
        rw [← hst.empty v' (hhigh v' h1) h2]
        by_cases hvv : v' = v
        · rw [hvv, hsame]
        · exact lookup_eq_of_view (hpage.other v' hvv)
      rcases hcase with ⟨hshort, hgood1⟩ | ⟨hshort, hv0, x, hx, hgood1⟩
      · refine .ret ⟨hapart1, .inl ⟨rfl, ⟨U, _, hgood1, ?_, hdrew.firstShort hdeny hshort,
          fun _ => ?_, fun _ => rfl⟩, hempty⟩⟩
        · omega
        · -- No call for a page has the number of a call for a table.
          rintro ⟨j, -, hj⟩
          have := copyCalls_mod v
          omega
      · refine .ret ⟨hapart1, .inl ⟨rfl, ⟨_, _, hgood1, by omega, hdrew.firstShort hdeny hshort,
          fun hU => ?_, fun hno => absurd ⟨v / 1024, ?_, ?_⟩ hno⟩, hempty⟩⟩
        · exact absurd rfl ((congrFun hU x).mpr hx).2
        · rw [table_base hv0]
          exact hlt
        · unfold copyCalls
          omega
    | true =>
      obtain ⟨hv', hgood1, hcopied1, hself, hentry, hdrew1⟩ := hpage.copied rfl
      have hnext : uadd (v * PGSIZE) PGSIZE = (v + 1) * PGSIZE := by
        unfold uadd
        rw [hsize]
        omega
      have hdrew2 : Drew s0 s1 (copyCalls (v + 1)) := by
        rw [← hst.calls hv']
        exact hdrew.trans hdeny hdrew1
      have hparent : ∀ v', view s1.mem pgdir v' = view s.mem pgdir v' := hapart1.view_eq ha hpar
      rw [if_pos rfl, hnext]
      refine (ih hgood1 (hst.succ hv' hself hentry hpage.other) hv' (by omega) hdrew2
        (hapart1.deny.trans hdeny) ?_).mono ?_
      · rintro ⟨v', h1, h2⟩
        rw [lookup_eq_of_view (hparent v')] at h2
        exact hE ⟨v', h1, h2⟩
      rintro ok s2 ⟨hapart2, ⟨rfl, hfailed⟩ | ⟨rfl, hgood2, ⟨v2, hend, hv2, hdrew3⟩, hcopied,
        hview⟩⟩
      · exact ⟨hapart1.trans (.refl a b) hapart2, .inl ⟨rfl, hfailed⟩⟩
      have hle := le_div_page hlt
      refine ⟨hapart1.trans (.refl a b) hapart2, .inr ⟨rfl, hgood2, ⟨v2, hend, .inr (by omega),
        hdrew3⟩, fun v' h1 h2 => ?_, fun v' hnot => ?_⟩⟩
      · by_cases hvv : v' = v
        · subst hvv
          obtain ⟨x, w, c, hw, hc⟩ := hcopied1
          exact ⟨x, w, c, hw, (hview v' (by omega)).trans hc⟩
        · obtain ⟨y, w, c, hw, hc⟩ := hcopied v' (by omega) h2
          exact ⟨y, w, c, (hparent v').symm.trans hw, hc⟩
      · rw [hview v' (by omega), hpage.other v']
        rintro rfl
        exact hnot ⟨le_rfl, hlt⟩

end

/-- A copy of an address space.  When memory runs out at a page table, a page is lost. -/
theorem ends_copyuvm {a' : Space} (hpar : b.dir a' = some pgdir) (h : Good U s b)
    (hnone : b.dir a = none)
    (hE : (∃ v, v * PGSIZE < sz ∧ (lookup s.mem pgdir v = none ∨ Direct v)) → ∀ e, E e) :
    Ends p E (copyuvm pgdir sz) s fun r s' => Apart a b s s' ∧
      (r = none ∧ (∃ U' k, Good U' s' b ∧ k ≤ 66 + copyCalls (sz / PGSIZE) ∧ FirstShort s k ∧
          (U' = U ↔ ¬ TableCall 66 sz k)) ∨
        ∃ d, r = some d ∧ Good U s' (b.setDir a (some d)) ∧
          (∃ k, k ≤ 65 + copyCalls (sz / PGSIZE + 1) ∧ (∀ i, TableCall 66 sz i → i < k) ∧
            Drew s s' k) ∧
          (∀ v, Direct v → v < 2 ^ 20 → ∃ w, lookup s'.mem d v = some w ∧ ¬ User w) ∧
          (∀ v, v * PGSIZE < sz → Copied s.mem pgdir s'.mem d v) ∧
          ∀ v, sz ≤ v * PGSIZE → ¬ Direct v → lookup s'.mem d v = none) := by
  have ha : a' ≠ a := by
    rintro rfl
    rw [hnone] at hpar
    cases hpar
  refine Ends.bind (ends_setupkvm h hnone) ?_
  rintro r s1 ⟨hapart1, ⟨rfl, hgood1, k, hk, hshort⟩ | ⟨d, rfl, -, hgood1, hdrew1, hfresh, -⟩⟩
  · refine .ret ⟨hapart1, .inl ⟨rfl, U, k, hgood1, by omega, hshort, fun _ => ?_, fun _ => rfl⟩⟩
    rintro ⟨j, -, hj⟩
    omega
  have hdir : (b.setDir a (some d)).dir a = some d := b.setDir_self _ _
  have hpar1 : (b.setDir a (some d)).dir a' = some pgdir := (b.setDir_of_ne _ ha).trans hpar
  have hparent : ∀ v, view s1.mem pgdir v = view s.mem pgdir v := hapart1.view_eq ha hpar
  have hE1 : (∃ v, v * PGSIZE < sz ∧ (lookup s1.mem pgdir v = none ∨ Direct v)) → ∀ e, E e := by
    rintro ⟨v, h1, h2⟩
    rw [lookup_eq_of_view (hparent v)] at h2
    exact hE ⟨v, h1, h2⟩
  have hloop := ends_copyLoop (p := p) hgood1 hdir hfresh.started hpar1 ha s1 (2 ^ 20 + 1)
    (by decide) (by decide) (.refl s1) rfl hE1
  rw [Nat.zero_mul] at hloop
  refine Ends.bind hloop ?_
  rintro ok s2 ⟨hapart2, ⟨rfl, ⟨U', k, hgood2, hk, hshort, hU⟩, hhigh⟩ |
    ⟨rfl, hgood2, ⟨v2, hend, hv2, hdrew2⟩, hcopied, hview⟩⟩
  · refine Ends.bind (ends_freevm hgood2 hdir) ?_
    rintro _ s3 ⟨hapart3, U'', hgood3, hU'⟩
    rw [setDir_back hnone, hU' hhigh] at hgood3
    exact .ret ⟨hapart1.trans (.setDir a b _) (hapart2.trans (.refl a _) hapart3),
      .inl ⟨rfl, U', 65 + k, hgood3, by omega, hdrew1.firstShort hapart1.deny hshort,
        hU.trans (not_congr tableCall_add.symm)⟩⟩
  · have hcalls : copyCalls v2 ≤ copyCalls (sz / PGSIZE + 1) :=
      copyCalls_mono (hv2.elim (fun h0 => h0 ▸ Nat.zero_le _) id)
    refine .ret ⟨hapart1.trans (.setDir a b _) hapart2, .inr ⟨d, rfl, hgood2,
      ⟨_, Nat.add_le_add_left hcalls 65, ?_, hdrew1.trans hapart1.deny hdrew2⟩,
      fun v hd hlt => ?_, fun v hv => ?_, fun v hv hd => ?_⟩⟩
    · rintro _ ⟨j, hj, rfl⟩
      unfold PGSIZE at hend
      unfold copyCalls
      omega
    · by_cases hv : v * PGSIZE < sz
      · obtain ⟨x, w, c, hw, -⟩ := hcopied v (Nat.zero_le _) hv
        exact absurd hd (view_eq_some.mp hw).1
      · rw [lookup_eq_of_view (hview v fun hcon => hv hcon.2)]
        exact hfresh.direct v hd hlt
    · obtain ⟨x, w, c, hw, hc⟩ := hcopied v (Nat.zero_le _) hv
      exact ⟨x, w, c, (hparent v).symm.trans hw, hc⟩
    · rw [lookup_eq_of_view (hview v fun hcon => absurd hcon.2 hv.not_gt)]
      exact hfresh.user v hd

end User

end Xv6.Vm
