import Xv6.Lib.Pair
import Xv6.Vm.Runs

namespace Xv6.Vm
open Lib Prog

/-- `fork` with both halves of the kernel's state, memory and files. -/
def sysFork (p : Pid) : Prog (State × Fs) Slot (Option Pid) := do
  let np ← (forkMemory p).onFst
  match np with
  | none => return none
  | some np => do
    let _ ← (Xv6.fork p np).onSnd
    (forkDone p np).onFst
    return some np

variable {p : Pid} {U : Page → Prop} {s : State} {b : Books} {d : Page} {E : String → Prop}

section Pages

variable {a : Space} {sz : ℕ}

theorem Good.not_full (h : Good U s b) (hdir : b.dir a = some d) :
    ∃ v, v * PGSIZE < KERNBASE ∧ lookup s.mem d v = none := by
  by_contra hcon
  have hall : ∀ v ∈ Finset.range (2 ^ 19), ∃ w, lookup s.mem d v = some w := by
    intro v hv
    refine Option.ne_none_iff_exists'.mp fun hnone => hcon ⟨v, ?_, hnone⟩
    have hlt := Finset.mem_range.mp hv
    simp only [PGSIZE, KERNBASE]
    omega
  choose! w hw using hall
  have hlow : ∀ v ∈ Finset.range (2 ^ 19), ¬ Direct v := by
    intro v hv
    apply not_direct
    have hlt := Finset.mem_range.mp hv
    simp only [PGSIZE, KERNBASE]
    omega
  have hholds : ∀ v ∈ Finset.range (2 ^ 19),
      Holds s.mem s.freelist b (.user a v) (pteAddr (w v)) :=
    fun v hv => holds_user hdir (hlow v hv) (hw v hv)
  -- The pages of different addresses are different, and all are below `PHYSTOP`.
  have hcard := Finset.card_le_card_of_injOn (s := Finset.range (2 ^ 19))
    (t := Finset.range (PHYSTOP / PGSIZE)) (fun v => pteAddr (w v)) ?_ ?_
  · rw [Finset.card_range, Finset.card_range] at hcard
    exact absurd hcard (by decide)
  · intro v hv
    have := (h.usable _ _ (hholds v hv)).2
    rw [Finset.coe_range, Set.mem_Iio, Nat.lt_iff_add_one_le, Nat.le_div_iff_mul_le (by decide),
      Nat.succ_mul]
    have hstop : PHYSTOP = 57344 * PGSIZE := rfl
    rw [hstop] at this ⊢
    have := Nat.lt_of_mul_lt_mul_right this
    rw [← Nat.succ_mul]
    exact Nat.mul_le_mul_right _ this
  · intro v hv v' hv' heq
    have heq' : pteAddr (w v) = pteAddr (w v') := heq
    have := h.excl _ _ _ (hholds v hv) (heq' ▸ hholds v' hv')
    exact (Role.user.inj this).2

/-- If all pages up to the size are present, the size is not larger than what is below the
kernel. -/
theorem Good.no_panic (h : Good U s b) (hdir : b.dir a = some d)
    (hall : ∀ va, va < sz → lookup s.mem d (va / PGSIZE) ≠ none) :
    ¬ ∃ v, v * PGSIZE < sz ∧ (lookup s.mem d v = none ∨ Direct v) := by
  rintro ⟨v, hv, hcase⟩
  have hback : ∀ v, v * PGSIZE / PGSIZE = v := fun v => Nat.mul_div_cancel _ (by decide)
  rcases hcase with hnone | hd
  · exact hall _ hv (by rw [hback]; exact hnone)
  · obtain ⟨v', hv', hnone⟩ := h.not_full hdir
    refine hall (v' * PGSIZE) ?_ (by rw [hback]; exact hnone)
    rcases hd with ⟨hge, -⟩ | hge
    · omega
    · have : KERNBASE ≤ DEVSPACE := by decide
      omega

end Pages

section Failure

variable (h : Booked U s) (hp : (s.proc p).state ≠ .unused) (hpgdir : (s.proc p).pgdir = some d)
  (hall : ∀ va, va < (s.proc p).sz → lookup s.mem d (va / PGSIZE) ≠ none)
include h hp hpgdir hall

theorem copyuvm_keeps_iff :
    (Ends p (fun _ => False) (copyuvm d (s.proc p).sz) s fun r s' =>
      r = none → ∀ x, x ∈ s'.freelist ↔ x ∈ s.freelist) ↔
      ¬ ∃ j, j * 2 ^ 22 < (s.proc p).sz ∧ FirstShort s (66 + 1025 * j) := by
  have hdir : s.books.dir (.proc p) = some d := (books_proc hp).trans hpgdir
  have hends := ends_copyuvm (p := p) (E := fun _ => False) (a := .new) hdir h.good rfl
    fun hcon => absurd hcon (h.good.no_panic hdir hall)
  constructor
  · rintro hkeeps ⟨j, hj, hfirst⟩
    obtain ⟨r, t, hrun, hapart, hcase⟩ := hends.run fun _ => none
    obtain ⟨r', t', hrun', hkept⟩ := hkeeps.run fun _ => none
    cases hrun.symm.trans hrun'
    rcases hcase with ⟨rfl, U', k, hgood, -, hshort, hU⟩ | ⟨d', rfl, -, ⟨k, -, htables, hdrew⟩, -⟩
    · obtain rfl := hfirst.unique hshort
      exact hU.mp ((hapart.freelist_iff h.good hgood rfl).mp (hkept rfl)) ⟨j, hj, rfl⟩
    · exact hdrew.not_firstShort (htables _ ⟨j, hj, rfl⟩) hfirst
  · intro hno
    refine hends.mono ?_
    rintro r s' ⟨hapart, ⟨-, U', k, hgood, -, hshort, hU⟩ | ⟨d', rfl, -⟩⟩
    · refine fun _ => (hapart.freelist_iff h.good hgood rfl).mpr (hU.mpr ?_)
      rintro ⟨j, hj, rfl⟩
      exact hno ⟨j, hj, hshort⟩
    · rintro ⟨⟩

theorem ends_forkMemory_keeps :
    Ends p E (forkMemory p) s fun r s' =>
      (r = none → ∀ q, (s'.proc q).state = (s.proc q).state) ∧
      ((r = none → ∀ x, x ∈ s'.freelist ↔ x ∈ s.freelist) ↔
        (∀ q, (s.proc q).state ≠ .unused) ∨
          ¬ ∃ j, j * 2 ^ 22 < (s.proc p).sz ∧ FirstShort s (67 + 1025 * j)) := by
  have hdir : s.books.dir (.proc p) = some d := (books_proc hp).trans hpgdir
  refine (ends_forkMemory h hp hpgdir fun hcon => absurd hcon (h.good.no_panic hdir hall)).mono ?_
  rintro r s' (⟨rfl, hstate, -, ⟨hfull, hkept⟩ | ⟨⟨q, hq⟩, k, -, hshort, hkept⟩⟩ |
    ⟨np, x, d', rfl, -, -, -, ⟨k, -, htables, hdrew⟩, -⟩)
  · exact ⟨fun _ => hstate, fun _ => .inl hfull, fun _ _ => hkept⟩
  · refine ⟨fun _ => hstate, fun hkeeps => .inr ?_, fun hcase _ => hkept.mpr ?_⟩
    · rintro ⟨j, hj, hfirst⟩
      obtain rfl := hfirst.unique hshort
      exact hkept.mp (hkeeps rfl) ⟨j, hj, rfl⟩
    · rintro ⟨j, hj, rfl⟩
      exact hcase.elim (fun hfull => hfull q hq) fun hno => hno ⟨j, hj, hshort⟩
  · refine ⟨by rintro ⟨⟩, fun _ => .inr ?_, by rintro - ⟨⟩⟩
    rintro ⟨j, hj, hfirst⟩
    exact hdrew.not_firstShort (htables _ ⟨j, hj, rfl⟩) hfirst

/-- A failed `copyuvm` leaves the same pages free if and only if memory does not run out where the
copy needs a page table; a failed `fork` also if no slot is free. -/
theorem failed_fork_leaks_nothing :
    ((Ends p (fun _ => False) (copyuvm d (s.proc p).sz) s fun r s' =>
        r = none → ∀ x, x ∈ s'.freelist ↔ x ∈ s.freelist) ↔
      ¬ ∃ j, j * 2 ^ 22 < (s.proc p).sz ∧ FirstShort s (66 + 1025 * j)) ∧
    ∀ fs, (∀ o t, (sysFork p).run p ⟨(s, fs), o⟩ = .done none t →
        (∀ x, x ∈ t.st.1.freelist ↔ x ∈ s.freelist) ∧
        (∀ q, (t.st.1.proc q).state = .unused ↔ (s.proc q).state = .unused) ∧ t.st.2 = fs) ↔
      (∀ q, (s.proc q).state ≠ .unused) ∨
        ¬ ∃ j, j * 2 ^ 22 < (s.proc p).sz ∧ FirstShort s (67 + 1025 * j) := by
  refine ⟨copyuvm_keeps_iff h hp hpgdir hall, fun fs => ⟨fun hkeeps => ?_, fun hcase o t hrun => ?_⟩⟩
  · have hends : Ends p (fun _ => False) ((forkMemory p).onFst : Prog (State × Fs) Slot _) (s, fs) _ :=
      (ends_forkMemory_keeps h hp hpgdir hall).onFst
    obtain ⟨r, t, hrun, ⟨-, hiff⟩, -⟩ := hends.run fun _ => none
    refine hiff.mp fun hr => (hkeeps (fun _ => none) t ?_).1
    subst hr
    unfold sysFork
    rw [bind_eq, run_bind, hrun]
    rfl
  · have hdoes : Does p (fun _ => True) (sysFork p) (s, fs) fun r st => r = none →
        (∀ x, x ∈ st.1.freelist ↔ x ∈ s.freelist) ∧
        (∀ q, (st.1.proc q).state = .unused ↔ (s.proc q).state = .unused) ∧ st.2 = fs := by
      refine Does.bind (ends_forkMemory_keeps h hp hpgdir hall).onFst.does ?_
      rintro r st ⟨⟨hstate, hiff⟩, hfs⟩
      cases r with
      | none => exact .ret fun _ => ⟨hiff.mpr hcase rfl, fun q => by rw [hstate rfl q], hfs⟩
      | some np =>
        refine Does.bind Does.any fun _ _ _ => Does.bind Does.any fun _ _ _ => .ret ?_
        rintro ⟨⟩
    exact hdoes.run hrun rfl

end Failure

section Booted

theorem Booted.all (h : Booted p d [] s) :
    ∀ va, va < (s.proc p).sz → lookup s.mem d (va / PGSIZE) ≠ none := by
  intro va hva
  rw [h.size] at hva
  obtain ⟨x, hx⟩ := h.page
  rw [Nat.div_eq_of_lt hva, (view_eq_some.mp hx).2.1]
  exact Option.some_ne_none _

theorem exists_other (p : Pid) : ∃ q : Pid, q ≠ p := by
  by_cases hp : p = initproc
  · exact ⟨⟨1, by decide⟩, fun hcon => by rw [hp] at hcon; cases hcon⟩
  · exact ⟨initproc, Ne.symm hp⟩

end Booted

/-- All calls of `kalloc` but the eighth succeed, so there is no copy. -/
theorem failed_fork_leaks_nothing_boot :
    ∃ s p d t, Booted p d [] s ∧ FirstShort s 7 ∧
      (copyuvm d (s.proc p).sz).run p ⟨s, fun _ => none⟩ = .done none t ∧
      ∀ x, x ∈ t.st.freelist ↔ x ∈ s.freelist := by
  obtain ⟨t0, p, d, -, hdeny, hcalls, hlen, hbooted⟩ := boot_small (fun k => decide (k = 140))
    fun k hk => decide_eq_false (by omega)
  obtain ⟨U, hbooked⟩ := hbooted.booked
  have hshort : ∀ n, FirstShort t0.st n → n = 7 ∨ n = 56953 := by
    intro n hn
    rcases hn.fails with hd | hl
    · rw [hdeny, hcalls] at hd
      have := of_decide_eq_true hd
      omega
    · omega
  have hseven : FirstShort t0.st 7 := by
    refine ⟨fun k hk => ?_, by omega, .inl ?_⟩
    · rw [hdeny, hcalls]
      exact decide_eq_false (by omega)
    · rw [hdeny, hcalls]
      rfl
  have hends := (failed_fork_leaks_nothing hbooked hbooted.live hbooted.pgdir hbooted.all).1.mpr ?_
  · obtain ⟨r, t, hrun, hr⟩ := hends.run fun _ => none
    have hcopy : Ends p (fun _ => False) (copyuvm d (t0.st.proc p).sz) t0.st _ :=
      ends_copyuvm (a := .new) hbooted.dir hbooked.good rfl
        fun hcon => absurd hcon (hbooked.good.no_panic hbooted.dir hbooted.all)
    obtain ⟨r', t', hrun', -, hcase⟩ := hcopy.run fun _ => none
    cases hrun.symm.trans hrun'
    rcases hcase with ⟨rfl, -⟩ | ⟨d', rfl, -, ⟨k, -, htables, hdrew⟩, -⟩
    · exact ⟨t0.st, p, d, t, hbooted, hseven, hrun, hr rfl⟩
    · have := htables 66 ⟨0, by rw [hbooted.size]; decide, rfl⟩
      exact absurd hseven (hdrew.not_firstShort (by omega))
  · rintro ⟨j, hj, hcon⟩
    rw [hbooted.size, show PGSIZE = 4096 from rfl] at hj
    have := hshort _ hcon
    omega

/-- The 67th call of `kalloc`, which is for the first page table of the copy, fails. -/
theorem copyuvm_loses_page :
    ∃ s p d t, Reached (fun _ _ => True) s ∧ (s.proc p).state = .runnable ∧
      (s.proc p).pgdir = some d ∧
      (∀ va, va < (s.proc p).sz → lookup s.mem d (va / PGSIZE) ≠ none) ∧
      (copyuvm d (s.proc p).sz).run p ⟨s, fun _ => none⟩ = .done none t ∧
      ¬ ∀ x, x ∈ t.st.freelist ↔ x ∈ s.freelist := by
  obtain ⟨t0, p, d, hboot, hdeny, hcalls, hlen, hbooted⟩ :=
    boot_small (fun k => decide (k = 199)) fun k hk => decide_eq_false (by omega)
  obtain ⟨U, hbooked⟩ := hbooted.booked
  have hshort : FirstShort t0.st 66 := by
    refine ⟨fun k hk => ?_, by omega, .inl ?_⟩
    · rw [hdeny, hcalls]
      exact decide_eq_false (by omega)
    · rw [hdeny, hcalls]
      rfl
  have htable : TableCall 66 (t0.st.proc p).sz 66 := ⟨0, by rw [hbooted.size]; decide, rfl⟩
  have hends : Ends p (fun _ => False) (copyuvm d (t0.st.proc p).sz) t0.st _ :=
    ends_copyuvm (a := .new) hbooted.dir hbooked.good rfl
      fun hcon => absurd hcon (hbooked.good.no_panic hbooted.dir hbooted.all)
  obtain ⟨r, t, hrun, hapart, hcase⟩ := hends.run fun _ => none
  rcases hcase with ⟨rfl, U', k, hgood, -, hfirst, hU⟩ | ⟨d', rfl, -, ⟨k, -, htables, hdrew⟩, -⟩
  · obtain rfl := hshort.unique hfirst
    exact ⟨t0.st, p, d, t, .boot hboot, hbooted.state, hbooted.pgdir, hbooted.all, hrun,
      fun hkept => hU.mp ((hapart.freelist_iff hbooked.good hgood rfl).mp hkept) htable⟩
  · exact absurd hshort (hdrew.not_firstShort (htables 66 htable))

section Copies

variable {q : Pid}

theorem pteFlags_mk (x w : ℕ) : pteFlags (x * PGSIZE + pteFlags w) = pteFlags w := by
  unfold pteFlags
  rw [Nat.mul_add_mod', Nat.mod_mod]

theorem Copied.byte {m m' : Mem} {pgdir : Page} {va : ℕ} (h : Copied m pgdir m' d (va / PGSIZE)) :
    (∃ c, byte m pgdir va = some c ∧ Vm.byte m' d va = some c) ∧
      (lookup m' d (va / PGSIZE)).map pteFlags = (lookup m pgdir (va / PGSIZE)).map pteFlags := by
  obtain ⟨x, w, c, hw, hc⟩ := h
  constructor
  · unfold Vm.byte
    rw [hw, hc]
    exact ⟨_, rfl, rfl⟩
  · rw [lookup_eq_view, hc, lookup_eq_view, hw]
    exact congrArg some (pteFlags_mk x w)

theorem ends_store_other {q' : Pid} (h : Booked U s) (hne : q ≠ q')
    (hq : (s.proc q).state ≠ .unused) (hq' : (s.proc q').state ≠ .unused)
    (hpgdir : (s.proc q').pgdir = some d) (va : ℕ) (c : UInt8) :
    Ends q E (store q va c) s fun _ s' => ∀ x, byte s'.mem d x = byte s.mem d x := by
  obtain ⟨dq, hdq, hdirq, -⟩ := h.dir hq
  refine (ends_store h hq hdq va c).mono ?_
  rintro _ s' ⟨-, -, ⟨-, hwrote⟩ | ⟨-, rfl⟩⟩
  · have hdir : s.books.dir (.proc q') = some d := (books_proc hq').trans hpgdir
    intro x
    refine byte_congr ((h.good.of_wrote hdirq hwrote).2.view_eq ?_ hdir _)
    rintro ⟨⟩
    exact hne rfl
  · exact fun _ => rfl

/-- A child reads what its parent has read, with the same flags, and what one process stores does
not change what another one reads. -/
theorem fork_duplicates (h : Reached (fun _ op => op.Short) s)
    (hrun : (s.proc p).state = .runnable) (hpgdir : (s.proc p).pgdir = some d)
    (hall : ∀ va, va < (s.proc p).sz → lookup s.mem d (va / PGSIZE) ≠ none) :
    (Ends p (fun _ => False) (fork p) s fun r s' => ∀ np, r = some np → np ≠ p ∧
      (s'.proc p).pgdir = some d ∧ (s'.proc np).sz = (s.proc p).sz ∧
      ∃ d', (s'.proc np).pgdir = some d' ∧ ∀ va, va < (s.proc p).sz →
        byte s'.mem d va = byte s.mem d va ∧
        (∃ c, byte s.mem d va = some c ∧ byte s'.mem d' va = some c) ∧
        (lookup s'.mem d' (va / PGSIZE)).map pteFlags =
          (lookup s.mem d (va / PGSIZE)).map pteFlags) ∧
    ∀ s₁, Reached (fun _ op => op.Short) s₁ → ∀ q q' d₁, q ≠ q' →
      (s₁.proc q).state = .runnable → (s₁.proc q').state ≠ .unused →
      (s₁.proc q').pgdir = some d₁ → ∀ va c,
        Ends q (fun _ => False) (store q va c) s₁ fun _ s₂ =>
          ∀ x, byte s₂.mem d₁ x = byte s₁.mem d₁ x := by
  obtain ⟨U, hbooked⟩ := h.booked fun _ _ => id
  have hlive : ∀ {s : State} {p : Pid}, (s.proc p).state = .runnable → (s.proc p).state ≠ .unused := by
    intro s p hr
    rw [hr]
    rintro ⟨⟩
  have hp := hlive hrun
  have hdir : s.books.dir (.proc p) = some d := (books_proc hp).trans hpgdir
  constructor
  · refine (ends_fork hbooked hp hpgdir fun hcon =>
      absurd hcon (hbooked.good.no_panic hdir hall)).mono ?_
    rintro r s' ⟨-, -, hres⟩ np hr
    obtain ⟨x, d', hunused, hforked, hproc, -⟩ := hres np hr
    have hne : np ≠ p := by
      rintro rfl
      exact hp hunused
    have hself : s'.proc np = { s.child p np x d' with
        name := (s.proc p).name
        state := .runnable } := by
      rw [hproc, Function.update_self]
    refine ⟨hne, ?_, by rw [hself]; rfl, d', by rw [hself]; rfl, fun va hva => ?_⟩
    · rw [hproc, Function.update_of_ne hne.symm]
      exact hpgdir
    · have hv : va / PGSIZE * PGSIZE < (s.proc p).sz := (Nat.div_mul_le_self _ _).trans_lt hva
      obtain ⟨hbyte, hflags⟩ := (hforked.copied _ hv).byte
      exact ⟨byte_congr (hforked.other _ d hdir _), hbyte, hflags⟩
  · intro s₁ h₁ q q' d₁ hne hq hq' hd₁ va c
    obtain ⟨U₁, hbooked₁⟩ := h₁.booked fun _ _ => id
    exact ends_store_other hbooked₁ hne (hlive hq) hq' hd₁ va c

end Copies

/-- The first process forks right after boot. -/
theorem fork_duplicates_boot :
    ∃ s p d np d' t, Booted p d [] s ∧ (fork p).run p ⟨s, fun _ => none⟩ = .done (some np) t ∧
      np ≠ p ∧ (t.st.proc np).pgdir = some d' ∧
      ∃ c, byte s.mem d 0 = some c ∧ byte t.st.mem d' 0 = some c := by
  obtain ⟨t0, p, d, hboot, hdeny, -, hlen, hbooted⟩ := boot_small (fun _ => false) fun _ _ => rfl
  obtain ⟨U, hbooked⟩ := hbooted.booked
  obtain ⟨r, t, hrun, hres⟩ :=
    (fork_duplicates (.boot hboot) hbooted.state hbooted.pgdir hbooted.all).1.run fun _ => none
  have hends : Ends p (fun _ => False) (fork p) t0.st _ := ends_fork hbooked hbooted.live
    hbooted.pgdir fun hcon => absurd hcon (hbooked.good.no_panic hbooted.dir hbooted.all)
  obtain ⟨r', t', hrun', -, hnone, -⟩ := hends.run fun _ => none
  cases hrun.symm.trans hrun'
  cases r with
  | none =>
    exfalso
    rcases hnone rfl with hfull | ⟨k, hk, hshort⟩
    · obtain ⟨q, hq⟩ := exists_other p
      exact hfull q (hbooted.idle q hq)
    · rw [hbooted.size, show copyCalls (PGSIZE / PGSIZE) = 2 from rfl] at hk
      exact hshort.absurd (fun k => by rw [hdeny]) (by omega)
  | some np =>
    obtain ⟨hne, -, -, d', hd', hbytes⟩ := hres np rfl
    obtain ⟨-, hbyte, -⟩ := hbytes 0 (by rw [hbooted.size]; decide)
    exact ⟨t0.st, p, d, np, d', t, hbooted, hrun, hne, hd', hbyte⟩

/-- A process that has grown by a page and has not used it cannot fork. -/
theorem fork_panics_lazy :
    ∃ s p m, Reached (fun _ _ => True) s ∧ (s.proc p).state = .runnable ∧
      (fork p).run p ⟨s, fun _ => none⟩ = .panic m := by
  obtain ⟨t0, p, d, hboot, hdeny, hcalls, hlen, hbooted⟩ :=
    boot_small (fun _ => false) fun _ _ => rfl
  obtain ⟨U, hbooked0⟩ := hbooted.booked
  -- `sbrk(4096)`
  set s := t0.st.setProc p { t0.st.proc p with sz := grown (t0.st.proc p).sz 4096 } with hs
  have hself : s.proc p = { t0.st.proc p with sz := grown (t0.st.proc p).sz 4096 } :=
    State.setProc_self _ _ _
  have hrun : (s.proc p).state = .runnable := by
    rw [hself]
    exact hbooted.state
  have hpgdir : (s.proc p).pgdir = some d := by
    rw [hself]
    exact hbooted.pgdir
  have hsz : (s.proc p).sz = 8192 := by
    rw [hself]
    show grown (t0.st.proc p).sz 4096 = 8192
    rw [hbooted.size]
    decide
  have hstep : (Op.sbrk p (some 4096)).prog.run (Op.sbrk p (some 4096)).pid
      ⟨t0.st, fun _ => none⟩ = .done () ⟨s, fun _ => none⟩ := rfl
  have hen : (Op.sbrk p (some 4096)).Enabled t0.st := ⟨hbooted.state, trivial⟩
  have hreached : Reached (fun _ _ => True) s := .step (.boot hboot) hen trivial hstep
  have hbooked : Booked U s :=
    hbooked0.setProc Iff.rfl rfl rfl (grown_lt (t0.st.proc p).sz 4096)
  have hlive : (s.proc p).state ≠ .unused := by
    rw [hrun]
    rintro ⟨⟩
  rcases ends_fork hbooked hlive hpgdir (E := fun _ => True) (fun _ _ => trivial) fun _ => none with
    ⟨r, t, -, -, hnone, hsome⟩ | ⟨m, hm, -⟩
  · exfalso
    cases r with
    | none =>
      rcases hnone rfl with hfull | ⟨k, hk, hshort⟩
      · obtain ⟨q, hq⟩ := exists_other p
        refine hfull q ?_
        rw [hs, State.setProc_of_ne _ _ _ _ hq]
        exact hbooted.idle q hq
      · rw [hsz] at hk
        have hcopy : copyCalls (8192 / PGSIZE) = 3 := by decide
        refine hshort.absurd (fun k => ?_) ?_
        · show t0.st.deny k = false
          rw [hdeny]
        · show k < t0.st.freelist.length
          omega
    | some np =>
      obtain ⟨x, d', -, hforked, -⟩ := hsome np rfl
      obtain ⟨y, w, c, hw, -⟩ := hforked.copied 1 (by rw [hsz]; decide)
      have hnone : lookup s.mem d 1 = none :=
        hbooted.rest 1 (by decide) (not_direct (by decide))
      rw [view_none.mpr hnone] at hw
      cases hw
  · exact ⟨s, p, m, hreached, hrun, hm⟩

end Xv6.Vm
