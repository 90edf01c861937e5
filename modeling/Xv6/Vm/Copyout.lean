import Xv6.Vm.Runs

namespace Xv6.Vm
open Lib Prog Function

/-- The pages open to users in which the range of `n` bytes from `va` on lies. -/
def Touched (m : Mem) (d : Page) (va n v : ℕ) : Prop :=
  UserPage m d v ∧ ∃ x, va ≤ x ∧ x < va + n ∧ x / PGSIZE = v

section Copyout

variable {p : Pid} {E : String → Prop} {U : Page → Prop} {s : State} {b : Books} {a : Space}
  {d : Page} {va : ℕ} {src : List UInt8}

theorem Good.plain_touched (h : Good U s b) (hdir : b.dir a = some d) (hshut : Shut s.mem d)
    (n : ℕ) : Plain (Touched s.mem d va n) s.mem d :=
  (h.plain hdir).mono fun _ hv => hshut.not_direct hv.1

/-- `copyout` writes the bytes of the range and nothing else if they are all open to users, and
otherwise only bytes that are, without reading an entry that does not exist: this is so if and only
if there is a page table for each page of the range up to the first one that is closed to users. -/
theorem copyout_exact (h : Plain (Touched s.mem d va src.length) s.mem d) (hva : va < 2 ^ 32)
    (o : Empty → Option Pid) :
    (∃ ok t, (copyout p d va src).run p ⟨s, o⟩ = .done ok t ∧
      (copyoutTabled d va src).run p ⟨s, o⟩ = .done ok t ∧
      (ok = true ↔ Open s.mem d va src.length) ∧
      (ok = true → byte t.st.mem d = overlay (byte s.mem d) va (src.map some)) ∧
      (∀ x, byte t.st.mem d x ≠ byte s.mem d x →
        va ≤ x ∧ x < va + src.length ∧ UserPage s.mem d (x / PGSIZE)) ∧
      (∀ v, lookup t.st.mem d v = lookup s.mem d v) ∧
      ∀ y, t.st.mem y ≠ s.mem y →
        ∃ v w, ¬ Direct v ∧ lookup s.mem d v = some w ∧ pteAddr w = y) ↔
      Tabled s.mem d va src.length := by
  have hends := ends_copyoutWith (p := p) src.length le_rfl hva h
    (fun x h1 h2 hx => ⟨hx, x, h1, h2, rfl⟩) o
  constructor
  · -- Without a table, `copyoutTabled` stops.
    rintro ⟨ok, t, -, hrun, -⟩
    rcases hends with ⟨_, _, -, htab, -⟩ | ⟨m, hpanic, -⟩
    · exact htab
    · cases hrun.symm.trans hpanic
  intro htab
  obtain ⟨ok, t, hrun, -, ⟨k, hk, hwrote, hall, huser⟩, hiff⟩ :=
    hends.resolve_right fun ⟨_, _, hno⟩ => hno htab
  refine ⟨ok, t, run_copyout hrun, hrun, hiff, fun hok => ?_, fun x hx => ?_, hwrote.look,
    hwrote.pages⟩
  · rw [hwrote.bytes, hall hok, List.take_length]
  · have hlen : ((src.take k).map some).length = k := by
      rw [List.length_map, List.length_take_of_le hk]
    have hlow : va ≤ x := by
      by_contra hcon
      rw [hwrote.bytes, overlay_of_lt (by omega)] at hx
      exact hx rfl
    have hhigh : x < va + k := by
      by_contra hcon
      rw [hwrote.bytes, overlay_of_ge (by omega)] at hx
      exact hx rfl
    exact ⟨hlow, by omega, huser x hlow hhigh⟩

/-- Two bytes across the end of the only page that the first process has: the first one is written,
and there is a table for the second. -/
theorem copyout_exact_boot :
    ∃ s p d t, Booted p d [] s ∧
      (copyout p d (PGSIZE - 1) [7, 8]).run p ⟨s, fun _ => none⟩ = .done false t ∧
      ∀ x, byte t.st.mem d x ≠ byte s.mem d x → x = PGSIZE - 1 := by
  obtain ⟨t0, p, d, -, -, -, -, hbooted⟩ := boot_small (fun _ => false) fun _ _ => rfl
  obtain ⟨U, hbooked⟩ := hbooted.booked
  obtain ⟨y, hpage⟩ := hbooted.page
  obtain ⟨-, hlook, -⟩ := view_eq_some.mp hpage
  obtain ⟨pt, hentry, -⟩ := lookup_some hlook
  have hclosed : ¬ UserPage t0.st.mem d 1 := by
    rintro ⟨w, hw, -⟩
    rw [hbooted.rest 1 (by decide) (by decide)] at hw
    cases hw
  have htab : Tabled t0.st.mem d (PGSIZE - 1) ([7, 8] : List UInt8).length := by
    intro x h1 h2 _ _ hcon
    have htable : x / PGSIZE / 1024 = 0 / 1024 := by
      simp only [PGSIZE, List.length_cons, List.length_nil] at h1 h2 ⊢
      omega
    rw [htable, hentry] at hcon
    cases hcon
  obtain ⟨ok, t, hrun, -, hiff, -, hbytes, -⟩ :=
    (copyout_exact (p := p) (hbooked.good.plain_touched hbooted.dir
      (hbooked.shut _ d hbooted.dir) _) (by decide) fun _ => none).mpr htab
  obtain rfl : ok = false := by
    by_contra hok
    rw [Bool.not_eq_false] at hok
    exact hclosed ((hiff.mp hok).2 PGSIZE (by decide) (by decide))
  refine ⟨t0.st, p, d, t, hbooted, hrun, fun x hx => ?_⟩
  obtain ⟨h1, h2, huser⟩ := hbytes x hx
  by_contra hne
  have hnext : x / PGSIZE = 1 := by
    simp only [PGSIZE, List.length_cons, List.length_nil] at h1 h2 hne ⊢
    omega
  rw [hnext] at huser
  exact hclosed huser

end Copyout

section Stray

variable {p : Pid} {E : String → Prop} {s : State} {d c t : Page} {va w u : ℕ}

/-- The word at address 0 of the running process stands in for an entry of the absent table. -/
theorem ends_uva2ka_absent (hnone : entry s.mem d (PDX va) = none)
    (hpgdir : (s.proc p).pgdir = some c) (ht : entry s.mem c 0 = some t)
    (hu : word s.mem t 0 = u) (hp : Present u) (hw : word s.mem (pteAddr u) 0 = w) :
    Ends p E (uva2ka p d va) s fun r s' => s = s' ∧
      r = if Present w ∧ User w then some (pteAddr w) else none := by
  refine Ends.bind (ends_walk va) ?_
  rintro r _ ⟨rfl, rfl⟩
  rw [hnone]
  refine Ends.bind (Q := fun w' s' => s = s' ∧ w' = w) ?_ ?_
  · refine Ends.bind_read ?_
    rw [hpgdir]
    refine Ends.bind (ends_walk 0) ?_
    rintro r _ ⟨rfl, rfl⟩
    rw [show PDX 0 = 0 from rfl, ht]
    refine Ends.bind_read ?_
    rw [show s.word t (PTX 0) = u from hu]
    exact Ends.ite (fun _ => Ends.atomic rfl ⟨rfl, hw⟩) fun hno => absurd hp hno
  · rintro w' _ ⟨rfl, rfl⟩
    exact .ret ⟨rfl, rfl⟩

theorem ends_uva2ka_table (ht : entry s.mem d (PDX va) = some t)
    (hw : word s.mem t (PTX va) = w) :
    Ends p E (uva2ka p d va) s fun r s' => s = s' ∧
      r = if Present w ∧ User w then some (pteAddr w) else none := by
  refine Ends.bind (ends_walk va) ?_
  rintro r _ ⟨rfl, rfl⟩
  rw [ht]
  refine Ends.bind_read (.ret ⟨rfl, ?_⟩)
  rw [← hw]
  rfl

/-- What `exec` has built when it copies the first argument to a program of one page: in the
directory 1024, and of the kernel's part only the first page of the devices, the tables that
`copyout` looks at.  The process has the page 1028 at address 0, and the first word in it looks like
an entry for the page 1029. -/
def absentTable : State :=
  { State.empty smallLayout fun _ => false with
    mem := putWord (putWord (putWord (putWord (putWord (fun _ => fill 0) 1024 1016
      (1025 * PGSIZE + 3)) 1025 0 (DEVSPACE + 3)) 1026 0 (1027 * PGSIZE + 7)) 1027 0
      (1028 * PGSIZE + 7)) 1028 0 (1029 * PGSIZE + 5)
    proc := fun _ => ⟨.runnable, none, some 1026, 2 ^ 25 + 5 * PGSIZE, none, false, ⟨0, 0, 0⟩, []⟩ }

theorem entry_absentTable {x i : ℕ} (h : x = 1024 ∧ i ≠ 1016 ∨ x = 1025 ∧ i ≠ 0) :
    entry absentTable.mem x i = none := by
  have hne : ∀ y j : ℕ, y = 1024 ∧ j = 1016 ∨ y = 1025 ∧ j = 0 ∨ 1025 < y → x ≠ y ∨ i ≠ j := by
    omega
  unfold absentTable
  rw [entry_putWord_of_ne (hne _ _ (by decide)), entry_putWord_of_ne (hne _ _ (by decide)),
    entry_putWord_of_ne (hne _ _ (by decide)), entry_putWord_of_ne (hne _ _ (by decide)),
    entry_putWord_of_ne (hne _ _ (by decide))]
  exact entry_small x i

/-- The first page of a long string goes to the page 1029. -/
theorem ends_copyout_stray {src : List UInt8} (hlen : PGSIZE < src.length) :
    Ends initproc E (copyout initproc 1024 (DEVSPACE - PGSIZE) src) absentTable fun ok s' =>
      ok = false ∧ s' = absentTable.setPage 1029
        ((absentTable.mem 1029).put 0 (src.take PGSIZE)) := by
  obtain ⟨n, hn⟩ : ∃ n, src.length = n + 2 := ⟨src.length - 2, by unfold PGSIZE at hlen; omega⟩
  have hne : src ≠ [] := List.length_pos_iff.mp (by omega)
  have hrest : src.drop PGSIZE ≠ [] := List.length_pos_iff.mp (by rw [List.length_drop]; omega)
  have hdown : PGROUNDDOWN (DEVSPACE - PGSIZE) = DEVSPACE - PGSIZE := by decide
  have hmin : min (PGSIZE - (DEVSPACE - PGSIZE - (DEVSPACE - PGSIZE))) src.length = PGSIZE := by
    rw [Nat.sub_self, Nat.sub_zero]
    exact Nat.min_eq_left hlen.le
  unfold copyout
  rw [hn, copyoutLoop, if_neg hne]
  dsimp only
  rw [hdown, hmin, Nat.sub_self]
  refine Ends.bind (ends_uva2ka_absent (c := 1026) (t := 1027) (u := 1028 * PGSIZE + 7)
    (w := 1029 * PGSIZE + 5) (entry_absentTable (.inl ⟨rfl, by decide⟩)) rfl (by decide) (by decide)
    (by decide) (by decide)) ?_
  rintro r _ ⟨rfl, rfl⟩
  rw [if_pos (by decide)]
  refine Ends.bind_modify ?_
  rw [show uadd (DEVSPACE - PGSIZE) PGSIZE = DEVSPACE by decide, copyoutLoop, if_neg hrest]
  -- The next page is the first one of the devices, which is closed to users.
  refine Ends.bind (ends_uva2ka_table (t := 1025) (w := DEVSPACE + 3) ?_ ?_) ?_
  · rw [if_pos (by decide)]
    exact (entry_update_of_ne (by decide)).trans (by decide)
  · rw [if_pos (by decide)]
    exact (word_update_of_ne (by decide)).trans (by decide)
  · rintro r _ ⟨rfl, rfl⟩
    exact .ret ⟨rfl, rfl⟩

/-- `exec` with a string of 2^25 + 4 * 4096 bytes.  The stack pointer wraps around to a page
without a table; `copyout` fails, but not before it has written to a page that the address space
does not have. -/
theorem copyout_absent_table :
    usub (3 * PGSIZE) (2 ^ 25 + 4 * PGSIZE) / 4 * 4 = DEVSPACE - PGSIZE ∧
      (∀ v w, lookup absentTable.mem 1024 v = some w → pteAddr w ≠ 1029) ∧
      (absentTable.mem 1029).get 0 = 0 ∧
      ∃ t, (copyout initproc 1024 (DEVSPACE - PGSIZE)
          (List.replicate (2 ^ 25 + 4 * PGSIZE - 1) 1 ++ [0])).run initproc
            ⟨absentTable, fun _ => none⟩ = .done false t ∧
        (t.st.mem 1029).get 0 = 1 := by
  generalize hn : 2 ^ 25 + 4 * PGSIZE - 1 = n
  have hlong : PGSIZE ≤ n := by
    unfold PGSIZE at hn ⊢
    omega
  refine ⟨by decide, fun v w hw heq => ?_, by decide, ?_⟩
  · obtain ⟨t, ht, hword, hp⟩ := lookup_some hw
    by_cases hv : v / 1024 = 1016
    · obtain rfl : 1025 = t := by
        rw [hv] at ht
        exact Option.some.inj ((by decide : some 1025 = entry absentTable.mem 1024 1016).trans ht)
      by_cases hj : v % 1024 = 0
      · rw [hj] at hword
        rw [← hword] at heq
        exact absurd heq (by decide)
      · have hsome := entry_of_present (m := absentTable.mem) (x := 1025) (hword.symm ▸ hp)
        rw [entry_absentTable (.inr ⟨rfl, hj⟩)] at hsome
        cases hsome
    · rw [entry_absentTable (.inl ⟨rfl, hv⟩)] at ht
      cases ht
  · have hends : Ends initproc (fun _ => False) (copyout initproc 1024 (DEVSPACE - PGSIZE)
        (List.replicate n 1 ++ [0])) absentTable _ := ends_copyout_stray (by simp; omega)
    obtain ⟨_, t, hrun, rfl, hst⟩ := hends.run fun _ => none
    refine ⟨t, hrun, ?_⟩
    have hpage : (List.replicate n 1 ++ [0] : List UInt8).take PGSIZE = List.replicate PGSIZE 1 := by
      rw [List.take_append_of_le_length (by simpa using hlong), List.take_replicate,
        Nat.min_eq_left hlong]
    have hself : ∀ c, (absentTable.setPage 1029 c).mem 1029 = c := by
      intro c
      show update absentTable.mem 1029 c 1029 = c
      rw [update_self]
    rw [hst, hpage, hself, Bytes.get_put_of_mem _ _ (by decide) le_rfl
      (by rw [List.length_replicate]; decide), Nat.sub_self, List.getD_replicate _ (by decide)]

end Stray

end Xv6.Vm
