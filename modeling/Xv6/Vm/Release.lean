import Xv6.Vm.Ranges
import Xv6.Vm.Runs

namespace Xv6.Vm
open Lib Prog Function

def frames (m : Mem) (d : Page) (v n : ℕ) : List Page :=
  (List.range' v n).filterMap fun u => (lookup m d u).map pteAddr

/-- The tables and the user pages are distinct pages from `kalloc`. -/
structure Owned (s : State) (d : Page) : Prop extends TwoLevel (entry s.mem d) s.freelist d where
  usable : s.layout.Usable d
  table : ∀ i t, entry s.mem d i = some t → s.layout.Usable t
  page : ∀ v < 2 ^ 19, ∀ w, lookup s.mem d v = some w → s.layout.Usable (pteAddr w) ∧
    pteAddr w ≠ d ∧ pteAddr w ∉ s.freelist ∧ ∀ i, entry s.mem d i ≠ some (pteAddr w)
  once : ∀ u < 2 ^ 19, ∀ v < 2 ^ 19, ∀ w w', lookup s.mem d u = some w →
    lookup s.mem d v = some w' → pteAddr w = pteAddr w' → u = v

/-- The rounds of `deallocuvm` for `n` pages from `v` on. -/
def State.wipes (s : State) (d : Page) (v : ℕ) : ℕ → State
  | 0 => s
  | n + 1 => (s.wipes d v n).wipe d (v + n)

/-- The present pages among `n` from `v` on have been freed and their entries cleared. -/
structure Wiped (d : Page) (v n : ℕ) (s s' : State) : Prop where
  layout : s'.layout = s.layout
  tables : entry s'.mem d = entry s.mem d
  freelist : s'.freelist = (frames s.mem d v n).reverse ++ s.freelist
  ptes : ∀ u t, entry s.mem d (u / 1024) = some t → word s'.mem t (u % 1024) =
    if v ≤ u ∧ u < v + n ∧ Present (word s.mem t (u % 1024)) then 0 else word s.mem t (u % 1024)

section Dealloc

variable {p : Pid} {E : String → Prop} {s s' : State} {d : Page} {n u v : ℕ}

theorem Wiped.lookup_eq (h : Wiped d v n s s') (u : ℕ) :
    lookup s'.mem d u = if v ≤ u ∧ u < v + n then none else lookup s.mem d u := by
  cases ht : entry s.mem d (u / 1024) with
  | none => rw [lookup_of_none ht, lookup_of_none ((congrFun h.tables _).trans ht), ite_self]
  | some t =>
    rw [lookup_of_entry ((congrFun h.tables _).trans ht), h.ptes u t ht, lookup_of_entry ht]
    have hzero : ¬ Present 0 := by decide
    by_cases hp : Present (word s.mem t (u % 1024))
    · by_cases hu : v ≤ u ∧ u < v + n
      · simp [hp, hu, hzero]
      · simp [hp, hu]
    · simp [hp]

theorem frames_succ (m : Mem) (d : Page) (v n : ℕ) :
    frames m d v (n + 1) = frames m d v n ++ ((lookup m d (v + n)).map pteAddr).toList := by
  unfold frames
  rw [List.range'_concat, List.filterMap_append, Nat.one_mul]
  cases h : lookup m d (v + n) <;> simp [h]

theorem Owned.wipe (h : Owned s d) (hn : v + n < 2 ^ 19) (hw : Wiped d v n s s') :
    Wiped d v (n + 1) s (s'.wipe d (v + n)) := by
  have hsame : lookup s'.mem d (v + n) = lookup s.mem d (v + n) := by
    rw [hw.lookup_eq, if_neg (by omega)]
  cases hlook : lookup s.mem d (v + n) with
  | none =>
    rw [State.wipe_of_none (hsame.trans hlook)]
    refine ⟨hw.layout, hw.tables, ?_, fun u t ht => ?_⟩
    · rw [frames_succ, hlook, Option.map_none, Option.toList_none, List.append_nil, hw.freelist]
    · have hlt : Present (word s.mem t (u % 1024)) → (u < v + n ↔ u < v + (n + 1)) := by
        intro hp
        have hne : u ≠ v + n := by
          rintro rfl
          rw [lookup_of_entry ht, if_pos hp] at hlook
          cases hlook
        omega
      rw [hw.ptes u t ht]
      exact if_congr (and_congr_right fun _ => and_congr_left hlt) rfl rfl
  | some w =>
    obtain ⟨-, hxd, -, htab⟩ := h.page _ hn w hlook
    obtain ⟨t, ht, rfl, hp⟩ := lookup_some (hsame.trans hlook)
    rw [State.wipe_of_entry ht (entry_of_present hp)]
    rw [hw.tables] at ht
    refine ⟨hw.layout, ?_, ?_, fun u t' ht' => ?_⟩
    · funext i
      refine (entry_putWord_of_ne (.inl fun hd => h.dir _ (ht.trans (congrArg some hd.symm)))).trans ?_
      exact (entry_update_of_ne hxd.symm).trans (congrFun hw.tables i)
    · rw [frames_succ, hlook]
      simp [State.setWord, State.free, hw.freelist]
    · show word (putWord (update s'.mem _ (fill 1)) t _ 0) t' _ = _
      by_cases hu : u = v + n
      · subst hu
        obtain rfl : t' = t := Option.some.inj (ht'.symm.trans ht)
        rw [hw.ptes _ t' ht', if_neg (by omega)] at hp
        rw [word_putWord_self (Nat.mod_lt _ (by decide)) (by decide), if_pos ⟨by omega, by omega, hp⟩]
      · have hne : t' ≠ t ∨ u % 1024 ≠ (v + n) % 1024 := by
          by_contra hcon
          rw [not_or, not_not, not_not] at hcon
          have := h.inj _ _ _ ht' (hcon.1 ▸ ht)
          omega
        rw [word_putWord_of_ne hne, word_update_of_ne fun he => htab _ (ht'.trans (congrArg some he)),
          hw.ptes u t' ht']
        have hlt : u < v + n ↔ u < v + (n + 1) := by omega
        simp only [hlt]

theorem Owned.wipes (h : Owned s d) (n : ℕ) (hn : v + n ≤ 2 ^ 19) :
    Wiped d v n s (s.wipes d v n) := by
  induction n with
  | zero => exact ⟨rfl, rfl, rfl, fun u t _ => by rw [if_neg (by omega)]; rfl⟩
  | succ n ih => exact h.wipe hn (ih (by omega))

theorem Owned.deallocBy {skip : ℕ → ℕ} {oldsz newsz : ℕ} (h : Owned s d) (hlt : newsz < oldsz)
    (hold : oldsz ≤ KERNBASE)
    (hskip : ∀ v < 2 ^ 19, ∃ v', skip (v * PGSIZE) = v' * PGSIZE ∧ v ≤ v' ∧ v' / 1024 = v / 1024) :
    Ends p E (deallocBy skip d oldsz newsz) s fun r t => r = newsz ∧
      t = s.wipes d (PGROUNDUP newsz / PGSIZE)
        (PGROUNDUP oldsz / PGSIZE - PGROUNDUP newsz / PGSIZE) := by
  have hlow : ∀ v, v * PGSIZE < oldsz → v < 2 ^ 19 := by
    intro v hv
    unfold PGSIZE at hv
    unfold KERNBASE at hold
    omega
  refine (ends_deallocBy (I := fun v t => PGROUNDUP newsz / PGSIZE ≤ v ∧
    t = s.wipes d (PGROUNDUP newsz / PGSIZE) (v - PGROUNDUP newsz / PGSIZE)) hlt hold hskip ?_ ?_
    ⟨le_rfl, by rw [Nat.sub_self]; rfl⟩).mono fun r t ht => ⟨ht.1, ht.2.2⟩
  · rintro v _ w hv ⟨hle, rfl⟩ hw
    have hlt := hlow v hv
    have hwiped := h.wipes (v := PGROUNDUP newsz / PGSIZE) (v - PGROUNDUP newsz / PGSIZE) (by omega)
    rw [hwiped.lookup_eq, if_neg (by omega)] at hw
    rw [hwiped.layout]
    exact (h.page v hlt w hw).1
  · rintro v _ hv ⟨hle, rfl⟩
    refine ⟨by omega, ?_⟩
    rw [Nat.succ_sub hle, State.wipes, Nat.add_sub_cancel' hle]

theorem frames_nodup (h : Owned s d) (hn : v + n ≤ 2 ^ 19) : (frames s.mem d v n).Nodup := by
  refine List.pairwise_filterMap.mpr ((List.nodup_range' 1).imp_of_mem fun hu hv hne x hx y hy he => ?_)
  obtain ⟨w, hw, rfl⟩ := Option.map_eq_some_iff.mp hx
  obtain ⟨w', hw', rfl⟩ := Option.map_eq_some_iff.mp hy
  rw [List.mem_range'_1] at hu hv
  exact hne (h.once _ (by omega) _ (by omega) w w' hw hw' he)

theorem mem_frames {m : Mem} {x : Page} :
    x ∈ frames m d v n ↔ ∃ u, (v ≤ u ∧ u < v + n) ∧ ∃ w, lookup m d u = some w ∧ pteAddr w = x := by
  simp [frames, List.mem_filterMap, List.mem_range'_1]

theorem Owned.nodup_frames (h : Owned s d) (hn : v + n ≤ 2 ^ 19) :
    ((frames s.mem d v n).reverse ++ s.freelist).Nodup := by
  rw [List.nodup_append', List.nodup_reverse]
  refine ⟨frames_nodup h hn, h.nodup, fun x hx hf => ?_⟩
  obtain ⟨u, hu, w, hw, rfl⟩ := mem_frames.mp (List.mem_reverse.mp hx)
  exact (h.page u (by omega) w hw).2.2.1 hf

theorem foldl_free (L : List Page) : (L.foldl State.free s).freelist = L.reverse ++ s.freelist := by
  induction L generalizing s with
  | nil => rfl
  | cons x L ih => rw [List.foldl_cons, ih, List.reverse_cons, List.append_assoc]; rfl

theorem foldl_free_layout (L : List Page) : (L.foldl State.free s).layout = s.layout := by
  induction L generalizing s with
  | nil => rfl
  | cons x L ih => exact ih

theorem Owned.freevm (h : Owned s d) : Ends p E (freevm d) s fun _ s' =>
    s'.freelist = d :: ((tables s.mem d (List.range 1024)).reverse ++
      ((frames s.mem d 0 (2 ^ 19)).reverse ++ s.freelist)) := by
  refine Ends.bind (h.deallocBy (by decide) le_rfl fun v => lastOfTable_eq) ?_
  rintro _ t ⟨-, ht⟩
  have hw : Wiped d 0 (2 ^ 19) s t := by
    have hpages : PGROUNDUP KERNBASE / PGSIZE - PGROUNDUP 0 / PGSIZE = 2 ^ 19 := by decide
    rw [ht, hpages]
    exact h.wipes _ le_rfl
  have htab : tables t.mem d (List.range' 0 NPDENTRIES) = tables s.mem d (List.range 1024) := by
    unfold tables
    rw [hw.tables, List.range_eq_range']
    rfl
  refine Ends.bind (ends_freeTables NPDENTRIES 0 fun x hx => ?_) ?_
  · rw [htab] at hx
    obtain ⟨i, -, hi⟩ := mem_tables.mp hx
    exact ⟨hw.layout ▸ h.table i x hi, fun hd => h.dir i (hd ▸ hi)⟩
  rintro _ t' ht'
  rw [htab] at ht'
  have hu : t'.layout.Usable d := by
    rw [ht', foldl_free_layout, hw.layout]
    exact h.usable
  refine (ends_kfree_usable hu).mono ?_
  rintro _ _ rfl
  rw [State.free, ht', foldl_free, hw.freelist]

theorem Owned.nodup_all (h : Owned s d) :
    (d :: ((tables s.mem d (List.range 1024)).reverse ++
      ((frames s.mem d 0 (2 ^ 19)).reverse ++ s.freelist))).Nodup := by
  have htables : ∀ x ∈ tables s.mem d (List.range 1024), ∃ i, entry s.mem d i = some x := by
    intro x hx
    obtain ⟨i, -, hi⟩ := mem_tables.mp hx
    exact ⟨i, hi⟩
  have hframes : ∀ x ∈ frames s.mem d 0 (2 ^ 19), x ≠ d ∧ ∀ i, entry s.mem d i ≠ some x := by
    intro x hx
    obtain ⟨u, hu, w, hw, rfl⟩ := mem_frames.mp hx
    obtain ⟨-, hd, -, htab⟩ := h.page u (by omega) w hw
    exact ⟨hd, htab⟩
  rw [List.nodup_cons, List.nodup_append', List.nodup_reverse]
  simp only [List.mem_append, List.mem_reverse]
  refine ⟨?_, ?_, h.nodup_frames le_rfl, fun x hx hx' => ?_⟩
  · rintro (hd | hd | hd)
    · obtain ⟨i, hi⟩ := htables d hd
      exact h.dir i hi
    · exact (hframes d hd).1 rfl
    · exact (h.free d hd).1 rfl
  · exact List.nodup_range.filterMap fun i j t hi hj => h.inj i j t hi hj
  · obtain ⟨i, hi⟩ := htables x (List.mem_reverse.mp hx)
    rw [List.mem_append, List.mem_reverse] at hx'
    rcases hx' with hx' | hx'
    · exact (hframes x hx').2 i hi
    · exact (h.free x hx').2.2 i hi

/-- `deallocuvm` frees the present pages of its range, each once, and clears their entries, and so
does the loop without the skip.  `freevm` frees the user pages, the tables and the directory. -/
theorem deallocuvm_exact (p : Pid) (h : Owned s d) :
    (∀ newsz oldsz, newsz < oldsz → oldsz ≤ KERNBASE → ∃ s',
      Ends p (fun _ => False) (deallocuvm d oldsz newsz) s (fun r t => r = newsz ∧ t = s') ∧
      Ends p (fun _ => False) (deallocBy id d oldsz newsz) s (fun r t => r = newsz ∧ t = s') ∧
      Wiped d (PGROUNDUP newsz / PGSIZE) (PGROUNDUP oldsz / PGSIZE - PGROUNDUP newsz / PGSIZE) s s' ∧
      s'.freelist.Nodup ∧ ∀ v, lookup s'.mem d v =
        if PGROUNDUP newsz ≤ v * PGSIZE ∧ v * PGSIZE < PGROUNDUP oldsz then none
        else lookup s.mem d v) ∧
    Ends p (fun _ => False) (freevm d) s fun _ s' => s'.freelist.Nodup ∧
      s'.freelist = d :: ((tables s.mem d (List.range 1024)).reverse ++
        ((frames s.mem d 0 (2 ^ 19)).reverse ++ s.freelist)) := by
  refine ⟨fun newsz oldsz hlt hold => ?_, h.freevm.mono fun _ s' hs' => ⟨hs' ▸ h.nodup_all, hs'⟩⟩
  have hbound : PGROUNDUP newsz / PGSIZE + (PGROUNDUP oldsz / PGSIZE - PGROUNDUP newsz / PGSIZE) ≤
      2 ^ 19 := by
    rw [PGROUNDUP_eq hold, PGROUNDUP_eq (hlt.le.trans hold)]
    unfold KERNBASE at hold
    unfold PGSIZE
    omega
  have hw := h.wipes _ hbound
  refine ⟨_, h.deallocBy hlt hold fun v => lastOfTable_eq, h.deallocBy hlt hold fun v _ =>
    ⟨v, rfl, le_rfl, rfl⟩, hw, hw.freelist ▸ h.nodup_frames hbound, fun v => ?_⟩
  rw [hw.lookup_eq]
  refine if_congr ?_ rfl rfl
  rw [PGROUNDUP_eq hold, PGROUNDUP_eq (hlt.le.trans hold)]
  unfold PGSIZE
  omega

end Dealloc

theorem Good.owned {U : Page → Prop} {s : State} {b : Books} {a : Space} {d : Page}
    (h : Good U s b) (hdir : b.dir a = some d) : Owned s d := by
  have htable {i t : ℕ} (hi : entry s.mem d i = some t) :
      Holds s.mem s.freelist b (.table a i) t := ⟨d, hdir, hi⟩
  have huser {v w : ℕ} (hv : v < 2 ^ 19) (hw : lookup s.mem d v = some w) :
      Holds s.mem s.freelist b (.user a v) (pteAddr w) :=
    holds_user hdir (not_direct (by unfold PGSIZE KERNBASE; omega)) hw
  have hlow {y : ℕ} (hy : y * PGSIZE < PHYSTOP) : y < 2 ^ 20 := by
    unfold PHYSTOP PGSIZE at hy
    omega
  refine ⟨⟨fun i j t hi hj => ?_, fun i hi => ?_, h.free, fun x hx => ⟨?_, ?_, fun i hi => ?_⟩⟩,
    h.usable (.dir a) d hdir, fun i t hi => h.usable _ t (htable hi), fun v hv w hw =>
      ⟨h.usable _ _ (huser hv hw), ?_, fun hf => ?_, fun i hi => ?_⟩,
    fun u hu v hv w w' hw hw' he => ?_⟩
  · exact (Role.table.inj (h.excl _ _ t (htable hi) (htable hj))).2
  · cases h.excl _ (.dir a) d (htable hi) hdir
  · exact h.excl.ne .free (.dir a) hx hdir (by rintro ⟨⟩)
  · exact hlow (h.usable .free x hx).2
  · cases h.excl _ .free x (htable hi) hx
  · exact h.excl.ne (.user a v) (.dir a) (huser hv hw) hdir (by rintro ⟨⟩)
  · cases h.excl _ .free _ (huser hv hw) hf
  · cases h.excl _ _ _ (huser hv hw) (htable hi)
  · exact (Role.user.inj (h.excl _ _ _ (huser hu hw) (he ▸ huser hv hw'))).2

/-- 16 MB from address 0 on: the page of the first process, and three tables that it does not
have. -/
theorem deallocuvm_exact_boot : ∃ s p d t x, Booted p d [] s ∧
    (∀ i, 0 < i → i < 4 → entry s.mem d i = none) ∧
    (deallocuvm d (2 ^ 24) 0).run p ⟨s, fun _ => none⟩ = .done 0 t ∧
      t.st.freelist = x :: s.freelist := by
  obtain ⟨t0, p, d, -, -, -, -, hbooted⟩ := boot_small (fun _ => false) fun _ _ => rfl
  obtain ⟨U, hbooked⟩ := hbooted.booked
  obtain ⟨x, hpage⟩ := hbooted.page
  obtain ⟨-, hlook, -⟩ := view_eq_some.mp hpage
  obtain ⟨s', hends, -, hw, -⟩ :=
    (deallocuvm_exact p (hbooked.good.owned hbooted.dir)).1 0 (2 ^ 24) (by decide) (by decide)
  obtain ⟨r, t, hrun, rfl, rfl⟩ := hends.run fun _ => none
  have hframes : ∀ n, n < 2 ^ 19 → frames t0.st.mem d 0 (n + 1) = [pteAddr (x * PGSIZE + 7)] := by
    intro n hn
    induction n with
    | zero =>
      rw [frames_succ, hlook]
      rfl
    | succ n ih =>
      have hlow : (n + 1) * PGSIZE < KERNBASE := by
        unfold PGSIZE KERNBASE
        omega
      rw [frames_succ, ih (by omega), Nat.zero_add,
        hbooted.rest (n + 1) (Nat.succ_ne_zero n) (not_direct hlow)]
      rfl
  refine ⟨t0.st, p, d, t, pteAddr (x * PGSIZE + 7), hbooted, fun i h1 h2 => ?_, hrun,
    hw.freelist.trans ?_⟩
  · refine hbooted.tables i h1.ne' fun hmem => ?_
    unfold kernelTables at hmem
    rw [Finset.mem_union, Finset.mem_Ico, Finset.mem_Ico] at hmem
    omega
  · show (frames t0.st.mem d 0 (4095 + 1)).reverse ++ _ = _
    rw [hframes 4095 (by decide)]
    rfl

end Xv6.Vm
