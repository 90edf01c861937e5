import Xv6.Vm.Runs

namespace Xv6.Vm
open Lib Prog Function

variable {s : State} {p : Pid}

/-- No page has two uses, and a page that user code can reach is used for that virtual page of that
process. -/
theorem pages_exclusive (h : Reached (fun _ op => op.Short) s) :
    Exclusive (Holds s.mem s.freelist s.books) ∧ s.freelist.Nodup ∧
      ∀ q d v w, (s.proc q).state ≠ .unused → (s.proc q).pgdir = some d →
        lookup s.mem d v = some w → User w →
        ∀ r, Holds s.mem s.freelist s.books r (pteAddr w) ↔ r = .user (.proc q) v := by
  obtain ⟨U, hbooked⟩ := h.booked fun _ _ => id
  refine ⟨hbooked.good.excl, hbooked.good.free, fun q d v w hq hd hw huser r => ?_⟩
  have hdir : s.books.dir (.proc q) = some d := (books_proc hq).trans hd
  have hheld : Holds s.mem s.freelist s.books (.user (.proc q) v) (pteAddr w) :=
    holds_user hdir ((hbooked.shut _ d hdir).not_direct ⟨w, hw, huser⟩) hw
  constructor
  · intro hr
    exact hbooked.good.excl r _ _ hr hheld
  · rintro rfl
    exact hheld

/-- After a store of the first process, its page has no other use. -/
theorem pages_exclusive_store : ∃ s p d w t, Booted p d [] s ∧
    (store p 0 7).run p ⟨s, fun _ => none⟩ = .done () t ∧ lookup t.st.mem d 0 = some w ∧
    ∀ r, Holds t.st.mem t.st.freelist t.st.books r (pteAddr w) ↔ r = .user (.proc p) 0 := by
  obtain ⟨t0, p, d, hboot, -, -, -, hbooted⟩ := boot_small (fun _ => false) fun _ _ => rfl
  obtain ⟨U, hbooked⟩ := hbooted.booked
  obtain ⟨x, hpage⟩ := hbooted.page
  obtain ⟨-, hlook, -⟩ := view_eq_some.mp hpage
  have hends : Ends p (fun _ => False) (store p 0 7) t0.st _ :=
    ends_store hbooked hbooted.live hbooted.pgdir 0 7
  obtain ⟨_, t, hrun, hbooked', -, hcase⟩ := hends.run fun _ => none
  have huser : User (x * PGSIZE + 7) := by
    unfold User PGSIZE
    omega
  have hsame : t.st.proc = t0.st.proc ∧ lookup t.st.mem d 0 = lookup t0.st.mem d 0 := by
    rcases hcase with ⟨-, hwrote⟩ | ⟨-, heq⟩
    · exact ⟨hwrote.proc, hwrote.look 0⟩
    · rw [heq]
      exact ⟨rfl, rfl⟩
  have hreach : Reached (fun _ op => op.Short) t.st :=
    .step (.boot hboot) (show (Op.store p 0 7).Enabled t0.st from ⟨hbooted.state, trivial⟩)
      trivial hrun
  refine ⟨t0.st, p, d, _, t, hbooted, hrun, hsame.2.trans hlook,
    (pages_exclusive hreach).2.2 p d 0 _ ?_ ?_ (hsame.2.trans hlook) huser⟩
  · rw [hsame.1]
    exact hbooted.live
  · rw [hsame.1]
    exact hbooted.pgdir

/-- `exec` leaves everything as it was, or the process with the new image; the other processes have
the same memory in either case.  It only fails if the program cannot be loaded or memory is short. -/
theorem exec_all_or_nothing {file : List UInt8} {argv : List Str} {path : Str}
    (h : Reached (fun _ op => op.Short) s) (hrun : (s.proc p).state = .runnable)
    (hfile : file.length ≤ MAXFILE * BSIZE) (hshort : Short file argv) :
    Ends p (fun _ => False) (exec p path (some file) argv) s fun ok s' =>
      (∀ q d, q ≠ p ∨ ok = false → (s.proc q).state ≠ .unused → (s.proc q).pgdir = some d →
        ∀ v, view s'.mem d v = view s.mem d v) ∧
      (ok = false → s'.proc = s.proc ∧ s'.pipe = s.pipe ∧
        (∀ x, x ∈ s'.freelist ↔ x ∈ s.freelist) ∧
        (¬ Executable file argv ∨ Scarce s (65 + imageCost file))) ∧
      (ok = true → ∃ d esp g ptrs, Built file argv s'.mem d esp g ptrs ∧
        s'.proc = update s.proc p { s.proc p with
          name := progName path
          pgdir := some d
          sz := imageSize file
          tf := { (s.proc p).tf with eip := elfEntry (file.take ELFHDR), esp := esp } }) := by
  obtain ⟨U, hbooked⟩ := h.booked fun _ _ => id
  obtain ⟨d, hpgdir, hdir, -⟩ := hbooked.dir (p := p) (by rw [hrun]; rintro ⟨⟩)
  refine (ends_exec (hfile.trans_lt (by decide)) hbooked.good rfl hdir hpgdir hshort).mono ?_
  rintro ok s' (⟨rfl, hgood, hapart, hscarce⟩ | ⟨rfl, d', esp, hrep⟩)
  · refine ⟨fun q c _ hq hc => ?_, fun _ => ?_, by rintro ⟨⟩⟩
    · exact hapart.view_eq (by rintro ⟨⟩) ((books_proc hq).trans hc)
    · exact ⟨hapart.proc, hapart.pipe, fun x => hapart.mem_freelist hbooked.good hgood rfl,
        not_or_of_imp hscarce⟩
  · obtain ⟨g, ptrs, hbuilt⟩ := hrep.built
    refine ⟨fun q c hne hq hc => ?_, by rintro ⟨⟩, fun _ => ⟨d', esp, g, ptrs, hbuilt, hrep.proc⟩⟩
    refine hrep.other (.proc q) (by rintro ⟨⟩) ?_ c ((books_proc hq).trans hc)
    rintro ⟨⟩
    exact hne.elim (fun h => h rfl) (by rintro ⟨⟩)

/-- An ELF file with one segment of four bytes, which takes 5000 bytes at address 0. -/
def program : List UInt8 :=
  le32 ELF_MAGIC ++ List.replicate 24 0 ++ le32 52 ++ List.replicate 12 0 ++ le16 1 ++
    List.replicate 6 0 ++
    (le32 ELF_PROG_LOAD ++ le32 84 ++ le32 0 ++ le32 0 ++ le32 4 ++ le32 5000 ++ le32 7 ++
      le32 PGSIZE) ++ [0xeb, 0xfe, 1, 2]

theorem program_executable : Executable program [[97]] where
  header := by decide
  magic := by decide
  headers := by decide +kernel
  segment := by
    have hseg : segments program = [⟨1, 84, 0, 4, 5000⟩] := by rfl
    rw [hseg]
    simp only [List.forall_mem_singleton]
    exact ⟨by decide, by decide, by decide, by decide⟩
  size := by decide +kernel
  count := by decide
  room := by decide

/-- Right after boot, the program is loaded; with an argument too many it is not, after memory has
been taken for the segment and the stack. -/
theorem exec_all_or_nothing_program : ∃ s p d t t', Booted p d [] s ∧
    (exec p [] (some program) [[97]]).run p ⟨s, fun _ => none⟩ = .done true t ∧
    (∃ d', (t.st.proc p).pgdir = some d' ∧ byte t.st.mem d' 0 = some 0xeb ∧
      byte t.st.mem d' 4096 = some 0) ∧
    (exec p [] (some program) (List.replicate (MAXARG + 1) [])).run p ⟨s, fun _ => none⟩ =
      .done false t' ∧
    ∀ x, x ∈ t'.st.freelist ↔ x ∈ s.freelist := by
  obtain ⟨t0, p, d, hboot, hdeny, -, hlen, hbooted⟩ := boot_small (fun _ => false) fun _ _ => rfl
  have hshort : ∀ argv : List Str, (∀ str ∈ argv, str.length ≤ 1) → Short program argv := by
    intro argv hargv str hstr
    have := hargv str hstr
    omega
  have hends : ∀ argv : List Str, (∀ str ∈ argv, str.length ≤ 1) →
      Ends p _ (exec p [] (some program) argv) t0.st _ := fun argv hargv =>
    exec_all_or_nothing (.boot hboot) hbooted.state (by decide) (hshort argv hargv)
  obtain ⟨ok, t, hrun, -, hfail, hdone⟩ := (hends [[97]] (by simp)).run fun _ => none
  obtain ⟨ok', t', hrun', -, hfail', hdone'⟩ :=
    (hends (List.replicate (MAXARG + 1) []) (by simp)).run fun _ => none
  obtain rfl : ok = true := by
    cases ok with
    | true => rfl
    | false =>
      obtain ⟨-, -, -, hno | ⟨n, hn, hfirst⟩⟩ := hfail rfl
      · exact absurd program_executable hno
      · have hcost : imageCost program = 1030 := by decide +kernel
        exact (hfirst.absurd (fun k => by rw [hdeny]) (by omega)).elim
  obtain rfl : ok' = false := by
    cases ok' with
    | false => rfl
    | true =>
      obtain ⟨_, _, _, _, hbuilt, -⟩ := hdone' rfl
      exact absurd hbuilt.stack.count (by decide)
  obtain ⟨d', esp, g, ptrs, hbuilt, hproc⟩ := hdone rfl
  have hbyte : ∀ x, x < 3 * PGSIZE →
      byte t.st.mem d' x = some (segmentsOver program (fun _ => 0) (segments program) x) := by
    intro x hx
    have hsize : imageSize program = 4 * PGSIZE := by decide +kernel
    rw [← hbuilt.below x (by rw [hsize]; omega)]
    refine hbuilt.image.bytes x ?_
    rw [hsize, Nat.mul_div_cancel _ (by decide)]
    omega
  refine ⟨t0.st, p, d, t, t', hbooted, hrun, ⟨d', ?_, ?_, ?_⟩, hrun', (hfail' rfl).2.2.1⟩
  · rw [hproc, update_self]
  · rw [hbyte 0 (by decide)]
    rfl
  · rw [hbyte 4096 (by decide)]
    rfl

/-- A fault at a page that is not there maps a page of zeros, unless there is no memory for it or for
its table, and changes nothing else that a process can see. -/
theorem pgfault_one_page {cr2 : ℕ} {d : Page} (h : Reached (fun _ op => op.Short) s)
    (hp : (s.proc p).state ≠ .unused) (hd : (s.proc p).pgdir = some d) (hcr2 : cr2 < 2 ^ 32)
    (hnone : lookup s.mem d (cr2 / PGSIZE) = none) :
    Ends p (fun _ => False) (pgfault p cr2) s fun ok s' => s'.proc = s.proc ∧
      (∀ q c v, (s.proc q).state ≠ .unused → (s.proc q).pgdir = some c →
        q ≠ p ∨ v ≠ cr2 / PGSIZE ∨ ok = false → view s'.mem c v = view s.mem c v) ∧
      (ok = false → FirstShort s 0 ∨ FirstShort s 1 ∧ entry s.mem d (cr2 / PGSIZE / 1024) = none) ∧
      (ok = true → ∃ x, view s'.mem d (cr2 / PGSIZE) = some (x * PGSIZE + 7, some (fill 0))) := by
  obtain ⟨U, hbooked⟩ := h.booked fun _ _ => id
  refine (ends_pgfault hbooked hp hd hcr2 fun hcon => hcon hnone).mono ?_
  rintro ok s' ⟨-, hapart, -, hcase⟩
  refine ⟨hapart.proc, fun q c v hq hc hne => ?_, fun hok => ?_, fun hok => ?_⟩
  · by_cases hqp : q = p
    · subst hqp
      cases hc.symm.trans hd
      rcases hcase with ⟨-, hview, -⟩ | ⟨rfl, -, -, -, hview⟩
      · exact hview v
      · exact hview v (by simpa using hne)
    · refine hapart.view_eq ?_ ((books_proc hq).trans hc) v
      rintro ⟨⟩
      exact hqp rfl
  · rcases hcase with ⟨-, -, hshort⟩ | ⟨rfl, -⟩
    · exact hshort
    · cases hok
  · rcases hcase with ⟨rfl, -⟩ | ⟨-, -, -, hnew, -⟩
    · cases hok
    · exact hnew

/-- The second page of the first process. -/
theorem pgfault_one_page_boot : ∃ s p d t x, Booted p d [] s ∧
    (pgfault p PGSIZE).run p ⟨s, fun _ => none⟩ = .done true t ∧
      view t.st.mem d 1 = some (x * PGSIZE + 7, some (fill 0)) := by
  obtain ⟨t0, p, d, hboot, hdeny, -, hlen, hbooted⟩ := boot_small (fun _ => false) fun _ _ => rfl
  have hroom : ∀ n, n < 56953 → ¬FirstShort t0.st n := fun n hn hshort =>
    hshort.absurd (fun k => by rw [hdeny]) (by omega)
  have hends : Ends p _ (pgfault p PGSIZE) t0.st _ :=
    pgfault_one_page (.boot hboot) hbooted.live hbooted.pgdir (by decide)
      (hbooted.rest _ (by decide) (by decide))
  obtain ⟨ok, t, hrun, -, -, hfail, hnew⟩ := hends.run fun _ => none
  cases ok with
  | false =>
    rcases hfail rfl with hshort | ⟨hshort, -⟩
    · exact absurd hshort (hroom 0 (by decide))
    · exact absurd hshort (hroom 1 (by decide))
  | true =>
    obtain ⟨x, hx⟩ := hnew rfl
    exact ⟨t0.st, p, d, t, x, hbooted, hrun, hx⟩

end Xv6.Vm
