import Xv6.Vm.Calls
import Xv6.Vm.Growth

namespace Xv6.Vm
open Lib Prog Function

variable {p : Pid} {E : String → Prop} {l : Layout} {U : Page → Prop} {s : State} {b : Books}
  {code : List UInt8}

section Memory

variable {m : Mem} {f : List Page} {x : Page}

theorem Inv.adopt (h : Inv l U m f b) (hx : ¬ U x) (hu : l.Usable x) :
    Inv l (fun y => U y ∨ y = x) m f { b with hand := x :: b.hand } := by
  have hno : ∀ r, ¬ Holds m f b r x := fun r hr => hx ((h.all x).mpr ⟨r, hr⟩)
  have hold : ∀ r y, Holds m f { b with hand := x :: b.hand } r y ↔
      Holds m f b r y ∨ r = .hand ∧ y = x := by
    intro r y
    cases r with
    | hand =>
      show y ∈ x :: b.hand ↔ y ∈ b.hand ∨ _
      rw [List.mem_cons, or_comm]
      simp
    | free | stack q | pipe | dir c | table c i | user c v => simp [Holds]
  refine ⟨fun r r' y hr hr' => ?_, h.free, List.nodup_cons.mpr ⟨hno .hand, h.hand⟩,
    fun r y hr => ?_, fun y => ?_⟩
  · rcases (hold r y).mp hr with h1 | ⟨rfl, rfl⟩
    · rcases (hold r' y).mp hr' with h2 | ⟨rfl, rfl⟩
      · exact h.excl r r' y h1 h2
      · exact absurd h1 (hno r)
    · rcases (hold r' y).mp hr' with h2 | ⟨rfl, -⟩
      · exact absurd h2 (hno r')
      · rfl
  · rcases (hold r y).mp hr with h1 | ⟨-, rfl⟩
    · exact h.usable r y h1
    · exact hu
  · rw [h.all]
    simp only [hold, exists_or]
    simp

theorem range_succ {x y n : ℕ} :
    y = x ∨ x + 1 ≤ y ∧ y < x + 1 + n ↔ x ≤ y ∧ y < x + (n + 1) := by omega

theorem ends_freerange (n : ℕ) {x : ℕ} (h : Booked U s)
    (hnew : ∀ k, k < n → ¬ U (x + k) ∧ s.layout.Usable (x + k)) :
    Ends p E (freerange x n) s fun _ s' => Same s s' ∧ s'.kallocs = s.kallocs ∧
      s'.freelist.length = s.freelist.length + n ∧
      Booked (fun y => U y ∨ x ≤ y ∧ y < x + n) s' := by
  induction n generalizing s U x with
  | zero =>
    refine .ret ⟨.refl s, rfl, rfl, ?_⟩
    have hU : (fun y => U y ∨ x ≤ y ∧ y < x + 0) = U := by
      funext y
      exact propext (or_iff_left fun hy => Nat.not_lt.mpr hy.1 hy.2)
    rw [hU]
    exact h
  | succ n ih =>
    obtain ⟨hx, hu⟩ := hnew 0 (Nat.succ_pos n)
    rw [Nat.add_zero] at hx hu
    have hhand : Good (fun y => U y ∨ y = x) s { s.books with hand := [x] } := Inv.adopt h.good hx hu
    have hno : ¬ (x * PGSIZE < s.layout.kend ∨ PHYSTOP ≤ x * PGSIZE) :=
      not_or.mpr ⟨hu.1.not_gt, hu.2.not_ge⟩
    have hgood := (hhand.write_hand List.mem_cons_self (c := fill 1)).toFree List.mem_cons_self
    rw [List.erase_cons_head] at hgood
    refine Ends.bind (Q := fun _ s' => s' = { s.setPage x (fill 1) with freelist := x :: s.freelist })
      (.atomic (if_neg hno) rfl) ?_
    rintro _ _ rfl
    have hbooked : Booked (fun y => U y ∨ y = x)
        { s.setPage x (fill 1) with freelist := x :: s.freelist } :=
      h.of_view hgood rfl rfl fun a d hd v => hhand.view_other (a := a) (r := .hand) (.inr trivial)
        hd List.mem_cons_self (fun z hz => update_of_ne hz _ _) v
    refine (ih hbooked fun k hk => ?_).mono ?_
    · obtain ⟨h1, h2⟩ := hnew (k + 1) (by omega)
      rw [show x + 1 + k = x + (k + 1) by omega]
      refine ⟨?_, h2⟩
      rintro (hcon | hcon)
      · exact h1 hcon
      · exact Nat.ne_of_gt (Nat.lt_add_of_pos_right (Nat.succ_pos k)) hcon
    · rintro _ s' ⟨hsame, hcalls, hlen, hbooked'⟩
      refine ⟨⟨hsame.proc, hsame.pipe, hsame.kpgdir, hsame.layout, hsame.deny⟩, hcalls, ?_, ?_⟩
      · rw [hlen, List.length_cons]
        omega
      · have hU : (fun y => (U y ∨ y = x) ∨ x + 1 ≤ y ∧ y < x + 1 + n) =
            fun y => U y ∨ x ≤ y ∧ y < x + (n + 1) := by
          funext y
          rw [or_assoc]
          exact propext (or_congr_right range_succ)
        rw [← hU]
        exact hbooked'

theorem ends_kvmalloc (h : Booked U s) (hk : s.kpgdir = none) :
    Ends p E kvmalloc s fun _ s' => Booked U s' ∧ s'.proc = s.proc ∧ s'.layout = s.layout ∧
      s'.deny = s.deny ∧ ((∃ n, n < 65 ∧ FirstShort s n) ∨ Drew s s' 65) := by
  refine Ends.bind (ends_setupkvm (a := .kernel) h.good hk) ?_
  rintro r s1 ⟨hapart, hcase⟩
  have hother : ∀ a d, s.books.dir a = some d → ∀ v, view s1.mem d v = view s.mem d v := by
    intro a d hd v
    refine hapart.view_eq ?_ hd v
    rintro rfl
    have hk' : s.kpgdir = some d := hd
    rw [hk] at hk'
    cases hk'
  have hbooks : ∀ o, ({ s1 with kpgdir := o } : State).books = s.books.setDir .kernel o := by
    intro o
    have hdir : ({ s1 with kpgdir := o } : State).books.dir = (s.books.setDir .kernel o).dir := by
      funext a
      by_cases ha : a = .kernel
      · subst ha
        exact (Books.setDir_self _ _ _).symm
      · rw [Books.setDir_of_ne _ _ ha, ← hapart.toSame.books]
        cases a with
        | kernel => exact absurd rfl ha
        | new | proc q => rfl
    calc ({ s1 with kpgdir := o } : State).books
        = ⟨({ s1 with kpgdir := o } : State).books.dir, s1.books.stack, s1.books.pipe, []⟩ := rfl
      _ = s.books.setDir .kernel o := by rw [hdir, hapart.toSame.books]; rfl
  have hshut : ∀ o, (∀ d, o = some d → Shut s1.mem d) → ∀ a d,
      ({ s1 with kpgdir := o } : State).books.dir a = some d → Shut s1.mem d := by
    intro o ho a d hd
    rw [hbooks] at hd
    by_cases ha : a = .kernel
    · subst ha
      exact ho d ((Books.setDir_self _ _ _).symm.trans hd)
    · have hd' := (Books.setDir_of_ne _ _ ha).symm.trans hd
      exact (h.shut a d hd').of_view (hother a d hd')
  have hproc := hapart.proc
  rcases hcase with ⟨rfl, hgood, hshort⟩ | ⟨d, rfl, -, hgood, hdrew, hfresh, -⟩
  · refine Ends.modify ⟨⟨?_, hshut none (fun _ hd => by cases hd), hproc ▸ h.pgdir, hproc ▸ h.kstack,
      hproc ▸ h.size⟩, hproc, hapart.layout, hapart.deny, .inl hshort⟩
    have hkernel : s.books.dir .kernel = none := hk
    rw [hbooks, s.books.setDir_eq_self hkernel]
    exact hgood
  · refine Ends.modify ⟨⟨?_, hshut (some d) (fun d' hd => ?_), hproc ▸ h.pgdir, hproc ▸ h.kstack,
      hproc ▸ h.size⟩, hproc, hapart.layout, hapart.deny, .inr ⟨hdrew.calls, hdrew.pages,
      hdrew.granted⟩⟩
    · rw [hbooks]
      exact hgood
    · cases hd
      exact hfresh.direct

theorem ends_startothers (n : ℕ) (h : Booked U s) :
    Ends p E (startothers n) s fun _ s' => Same s s' ∧
      (∃ U', (∀ y, U' y → U y) ∧ Booked U' s') ∧ ((∃ k, k < n ∧ FirstShort s k) ∨ Drew s s' n) := by
  induction n generalizing s U with
  | zero => exact .ret ⟨.refl s, ⟨U, fun _ hy => hy, h⟩, .inr (.refl s)⟩
  | succ n ih =>
    refine Ends.bind (ends_kalloc h.good) ?_
    rintro r s1 ⟨hsame, hmem, hcase⟩
    have hnext : ∀ {U1}, (∀ y, U1 y → U y) → Good U1 s1 s.books →
        Ends p E (startothers n) s1 fun _ s' => Same s s' ∧
          (∃ U', (∀ y, U' y → U y) ∧ Booked U' s') ∧
          ((∃ k, k < n ∧ FirstShort s1 k) ∨ Drew s1 s' n) := by
      intro U1 hsub hgood
      have hbooked : Booked U1 s1 := h.of_view (hsame.books ▸ hgood) hsame.proc hsame.kpgdir
        fun _ _ _ _ => by rw [hmem]
      refine (ih hbooked).mono ?_
      rintro _ s' ⟨hsame', ⟨U', hsub', hbooked'⟩, hdrew⟩
      exact ⟨hsame.trans hsame', ⟨U', fun y hy => hsub y (hsub' y hy), hbooked'⟩, hdrew⟩
    rcases hcase with ⟨rfl, hshort, -, hgood⟩ | ⟨x, rfl, -, hdrew1, hgood⟩
    · refine (hnext (fun _ hy => hy) hgood).mono ?_
      rintro _ s' ⟨h1, h2, -⟩
      exact ⟨h1, h2, .inl ⟨0, Nat.succ_pos n, hshort⟩⟩
    · have hforget := Inv.forget hgood (x := x) List.mem_cons_self
      rw [List.erase_cons_head] at hforget
      refine (hnext (fun _ hy => hy.1) hforget).mono ?_
      rintro _ s' ⟨h1, h2, hdrew⟩
      refine ⟨h1, h2, ?_⟩
      rcases hdrew with ⟨k, hk, hshort⟩ | hdrew
      · exact .inl ⟨1 + k, by omega, hdrew1.firstShort hsame.deny hshort⟩
      · rw [Nat.add_comm n 1]
        exact .inr (hdrew1.trans hsame.deny hdrew)

end Memory

section Init

variable {s1 : State} {a : Space} {d : Page}

/-- The code of the first process is at address 0. -/
structure Loaded₀ (code : List UInt8) (d : Page) (s s' : State) : Prop where
  drew : Drew s s' 2
  self : ∃ x, view s'.mem d 0 = some (x * PGSIZE + 7, some ((fill 0).put 0 code))
  other : ∀ v, v ≠ 0 → view s'.mem d v = view s.mem d v
  tables : ∀ i, i ≠ 0 → entry s'.mem d i = entry s.mem d i

/-- `inituvm` after `kalloc`.  If there is no page for the page table, the page is lost. -/
theorem ends_initPage {x : Page} (h : Good U s b) (hsame1 : Same s s1) (hmem1 : s1.mem = s.mem)
    (hfree : s.freelist = x :: s1.freelist) (hdrew1 : Drew s s1 1)
    (hgood1 : Good U s1 { b with hand := x :: b.hand }) (hdir : b.dir a = some d)
    (hfresh : Fresh s.mem d) :
    Ends p E (mappages d 0 PGSIZE x (PTE_W ||| PTE_U) >>= fun _ =>
        Prog.modify fun s => s.setPage x ((s.mem x).put 0 code)) (s1.setPage x (fill 0)) fun _ s' =>
      Apart a b s s' ∧ Shut s'.mem d ∧ (∃ U', Good U' s' b) ∧
        (FirstShort s 1 ∨ Loaded₀ code d s s') := by
  have hzero : ¬ Direct 0 := not_direct (by decide)
  have hnone : lookup s.mem d 0 = none := hfresh.user 0 hzero
  have hxfree : x ∈ s.freelist := hfree ▸ List.mem_cons_self
  refine Ends.bind (ends_mapFresh (fill 0) (PTE_W ||| PTE_U) h hsame1 hmem1 hfree hdrew1
    hgood1 hdir (by decide) rfl (by decide) (fun hcon => absurd hcon hzero)
    fun hcon => absurd hnone hcon) ?_
  rintro ok s2 ⟨hapart2, ⟨rfl, hgood2, hview2, -, hshort, -⟩ |
    ⟨rfl, hgood2, hlinked, -, hself, hother⟩⟩
  · have hforget := Inv.forget (hgood2.write_hand (x := x) List.mem_cons_self
      (c := (s2.mem x).put 0 code)) (x := x) List.mem_cons_self
    rw [List.erase_cons_head] at hforget
    refine Ends.modify ⟨hapart2.write_free h hxfree ⟨rfl, rfl, rfl, rfl, rfl⟩
      (fun z hz => update_of_ne hz _ _), Shut.of_view hfresh.direct fun v => ?_,
      ⟨_, hforget⟩, .inl hshort⟩
    exact (hgood2.view_other (a := a) (r := .hand) (.inr trivial) hdir List.mem_cons_self
      (fun z hz => update_of_ne hz _ _) v).trans (hview2 v)
  · have hflags : (PTE_W ||| PTE_U) ||| PTE_P = 7 := rfl
    rw [hflags] at hself
    have hx : pteAddr (x * PGSIZE + 7) = x := pteAddr_mk (by decide)
    obtain ⟨-, hlook, hc⟩ := view_eq_some.mp hself
    rw [hx] at hc
    have hsame : Same s2 (s2.setPage x ((fill 0).put 0 code)) := ⟨rfl, rfl, rfl, rfl, rfl⟩
    obtain ⟨hgood3, hapart3⟩ := hgood2.of_pages hdir hsame rfl fun y hy => ⟨0, _, hzero, hlook, by
        rw [hx]
        by_contra hne
        exact hy (update_of_ne (Ne.symm hne) _ _)⟩
    obtain ⟨hother3, hself3, htables3⟩ :=
      (hgood2.plain hdir).view_write hzero hlook ((fill 0).put 0 code)
    rw [hx] at hother3 hself3 htables3
    have hview : ∀ v, v ≠ 0 →
        view (s2.setPage x ((fill 0).put 0 code)).mem d v = view s.mem d v :=
      fun v hv => (hother3 v hv).trans (hother v hv)
    have hentry : entry s.mem d 0 = none := hfresh.tables 0 (by simp [kernelTables])
    refine Ends.modify ?_
    rw [hc]
    refine ⟨hapart2.trans (.refl a b) hapart3, fun v hv hlt => ?_, ⟨U, hgood3⟩,
      .inr ⟨?_, ⟨x, hself3⟩, hview, fun i hi => (htables3 i).trans (hlinked.other i hi)⟩⟩
    · have hne : v ≠ 0 := by
        rintro rfl
        exact hzero hv
      rw [lookup_eq_of_view (hview v hne)]
      exact hfresh.direct v hv hlt
    · have hdrew := hlinked.drew
      rw [show PDX 0 = 0 from rfl, if_pos hentry] at hdrew
      exact hdrew.of_eq rfl rfl

def State.first (s : State) (np : Pid) (x d : Page) : Proc :=
  { s.proc np with
    state := .runnable
    kstack := some x
    pgdir := some d
    sz := PGSIZE
    tf := ⟨0, 0, PGSIZE⟩
    name := initcodeName }

theorem Booked.first (h : Booked U s) {U' : Page → Prop} {s1 s2 s4 : State} {np : Pid} {x : Page}
    (hmem1 : s1.mem = s.mem)
    (hsame1 : Same (s.setProc np { s.proc np with state := .embryo, kstack := some x }) s1)
    (hapart2 : Apart (.proc np)
      { s.books with stack := update s.books.stack np (some x) } s1 s2)
    (hapart4 : Apart (.proc np) (Books.setDir
      { s.books with stack := update s.books.stack np (some x) } (.proc np) (some d))
      (s2.setProc np { s2.proc np with pgdir := some d }) s4)
    (hshut : Shut s4.mem d) (hgood : Good U' s4 (Books.setDir
      { s.books with stack := update s.books.stack np (some x) } (.proc np) (some d))) :
    s4.setProc np
        { s4.proc np with
          sz := PGSIZE
          tf := ⟨0, 0, PGSIZE⟩
          name := initcodeName
          state := .runnable } = { s4 with proc := update s.proc np (s.first np x d) } ∧
      Booked U' { s4 with proc := update s.proc np (s.first np x d) } := by
  have hproc4 : s4.proc = (s.setProc np { s.proc np with
      state := .embryo
      kstack := some x
      pgdir := some d }).proc := by
    rw [hapart4.proc]
    show update s2.proc np _ = _
    rw [hapart2.proc, hsame1.proc, State.setProc_self]
    exact congrArg State.proc (s.setProc_setProc np _ _)
  constructor
  · unfold State.setProc
    rw [hproc4, State.setProc_self]
    exact congrArg (fun f => ({ s4 with proc := f } : State))
      (congrArg State.proc (s.setProc_setProc np _ _))
  · refine h.of_update (q := np) (s.first np x d) rfl ?_ ?_ hgood (fun _ => ⟨d, rfl, hshut⟩)
      ⟨nofun, nofun⟩ (show PGSIZE < 2 ^ 32 by decide) fun a c ha hc v => ?_
    · exact hapart4.pipe.trans (hapart2.pipe.trans hsame1.pipe)
    · exact hapart4.kpgdir.trans (hapart2.kpgdir.trans hsame1.kpgdir)
    · refine (hapart4.view_eq ha ((Books.setDir_of_ne _ _ ha).trans hc) v).trans ?_
      refine (hapart2.view_eq ha hc v).trans ?_
      rw [hmem1]

theorem does_inituvm (h : Good U s b) (hdir : b.dir a = some d) (hfresh : Fresh s.mem d) :
    Does p (fun _ => True) (inituvm d code) s fun _ s' =>
      Apart a b s s' ∧ Shut s'.mem d ∧ ∃ U', Good U' s' b := by
  refine Does.ite (fun _ => .panic trivial) fun _ => ?_
  refine Does.bind (ends_kalloc h).does ?_
  rintro r s1 ⟨hsame1, hmem1, ⟨rfl, -⟩ | ⟨y, rfl, hfree1, hdrew1, hgood1⟩⟩
  · exact .atomic trivial
  refine Does.bind (Q := fun _ s' => s' = s1.setPage y (fill 0)) (.modify rfl) ?_
  rintro _ _ rfl
  refine (ends_initPage h hsame1 hmem1 hfree1 hdrew1 hgood1 hdir hfresh).does.mono ?_
  rintro _ s2 ⟨h1, h2, h3, -⟩
  exact ⟨h1, h2, h3⟩

theorem does_userinit (h : Booked U s) :
    Does p (fun _ => True) (userinit code) s fun _ s' => ∃ U', Booked U' s' := by
  refine Does.bind (ends_allocproc h).does ?_
  rintro r s1 ⟨hmem1, ⟨rfl, -⟩ | ⟨np, x, rfl, hunused, -, -, hsame1, hgood1⟩⟩
  · exact .atomic trivial
  refine Does.bind (ends_setupkvm (a := .proc np) hgood1 (books_unused hunused)).does ?_
  rintro r s2 ⟨hapart2, ⟨rfl, -⟩ | ⟨d, rfl, -, hgood2, -, hfresh, -⟩⟩
  · exact .panic trivial
  refine Does.bind (Q := fun _ s' => s' = s2.setProc np { s2.proc np with pgdir := some d })
    (.modify rfl) ?_
  rintro _ _ rfl
  refine Does.bind (does_inituvm hgood2 (Books.setDir_self _ _ _) hfresh) ?_
  rintro _ s4 ⟨hapart4, hshut, U', hgood4⟩
  obtain ⟨heq, hbooked⟩ := h.first hmem1 hsame1 hapart2 hapart4 hshut hgood4
  refine Does.modify ⟨U', ?_⟩
  rw [heq]
  exact hbooked

/-- The first process `p` has one page with its code. -/
structure Booted (p : Pid) (d : Page) (code : List UInt8) (s : State) : Prop where
  booked : ∃ U, Booked U s
  state : (s.proc p).state = .runnable
  pgdir : (s.proc p).pgdir = some d
  size : (s.proc p).sz = PGSIZE
  idle : ∀ q, q ≠ p → (s.proc q).state = .unused
  page : ∃ x, view s.mem d 0 = some (x * PGSIZE + 7, some ((fill 0).put 0 code))
  rest : ∀ v, v ≠ 0 → ¬ Direct v → lookup s.mem d v = none
  tables : ∀ i, i ≠ 0 → i ∉ kernelTables → entry s.mem d i = none

theorem Booted.live (h : Booted p d code s) : (s.proc p).state ≠ .unused := by
  rw [h.state]
  rintro ⟨⟩

theorem Booted.dir (h : Booted p d code s) : s.books.dir (.proc p) = some d :=
  (books_proc h.live).trans h.pgdir

theorem ends_inituvm (hcode : code.length < PGSIZE) (h : Good U s b) (hdir : b.dir a = some d)
    (hfresh : Fresh s.mem d) (hmem : ∀ k, k < 2 → ¬ FirstShort s k) :
    Ends p E (inituvm d code) s fun _ s' => Apart a b s s' ∧ Shut s'.mem d ∧
      (∃ U', Good U' s' b) ∧ Loaded₀ code d s s' := by
  refine Ends.ite (fun hcon => absurd hcode hcon.not_gt) fun _ => ?_
  refine Ends.bind (ends_kalloc h) ?_
  rintro r s1 ⟨hsame1, hmem1, ⟨rfl, hshort, -⟩ | ⟨y, rfl, hfree1, hdrew1, hgood1⟩⟩
  · exact absurd hshort (hmem 0 (by omega))
  refine Ends.bind_modify ((ends_initPage h hsame1 hmem1 hfree1 hdrew1 hgood1 hdir hfresh).mono ?_)
  rintro _ s2 ⟨h1, h2, h3, hshort | hloaded⟩
  · exact absurd hshort (hmem 1 (by omega))
  · exact ⟨h1, h2, h3, hloaded⟩

theorem ends_userinit (h : Booked U s) (hcode : code.length < PGSIZE)
    (hidle : ∀ q, (s.proc q).state = .unused) (hmem : ∀ k, k < 68 → ¬ FirstShort s k) :
    Ends p E (userinit code) s fun _ s' => Drew s s' 68 ∧ s'.deny = s.deny ∧
      ∃ np d, Booted np d code s' := by
  refine Ends.bind (ends_allocproc h) ?_
  rintro r s1 ⟨hmem1, ⟨rfl, -, -, -, hno⟩ | ⟨np, x, rfl, hunused, -, hdrew1, hsame1, hgood1⟩⟩
  · rcases hno with hfull | hshort
    · exact absurd (hidle initproc) (hfull initproc)
    · exact absurd hshort (hmem 0 (by omega))
  refine Ends.bind (ends_setupkvm (a := .proc np) hgood1 (books_unused hunused)) ?_
  rintro r s2 ⟨hapart2, ⟨rfl, -, n, hn, hshort⟩ | ⟨d, rfl, -, hgood2, hdrew2, hfresh, -⟩⟩
  · exact absurd (hdrew1.firstShort hsame1.deny hshort) (hmem _ (by omega))
  have hdeny2 : s2.deny = s.deny := hapart2.deny.trans hsame1.deny
  have hdrew : Drew s s2 66 := hdrew1.trans hsame1.deny hdrew2
  have hdrew3 : Drew s (s2.setProc np { s2.proc np with pgdir := some d }) 66 :=
    hdrew.of_eq rfl rfl
  refine Ends.bind_modify (Ends.bind (ends_inituvm hcode hgood2 (Books.setDir_self _ _ _) hfresh ?_)
    ?_)
  · exact fun k hk hshort => hmem _ (by omega) (hdrew3.firstShort hdeny2 hshort)
  rintro _ s4 ⟨hapart4, hshut, ⟨U', hgood4⟩, hloaded⟩
  obtain ⟨heq, hbooked⟩ := h.first hmem1 hsame1 hapart2 hapart4 hshut hgood4
  refine Ends.modify ?_
  rw [heq]
  have hself : update s.proc np (s.first np x d) np = s.first np x d :=
    update_self _ _ _
  refine ⟨(hdrew3.trans hdeny2 hloaded.drew).of_eq rfl rfl, hapart4.deny.trans hdeny2, np, d,
    ⟨U', hbooked⟩, congrArg Proc.state hself, congrArg Proc.pgdir hself, congrArg Proc.sz hself,
    fun q hq => ?_, hloaded.self, fun v hv hd => ?_, fun i hi hk => ?_⟩
  · show (update s.proc np (s.first np x d) q).state = .unused
    rw [update_of_ne hq]
    exact hidle q
  · refine (lookup_eq_of_view (hloaded.other v hv)).trans (hfresh.user v hd)
  · exact (hloaded.tables i hi).trans (hfresh.tables i hk)

end Init

section Main

variable {deny : ℕ → Bool} {n : ℕ}

theorem booked_empty (l : Layout) (deny : ℕ → Bool) :
    Booked (fun _ => False) (State.empty l deny) := by
  have hdir : ∀ a, (State.empty l deny).books.dir a = none := by
    intro a
    cases a with
    | kernel | new | proc q => rfl
  have hno : ∀ r x, ¬ Holds (State.empty l deny).mem [] (State.empty l deny).books r x := by
    intro r x hr
    cases r with
    | free | hand | stack q | pipe => cases hr
    | dir a | table a i | user a v => simp [Holds, hdir] at hr
  refine ⟨⟨fun r _ x hr => absurd hr (hno r x), List.nodup_nil, List.nodup_nil,
    fun r x hr => absurd hr (hno r x), fun x => ⟨False.elim, fun hx => hx.elim fun r => hno r x⟩⟩,
    fun a d hd => ?_, fun q hq => absurd rfl hq, fun q => ⟨fun _ => rfl, fun _ => rfl⟩,
    fun q => show 0 < 2 ^ 32 by decide⟩
  rw [hdir] at hd
  cases hd

def handOut (l : Layout) (n : ℕ) : VmM Unit := do
  freerange (PGROUNDUP l.kend / PGSIZE) (1024 - PGROUNDUP l.kend / PGSIZE)
  kvmalloc
  startothers n
  freerange 1024 (PHYSTOP / PGSIZE - 1024)

theorem main_eq : main l n code = (handOut l n).bind fun _ => userinit code := by
  simp only [main, handOut, bind_eq, bind_assoc]

theorem usable_low {y : ℕ} (h : PGROUNDUP l.kend / PGSIZE ≤ y) (hy : y < PHYSTOP / PGSIZE) :
    l.Usable y := by
  have hkend : l.kend ≤ KERNBASE := l.kend_le.trans (by decide)
  rw [PGROUNDUP_eq hkend, Nat.mul_div_cancel _ (by decide)] at h
  constructor
  · rw [← PGROUNDUP_le hkend, PGROUNDUP_eq hkend]
    exact Nat.mul_le_mul_right _ h
  · have := (Nat.le_div_iff_mul_le (by decide)).mp hy
    exact (Nat.mul_lt_mul_of_pos_right (Nat.lt_succ_self y) (by decide)).trans_le this

theorem kend_page_le (l : Layout) : PGROUNDUP l.kend / PGSIZE ≤ 1024 := by
  have hkend := l.kend_le
  rw [PGROUNDUP_eq (hkend.trans (by decide)), Nat.mul_div_cancel _ (by decide)]
  simp only [PGSIZE]
  omega

theorem ends_handOut : Ends p E (handOut l n) (.empty l deny) fun _ s' =>
    (∃ U, Booked U s') ∧ s'.proc = (State.empty l deny).proc ∧ s'.deny = deny ∧
      (PGROUNDUP l.kend / PGSIZE + 65 + n ≤ 1024 → (∀ k, k < 65 + n → deny k = false) →
        s'.kallocs = 65 + n ∧
          s'.freelist.length + PGROUNDUP l.kend / PGSIZE + 65 + n = PHYSTOP / PGSIZE) := by
  have hlow := kend_page_le l
  have hstop : PHYSTOP / PGSIZE = 57344 := rfl
  set low := PGROUNDUP l.kend / PGSIZE with hlow'
  refine Ends.bind (ends_freerange (x := low) _ (booked_empty l deny) fun k hk => ⟨not_false, ?_⟩) ?_
  · show l.Usable (low + k)
    exact usable_low (Nat.le_add_right _ _) (by omega)
  rintro _ s1 ⟨hsame1, hcalls1, hlen1, hbooked1⟩
  refine Ends.bind (ends_kvmalloc hbooked1 hsame1.kpgdir) ?_
  rintro _ s2 ⟨hbooked2, hproc2, hlayout2, hdeny2, hdrew2⟩
  refine Ends.bind (ends_startothers n hbooked2) ?_
  rintro _ s3 ⟨hsame3, ⟨U, hU, hbooked3⟩, hdrew3⟩
  have hlayout : s3.layout = l := hsame3.layout.trans (hlayout2.trans hsame1.layout)
  refine (ends_freerange (x := 1024) _ hbooked3 fun k hk => ⟨fun hcon => ?_, ?_⟩).mono ?_
  · rcases hU _ hcon with hno | ⟨-, hlt⟩
    · exact hno
    · have hlt' : 1024 + k < low + (1024 - low) := hlt
      omega
  · rw [hlayout]
    exact usable_low (by omega) (by omega)
  rintro _ s4 ⟨hsame4, hcalls4, hlen4, hbooked4⟩
  have hdeny2' : s2.deny = deny := hdeny2.trans hsame1.deny
  refine ⟨⟨_, hbooked4⟩, hsame4.proc.trans (hsame3.proc.trans (hproc2.trans hsame1.proc)),
    hsame4.deny.trans (hsame3.deny.trans hdeny2'), fun henough hdeny => ?_⟩
  have hlen1' : s1.freelist.length = 1024 - low := by
    rw [hlen1]
    exact Nat.zero_add _
  have hcalls1' : s1.kallocs = 0 := hcalls1
  -- No call has failed.
  have h2 : Drew s1 s2 65 := by
    refine hdrew2.resolve_left ?_
    rintro ⟨k, hk, hshort⟩
    rcases hshort.fails with hd | hl
    · rw [hsame1.deny, hcalls1'] at hd
      have := hdeny (0 + k) (by omega)
      have hd' : deny (0 + k) = true := hd
      rw [this] at hd'
      cases hd'
    · omega
  have h3 : Drew s2 s3 n := by
    refine hdrew3.resolve_left ?_
    rintro ⟨k, hk, hshort⟩
    have hcalls2 := h2.calls
    have hpages2 := h2.pages
    rcases hshort.fails with hd | hl
    · rw [hdeny2', hcalls2, hcalls1', hdeny _ (by omega)] at hd
      cases hd
    · omega
  have hcalls2 := h2.calls
  have hpages2 := h2.pages
  have hcalls3 := h3.calls
  have hpages3 := h3.pages
  constructor
  · omega
  · omega

theorem does_main : Does p (fun _ => True) (main l n code) (.empty l deny) fun _ s' =>
    ∃ U, Booked U s' := by
  rw [main_eq]
  refine Does.bind ends_handOut.does ?_
  rintro _ s' ⟨⟨U, hbooked⟩, -⟩
  exact does_userinit hbooked

theorem ends_main (hcode : code.length < PGSIZE)
    (hlow : PGROUNDUP l.kend / PGSIZE + 65 + n ≤ 1024) (hdeny : ∀ k, k < 133 + n → deny k = false) :
    Ends p E (main l n code) (.empty l deny) fun _ s' => s'.deny = deny ∧ s'.kallocs = 133 + n ∧
      s'.freelist.length + PGROUNDUP l.kend / PGSIZE + 133 + n = PHYSTOP / PGSIZE ∧
      ∃ np d, Booted np d code s' := by
  rw [main_eq]
  refine Ends.bind ends_handOut ?_
  rintro _ s1 ⟨⟨U, hbooked⟩, hproc, hdeny1, hnumbers⟩
  obtain ⟨hcalls, hlen⟩ := hnumbers hlow fun k hk => hdeny k (by omega)
  have hstop : PHYSTOP / PGSIZE = 57344 := rfl
  have hidle : ∀ q, (s1.proc q).state = .unused := fun q => by rw [hproc]; rfl
  refine (ends_userinit hbooked hcode hidle fun k hk hshort => ?_).mono ?_
  · rcases hshort.fails with hd | hl
    · rw [hdeny1, hcalls, hdeny _ (by omega)] at hd
      cases hd
    · omega
  · rintro _ s2 ⟨hdrew, hdeny2, hbooted⟩
    have h1 := hdrew.calls
    have h2 := hdrew.pages
    exact ⟨hdeny2.trans hdeny1, by omega, by omega, hbooted⟩

theorem boot_small (deny : ℕ → Bool) (hdeny : ∀ k, k < 133 → deny k = false) :
    ∃ t np d, (main smallLayout 0 []).run initproc ⟨.empty smallLayout deny, fun _ => none⟩ =
        .done () t ∧ t.st.deny = deny ∧ t.st.kallocs = 133 ∧ t.st.freelist.length = 56953 ∧
      Booted np d [] t.st := by
  have hends : Ends initproc (fun _ => False) (main smallLayout 0 []) (.empty smallLayout deny) _ :=
    ends_main (by decide) (by decide) hdeny
  obtain ⟨_, t, hrun, h1, h2, h3, np, d, hbooted⟩ := hends.run fun _ => none
  have hlow : PGROUNDUP smallLayout.kend / PGSIZE = 258 := by decide
  have hstop : PHYSTOP / PGSIZE = 57344 := by decide
  exact ⟨t, np, d, hrun, h1, h2, by omega, hbooted⟩

end Main

section Runs

variable {op : Op}

/-- The strings for `exec` are short. -/
def Op.Short : Op → Prop
  | .exec _ _ (some file) argv => Vm.Short file (argv.map Prod.snd)
  | _ => True

theorem does_trapPgflt {cr2 : ℕ} (h : Booked U s) (hp : (s.proc p).state ≠ .unused)
    (hcr2 : cr2 < 2 ^ 32) :
    Does p (fun _ => True) (trapPgflt p cr2) s fun _ s' => ∃ U', Booked U' s' := by
  obtain ⟨d, hpgdir, -⟩ := h.dir hp
  refine Does.bind (ends_pgfault h hp hpgdir hcr2 fun _ => trivial).does ?_
  rintro ok s1 ⟨hbooked, hapart, -⟩
  refine Does.ite (fun _ => Does.bind_read ?_) fun _ => .ret ⟨U, hbooked⟩
  refine Does.when (fun _ => ?_) fun _ => ⟨U, hbooked⟩
  rw [← hapart.proc] at hp
  exact (ends_exit trivial hbooked hp).does.mono fun _ _ h' => ⟨U, h'⟩

theorem does_op (h : Booked U s) (hen : op.Enabled s) (hshort : op.Short) :
    Does op.pid (fun _ => True) op.prog s fun _ s' => ∃ U', Booked U' s' := by
  obtain ⟨hrun, hcase⟩ := hen
  have hp : (s.proc op.pid).state ≠ .unused := by
    rw [hrun]
    rintro ⟨⟩
  obtain ⟨d, hpgdir, -⟩ := h.dir hp
  have hkeep : ∀ {α : Type} {x : VmM α}, (Does op.pid (fun _ => True) x s fun _ s' =>
      ∃ U', Booked U' s') → Does op.pid (fun _ => True) (x.bind fun _ => Prog.ret ()) s fun _ s' =>
      ∃ U', Booked U' s' := fun hx => hx.bind fun _ _ h' => .ret h'
  cases op with
  | fork p =>
    refine hkeep ((ends_fork h hp hpgdir fun _ _ => trivial).does.mono ?_)
    rintro _ _ ⟨h', -⟩
    exact h'
  | exec p path file argv =>
    cases file with
    | none => exact hkeep (.ret ⟨U, h⟩)
    | some file =>
      refine hkeep (ends_exec_booked ?_ hshort h hp hpgdir).does
      exact (hcase.1 file rfl).trans_lt (by decide)
  | exit p => exact (ends_exit trivial h hp).does.mono fun _ _ h' => ⟨U, h'⟩
  | wait p => exact hkeep (ends_wait h).does
  | sbrk p n =>
    refine hkeep ((ends_sysSbrk h n).does.mono ?_)
    rintro _ _ ⟨h', -⟩
    exact ⟨U, h'⟩
  | store p va c =>
    refine (ends_store h hp hpgdir va c).does.mono ?_
    rintro _ _ ⟨h', -⟩
    exact ⟨U, h'⟩
  | fault p cr2 => exact does_trapPgflt h hp hcase
  | pipe p => exact hkeep ((ends_pipealloc h).does.mono fun _ _ h' => ⟨U, h'⟩)
  | pipeclose p x writable =>
    obtain ⟨y, hy, -⟩ := hcase
    refine (ends_pipeclose h ?_).does.mono fun _ _ h' => ⟨U, h'⟩
    rw [hy]
    exact Option.some_ne_none y

theorem Reached.booked {C : State → Op → Prop} (hC : ∀ s op, C s op → op.Short)
    (h : Reached C s) : ∃ U, Booked U s := by
  induction h with
  | boot hrun => exact does_main.run hrun
  | step _ hen hc hrun ih =>
    obtain ⟨U, hbooked⟩ := ih
    exact (does_op hbooked hen (hC _ _ hc)).run hrun

end Runs

end Xv6.Vm
