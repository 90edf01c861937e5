import Xv6.Vm.Exec

namespace Xv6.Vm
open Lib Prog Function

def State.books (s : State) : Books where
  dir
    | .kernel => s.kpgdir
    | .proc p => if (s.proc p).state = .unused then none else (s.proc p).pgdir
    | .new => none
  stack p := (s.proc p).kstack
  pipe x := (s.pipe x).isSome
  hand := []

/-- The state is in order: the books are right, and what runs has memory to run in. -/
structure Booked (U : Page → Prop) (s : State) : Prop where
  good : Good U s s.books
  shut : ∀ a d, s.books.dir a = some d → Shut s.mem d
  pgdir : ∀ p, (s.proc p).state ≠ .unused → (s.proc p).pgdir ≠ none
  kstack : ∀ p, (s.proc p).kstack = none ↔ (s.proc p).state = .unused
  size : ∀ p, (s.proc p).sz < 2 ^ 32

variable {U U' : Page → Prop} {s s' : State} {p q : Pid} {d : Page} {E : String → Prop}

section SetProc

variable (s : State) (p q : Pid) (x y : Proc)

@[simp] theorem State.setProc_self : (s.setProc p x).proc p = x := update_self _ _ _

@[simp] theorem State.setProc_of_ne (h : q ≠ p) : (s.setProc p x).proc q = s.proc q :=
  update_of_ne h _ _

@[simp] theorem State.setProc_setProc : (s.setProc p x).setProc p y = s.setProc p y := by
  unfold State.setProc
  rw [update_idem]

theorem State.setProc_eq_self (h : s.proc p = x) : s.setProc p x = s := by
  unfold State.setProc
  rw [← h, update_eq_self]

end SetProc

section Books

variable {a a' : Space} {b : Books}

theorem books_dir (s : State) (p : Pid) : s.books.dir (.proc p) =
    if (s.proc p).state = .unused then none else (s.proc p).pgdir := rfl

theorem books_proc (h : (s.proc p).state ≠ .unused) : s.books.dir (.proc p) = (s.proc p).pgdir :=
  if_neg h

theorem books_unused (h : (s.proc p).state = .unused) : s.books.dir (.proc p) = none := if_pos h

theorem Booked.dir (h : Booked U s) (hp : (s.proc p).state ≠ .unused) :
    ∃ d, (s.proc p).pgdir = some d ∧ s.books.dir (.proc p) = some d ∧ Shut s.mem d := by
  obtain ⟨d, hd⟩ := Option.ne_none_iff_exists'.mp (h.pgdir p hp)
  have hdir := (books_proc hp).trans hd
  exact ⟨d, hd, hdir, h.shut _ d hdir⟩

theorem Books.setDir_eq_self (b : Books) {o : Option Page} (h : b.dir a = o) : b.setDir a o = b := by
  subst h
  unfold Books.setDir
  rw [update_eq_self]

theorem Shut.of_view {m m' : Mem} (h : Shut m d) (hv : ∀ v, view m' d v = view m d v) :
    Shut m' d := h.of_look fun v => lookup_eq_of_view (hv v)

theorem Same.books (h : Same s s') : s'.books = s.books := by
  unfold State.books
  rw [h.proc, h.pipe, h.kpgdir]

theorem Booked.of_apart (h : Booked U s) (hgood : Good U' s' s.books)
    (hapart : Apart (.proc p) s.books s s')
    (hshut : ∀ d, s.books.dir (.proc p) = some d → Shut s'.mem d) : Booked U' s' := by
  have hbooks := hapart.toSame.books
  refine ⟨hbooks ▸ hgood, fun a d hd => ?_, ?_, ?_, ?_⟩
  · rw [hbooks] at hd
    by_cases ha : a = .proc p
    · subst ha
      exact hshut d hd
    · exact (h.shut a d hd).of_view (hapart.view_eq ha hd)
  · rw [hapart.proc]
    exact h.pgdir
  · rw [hapart.proc]
    exact h.kstack
  · rw [hapart.proc]
    exact h.size

theorem Booked.of_proc (h : Booked U s) {f : Pid → Proc}
    (hstate : ∀ q, (f q).state = .unused ↔ (s.proc q).state = .unused)
    (hpgdir : ∀ q, (f q).pgdir = (s.proc q).pgdir) (hstack : ∀ q, (f q).kstack = (s.proc q).kstack)
    (hsize : ∀ q, (f q).sz < 2 ^ 32) : Booked U { s with proc := f } := by
  have hbooks : ({ s with proc := f } : State).books = s.books := by
    unfold State.books
    congr 1
    · funext a
      cases a with
      | kernel | new => rfl
      | proc q => simp only [hstate, hpgdir]
    · exact funext hstack
  refine ⟨hbooks ▸ h.good, fun a d hd => h.shut a d (hbooks ▸ hd), fun q hq => ?_, fun q => ?_,
    hsize⟩
  · show (f q).pgdir ≠ none
    rw [hpgdir]
    exact h.pgdir q fun hu => hq ((hstate q).mpr hu)
  · show (f q).kstack = none ↔ (f q).state = .unused
    rw [hstack, hstate]
    exact h.kstack q

theorem Booked.setProc (h : Booked U s) {x : Proc}
    (hstate : x.state = .unused ↔ (s.proc p).state = .unused) (hpgdir : x.pgdir = (s.proc p).pgdir)
    (hstack : x.kstack = (s.proc p).kstack) (hsize : x.sz < 2 ^ 32) : Booked U (s.setProc p x) := by
  have hq : ∀ q, ((update s.proc p x q).state = .unused ↔ (s.proc q).state = .unused) ∧
      (update s.proc p x q).pgdir = (s.proc q).pgdir ∧
      (update s.proc p x q).kstack = (s.proc q).kstack ∧
      (update s.proc p x q).sz < 2 ^ 32 := by
    intro q
    by_cases hqp : q = p
    · subst hqp
      rw [update_self]
      exact ⟨hstate, hpgdir, hstack, hsize⟩
    · rw [update_of_ne hqp]
      exact ⟨Iff.rfl, rfl, rfl, h.size q⟩
  exact h.of_proc (fun q => (hq q).1) (fun q => (hq q).2.1) (fun q => (hq q).2.2.1)
    fun q => (hq q).2.2.2

end Books

section Small

theorem zombie_proc (hp : (s.proc p).state ≠ .unused) (q : Pid) :
    (((s.zombie p).proc q).state = .unused ↔ (s.proc q).state = .unused) ∧
      ((s.zombie p).proc q).pgdir = (s.proc q).pgdir ∧
      ((s.zombie p).proc q).kstack = (s.proc q).kstack ∧
      ((s.zombie p).proc q).sz = (s.proc q).sz := by
  unfold State.zombie
  by_cases hqp : q = p
  · subst hqp
    by_cases hpar : (s.proc q).parent = some q
    · simp [hpar, hp]
    · simp [hpar, hp]
  · by_cases hpar : (s.proc q).parent = some p
    · simp [hpar, hqp]
    · simp [hpar, hqp]

theorem Booked.zombie (h : Booked U s) (hp : (s.proc p).state ≠ .unused) :
    Booked U (s.zombie p) := by
  have hq := zombie_proc hp
  exact h.of_proc (fun q => (hq q).1) (fun q => (hq q).2.1) (fun q => (hq q).2.2.1)
    fun q => (hq q).2.2.2 ▸ h.size q

theorem ends_exit (hE : E "init exiting") (h : Booked U s) (hp : (s.proc p).state ≠ .unused) :
    Ends p E (exit p) s fun _ s' => Booked U s' := by
  refine Ends.bind (Q := fun _ s' => s' = s) (Ends.when (fun _ => .panic hE) fun _ => rfl) ?_
  rintro _ _ rfl
  exact .modify (h.zombie hp)

theorem grown_lt (sz : ℕ) (n : ℤ) : grown sz n < 2 ^ 32 := by
  unfold grown
  omega

theorem ends_sysSbrk (h : Booked U s) (n : Option ℤ) :
    Ends p E (sysSbrk p n) s fun _ s' => Booked U s' ∧ s'.mem = s.mem ∧
      s'.freelist = s.freelist := by
  cases n with
  | none => exact .ret ⟨h, rfl, rfl⟩
  | some n =>
    exact Ends.atomic rfl ⟨h.setProc Iff.rfl rfl rfl (grown_lt _ n), rfl, rfl⟩

theorem ends_store (h : Booked U s) (hp : (s.proc p).state ≠ .unused)
    (hpgdir : (s.proc p).pgdir = some d) (va : ℕ) (c : UInt8) :
    Ends p E (store p va c) s fun _ s' => Booked U s' ∧ Good U s' s.books ∧
      ((∃ w, lookup s.mem d (va / PGSIZE) = some w ∧ User w ∧ Writable w) ∧
          Wrote d va [c] s s' ∨
        ¬ (∃ w, lookup s.mem d (va / PGSIZE) = some w ∧ User w ∧ Writable w) ∧ s' = s) := by
  have hdir := (books_proc hp).trans hpgdir
  have hshut := h.shut _ d hdir
  refine Ends.modify ?_
  rw [hpgdir, Option.bind_some]
  cases hw : lookup s.mem d (va / PGSIZE) with
  | none => exact ⟨h, h.good, .inr ⟨by rintro ⟨w, ⟨⟩, -⟩, rfl⟩⟩
  | some w =>
    dsimp only
    split_ifs with hok
    · have hnd := hshut.not_direct ⟨w, hw, hok.1⟩
      have hmod : va % PGSIZE + [c].length ≤ PGSIZE := Nat.mod_lt _ (by decide)
      have hwrote := (h.good.plain hdir).wrote hnd hw hmod
      rw [Nat.mul_comm, Nat.div_add_mod] at hwrote
      obtain ⟨hgood, hapart⟩ := h.good.of_wrote hdir hwrote
      refine ⟨h.of_apart hgood hapart fun d' hd' => ?_, hgood,
        .inl ⟨⟨w, rfl, hok⟩, hwrote⟩⟩
      rw [hdir] at hd'
      cases hd'
      exact hshut.of_look hwrote.look
    · refine ⟨h, h.good, .inr ⟨?_, rfl⟩⟩
      rintro ⟨w', hw', hok'⟩
      cases hw'
      exact hok hok'

theorem ends_pgfault {cr2 : ℕ} (h : Booked U s) (hp : (s.proc p).state ≠ .unused)
    (hpgdir : (s.proc p).pgdir = some d) (hcr2 : cr2 < 2 ^ 32)
    (hE : lookup s.mem d (cr2 / PGSIZE) ≠ none → E "remap") :
    Ends p E (pgfault p cr2) s fun ok s' => Booked U s' ∧ Apart (.proc p) s.books s s' ∧
      Good U s' s.books ∧
      (ok = false ∧ (∀ v, view s'.mem d v = view s.mem d v) ∧
          (FirstShort s 0 ∨ FirstShort s 1 ∧ entry s.mem d (cr2 / PGSIZE / 1024) = none) ∨
        ok = true ∧ lookup s.mem d (cr2 / PGSIZE) = none ∧
          Linked d (cr2 / PGSIZE / 1024) 1 s s' ∧
          (∃ x, view s'.mem d (cr2 / PGSIZE) = some (x * PGSIZE + 7, some (fill 0))) ∧
          ∀ v, v ≠ cr2 / PGSIZE → view s'.mem d v = view s.mem d v) := by
  have hdir := (books_proc hp).trans hpgdir
  have hshut := h.shut _ d hdir
  have hown : ∀ {m : Mem}, (∀ v, view m d v = view s.mem d v) →
      ∀ d', s.books.dir (.proc p) = some d' → Shut m d' := by
    intro m hv d' hd'
    rw [hdir] at hd'
    cases hd'
    exact hshut.of_view hv
  refine Ends.bind (ends_kalloc h.good) ?_
  rintro r s1 ⟨hsame1, hmem1, ⟨rfl, hshort, hfree1, hgood1⟩ | ⟨x, rfl, hfree1, hdrew1, hgood1⟩⟩
  · have hapart : Apart (.proc p) s.books s s1 := ⟨hsame1, fun _ _ _ _ => by rw [hmem1]⟩
    have hview : ∀ v, view s1.mem d v = view s.mem d v := fun v => by rw [hmem1]
    exact .ret ⟨h.of_apart hgood1 hapart (hown hview), hapart, hgood1,
      .inl ⟨rfl, hview, .inl hshort⟩⟩
  have hpgdir1 : (s1.proc p).pgdir = some d := by rw [hsame1.proc, hpgdir]
  refine Ends.bind_modify (Ends.bind_read ?_)
  simp only [State.setPage, hpgdir1]
  have hdown : PGROUNDDOWN cr2 / PGSIZE = cr2 / PGSIZE := Nat.mul_div_cancel _ (by decide)
  have hlt : PGROUNDDOWN cr2 < 2 ^ 32 := (Nat.div_mul_le_self _ _).trans_lt hcr2
  have hpage : cr2 / PGSIZE < 2 ^ 20 := by
    simp only [PGSIZE]
    omega
  have hdirect : Direct (cr2 / PGSIZE) → lookup s.mem d (cr2 / PGSIZE) ≠ none := by
    intro hv hnone
    obtain ⟨w, hw, -⟩ := hshut _ hv hpage
    rw [hnone] at hw
    cases hw
  refine Ends.bind (ends_mapFresh (fill 0) (PTE_W ||| PTE_U) h.good hsame1 hmem1 hfree1 hdrew1
    hgood1 hdir (by decide) (Nat.mul_mod_left _ _) hlt (by rwa [hdown]) (by rwa [hdown])) ?_
  rw [PDX_eq hlt, hdown]
  rintro ok s2 ⟨hapart2, ⟨rfl, hgood2, hview2, -, hshort, hnone⟩ |
    ⟨rfl, hgood2, hlinked, hnone, hself, hother⟩⟩
  · refine Ends.bind (ends_kfree hgood2 List.mem_cons_self) ?_
    rintro _ s3 ⟨hsame3, hmem3, hfree3, hgood3⟩
    rw [List.erase_cons_head] at hgood3
    have hxfree : x ∈ s.freelist := hfree1 ▸ List.mem_cons_self
    have hapart3 : Apart (.proc p) s.books s s3 :=
      hapart2.write_free h.good hxfree hsame3 fun z hz => by rw [hmem3, update_of_ne hz]
    have hview3 : ∀ v, view s3.mem d v = view s.mem d v := by
      intro v
      rw [← hview2 v, hmem3]
      exact hgood2.view_other (a := .proc p) (r := .hand) (.inr trivial) hdir List.mem_cons_self
        (fun z hz => update_of_ne hz _ _) v
    exact .ret ⟨h.of_apart hgood3 hapart3 (hown hview3), hapart3, hgood3,
      .inl ⟨rfl, hview3, .inr ⟨hshort, hnone⟩⟩⟩
  · refine .ret ⟨h.of_apart hgood2 hapart2 fun d' hd' => ?_, hapart2, hgood2,
      .inr ⟨rfl, hnone, hlinked, ⟨x, hself⟩, hother⟩⟩
    rw [hdir] at hd'
    cases hd'
    intro v hv hvlt
    have hne : v ≠ cr2 / PGSIZE := by
      rintro rfl
      exact hdirect hv hnone
    rw [lookup_eq_of_view (hother v hne)]
    exact hshut v hv hvlt

end Small

section Pipes

variable {x : Page}

theorem Booked.of_view (h : Booked U s) (hgood : Good U' s' s'.books) (hproc : s'.proc = s.proc)
    (hk : s'.kpgdir = s.kpgdir)
    (hview : ∀ a d, s.books.dir a = some d → ∀ v, view s'.mem d v = view s.mem d v) :
    Booked U' s' := by
  have hdir : s'.books.dir = s.books.dir := by
    funext a
    cases a with
    | kernel => exact hk
    | new => rfl
    | proc q =>
      unfold State.books
      rw [hproc]
  refine ⟨hgood, fun a d hd => ?_, hproc ▸ h.pgdir, hproc ▸ h.kstack, hproc ▸ h.size⟩
  rw [hdir] at hd
  exact (h.shut a d hd).of_view (hview a d hd)

theorem ends_pipealloc (h : Booked U s) : Ends p E pipealloc s fun _ s' => Booked U s' := by
  refine Ends.bind (ends_kalloc h.good) ?_
  rintro r s1 ⟨hsame, hmem, ⟨rfl, -, -, hgood⟩ | ⟨x, rfl, -, -, hgood⟩⟩
  · refine .ret (h.of_view (hsame.books ▸ hgood) hsame.proc hsame.kpgdir fun _ _ _ _ => ?_)
    rw [hmem]
  · refine Ends.bind_modify (.ret (h.of_view ?_ hsame.proc hsame.kpgdir fun _ _ _ _ => ?_))
    · have hpipe := Inv.toPipe hgood List.mem_cons_self
      rw [List.erase_cons_head] at hpipe
      have hbooks : ({ s1 with pipe := update s1.pipe x (some ⟨true, true⟩) } : State).books =
          { s.books with pipe := update s.books.pipe x true, hand := [] } := by
        rw [← hsame.books]
        unfold State.books
        congr 1
        funext z
        by_cases hz : z = x
        · subst hz
          simp
        · simp [hz]
      rw [hbooks]
      exact hpipe
    · rw [hmem]

theorem ends_pipeclose (h : Booked U s) {writable : Bool} (hx : s.pipe x ≠ none) :
    Ends p E (pipeclose x writable) s fun _ s' => Booked U s' := by
  obtain ⟨pipe, hpipe⟩ := Option.ne_none_iff_exists'.mp hx
  refine Ends.bind_read ?_
  rw [hpipe]
  refine Ends.ite (fun _ => ?_) fun _ => ?_
  · -- The other end is still open.
    refine Ends.modify (h.of_view ?_ rfl rfl fun _ _ _ _ => rfl)
    have hbooks : ({ s with pipe := update s.pipe x (some (pipe.close writable)) } :
        State).books = s.books := by
      unfold State.books
      congr 1
      funext z
      by_cases hz : z = x
      · subst hz
        simp [hpipe]
      · simp [hz]
    exact hbooks ▸ h.good
  · have hhold : s.books.pipe x = true := by
      show (s.pipe x).isSome = true
      rw [hpipe]
      rfl
    have hgood : Good U s { s.books with pipe := update s.books.pipe x false, hand := [x] } :=
      Inv.ofPipe h.good hhold
    refine Ends.bind (ends_kfree hgood List.mem_cons_self) ?_
    rintro _ s1 ⟨hsame, hmem, -, hgood1⟩
    rw [List.erase_cons_head] at hgood1
    refine Ends.modify (h.of_view ?_ hsame.proc hsame.kpgdir fun a d hd v => ?_)
    · have hbooks : ({ s1 with pipe := update s1.pipe x none } : State).books =
          { s.books with pipe := update s.books.pipe x false, hand := [] } := by
        rw [← hsame.books]
        unfold State.books
        congr 1
        funext z
        by_cases hz : z = x
        · subst hz
          simp
        · simp [hz]
      rw [hbooks]
      exact hgood1
    · rw [hmem]
      exact h.good.view_other (r := .pipe) (.inr trivial) hd hhold
        (fun z hz => update_of_ne hz _ _) v

end Pipes

section Processes

theorem Booked.of_update (h : Booked U s) (x : Proc) (hproc : s'.proc = update s.proc q x)
    (hpipe : s'.pipe = s.pipe) (hk : s'.kpgdir = s.kpgdir)
    (hgood : Good U' s' { s.books.setDir (.proc q) (if x.state = .unused then none else x.pgdir) with
      stack := update s.books.stack q x.kstack })
    (hpgdir : x.state ≠ .unused → ∃ d, x.pgdir = some d ∧ Shut s'.mem d)
    (hkstack : x.kstack = none ↔ x.state = .unused) (hsize : x.sz < 2 ^ 32)
    (hview : ∀ a d, a ≠ .proc q → s.books.dir a = some d → ∀ v,
      view s'.mem d v = view s.mem d v) : Booked U' s' := by
  have hself : s'.proc q = x := by rw [hproc, update_self]
  have hother : ∀ r, r ≠ q → s'.proc r = s.proc r := fun r hr => by
    rw [hproc, update_of_ne hr]
  have hbooks : s'.books =
      { s.books.setDir (.proc q) (if x.state = .unused then none else x.pgdir) with
        stack := update s.books.stack q x.kstack } := by
    have hdir : s'.books.dir =
        (s.books.setDir (.proc q) (if x.state = .unused then none else x.pgdir)).dir := by
      funext a
      by_cases ha : a = .proc q
      · subst ha
        rw [Books.setDir_self, books_dir, hself]
      · rw [Books.setDir_of_ne _ _ ha]
        cases a with
        | kernel => exact hk
        | new => rfl
        | proc r =>
          rw [books_dir, books_dir, hother r fun hr => ha (hr ▸ rfl)]
    have hstack : s'.books.stack = update s.books.stack q x.kstack := by
      funext r
      by_cases hr : r = q
      · subst hr
        rw [update_self]
        exact congrArg Proc.kstack hself
      · rw [update_of_ne hr]
        exact congrArg Proc.kstack (hother r hr)
    have hpipes : s'.books.pipe = s.books.pipe := by
      unfold State.books
      rw [hpipe]
    calc s'.books = ⟨s'.books.dir, s'.books.stack, s'.books.pipe, []⟩ := rfl
      _ = _ := by rw [hdir, hstack, hpipes]; rfl
  refine ⟨hbooks ▸ hgood, fun a d hd => ?_, fun r hr => ?_, fun r => ?_, fun r => ?_⟩
  · rw [hbooks] at hd
    by_cases ha : a = .proc q
    · subst ha
      have hd' : (if x.state = .unused then none else x.pgdir) = some d :=
        (Books.setDir_self _ _ _).symm.trans hd
      split_ifs at hd' with hu
      obtain ⟨d', hx, hshut⟩ := hpgdir hu
      rw [hx] at hd'
      cases hd'
      exact hshut
    · have hd' : s.books.dir a = some d := (Books.setDir_of_ne _ _ ha).symm.trans hd
      exact (h.shut a d hd').of_view (hview a d ha hd')
  · by_cases hrq : r = q
    · subst hrq
      rw [hself] at hr ⊢
      obtain ⟨d, hx, -⟩ := hpgdir hr
      rw [hx]
      exact Option.some_ne_none d
    · rw [hother r hrq] at hr ⊢
      exact h.pgdir r hr
  · by_cases hrq : r = q
    · subst hrq
      rw [hself]
      exact hkstack
    · rw [hother r hrq]
      exact h.kstack r
  · by_cases hrq : r = q
    · subst hrq
      rw [hself]
      exact hsize
    · rw [hother r hrq]
      exact h.size r

theorem ends_wait (h : Booked U s) : Ends p E (wait p) s fun _ s' => ∃ U', Booked U' s' := by
  refine Ends.bind_read ?_
  cases hq : (List.finRange NPROC).find? fun q =>
      decide ((s.proc q).parent = some p ∧ (s.proc q).state = .zombie) with
  | none => exact .ret ⟨U, h⟩
  | some q =>
    have hfound := List.find?_some hq
    have hzombie : (s.proc q).state = .zombie := (of_decide_eq_true hfound).2
    have hlive : (s.proc q).state ≠ .unused := by
      rw [hzombie]
      rintro ⟨⟩
    obtain ⟨d, hpgdir, hdir, -⟩ := h.dir hlive
    obtain ⟨x, hx⟩ := Option.ne_none_iff_exists'.mp fun hk => hlive ((h.kstack q).mp hk)
    refine Ends.bind_read ?_
    dsimp only
    rw [hx]
    -- The kernel stack.
    have hgood : Good U s { s.books with stack := update s.books.stack q none, hand := [x] } :=
      Inv.ofStack h.good hx
    refine Ends.bind (ends_kfree hgood List.mem_cons_self) ?_
    rintro _ s1 ⟨hsame1, hmem1, -, hgood1⟩
    rw [List.erase_cons_head] at hgood1
    refine Ends.bind_modify ?_
    rw [hpgdir]
    refine Ends.bind (ends_freevm (a := .proc q) hgood1.setProc hdir) ?_
    rintro _ s2 ⟨hapart2, U', hgood2, -⟩
    have hproc2 : s2.proc = (s.setProc q { s.proc q with kstack := none }).proc := by
      rw [hapart2.proc]
      show update s1.proc q _ = _
      rw [hsame1.proc]
      rfl
    refine Ends.bind_modify (.ret ⟨U', h.of_update (q := q)
      { s.proc q with
        kstack := none
        parent := none
        name := []
        killed := false
        state := .unused }
      ?_ (hapart2.pipe.trans hsame1.pipe) (hapart2.kpgdir.trans hsame1.kpgdir) hgood2
      (fun hcon => absurd rfl hcon) ⟨fun _ => rfl, fun _ => rfl⟩ (h.size q)
      fun a d' ha hd' v => ?_⟩)
    · show update s2.proc q _ = _
      rw [hproc2, State.setProc_self]
      exact congrArg State.proc (s.setProc_setProc q _ _)
    · refine (hapart2.view_eq ha hd' v).trans ?_
      show view s1.mem d' v = _
      rw [hmem1]
      exact h.good.view_other (r := .stack q) (.inr trivial) hd' hx
        (fun z hz => update_of_ne hz _ _) v

theorem ends_allocproc (h : Booked U s) : Ends p E allocproc s fun r s' => s'.mem = s.mem ∧
    (r = none ∧ Same s s' ∧ s'.freelist = s.freelist ∧ Good U s' s.books ∧
        ((∀ q, (s.proc q).state ≠ .unused) ∨ FirstShort s 0) ∨
      ∃ np x, r = some np ∧ (s.proc np).state = .unused ∧ s.freelist = x :: s'.freelist ∧
        Drew s s' 1 ∧
        Same (s.setProc np { s.proc np with state := .embryo, kstack := some x }) s' ∧
        Good U s' { s.books with stack := update s.books.stack np (some x) }) := by
  cases hfind : (List.finRange NPROC).find? fun q => decide ((s.proc q).state = .unused) with
  | none =>
    refine Ends.bind (Q := fun a t => a = none ∧ t = s)
      (.atomic (a := none) (t := s) (by rw [hfind]) ⟨rfl, rfl⟩) ?_
    rintro _ t ⟨rfl, ht⟩
    subst ht
    refine .ret ⟨rfl, .inl ⟨rfl, .refl _, rfl, h.good, .inl fun q hq => ?_⟩⟩
    have := List.find?_eq_none.mp hfind q (List.mem_finRange q)
    simp [hq] at this
  | some np =>
    have hfound := List.find?_some hfind
    have hunused : (s.proc np).state = .unused := of_decide_eq_true hfound
    have hstack : (s.proc np).kstack = none := (h.kstack np).mpr hunused
    refine Ends.bind (Q := fun a t => a = some np ∧
        t = s.setProc np { s.proc np with state := .embryo })
      (.atomic (a := some np) (t := s.setProc np { s.proc np with state := .embryo })
        (by rw [hfind]) ⟨rfl, rfl⟩) ?_
    rintro _ _ ⟨rfl, rfl⟩
    refine Ends.bind (ends_kalloc h.good.setProc) ?_
    rintro r s1 ⟨hsame1, hmem1, ⟨rfl, hshort, hfree1, hgood1⟩ | ⟨x, rfl, hfree1, hdrew1, hgood1⟩⟩
    · refine Ends.bind_modify (Ends.bind_modify (.ret ⟨hmem1, .inl ⟨rfl, ?_, hfree1, hgood1,
        .inr ⟨hshort.granted, hshort.pages, hshort.fails⟩⟩⟩))
      -- The slot is as before.
      refine ⟨?_, hsame1.pipe, hsame1.kpgdir, hsame1.layout, hsame1.deny⟩
      have hback : s.proc np = { s.proc np with state := .unused, kstack := none } := by
        rw [← hunused, ← hstack]
      rw [State.setProc_self, State.setProc_setProc, hsame1.proc, State.setProc_self]
      show update s1.proc np _ = s.proc
      rw [hsame1.proc]
      exact (congrArg State.proc (s.setProc_setProc np _ _)).trans
        (congrArg State.proc (s.setProc_eq_self np _ hback))
    · refine Ends.bind_modify (.ret ⟨hmem1, .inr ⟨np, x, rfl, hunused, hfree1,
        ⟨hdrew1.calls, hdrew1.pages, hdrew1.granted⟩, ?_, ?_⟩⟩)
      · refine ⟨?_, hsame1.pipe, hsame1.kpgdir, hsame1.layout, hsame1.deny⟩
        show update s1.proc np _ = update s.proc np _
        rw [hsame1.proc]
        simp [State.setProc]
      · have := Inv.toStack hgood1 (p := np) hstack List.mem_cons_self
        rw [List.erase_cons_head] at this
        exact this

end Processes

section Fork

variable {np : Pid}

def State.child (s : State) (p np : Pid) (x d' : Page) : Proc :=
  { s.proc np with
    state := .embryo
    kstack := some x
    pgdir := some d'
    sz := (s.proc p).sz
    parent := some p
    tf := { (s.proc p).tf with eax := 0 } }

/-- The child has a copy of the memory of its parent. -/
structure Forked (p np : Pid) (d d' : Page) (s s' : State) : Prop where
  shut : Shut s'.mem d'
  copied : ∀ v, v * PGSIZE < (s.proc p).sz → Copied s.mem d s'.mem d' v
  above : ∀ v, (s.proc p).sz ≤ v * PGSIZE → ¬ Direct v → lookup s'.mem d' v = none
  other : ∀ a c, s.books.dir a = some c → ∀ v, view s'.mem c v = view s.mem c v

section

variable (h : Booked U s) (hp : (s.proc p).state ≠ .unused) (hpgdir : (s.proc p).pgdir = some d)
  (hE : (∃ v, v * PGSIZE < (s.proc p).sz ∧ (lookup s.mem d v = none ∨ Direct v)) → ∀ e, E e)
include h hp hpgdir hE

/-- Memory is copied to a process that is not in use, or everything is as before but for a page
that is lost when there was none for a page table. -/
theorem ends_forkMemory :
    Ends p E (forkMemory p) s fun r s' =>
      r = none ∧ (∀ q, (s'.proc q).state = (s.proc q).state) ∧ (∃ U', Booked U' s') ∧
          ((∀ q, (s.proc q).state ≠ .unused) ∧ (∀ x, x ∈ s'.freelist ↔ x ∈ s.freelist) ∨
            (∃ q, (s.proc q).state = .unused) ∧
              ∃ k, k ≤ 67 + copyCalls ((s.proc p).sz / PGSIZE) ∧ FirstShort s k ∧
                ((∀ x, x ∈ s'.freelist ↔ x ∈ s.freelist) ↔ ¬ TableCall 67 (s.proc p).sz k)) ∨
        ∃ np x d', r = some np ∧ (s.proc np).state = .unused ∧
          Same (s.setProc np (s.child p np x d')) s' ∧ Forked p np d d' s s' ∧
          (∃ k, k ≤ 66 + copyCalls ((s.proc p).sz / PGSIZE + 1) ∧
            (∀ i, TableCall 67 (s.proc p).sz i → i < k) ∧ Drew s s' k) ∧
          Good U s' { s.books.setDir (.proc np) (some d') with
            stack := update s.books.stack np (some x) } := by
  refine Ends.bind (ends_allocproc h) ?_
  rintro r s1 ⟨hmem1, ⟨rfl, hsame1, hfree1, hgood1, hwhy⟩ |
    ⟨np, x, rfl, hunused, hfree1, hdrew1, hsame1, hgood1⟩⟩
  · have hkept : ∀ z, z ∈ s1.freelist ↔ z ∈ s.freelist := fun z => by rw [hfree1]
    refine .ret (.inl ⟨rfl, fun q => by rw [hsame1.proc], ⟨U, ?_⟩, ?_⟩)
    · refine h.of_view (hsame1.books ▸ hgood1) hsame1.proc hsame1.kpgdir fun _ _ _ _ => ?_
      rw [hmem1]
    · by_cases hfull : ∀ q, (s.proc q).state ≠ .unused
      · exact .inl ⟨hfull, hkept⟩
      · refine .inr ⟨by simpa using hfull, 0, Nat.zero_le _, hwhy.resolve_left hfull, fun _ => ?_,
          fun _ => hkept⟩
        rintro ⟨j, -, hj⟩
        omega
  have hne : p ≠ np := by
    rintro rfl
    exact hp hunused
  have hproc1 : s1.proc p = s.proc p := by
    rw [hsame1.proc]
    exact s.setProc_of_ne np p _ hne
  have hstack : s.books.stack np = none := (h.kstack np).mpr hunused
  have hdirnp : s.books.dir (.proc np) = none := books_unused hunused
  have hdir : s.books.dir (.proc p) = some d := (books_proc hp).trans hpgdir
  refine Ends.bind_read ?_
  dsimp only
  rw [hproc1, hpgdir]
  have hdir1 : ({ s.books with stack := update s.books.stack np (some x) } : Books).dir
      (.proc p) = some d := hdir
  refine Ends.bind (ends_copyuvm (a := .new) hdir1 hgood1 rfl ?_) ?_
  · rw [hmem1]
    exact hE
  rintro r s2 ⟨hapart2, ⟨rfl, U', k, hgood2, hk, hwhy, hlost⟩ |
    ⟨d', rfl, hgood2, ⟨k, hk, htables, hdrew2⟩, hshut, hcopied, habove⟩⟩
  · -- The kernel stack is given back.
    refine Ends.bind_modify (Ends.bind_read ?_)
    rw [State.setProc_self, hapart2.proc, hsame1.proc, State.setProc_self]
    have hhand : Good U' s2 { s.books with hand := [x] } := by
      have := Inv.ofStack hgood2 (p := np) (x := x) (update_self _ _ _)
      rw [update_idem, ← hstack, update_eq_self] at this
      exact this
    refine Ends.bind (ends_kfree (b := { s.books with hand := [x] }) hhand List.mem_cons_self) ?_
    rintro _ s3 ⟨hsame3, hmem3, hfree3, hgood3⟩
    rw [List.erase_cons_head] at hgood3
    have hproc3 : s3.proc = (s.setProc np
        { s.proc np with state := .embryo, kstack := some x, pgdir := none }).proc := by
      rw [hsame3.proc]
      show update s2.proc np _ = _
      rw [hapart2.proc, hsame1.proc]
      exact congrArg State.proc (s.setProc_setProc np _ _)
    refine Ends.bind_modify (.ret (.inl ⟨rfl, fun q => ?_, ⟨U', ?_⟩,
      .inr ⟨⟨np, hunused⟩, 1 + k, by omega, hdrew1.firstShort hsame1.deny hwhy, ?_⟩⟩))
    · rw [hproc3]
      by_cases hq : q = np
      · subst hq
        rw [State.setProc_self, State.setProc_self]
        exact hunused.symm
      · rw [State.setProc_of_ne _ _ _ _ hq, hproc3, State.setProc_of_ne _ _ _ _ hq]
    · have hback : ({ s.books.setDir (.proc np) none with
          stack := update s.books.stack np none } : Books) = s.books := by
        rw [s.books.setDir_eq_self hdirnp, update_eq_self_iff.mpr hstack.symm]
      refine h.of_update (q := np) { s.proc np with state := .unused, kstack := none, pgdir := none }
        ?_ (hsame3.pipe.trans (hapart2.pipe.trans hsame1.pipe))
        (hsame3.kpgdir.trans (hapart2.kpgdir.trans hsame1.kpgdir)) ?_
        (fun hcon => absurd rfl hcon) ⟨fun _ => rfl, fun _ => rfl⟩ (h.size np) fun a c ha hc v => ?_
      · show update s3.proc np _ = _
        rw [hproc3, State.setProc_self]
        exact congrArg State.proc (s.setProc_setProc np _ _)
      · show Good U' s3 { s.books.setDir (.proc np) none with
          stack := update s.books.stack np none }
        rw [hback]
        exact hgood3
      · have hanew : a ≠ .new := by
          rintro rfl
          cases hc
        show view s3.mem c v = _
        rw [hmem3]
        refine (hhand.view_other (a := a) (r := .hand) (.inr trivial) hc List.mem_cons_self
          (fun z hz => update_of_ne hz _ _) v).trans ?_
        rw [hapart2.view_eq hanew hc v, hmem1]
    · -- The page of the kernel stack is on the list again.
      have hx2 : x ∉ s2.freelist := by
        intro hcon
        cases hhand.excl .hand .free x List.mem_cons_self hcon
      have hx1 : x ∉ s1.freelist := by
        have := h.good.free
        rw [hfree1] at this
        exact (List.nodup_cons.mp this).1
      rw [tableCall_add (i := 1) (n := 66), ← hlost,
        ← hapart2.freelist_iff hgood1 hgood2 rfl, hfree1]
      show (∀ y, y ∈ s3.freelist ↔ _) ↔ _
      rw [show s3.freelist = x :: s2.freelist from hfree3]
      refine forall_congr' fun y => ?_
      rw [List.mem_cons, List.mem_cons]
      by_cases hy : y = x
      · subst hy
        simp [hx1, hx2]
      · simp [hy]
  · refine Ends.bind_modify (Ends.bind_modify (.ret (.inr ⟨np, x, d', rfl, hunused, ?_, ?_,
      ⟨1 + k, by omega, ?_, (hdrew1.trans hsame1.deny hdrew2).of_eq rfl rfl⟩, ?_⟩)))
    · refine ⟨?_, hapart2.pipe.trans hsame1.pipe, hapart2.kpgdir.trans hsame1.kpgdir,
        hapart2.layout.trans hsame1.layout, hapart2.deny.trans hsame1.deny⟩
      rw [State.setProc_self, State.setProc_setProc]
      show update s2.proc np _ = _
      rw [hapart2.proc, hsame1.proc, State.setProc_self]
      exact congrArg State.proc (s.setProc_setProc np _ _)
    · refine ⟨hshut, fun v hv => ?_, habove, fun a c hc v => ?_⟩
      · have := hcopied v hv
        rwa [hmem1] at this
      · have hanew : a ≠ .new := by
          rintro rfl
          cases hc
        refine (hapart2.view_eq hanew hc v).trans ?_
        rw [hmem1]
    · rintro _ ⟨j, hj, rfl⟩
      have := htables _ ⟨j, hj, rfl⟩
      omega
    · have hswap := hgood2.swap .new (.proc np)
      have hnp : (Books.setDir { s.books with stack := update s.books.stack np (some x) }
          .new (some d')).dir (.proc np) = none :=
        (Books.setDir_of_ne _ _ (by rintro ⟨⟩)).trans hdirnp
      rw [← Books.setDir_eq_self _ hnp, swap_books rfl] at hswap
      exact hswap

theorem ends_fork :
    Ends p E (fork p) s fun r s' => (∃ U', Booked U' s') ∧
      (r = none → (∀ q, (s.proc q).state ≠ .unused) ∨
        ∃ k, k ≤ 67 + copyCalls ((s.proc p).sz / PGSIZE) ∧ FirstShort s k) ∧
      ∀ np, r = some np → ∃ x d', (s.proc np).state = .unused ∧ Forked p np d d' s s' ∧
        s'.proc = update s.proc np
          { s.child p np x d' with name := (s.proc p).name, state := .runnable } ∧
        s'.deny = s.deny ∧
        ∃ k, k ≤ 66 + copyCalls ((s.proc p).sz / PGSIZE + 1) ∧ Drew s s' k := by
  refine Ends.bind (ends_forkMemory h hp hpgdir hE) ?_
  rintro r s1 (⟨rfl, -, hbooked, hwhy⟩ |
    ⟨np, x, d', rfl, hunused, hsame, hforked, ⟨k, hk, -, hdrew⟩, hgood⟩)
  · refine .ret ⟨hbooked, fun _ => hwhy.imp And.left ?_, fun _ hr => by cases hr⟩
    rintro ⟨-, k, hk, hshort, -⟩
    exact ⟨k, hk, hshort⟩
  have hne : p ≠ np := by
    rintro rfl
    exact hp hunused
  have hproc : (s1.setProc np
      { s1.proc np with name := (s1.proc p).name, state := .runnable }).proc = update s.proc np
        { s.child p np x d' with name := (s.proc p).name, state := .runnable } := by
    show update s1.proc np _ = _
    rw [hsame.proc, State.setProc_self, State.setProc_of_ne _ _ _ _ hne]
    exact congrArg State.proc (s.setProc_setProc np _ _)
  refine Ends.bind_modify (.ret ⟨⟨U, ?_⟩, nofun, ?_⟩)
  · exact h.of_update _ hproc hsame.pipe hsame.kpgdir hgood (fun _ => ⟨d', rfl, hforked.shut⟩)
      ⟨nofun, nofun⟩ (h.size p) fun a c _ hc v => hforked.other a c hc v
  · rintro _ ⟨⟩
    exact ⟨x, d', hunused, ⟨hforked.shut, hforked.copied, hforked.above, hforked.other⟩, hproc,
      hsame.deny, k, hk, hdrew.of_eq rfl rfl⟩

end

end Fork

section Exec

variable {path : Str} {file : List UInt8} {argv : List Str}

theorem imageSize_lt (h : imageSize file ≤ KERNBASE) : imageSize file < 2 ^ 32 :=
  h.trans_lt (by decide)

theorem ends_exec_booked (hfile : file.length < 2 ^ 32) (hshort : Short file argv) (h : Booked U s)
    (hp : (s.proc p).state ≠ .unused) (hpgdir : (s.proc p).pgdir = some d) :
    Ends p E (exec p path (some file) argv) s fun _ s' => ∃ U', Booked U' s' := by
  have hdir : s.books.dir (.proc p) = some d := (books_proc hp).trans hpgdir
  refine (ends_exec hfile h.good rfl hdir hpgdir hshort).mono ?_
  rintro ok s' (⟨-, hgood, hapart, -⟩ | ⟨-, d', esp, hrep⟩)
  · refine ⟨U, h.of_view (hapart.toSame.books ▸ hgood) hapart.proc hapart.kpgdir fun a c hc v => ?_⟩
    refine hapart.view_eq ?_ hc v
    rintro rfl
    cases hc
  · obtain ⟨U', hgood, -⟩ := hrep.good
    obtain ⟨g, ptrs, hbuilt⟩ := hrep.built
    refine ⟨U', h.of_update _ hrep.proc hrep.pipe hrep.kpgdir ?_
      (fun _ => ⟨d', rfl, hbuilt.image.shut⟩) ?_ (imageSize_lt hbuilt.le) fun a c ha hc v => ?_⟩
    · have hstack : update s.books.stack p (s.proc p).kstack = s.books.stack :=
        update_eq_self p s.books.stack
      dsimp only
      rw [if_neg hp, hstack]
      exact hgood
    · exact h.kstack p
    · refine hrep.other a ?_ ha c hc v
      rintro rfl
      cases hc

end Exec

end Xv6.Vm
