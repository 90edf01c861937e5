import Xv6.Files.Steps

namespace Xv6.Files
open Lib Prog Function

/-- A hand with the references of the descriptors and those in the list. -/
def Hand.held (t : Fin NOFILE → Option (Fin NFILE)) (l r : List (Fin NFILE)) : Hand :=
  ⟨t, l.foldr (fun f o => update o f (o f + 1)) (slots t), r, none, none, none⟩

def Hand.dropped (g : Hand) (f : Fin NFILE) : Hand :=
  { g.addOwn f (-1) with fresh := g.fresh.filter (· ≠ f) }

variable {t : Fin NOFILE → Option (Fin NFILE)} {f : Fin NFILE} {p : Pid}

section Hand

variable {l r : List (Fin NFILE)} {fd : Fin NOFILE}

theorem Hand.held_own (t : Fin NOFILE → Option (Fin NFILE)) (l r : List (Fin NFILE))
    (k : Fin NFILE) : (Hand.held t l r).own k = slots t k + l.count k := by
  induction l with
  | nil => simp [held]
  | cons f l ih =>
    show update (held t l r).own f ((held t l r).own f + 1) k = _
    by_cases hk : k = f
    · subst hk
      rw [update_self, ih, List.count_cons_self]
      push_cast
      ring
    · rw [update_of_ne hk, ih, List.count_cons_of_ne (Ne.symm hk)]

theorem Hand.eq_held {g : Hand} (ht : g.ofile = t) (ho : ∀ f, g.own f = slots t f + l.count f)
    (hr : g.fresh = r) (hcl : g.closing = none) (hfr : g.freeing = none) (hc : g.child = none) :
    g = .held t l r := by
  obtain ⟨ofile, own, fresh, closing, freeing, child⟩ := g
  simp only at ht ho hr hcl hfr hc
  subst ht hr hcl hfr hc
  rw [show own = (held ofile l fresh).own from funext fun f => by rw [ho, held_own]]
  rfl

theorem Hand.held_pos (h : f ∈ l) : 0 < (Hand.held t l r).own f := by
  have h1 := slots_nonneg t f
  have h2 := List.count_pos_iff.mpr h
  rw [held_own]
  omega

theorem Hand.held_dropped (h : f ∈ l) :
    (Hand.held t l r).dropped f = .held t (l.erase f) (r.filter (· ≠ f)) := by
  refine eq_held rfl (fun k => ?_) rfl rfl rfl rfl
  show update (held t l r).own f ((held t l r).own f + -1) k = _
  by_cases hk : k = f
  · subst hk
    have hpos := List.count_pos_iff.mpr h
    rw [update_self, List.count_erase_self, held_own]
    push_cast [Nat.cast_sub (show 1 ≤ l.count k from hpos)]
    ring
  · rw [update_of_ne hk, List.count_erase_of_ne hk, held_own]

theorem Hand.held_insert (h : f ∈ l) (hfd : t fd = none) :
    ({ Hand.held t l r with ofile := update t fd (some f) } : Hand) =
      .held (update t fd (some f)) (l.erase f) r := by
  refine eq_held rfl (fun k => ?_) rfl rfl rfl rfl
  show (held t l r).own k = _
  rw [held_own, slots_insert hfd]
  by_cases hk : k = f
  · subst hk
    have hpos := List.count_pos_iff.mpr h
    rw [update_self, List.count_erase_self]
    push_cast [Nat.cast_sub (show 1 ≤ l.count k from hpos)]
    ring
  · rw [update_of_ne hk, List.count_erase_of_ne hk]

theorem Hand.held_erase (hfd : t fd = some f) :
    ({ Hand.held t l r with ofile := update t fd none } : Hand) =
      .held (update t fd none) (f :: l) r := by
  refine eq_held rfl (fun k => ?_) rfl rfl rfl rfl
  show (held t l r).own k = _
  rw [held_own, slots_erase hfd]
  by_cases hk : k = f
  · subst hk
    rw [update_self, List.count_cons_self]
    push_cast
    ring
  · rw [update_of_ne hk, List.count_cons_of_ne (Ne.symm hk)]

end Hand

section Actions

variable {g : Hand} {n : ℕ}

theorem safe_ofile (fd : Fin NOFILE) :
    (Prog.read fun s : State => s.ofile p fd).Safe protocol p
      (fun r g' => r = g.ofile fd ∧ g' = some g) (some g) := by
  refine Safe.read fun s G ⟨hi, he⟩ hg => ⟨?_, rfl⟩
  rw [(hi.tabs.busy p g hg).1]

theorem safe_setOfile (fd : Fin NOFILE) (x : Option (Fin NFILE)) :
    (setOfile p fd x).Safe protocol p
      (fun _ g' => g' = some { g with ofile := update g.ofile fd x }) (some g) :=
  Safe.modify fun _ _ ⟨hi, he⟩ hg => ⟨_, ⟨hi.setOfile hg fd x, he⟩, rfl⟩

theorem safe_same {s : Shared State Empty Pid} {G : Hands} (hi : protocol.Inv s G)
    (hg : G p = some g) : protocol.Inv s (update G p (some g)) := by
  rwa [← hg, update_eq_self]

theorem safe_fdalloc (f : Fin NFILE) :
    (fdalloc p f).Safe protocol p (fun r g' => match r with
      | none => g' = some g
      | some fd => g.ofile fd = none ∧
          g' = some { g with ofile := update g.ofile fd (some f) }) (some g) := by
  refine Safe.atomic fun s G ⟨hi, he⟩ hg => ?_
  have hofile := (hi.tabs.busy p g hg).1
  split
  · rename_i fd hfd
    have hnone := List.find?_some hfd
    rw [hofile, Option.isNone_iff_eq_none] at hnone
    exact ⟨_, ⟨hi.setOfile hg fd (some f), he⟩, hnone, rfl⟩
  · exact ⟨_, safe_same ⟨hi, he⟩ hg, rfl⟩

theorem safe_filealloc : filealloc.Safe protocol p (fun r g' => match r with
      | none => g' = some g
      | some f => f ∉ g.fresh ∧ g' = some { g.addOwn f 1 with fresh := f :: g.fresh })
    (some g) := by
  refine Safe.atomic fun s G ⟨hi, he⟩ hg => ?_
  split
  · rename_i f hf
    have hzero : (s.st.file f).ref = 0 := by simpa using List.find?_some hf
    refine ⟨_, ⟨hi.alloc hg hzero, he⟩, fun hmem => ?_, rfl⟩
    have := ((hi.files f).fresh p (by rwa [Inv.freshOf_eq hg])).2.1
    omega
  · exact ⟨_, safe_same ⟨hi, he⟩ hg, rfl⟩

theorem safe_filedup (hf : 0 < g.own f) (hfresh : f ∉ g.fresh) :
    (filedup f).Safe protocol p (fun _ g' => g' = some (g.addOwn f 1)) (some g) := by
  refine Safe.atomic fun s G ⟨hi, he⟩ hg => ?_
  have hpos := hi.ref_pos hg hf
  rw [if_neg (by omega)]
  exact ⟨_, ⟨hi.addRef hg hf hfresh (by omega) (by omega), he⟩, rfl⟩

def endOf (f : Fin NFILE) (n m : ℕ) (ff : OpenFile) : Option (Fin NFILE × ℕ × End) :=
  match ff.type with
  | .fdNone => none
  | .fdInode => some (f, n, .inode ff.ip)
  | .fdPipe => some (f, n, .pipe ff.pipe m ff.writable)

theorem safe_filedrop (hf : 0 < g.own f) (hcl : g.closing = none) :
    (filedrop f).Safe protocol p (fun r g' => match r with
      | none => g' = some (g.dropped f)
      | some (ff, n) => ∃ m, g' = some { g.dropped f with closing := endOf f n m ff }) (some g) := by
  refine Safe.atomic fun s G ⟨hi, he⟩ hg => ?_
  have hpos := hi.ref_pos hg hf
  rw [if_neg (by omega)]
  split_ifs with hlast
  · have hfresh : f ∉ g.fresh := by
      intro hmem
      have := ((hi.files f).fresh p (by rwa [Inv.freshOf_eq hg])).2.1
      omega
    refine ⟨_, ⟨hi.addRef hg (d := -1) hf hfresh (by omega) (by omega), he⟩, ?_⟩
    unfold Hand.dropped
    rw [List.filter_eq_self.mpr fun k hk => by
      simp only [ne_eq, decide_not, Bool.not_eq_eq_eq_not, Bool.not_true, decide_eq_false_iff_not]
      rintro rfl
      exact hfresh hk]
    rfl
  · refine ⟨_, ⟨hi.last hg hf (by omega) hcl, he⟩, s.st.hist.pipes (s.st.file f).pipe, ?_⟩
    have hend : (if (s.st.file f).type = .fdNone then none
        else some (f, s.st.hist.opens f, s.st.endOf f)) =
        endOf f (s.st.hist.opens f) (s.st.hist.pipes (s.st.file f).pipe) (s.st.file f) := by
      unfold endOf State.endOf
      cases (s.st.file f).type <;> rfl
    unfold Inv.lastHand Hand.dropped
    rw [hend]

theorem safe_iput {ip : ℕ} (hcl : g.closing = some (f, n, .inode ip)) :
    (iput f n).Safe protocol p (fun _ g' => g' = some { g with closing := none }) (some g) :=
  Safe.modify fun _ _ ⟨hi, he⟩ hg => ⟨_, ⟨hi.iput hg hcl, he⟩, rfl⟩

theorem safe_kfree {page : Page} (hfr : g.freeing = some (page, n)) :
    (kfree page).Safe protocol p (fun _ g' => g' = some { g with freeing := none }) (some g) :=
  Safe.modify fun _ _ ⟨hi, he⟩ hg => ⟨_, ⟨hi.kfree hg hfr, he⟩, rfl⟩

theorem safe_pipeclose {page : Page} {m : ℕ} {w : Bool}
    (hcl : g.closing = some (f, n, .pipe page m w)) (hfr : g.freeing = none) :
    (pipeclose page w f n).Safe protocol p (fun _ g' => g' = some { g with closing := none })
      (some g) := by
  refine Safe.bind (Q := fun both g' => ∃ k, g' = some { g with
    closing := none
    freeing := if both then some (page, k) else none }) ?_ ?_
  · exact Safe.atomic fun s G ⟨hi, he⟩ hg => ⟨_, ⟨hi.pipeclose hg hcl hfr, he⟩, _, rfl⟩
  · rintro both _ ⟨k, rfl⟩
    cases both with
    | true => exact (safe_kfree rfl).mono fun _ _ h => by rw [h, ← hfr]
    | false =>
      show some _ = some _
      rw [← hfr]
      rfl

theorem safe_fileclose (hf : 0 < g.own f) (hcl : g.closing = none) (hfr : g.freeing = none) :
    (fileclose f).Safe protocol p (fun _ g' => g' = some (g.dropped f)) (some g) := by
  have hback : ({ g.dropped f with closing := none } : Hand) = g.dropped f := by
    have h : (g.dropped f).closing = none := hcl
    rw [← h]
  refine (safe_filedrop hf hcl).bind ?_
  intro r g' hr
  match r with
  | none => exact hr
  | some (ff, n) =>
    obtain ⟨m, rfl⟩ := hr
    have hdone : ∀ g', g' = some ({ g.dropped f with closing := none } : Hand) →
        g' = some (g.dropped f) := fun g' h => h.trans (congrArg some hback)
    cases hff : ff.type with
    | fdNone =>
      simp only [endOf, hff]
      exact hdone _ rfl
    | fdInode =>
      simp only [endOf, hff]
      exact (safe_iput rfl).mono fun _ => hdone
    | fdPipe =>
      simp only [endOf, hff]
      exact (safe_pipeclose (g := { g.dropped f with
        closing := some (f, n, .pipe ff.pipe m ff.writable) }) rfl hfr).mono fun _ => hdone

theorem safe_openInode (hf : f ∈ g.fresh) (ip : ℕ) (readable writable : Bool) :
    (openInode f ip readable writable).Safe protocol p
      (fun _ g' => g' = some { g with fresh := g.fresh.filter (· ≠ f) }) (some g) := by
  refine Safe.modify fun s G ⟨hi, he⟩ hg => ⟨_, ⟨hi.bind hg hf ?_ rfl ?_ ?_,
    he.bind hi.lives f _ (.inode ip)⟩, rfl⟩
  · rintro ⟨⟩
  · simp [State.endOf, State.setFile]
  · rintro _ _ _ ⟨⟩

theorem safe_newPipe {f0 f1 : Fin NFILE} (hne : f0 ≠ f1) (h0 : f0 ∈ g.fresh) (h1 : f1 ∈ g.fresh)
    (page : Option Page) :
    (newPipe f0 f1 page).Safe protocol p (fun r g' => g' = some (if r then
      { g with fresh := (g.fresh.filter (· ≠ f0)).filter (· ≠ f1) } else g)) (some g) := by
  refine Safe.atomic fun s G ⟨hi, he⟩ hg => ?_
  cases page with
  | none => exact ⟨_, safe_same ⟨hi, he⟩ hg, rfl⟩
  | some page =>
    show Outcome.Sat (if s.st.inUse page = true then _ else _) _ _
    split_ifs with huse
    · trivial
    · have huse' : s.st.inUse page = false := by simpa using huse
      have h' := hi.newPage huse'
      -- No file stands for an end of the new pipe.
      have hnew : ∀ k j w, s.st.hist.what k j ≠ some (.pipe page (s.st.hist.pipes page + 1) w) := by
        intro k j w hk
        have := (hi.lives.pipe k j page _ w hk).2.2.1
        omega
      have hb0 := h'.bind hg h0 (x := { s.st.file f0 with
        type := .fdPipe, readable := true, writable := false, pipe := page })
        (e := .pipe page (s.st.hist.pipes page + 1) false) (by rintro ⟨⟩) rfl
        (by simp [State.endOf, State.setFile]) (by
          rintro _ _ _ ⟨⟩
          refine ⟨by omega, ?_, ?_, fun k j => hnew k j false⟩
          · simp
          · simp [Pipe.isOpen])
      have hb1 := hb0.bind (update_self _ _ _) (f := f1) (x := { s.st.file f1 with
        type := .fdPipe, readable := false, writable := true, pipe := page })
        (e := .pipe page (s.st.hist.pipes page + 1) true) (by simp [h1, hne.symm]) (by rintro ⟨⟩)
        (by simp [State.bind, State.setFile, hne.symm])
        (by simp [State.endOf, State.setFile, State.bind]) (by
          rintro _ _ _ ⟨⟩
          refine ⟨by omega, ?_, ?_, fun k j hk => ?_⟩
          · simp [State.bind, State.setFile]
          · simp [State.bind, State.setFile, Pipe.isOpen]
          · refine hnew k j true ?_
            by_cases hk0 : k = f0
            · subst hk0
              by_cases hj : j = s.st.hist.opens k + 1
              · subst hj
                simp [State.bind] at hk
              · simpa [State.bind, hj] using hk
            · simpa [State.bind, hk0] using hk)
      rw [update_idem] at hb1
      refine ⟨_, ⟨hb1, fun pg m w hm hle => ?_⟩, rfl⟩
      by_cases hpg : pg = page ∧ m = s.st.hist.pipes page + 1
      · obtain ⟨rfl, rfl⟩ := hpg
        cases w with
        | false => exact ⟨f0, _, hb0.lives.what_bind f1 _ _ (Lives.what_bind_self f0 _ _)⟩
        | true => exact ⟨f1, _, Lives.what_bind_self f1 _ _⟩
      · have hold : m ≤ s.st.hist.pipes pg := by
          have hle' : m ≤ update s.st.hist.pipes page (s.st.hist.pipes page + 1) pg := hle
          by_cases hp : pg = page
          · subst hp
            rw [update_self] at hle'
            have : m ≠ s.st.hist.pipes pg + 1 := fun h => hpg ⟨rfl, h⟩
            omega
          · rwa [update_of_ne hp] at hle'
        obtain ⟨k, n, hk⟩ := he pg m w hm hold
        exact ⟨k, n, hb0.lives.what_bind f1 _ _ (h'.lives.what_bind f0 _ _ hk)⟩

end Actions

section Calls

/-- The call returns with one reference for each descriptor. -/
def Clean (g : Option Hand) : Prop := ∃ t, g = some (.clean t)

theorem safe_argfd {g : Hand} (fd : Option ℤ) :
    (argfd p fd).Safe protocol p (fun r g' => g' = some g ∧ ∀ fd f, r = some (fd, f) →
      g.ofile fd = some f) (some g) := by
  unfold argfd
  split
  · exact ⟨rfl, fun _ _ h => by cases h⟩
  · split_ifs with h
    · refine (safe_ofile _).bind ?_
      rintro r _ ⟨rfl, rfl⟩
      refine ⟨rfl, fun fd f hr => ?_⟩
      obtain ⟨k, hk, he⟩ := Option.map_eq_some_iff.mp hr
      cases he
      exact hk
    · exact ⟨rfl, fun _ _ h => by cases h⟩

theorem safe_closeHeld {r : List (Fin NFILE)} (hr : ∀ k ∈ r, k = f) :
    (fileclose f).Safe protocol p (fun _ g' => g' = some (.clean t)) (some (.held t [f] r)) := by
  refine (safe_fileclose (Hand.held_pos (by simp)) rfl rfl).mono ?_
  rintro _ _ rfl
  rw [Hand.held_dropped (by simp), List.erase_cons_head,
    List.filter_eq_nil_iff.mpr (by simpa using hr)]
  rfl

theorem safe_sysDup (fd : Option ℤ) :
    (sysDup p fd).Safe protocol p (fun _ => Clean) (some (.clean t)) := by
  refine (safe_argfd fd).bind ?_
  rintro r _ ⟨rfl, hr⟩
  match r with
  | none => exact ⟨t, rfl⟩
  | some (fd, f) =>
    have hf : t fd = some f := hr fd f rfl
    refine (safe_fdalloc f).bind ?_
    intro r' g' hr'
    match r' with
    | none => exact ⟨t, hr'⟩
    | some fd' =>
      obtain ⟨hnone, rfl⟩ := hr'
      refine (safe_filedup (slots_pos hf) (by rintro ⟨⟩)).mono ?_
      rintro _ _ rfl
      refine ⟨update t fd' (some f), ?_⟩
      have hslots := slots_insert (t := t) (f := f) hnone
      exact congrArg some (by rw [Hand.clean, Hand.clean, hslots]; rfl)

theorem safe_sysClose (fd : Option ℤ) :
    (sysClose p fd).Safe protocol p (fun _ => Clean) (some (.clean t)) := by
  refine (safe_argfd fd).bind ?_
  rintro r _ ⟨rfl, hr⟩
  match r with
  | none => exact ⟨t, rfl⟩
  | some (fd, f) =>
    have hf : t fd = some f := hr fd f rfl
    refine (safe_setOfile fd none).bind ?_
    rintro _ _ rfl
    have hmove : ({ Hand.held t [] [] with ofile := update t fd none } : Hand) =
        .held (update t fd none) [f] [] := Hand.held_erase hf
    show (fileclose f).Safe protocol p _ (some { Hand.held t [] [] with ofile := update t fd none })
    rw [hmove]
    exact (safe_closeHeld (by simp)).mono fun _ _ h => ⟨_, h⟩

theorem safe_sysOpen (ip : Option ℕ) (readable writable : Bool) :
    (sysOpen p ip readable writable).Safe protocol p (fun _ => Clean) (some (.clean t)) := by
  cases ip with
  | none => exact ⟨t, rfl⟩
  | some ip =>
    refine safe_filealloc.bind ?_
    intro r g' hr
    match r with
    | none => exact ⟨t, hr⟩
    | some f =>
      obtain ⟨-, rfl⟩ := hr
      refine Safe.bind (safe_fdalloc (g := .held t [f] [f]) f) ?_
      intro r' g' hr'
      match r' with
      | none =>
        obtain rfl := hr'
        exact (safe_closeHeld (by simp)).mono fun _ _ h => ⟨t, h⟩
      | some fd =>
        obtain ⟨hnone, rfl⟩ := hr'
        have hmove : ({ Hand.held t [f] [f] with ofile := update t fd (some f) } : Hand) =
            .held (update t fd (some f)) ([f].erase f) [f] :=
          Hand.held_insert (by simp) hnone
        show (openInode f ip readable writable).Safe protocol p _ (some ({ Hand.held t [f] [f] with
          ofile := update t fd (some f) } : Hand))
        rw [hmove]
        refine (safe_openInode (by simp [Hand.held]) ip readable writable).mono ?_
        rintro _ _ rfl
        exact ⟨update t fd (some f), by simp [Hand.held, Hand.clean]⟩

theorem safe_closeBoth {f0 f1 : Fin NFILE} (hne : f0 ≠ f1) {r : List (Fin NFILE)}
    (hr : ∀ f ∈ r, f = f0 ∨ f = f1) :
    (fileclose f0 >>= fun _ => fileclose f1).Safe protocol p
      (fun _ g' => g' = some (.clean t)) (some (.held t [f1, f0] r)) := by
  refine (safe_fileclose (Hand.held_pos (by simp)) rfl rfl).bind ?_
  rintro _ _ rfl
  rw [Hand.held_dropped (by simp)]
  have herase : [f1, f0].erase f0 = [f1] := by simp [hne.symm]
  rw [herase]
  refine safe_closeHeld fun f hf => ?_
  obtain ⟨hf, hne⟩ := List.mem_filter.mp hf
  exact (hr f hf).resolve_left (by simpa using hne)

theorem safe_pipealloc (page : Option Page) :
    (pipealloc page).Safe protocol p (fun r g' => match r with
      | none => Clean g'
      | some (f0, f1) => f0 ≠ f1 ∧ g' = some (.held t [f1, f0] [])) (some (.clean t)) := by
  refine safe_filealloc.bind ?_
  intro r g' hr
  match r with
  | none => exact ⟨t, hr⟩
  | some f0 =>
    obtain ⟨-, rfl⟩ := hr
    refine Safe.bind (safe_filealloc (g := .held t [f0] [f0])) ?_
    intro r' g' hr'
    match r' with
    | none =>
      obtain rfl := hr'
      exact (safe_closeHeld (by simp)).bind fun _ _ h => ⟨t, h⟩
    | some f1 =>
      obtain ⟨hnot, rfl⟩ := hr'
      have hne : f0 ≠ f1 := by
        rintro rfl
        exact hnot (by simp [Hand.held])
      refine Safe.bind (safe_newPipe (g := .held t [f1, f0] [f1, f0]) hne (by simp [Hand.held])
        (by simp [Hand.held]) page) ?_
      rintro ok _ rfl
      cases ok with
      | true =>
        refine ⟨hne, ?_⟩
        have hfilter : ([f1, f0].filter (· ≠ f0)).filter (· ≠ f1) = [] := by simp [hne.symm]
        show some ({ Hand.held t [f1, f0] [f1, f0] with
          fresh := ([f1, f0].filter (· ≠ f0)).filter (· ≠ f1) } : Hand) = _
        rw [hfilter]
        rfl
      | false =>
        show Safe protocol p _ (Prog.bind (fileclose f0) fun _ => Prog.bind (fileclose f1) fun _ =>
          Prog.ret none) (some (.held t [f1, f0] [f1, f0]))
        rw [← Prog.bind_assoc]
        refine (safe_closeBoth (t := t) hne ?_).bind ?_
        · simp only [List.mem_cons, List.not_mem_nil, or_false]
          exact fun f h => h.symm
        · rintro _ _ rfl
          exact ⟨t, rfl⟩

theorem safe_sysPipe (buf : Bool) (page : Option Page) :
    (sysPipe p buf page).Safe protocol p (fun _ => Clean) (some (.clean t)) := by
  unfold sysPipe
  split_ifs
  swap
  · exact ⟨t, rfl⟩
  refine (safe_pipealloc page).bind ?_
  intro r g' hr
  cases r with
  | none => exact hr
  | some e =>
    obtain ⟨rf, wf⟩ := e
    obtain ⟨hne, rfl⟩ := hr
    refine (safe_fdalloc rf).bind ?_
    intro fd0 g' hfd0
    cases fd0 with
    | none =>
      obtain rfl := hfd0
      refine (safe_closeBoth (t := t) hne (by simp)).mono ?_
      rintro _ _ rfl
      exact ⟨t, rfl⟩
    | some fd0 =>
      obtain ⟨hfree, rfl⟩ := hfd0
      set t' := update t fd0 (some rf) with ht'
      have hmove : ({ Hand.held t [wf, rf] [] with ofile := t' } : Hand) =
          .held t' ([wf, rf].erase rf) [] := Hand.held_insert (by simp) hfree
      have herase : [wf, rf].erase rf = [wf] := by simp [hne.symm]
      rw [herase] at hmove
      show Safe protocol p _ _ (some ({ Hand.held t [wf, rf] [] with ofile := t' } : Hand))
      rw [hmove]
      refine (safe_fdalloc wf).bind ?_
      intro fd1 g' hfd1
      cases fd1 with
      | none =>
        obtain rfl := hfd1
        -- `rf` goes back from its descriptor to the hand before both are closed.
        refine (safe_setOfile fd0 none).bind ?_
        rintro _ _ rfl
        have hback : ({ Hand.held t' [wf] [] with ofile := update t' fd0 none } : Hand) =
            .held t [wf, rf] [] := by
          have hfree' : t fd0 = none := hfree
          rw [Hand.held_erase (update_self _ _ _), update_idem, ← hfree',
            update_eq_self]
          refine Hand.eq_held rfl (fun k => ?_) rfl rfl rfl rfl
          rw [Hand.held_own, (List.Perm.swap wf rf []).count_eq]
        show Safe protocol p _ _ (some ({ Hand.held t' [wf] [] with
          ofile := update t' fd0 none } : Hand))
        rw [hback]
        refine (safe_closeBoth (t := t) hne (by simp)).mono ?_
        rintro _ _ rfl
        exact ⟨t, rfl⟩
      | some fd1 =>
        obtain ⟨hfree', rfl⟩ := hfd1
        refine ⟨update t' fd1 (some wf), ?_⟩
        have hmove' : ({ Hand.held t' [wf] [] with
            ofile := update t' fd1 (some wf) } : Hand) =
              .held (update t' fd1 (some wf)) ([wf].erase wf) [] :=
          Hand.held_insert (by simp) hfree'
        rw [List.erase_cons_head] at hmove'
        exact congrArg some hmove'

end Calls

section Processes

/-- The hand in `fork`, with the new process `np` whose descriptors in `l` are not yet set. -/
def Hand.forking (t : Fin NOFILE → Option (Fin NFILE)) (np : Pid) (l : List (Fin NOFILE)) : Hand :=
  { Hand.clean t with child := some (np, l) }

theorem safe_setState {np : Pid} {l : List (Fin NOFILE)} {st : ProcState}
    (h : st = .unused ∧ (∀ fd, fd ∈ l) ∨ st = .runnable) :
    (setState np st).Safe protocol p (fun _ g' => g' = some (.clean t))
      (some (.forking t np l)) := by
  refine Safe.modify fun s G ⟨hi, he⟩ hg => ⟨_, ?_, rfl⟩
  obtain ⟨hemb, hnone⟩ := hi.tabs.child p _ np l hg rfl
  refine ⟨hi.setState hg (by rw [hemb]; rintro ⟨⟩) (fun hst fd => ?_) (fun _ _ h => by cases h) ?_, he⟩
  · rcases h with ⟨-, hall⟩ | rfl
    · exact hnone fd (hall fd)
    · rcases hst with hst | hst <;> cases hst
  · intro q h' l' hq hGq hc
    exact hq (hi.tabs.one q p h' _ np l' l hGq hg hc rfl)

theorem safe_findUnused : (Prog.atomic fun s : State =>
    match (List.finRange NPROC).find? fun q => decide (s.state q = .unused) with
    | some q => Outcome.done (some q) (s.setState q .embryo)
    | none => .done none s).Safe (L := Empty) protocol p (fun r g' => match r with
      | none => g' = some (.clean t)
      | some np => g' = some (.forking t np (List.finRange NOFILE))) (some (.clean t)) := by
  refine Safe.atomic fun s G ha hg => ?_
  obtain ⟨hi, he⟩ := ha
  cases hq : (List.finRange NPROC).find? fun q => decide (s.st.state q = .unused) with
  | none => exact ⟨_, safe_same ⟨hi, he⟩ hg, rfl⟩
  | some np =>
    have hun : s.st.state np = .unused := by simpa using List.find?_some hq
    refine ⟨_, ?_, rfl⟩
    refine ⟨hi.setState hg (by rw [hun]; rintro ⟨⟩) ?_ ?_ ?_, he⟩
    · rintro (h | h) <;> cases h
    · rintro q l ⟨⟩
      exact ⟨rfl, rfl, fun fd _ => hi.tabs.empty np (.inl hun) fd⟩
    · intro q h' l hq' hGq hc
      have hemb := (hi.tabs.child q h' np l hGq hc).1
      rw [hun] at hemb
      cases hemb

theorem safe_allocproc (kstack : Bool) :
    (allocproc kstack).Safe protocol p (fun r g' => match r with
      | none => g' = some (.clean t)
      | some np => g' = some (.forking t np (List.finRange NOFILE))) (some (.clean t)) := by
  refine safe_findUnused.bind ?_
  intro r g' hr
  cases r with
  | none => exact hr
  | some np =>
    obtain rfl := hr
    cases kstack with
    | true => exact rfl
    | false =>
      refine (safe_setState (.inl ⟨rfl, List.mem_finRange⟩)).bind ?_
      rintro _ _ rfl
      exact rfl

/-- The loop over the descriptors: those still to come are among those not yet set. -/
theorem safe_dupFiles {np : Pid} {l l' : List (Fin NOFILE)} (hnodup : l.Nodup) (hsub : l ⊆ l') :
    (dupFiles p np l).Safe protocol p (fun _ g' => ∃ l', g' = some (.forking t np l'))
      (some (.forking t np l')) := by
  induction l generalizing l' with
  | nil => exact ⟨l', rfl⟩
  | cons fd l ih =>
    obtain ⟨hfd, hnodup'⟩ := List.nodup_cons.mp hnodup
    obtain ⟨hmem, hsub'⟩ := List.cons_subset.mp hsub
    refine (safe_ofile fd).bind ?_
    rintro r _ ⟨rfl, rfl⟩
    cases hr : (Hand.forking t np l').ofile fd with
    | none => exact ih hnodup' hsub'
    | some f =>
      have hf : t fd = some f := hr
      have hpos : 0 < (Hand.forking t np l').own f := slots_pos hf
      refine (safe_filedup hpos (by rintro ⟨⟩)).bind ?_
      rintro _ _ rfl
      have hgive : (setOfile np fd (some f)).Safe protocol p
          (fun _ g' => g' = some (.forking t np (l'.filter (· ≠ fd))))
          (some ((Hand.forking t np l').addOwn f 1)) := by
        refine Safe.modify fun s G ⟨hi, he⟩ hg => ⟨_, ⟨hi.giveChild hg rfl hmem ?_ (by rintro ⟨⟩), he⟩, ?_⟩
        · show 0 < update (slots t) f (slots t f + 1) f
          rw [update_self]
          exact (slots_pos hf).trans (lt_add_one _)
        · -- The reference taken by `filedup` is that of the new descriptor.
          have hback : update (update (slots t) f (slots t f + 1)) f
              (update (slots t) f (slots t f + 1) f + -1) = slots t := by
            rw [update_self, update_idem, add_neg_cancel_right,
              update_eq_self]
          show some (⟨t, update (update (slots t) f (slots t f + 1)) f
            (update (slots t) f (slots t f + 1) f + -1), [], none, none,
            some (np, l'.filter (· ≠ fd))⟩ : Hand) = _
          rw [hback]
          rfl
      refine hgive.bind ?_
      rintro _ _ rfl
      refine ih hnodup' fun x hx => List.mem_filter.mpr ⟨hsub' hx, ?_⟩
      have hne : x ≠ fd := by
        rintro rfl
        exact hfd hx
      simpa using hne

theorem safe_fork (kstack mem : Bool) :
    (fork p kstack mem).Safe protocol p (fun _ => Clean) (some (.clean t)) := by
  refine (safe_allocproc kstack).bind ?_
  intro r g' hr
  match r with
  | none => exact ⟨t, hr⟩
  | some np =>
    obtain rfl := hr
    cases mem with
    | true =>
      refine (safe_dupFiles (List.nodup_finRange _) (List.Subset.refl _)).bind ?_
      rintro _ _ ⟨l, rfl⟩
      refine (safe_setState (.inr rfl)).mono ?_
      rintro _ _ rfl
      exact ⟨t, rfl⟩
    | false =>
      refine (safe_setState (.inl ⟨rfl, List.mem_finRange⟩)).mono ?_
      rintro _ _ rfl
      exact ⟨t, rfl⟩

theorem safe_closeFiles {l : List (Fin NOFILE)} (h : ∀ fd, fd ∉ l → t fd = none) :
    (closeFiles p l).Safe protocol p (fun _ g' => g' = some (.clean fun _ => none))
      (some (.clean t)) := by
  induction l generalizing t with
  | nil =>
    have ht : t = fun _ => none := funext fun fd => h fd (by rintro ⟨⟩)
    rw [ht]
    exact rfl
  | cons fd l ih =>
    refine (safe_ofile fd).bind ?_
    rintro r _ ⟨rfl, rfl⟩
    cases hr : (Hand.clean t).ofile fd with
    | none =>
      have hfd : t fd = none := hr
      refine ih fun fd' hfd' => ?_
      by_cases he : fd' = fd
      · rw [he, hfd]
      · exact h fd' (by simp [he, hfd'])
    | some f =>
      have hf : t fd = some f := hr
      have hpos : 0 < (Hand.clean t).own f := slots_pos hf
      refine (safe_fileclose hpos rfl rfl).bind ?_
      rintro _ _ rfl
      refine (safe_setOfile fd none).bind ?_
      rintro _ _ rfl
      have hclean : ({ (Hand.clean t).dropped f with
          ofile := update t fd none } : Hand) = .clean (update t fd none) := by
        rw [Hand.clean.eq_def (update t fd none), slots_erase hf]
        rfl
      show Safe protocol p _ _ (some ({ (Hand.clean t).dropped f with
        ofile := update t fd none } : Hand))
      rw [hclean]
      refine ih fun fd' hfd' => ?_
      by_cases he : fd' = fd
      · rw [he, update_self]
      · rw [update_of_ne he]
        exact h fd' (by simp [he, hfd'])

theorem safe_exit :
    (exit p).Safe protocol p (fun _ g' => g' = none) (some (.clean t)) := by
  have hinit : (Prog.when (p = initproc) (Prog.panic "init exiting") : FilesM Unit).Safe protocol p
      (fun _ g' => g' = some (.clean t)) (some (.clean t)) := by
    unfold Prog.when
    split_ifs
    · exact fun _ _ _ _ => rfl
    · exact rfl
  refine hinit.bind ?_
  rintro _ _ rfl
  refine (safe_closeFiles fun fd hfd => absurd (List.mem_finRange fd) hfd).bind ?_
  rintro _ _ rfl
  exact Safe.modify fun s G ha hg => ⟨none, ⟨ha.1.exit hg fun _ => rfl, ha.2⟩, rfl⟩

theorem safe_wait (q : Pid) :
    (wait q).Safe protocol p (fun _ => Clean) (some (.clean t)) := by
  refine Safe.atomic fun s G ⟨hi, he⟩ hg => ?_
  show Outcome.Sat (if s.st.state q = .zombie then _ else _) _ _
  split_ifs with hz
  · refine ⟨_, ?_, t, rfl⟩
    refine ⟨hi.setState hg (c := none) (by rw [hz]; rintro ⟨⟩) (fun _ => ?_)
      (fun _ _ h => by cases h) ?_, he⟩
    · exact hi.tabs.empty q (.inr hz)
    · intro q' h' l _ hGq hc
      have hemb := (hi.tabs.child q' h' q l hGq hc).1
      rw [hz] at hemb
      cases hemb
  · trivial

theorem safe_enter : (enter p).Safe protocol p (fun _ => Clean) none := by
  refine Safe.atomic fun s G ⟨hi, he⟩ hg => ?_
  show Outcome.Sat (if s.st.state p = .runnable then _ else _) _ _
  split_ifs with hrun
  · exact ⟨_, ⟨hi.enter hg hrun, he⟩, _, rfl⟩
  · trivial

theorem safe_leave : (leave p).Safe protocol p (fun _ g' => g' = none) (some (.clean t)) :=
  Safe.modify fun _ _ ⟨hi, he⟩ hg => ⟨none, ⟨hi.leave hg, he⟩, rfl⟩

theorem safe_returning {x : FilesM Unit}
    (h : ∀ t, x.Safe protocol p (fun _ => Clean) (some (.clean t))) :
    (returning p x).Safe protocol p (fun _ g' => g' = none) none := by
  refine safe_enter.bind ?_
  rintro _ _ ⟨t, rfl⟩
  refine (h t).bind ?_
  rintro _ _ ⟨t', rfl⟩
  exact safe_leave

theorem safe_prog (c : Call) : (c.prog p).Safe protocol p (fun _ g' => g' = none) none := by
  cases c with
  | «open» ip readable writable => exact safe_returning fun _ => safe_sysOpen ip readable writable
  | dup fd => exact safe_returning fun _ => safe_sysDup fd
  | pipe buf page => exact safe_returning fun _ => safe_sysPipe buf page
  | close fd => exact safe_returning fun _ => safe_sysClose fd
  | fork kstack mem => exact safe_returning fun _ => safe_fork kstack mem
  | exit =>
    refine safe_enter.bind ?_
    rintro _ _ ⟨t, rfl⟩
    exact safe_exit
  | wait q => exact safe_returning fun _ => safe_wait q

theorem safe_calls (l : List Call) :
    (calls p l).Safe protocol p (fun _ g' => g' = none) none := by
  induction l with
  | nil => exact rfl
  | cons c l ih =>
    refine (safe_prog c).bind ?_
    rintro _ _ rfl
    exact ih

end Processes

end Xv6.Files
