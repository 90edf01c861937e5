import Xv6.Lib.Count
import Xv6.Lib.Once
import Xv6.Files.Basic

namespace Xv6.Files
open Lib Function

/-- What a call in progress has in hand: its descriptors, its references, the files that it has
allocated and not filled in, what it is about to close and to free, and the process that it is about
to start, with the descriptors that are still free there. -/
structure Hand where
  ofile : Fin NOFILE → Option (Fin NFILE)
  own : Fin NFILE → ℤ
  fresh : List (Fin NFILE)
  closing : Option (Fin NFILE × ℕ × End)
  freeing : Option (Page × ℕ)
  child : Option (Pid × List (Fin NOFILE))

abbrev Hands := Pid → Option Hand

def slots (t : Fin NOFILE → Option (Fin NFILE)) (f : Fin NFILE) : ℤ :=
  count (fun x => decide (x = some f)) t

def own (s : State) (G : Hands) (p : Pid) : Fin NFILE → ℤ :=
  match G p with
  | some h => h.own
  | none => slots (s.ofile p)

def fresh (G : Hands) (p : Pid) : List (Fin NFILE) := (G p).elim [] Hand.fresh

def closing (G : Hands) (p : Pid) : Option (Fin NFILE × ℕ × End) := (G p).elim none Hand.closing

def freeing (G : Hands) (p : Pid) : Option (Page × ℕ) := (G p).elim none Hand.freeing

variable {s s' : State} {p q : Pid} {f : Fin NFILE} {x : OpenFile}
  {cl : Pid → Option (Fin NFILE × ℕ × End)} {fr : Pid → Option (Page × ℕ)}

section Hands

variable {G : Hands} {g : Hand} {x : Option Hand} {fd : Fin NOFILE}
  {t : Fin NOFILE → Option (Fin NFILE)}

theorem slots_nonneg (t : Fin NOFILE → Option (Fin NFILE)) (f : Fin NFILE) : 0 ≤ slots t f :=
  count_nonneg _ _

theorem slots_pos (h : t fd = some f) : 0 < slots t f := count_pos (i := fd) (by simp [h])

theorem slots_insert (h : t fd = none) : slots (update t fd (some f)) =
    update (slots t) f (slots t f + 1) := by
  funext k
  unfold slots
  rw [count_update, h]
  by_cases hk : k = f
  · subst hk
    simp
  · rw [update_of_ne hk]
    simp [Ne.symm hk]

theorem slots_erase (h : t fd = some f) : slots (update t fd none) =
    update (slots t) f (slots t f - 1) := by
  funext k
  unfold slots
  rw [count_update, h]
  by_cases hk : k = f
  · subst hk
    simp
  · rw [update_of_ne hk]
    simp [Ne.symm hk]

theorem own_eq : own s G p = (G p).elim (slots (s.ofile p)) Hand.own := by
  unfold own
  cases G p <;> rfl

theorem own_some (h : G p = some g) : own s G p = g.own := by rw [own, h]

theorem own_none (h : G p = none) : own s G p = slots (s.ofile p) := by rw [own, h]

theorem own_update (h : ∀ q, q ≠ p → s'.ofile q = s.ofile q) : own s' (update G p x) =
    update (own s G) p (x.elim (slots (s'.ofile p)) Hand.own) := by
  funext q
  by_cases hq : q = p
  · subst hq
    rw [update_self, own, update_self]
    cases x <;> rfl
  · rw [update_of_ne hq, own, own, update_of_ne hq, h q hq]

theorem fresh_update : fresh (update G p x) = update (fresh G) p (x.elim [] Hand.fresh) :=
  comp_update (fun g : Option Hand => g.elim [] Hand.fresh) G p x

theorem closing_update : closing (update G p x) =
    update (closing G) p (x.elim none Hand.closing) :=
  comp_update (fun g : Option Hand => g.elim none Hand.closing) G p x

theorem freeing_update : freeing (update G p x) =
    update (freeing G) p (x.elim none Hand.freeing) :=
  comp_update (fun g : Option Hand => g.elim none Hand.freeing) G p x

end Hands

def State.endOf (s : State) (f : Fin NFILE) : End :=
  match (s.file f).type with
  | .fdPipe => .pipe (s.file f).pipe (s.hist.pipes (s.file f).pipe) (s.file f).writable
  | _ => .inode (s.file f).ip

/-- The references to `f` are counted.  They are to a file that is filled in, or it is the one of the
process that has allocated it. -/
structure Counted (s : State) (f : Fin NFILE) (own : Pid → ℤ) (fresh : Pid → Prop) : Prop where
  sum : (s.file f).ref = ∑ p, own p
  nonneg : ∀ p, 0 ≤ own p
  typed : ∀ p, 0 < own p → (s.file f).type ≠ .fdNone ∨ fresh p
  fresh : ∀ p, fresh p → (s.file f).type = .fdNone ∧ (s.file f).ref = 1 ∧ own p = 1
  live : (s.file f).type ≠ .fdNone → 0 < (s.file f).ref ∧ 1 ≤ s.hist.opens f ∧
    s.hist.what f (s.hist.opens f) = some (s.endOf f)

theorem endOf_setFile_of_ne {k : Fin NFILE} (hk : k ≠ f) : (s.setFile f x).endOf k = s.endOf k := by
  unfold State.endOf State.setFile
  simp only [update_of_ne hk]

theorem setFile_self (s : State) (f : Fin NFILE) (x : OpenFile) : (s.setFile f x).file f = x :=
  update_self ..

namespace Counted

variable {o : Pid → ℤ} {r : Pid → Prop}

theorem le (h : Counted s f o r) (p : Pid) : o p ≤ (s.file f).ref := by
  rw [h.sum]
  exact Finset.single_le_sum (fun q _ => h.nonneg q) (Finset.mem_univ p)

theorem add_le (h : Counted s f o r) (hpq : p ≠ q) : o p + o q ≤ (s.file f).ref := by
  rw [h.sum, ← Finset.add_sum_erase _ _ (Finset.mem_univ p)]
  have hq := Finset.single_le_sum (f := o) (s := Finset.univ.erase p) (fun q _ => h.nonneg q)
    (Finset.mem_erase.mpr ⟨hpq.symm, Finset.mem_univ q⟩)
  linarith

theorem frame (h : Counted s f o r) (hfile : s'.file f = s.file f)
    (hopens : s'.hist.opens f = s.hist.opens f) (hwhat : s'.hist.what f = s.hist.what f)
    (hend : s'.endOf f = s.endOf f) : Counted s' f o r := by
  obtain ⟨h1, h2, h3, h4, h5⟩ := h
  exact ⟨by rwa [hfile], h2, by rwa [hfile], by rwa [hfile], by rwa [hfile, hopens, hwhat, hend]⟩

/-- A file that somebody else has a reference to has not been allocated just now. -/
theorem not_fresh (h : Counted s f o r) (hp : 0 < o p) (hpq : q ≠ p) : ¬ r q := by
  intro hr
  obtain ⟨-, h2, h1⟩ := h.fresh q hr
  have := h.add_le hpq
  omega

theorem sum_set (h : Counted s f o r) {d : ℤ} (p : Pid) :
    (s.file f).ref + d = ∑ q, update o p (o p + d) q := by
  have hsum := sum_update (fun a : ℤ => a) o p (o p + d)
  have := h.sum
  omega

theorem nonneg_set (h : Counted s f o r) {w : ℤ} (hw : 0 ≤ w) (p q : Pid) : 0 ≤ update o p w q := by
  by_cases hq : q = p
  · subst hq
    rwa [update_self]
  · rw [update_of_ne hq]
    exact h.nonneg q

/-- References to a file that is filled in come and go. -/
theorem step (h : Counted s f o r) {d : ℤ} (hp : 0 < o p) (hf : ¬ r p) (hd : 0 ≤ o p + d)
    (hpos : 0 < (s.file f).ref + d) :
    Counted (s.setFile f { s.file f with ref := (s.file f).ref + d }) f (update o p (o p + d)) r := by
  have htype : (s.file f).type ≠ .fdNone := (h.typed p hp).resolve_right hf
  refine ⟨?_, h.nonneg_set hd p, fun q _ => .inl ?_, fun q hq => ?_, fun _ => ?_⟩
  · rw [setFile_self]
    exact h.sum_set p
  · rwa [setFile_self]
  · exact absurd (h.fresh q hq).1 htype
  · obtain ⟨-, h2, h3⟩ := h.live htype
    rw [setFile_self]
    refine ⟨hpos, h2, h3.trans ?_⟩
    simp [State.endOf, State.setFile]

theorem alloc (h : Counted s f o r) (hf : (s.file f).ref = 0) (p : Pid) :
    Counted (s.setFile f { s.file f with ref := 1 }) f (update o p (o p + 1)) (update r p True) := by
  have hnone : (s.file f).type = .fdNone := by
    by_contra hne
    have := (h.live hne).1
    omega
  have hzero : ∀ q, o q = 0 := fun q => le_antisymm (hf ▸ h.le q) (h.nonneg q)
  refine ⟨?_, h.nonneg_set (by rw [hzero]; decide) p, fun q hq => .inr ?_, fun q hq => ?_,
    fun ht => ?_⟩
  · rw [setFile_self, ← h.sum_set p, hf]
    rfl
  · by_cases hqp : q = p
    · subst hqp
      rw [update_self]
      trivial
    · rw [update_of_ne hqp, hzero] at hq
      exact absurd hq (lt_irrefl 0)
  · have hqp : q = p := by
      by_contra hqp
      rw [update_of_ne hqp] at hq
      have := (h.fresh q hq).2.1
      omega
    subst hqp
    rw [setFile_self, update_self, hzero]
    exact ⟨hnone, rfl, rfl⟩
  · rw [setFile_self] at ht
    exact absurd hnone ht

theorem last (h : Counted s f o r) (hp : 0 < o p) (href : (s.file f).ref = 1) :
    Counted (s.setFile f { s.file f with ref := 0, type := .fdNone }) f (update o p (o p - 1))
      (update r p False) := by
  have hone : o p = 1 := le_antisymm (href ▸ h.le p) hp
  have hother : ∀ q, q ≠ p → o q = 0 := by
    intro q hq
    have h1 := h.add_le hq
    have h2 := h.nonneg q
    omega
  have hzero : ∀ q, update o p (o p - 1) q = 0 := by
    intro q
    by_cases hq : q = p
    · subst hq
      rw [update_self, hone, sub_self]
    · rw [update_of_ne hq, hother q hq]
  refine ⟨?_, fun q => (hzero q).ge, fun q hq => ?_, fun q hq => ?_, fun ht => ?_⟩
  · rw [setFile_self, Finset.sum_congr rfl fun q _ => hzero q, Finset.sum_const_zero]
  · rw [hzero] at hq
    exact absurd hq (lt_irrefl 0)
  · have hqp : q ≠ p := by
      rintro rfl
      rwa [update_self] at hq
    rw [update_of_ne hqp] at hq
    exact absurd hq (h.not_fresh hp hqp)
  · rw [setFile_self] at ht
    exact absurd rfl ht

theorem bind (h : Counted s f o r) (hf : r p) (hx : x.type ≠ .fdNone)
    (href : x.ref = (s.file f).ref) {e : End} (he : (s.setFile f x).endOf f = e) :
    Counted (s.bind f x e) f o (update r p False) := by
  obtain ⟨-, href', hone⟩ := h.fresh p hf
  have hself : (s.bind f x e).file f = x := update_self ..
  refine ⟨?_, h.nonneg, fun q _ => .inl ?_, fun q hq => ?_, fun _ => ?_⟩
  · rw [hself, href, h.sum]
  · rwa [hself]
  · have hqp : q ≠ p := by
      rintro rfl
      rwa [update_self] at hq
    rw [update_of_ne hqp] at hq
    exact absurd hq (h.not_fresh (p := p) (by omega) hqp)
  · refine ⟨by rw [hself]; omega, by simp [State.bind], ?_⟩
    simp only [State.bind, update_self]
    rw [← he]
    rfl

/-- A reference to a file that is filled in is given away. -/
theorem give (h : Counted s f o r) (hpq : q ≠ p) (hp : 0 < o p) (hf : ¬ r p) :
    Counted s f (update (update o p (o p + -1)) q (o q + 1)) r := by
  have htype : (s.file f).type ≠ .fdNone := (h.typed p hp).resolve_right hf
  refine ⟨?_, fun k => ?_, fun k _ => .inl htype, fun k hk => absurd (h.fresh k hk).1 htype, h.live⟩
  · have h1 := sum_update (fun a : ℤ => a) o p (o p + -1)
    have h2 := sum_update (fun a : ℤ => a) (update o p (o p + -1)) q (o q + 1)
    rw [update_of_ne hpq] at h2
    have := h.sum
    omega
  · by_cases hkq : k = q
    · subst hkq
      rw [update_self]
      exact (h.nonneg k).trans (Int.le_add_one le_rfl)
    · rw [update_of_ne hkq]
      exact h.nonneg_set (by omega) p k

end Counted

def closers (cl : Pid → Option (Fin NFILE × ℕ × End)) (f : Fin NFILE) (n : ℕ) : ℤ :=
  count (fun x : Option (Fin NFILE × ℕ × End) => x.any fun y => decide (y.1 = f ∧ y.2.1 = n)) cl

def freers (fr : Pid → Option (Page × ℕ)) (page : Page) (n : ℕ) : ℤ :=
  count (fun x : Option (Page × ℕ) => decide (x = some (page, n))) fr

def fileLife (s : State) (cl : Pid → Option (Fin NFILE × ℕ × End)) : Life (Fin NFILE) where
  gen := s.hist.opens
  live f := (s.file f).type ≠ .fdNone
  todo := closers cl
  done f n := s.hist.iputs f n + s.hist.pipecloses f n

def pipeLife (s : State) (fr : Pid → Option (Page × ℕ)) : Life Page where
  gen := s.hist.pipes
  live page := (s.pipe page).readopen = true ∨ (s.pipe page).writeopen = true
  todo := freers fr
  done := s.hist.kfrees

structure Lives (s : State) (cl : Pid → Option (Fin NFILE × ℕ × End))
    (fr : Pid → Option (Page × ℕ)) : Prop where
  files : (fileLife s cl).Once
  pipes : (pipeLife s fr).Once
  what : ∀ f n, s.hist.what f n ≠ none → 1 ≤ n ∧ n ≤ s.hist.opens f
  inode : ∀ f n ip, s.hist.what f n = some (.inode ip) → s.hist.pipecloses f n = 0
  pipe : ∀ f n page m w, s.hist.what f n = some (.pipe page m w) → s.hist.iputs f n = 0 ∧
    1 ≤ m ∧ m ≤ s.hist.pipes page ∧
    (s.hist.pipecloses f n = 0 ↔ m = s.hist.pipes page ∧ (s.pipe page).isOpen w = true)
  inj : ∀ f n f' n' page m w, s.hist.what f n = some (.pipe page m w) →
    s.hist.what f' n' = some (.pipe page m w) → f = f' ∧ n = n'
  inUse : ∀ page, (pipeLife s fr).live page ∨ 0 < freers fr page (s.hist.pipes page) →
    s.inUse page = true
  closing : ∀ p f n e, cl p = some (f, n, e) → s.hist.what f n = some e
  freeing : ∀ p page n, fr p = some (page, n) → n = s.hist.pipes page

theorem closers_update (cl : Pid → Option (Fin NFILE × ℕ × End)) (p : Pid)
    (x : Option (Fin NFILE × ℕ × End)) (f : Fin NFILE) (n : ℕ) :
    closers (update cl p x) f n = closers cl f n +
      (if x.any fun y => decide (y.1 = f ∧ y.2.1 = n) then 1 else 0) -
      if (cl p).any fun y => decide (y.1 = f ∧ y.2.1 = n) then 1 else 0 :=
  count_update _ _ _ _

theorem closers_set {p : Pid} {n : ℕ} {e : End} (hp : cl p = none) (k : Fin NFILE) (m : ℕ) :
    closers (update cl p (some (f, n, e))) k m =
      closers cl k m + if k = f ∧ m = n then 1 else 0 := by
  rw [closers_update, hp]
  by_cases h : k = f ∧ m = n
  · obtain ⟨rfl, rfl⟩ := h
    simp
  · have h' : ¬ (f = k ∧ n = m) := fun h' => h ⟨h'.1.symm, h'.2.symm⟩
    simp [h, h']

theorem closers_clear {p : Pid} {n : ℕ} {e : End} (hp : cl p = some (f, n, e)) (k : Fin NFILE)
    (m : ℕ) : closers (update cl p none) k m =
      closers cl k m - if k = f ∧ m = n then 1 else 0 := by
  rw [closers_update, hp]
  by_cases h : k = f ∧ m = n
  · obtain ⟨rfl, rfl⟩ := h
    simp
  · have h' : ¬ (f = k ∧ n = m) := fun h' => h ⟨h'.1.symm, h'.2.symm⟩
    simp [h, h']

theorem freers_update (fr : Pid → Option (Page × ℕ)) (p : Pid) (x : Option (Page × ℕ))
    (page : Page) (n : ℕ) : freers (update fr p x) page n = freers fr page n +
      (if x = some (page, n) then 1 else 0) - if fr p = some (page, n) then 1 else 0 := by
  refine (count_update _ _ _ _).trans ?_
  simp only [decide_eq_true_eq]
  rfl

theorem of_update_none {α : Type} {c : Pid → Option α} {a : α} (h : update c p none q = some a) :
    c q = some a := by
  by_cases hq : q = p
  · subst hq
    rw [update_self] at h
    cases h
  · rwa [update_of_ne hq] at h

theorem bump_apply {ι : Type} [DecidableEq ι] (c : ι → ℕ → ℕ) (i j : ι) (n m : ℕ) :
    bump c i n j m = c j m + if j = i ∧ m = n then 1 else 0 := by
  unfold bump
  by_cases hj : j = i
  · subst hj
    by_cases hm : m = n
    · subst hm
      simp
    · simp [hm]
  · simp [hj]

namespace Lives

variable {n : ℕ} {page : Page} {e : End}

theorem frame (h : Lives s cl fr) (htype : ∀ f, (s'.file f).type = (s.file f).type)
    (hpipe : s'.pipe = s.pipe) (hinUse : s'.inUse = s.inUse) (hhist : s'.hist = s.hist) :
    Lives s' cl fr := by
  have hfiles : fileLife s' cl = fileLife s cl := by
    unfold fileLife
    simp only [htype, hhist]
  have hpipes : pipeLife s' fr = pipeLife s fr := by
    unfold pipeLife
    simp only [hpipe, hhist]
  exact ⟨hfiles ▸ h.files, hpipes ▸ h.pipes, hhist ▸ h.what, hhist ▸ h.inode,
    by rw [hhist, hpipe]; exact h.pipe, hhist ▸ h.inj, by rw [hpipes, hhist, hinUse]; exact h.inUse,
    hhist ▸ h.closing, hhist ▸ h.freeing⟩

theorem closers_pos (hp : cl p = some (f, n, e)) : 0 < closers cl f n :=
  count_pos (i := p) (by simp [hp])

theorem freers_pos (hp : fr p = some (page, n)) : 0 < freers fr page n :=
  count_pos (i := p) (by simp [hp])

theorem last (h : Lives s cl fr) (hf : (s.file f).type ≠ .fdNone) (hpos : 1 ≤ s.hist.opens f)
    (hp : cl p = none) (he : s.hist.what f (s.hist.opens f) = some e) (hx : x.type = .fdNone) :
    Lives (s.setFile f x) (update cl p (some (f, s.hist.opens f, e))) fr := by
  refine ⟨?_, h.pipes, h.what, h.inode, h.pipe, h.inj, h.inUse, fun q k m e' hq => ?_, h.freeing⟩
  · refine h.files.stop (i := f) hf hpos rfl (fun k hk => ?_) ?_ (fun k m => ?_) rfl
    · simp [fileLife, State.setFile, hk]
    · simp [fileLife, State.setFile, hx]
    · exact closers_set hp k m
  · by_cases hqp : q = p
    · subst hqp
      rw [update_self] at hq
      cases hq
      exact he
    · rw [update_of_ne hqp] at hq
      exact h.closing q k m e' hq

theorem iput (h : Lives s cl fr) {ip : ℕ} (hp : cl p = some (f, n, .inode ip)) :
    Lives { s with hist := { s.hist with iputs := bump s.hist.iputs f n } }
      (update cl p none) fr := by
  have hwhat := h.closing p f n _ hp
  refine ⟨?_, h.pipes, h.what, h.inode, fun k m page j w hk => ?_, h.inj, h.inUse,
    fun q k m e' hq => ?_, h.freeing⟩
  · refine h.files.finish (i := f) (n := n) (closers_pos hp) rfl (fun _ => Iff.rfl)
      (fun k m => ?_) fun k m => ?_
    · exact closers_clear hp k m
    · show bump s.hist.iputs f n k m + s.hist.pipecloses k m = _
      rw [bump_apply]
      show _ = s.hist.iputs k m + s.hist.pipecloses k m + _
      omega
  · obtain ⟨h1, h2⟩ := h.pipe k m page j w hk
    refine ⟨?_, h2⟩
    have hne : ¬ (k = f ∧ m = n) := by
      rintro ⟨rfl, rfl⟩
      have hk' : s.hist.what k m = some (.pipe page j w) := hk
      rw [hwhat] at hk'
      cases hk'
    show bump s.hist.iputs f n k m = 0
    rw [bump_apply, if_neg hne, h1]
  · exact h.closing q k m e' (of_update_none hq)

theorem closing_pipe (h : Lives s cl fr) {m : ℕ} {w : Bool}
    (hp : cl p = some (f, n, .pipe page m w)) :
    m = s.hist.pipes page ∧ (s.pipe page).isOpen w = true := by
  have hdone : s.hist.iputs f n + s.hist.pipecloses f n = 0 :=
    (h.files.of_todo (closers_pos hp)).2
  exact (h.pipe f n page m w (h.closing p f n _ hp)).2.2.2.mp (by omega)

theorem live_of_isOpen {w : Bool} (h : (s.pipe page).isOpen w = true) :
    (pipeLife s fr).live page := by
  cases w
  · exact .inl h
  · exact .inr h

theorem isOpen_close (x : Pipe) (w w' : Bool) :
    (x.close w).isOpen w' = if w' = w then false else x.isOpen w' := by
  cases w <;> cases w' <;> rfl

section

variable (h : Lives s cl fr)
include h

theorem pipeclose {m : ℕ} {w : Bool} (hp : cl p = some (f, n, .pipe page m w)) (hfr : fr p = none) :
    Lives { s with
        pipe := update s.pipe page ((s.pipe page).close w)
        hist := { s.hist with pipecloses := bump s.hist.pipecloses f n } }
      (update cl p none)
      (update fr p (if !((s.pipe page).close w).readopen && !((s.pipe page).close w).writeopen
        then some (page, s.hist.pipes page) else none)) := by
  obtain ⟨rfl, hopen⟩ := h.closing_pipe hp
  have hwhat := h.closing p f n _ hp
  have hlive : (pipeLife s fr).live page := live_of_isOpen hopen
  have hpos := (h.pipe f n page _ w hwhat).2.1
  set both := !((s.pipe page).close w).readopen && !((s.pipe page).close w).writeopen with hboth
  set fr' := update fr p (if both then some (page, s.hist.pipes page) else none) with hfr'
  have hself : ((update s.pipe page ((s.pipe page).close w)) page) =
      (s.pipe page).close w := update_self _ _ _
  have hfreers : ∀ k j, freers fr' k j = freers fr k j +
      if k = page ∧ j = s.hist.pipes page ∧ both = true then 1 else 0 := by
    intro k j
    rw [hfr', freers_update, hfr]
    by_cases h : k = page ∧ j = s.hist.pipes page
    · obtain ⟨rfl, rfl⟩ := h
      cases both <;> simp
    · have h' : ¬ (page = k ∧ s.hist.pipes page = j) := fun h' => h ⟨h'.1.symm, h'.2.symm⟩
      have h'' : ¬ (k = page ∧ j = s.hist.pipes page ∧ both = true) := fun h'' => h ⟨h''.1, h''.2.1⟩
      rw [if_neg h'']
      cases both <;> simp [h']
  refine ⟨?_, ?_, h.what, fun k j ip hk => ?_, fun k j pg i v hk => ?_, h.inj, fun k hk => ?_,
    fun q k j e' hq => ?_, fun q k j hq => ?_⟩
  · refine h.files.finish (i := f) (n := n) (closers_pos hp) rfl (fun _ => Iff.rfl)
      (fun k m => ?_) fun k m => ?_
    · exact closers_clear hp k m
    · show s.hist.iputs k m + bump s.hist.pipecloses f n k m = _
      rw [bump_apply]
      show _ = s.hist.iputs k m + s.hist.pipecloses k m + _
      omega
  · -- The pipe ends when its second end is closed.
    by_cases hb : both = true
    · refine h.pipes.stop (i := page) hlive hpos rfl (fun k hk => ?_) ?_ (fun k j => ?_) rfl
      · simp [pipeLife, hk]
      · simp only [pipeLife, hself]
        rw [hboth, Bool.and_eq_true, Bool.not_eq_true', Bool.not_eq_true'] at hb
        rw [hb.1, hb.2]
        decide
      · refine (hfreers k j).trans ?_
        simp only [hb, and_true]
        rfl
    · refine h.pipes.congr (fun k j => ?_) (fun k j => ?_) fun _ _ _ => rfl
      · unfold Life.Over
        by_cases hk : k = page
        · subst hk
          have hl : (pipeLife { s with
              pipe := update s.pipe k ((s.pipe k).close w)
              hist := { s.hist with pipecloses := bump s.hist.pipecloses f n } } fr').live k := by
            simp only [pipeLife, hself]
            rw [hboth, Bool.and_eq_true, Bool.not_eq_true', Bool.not_eq_true'] at hb
            by_contra hno
            rw [not_or, Bool.not_eq_true, Bool.not_eq_true] at hno
            exact hb hno
          simp only [hl, hlive]
          rfl
        · simp [pipeLife, hk]
      · show (s.hist.kfrees k j : ℤ) + freers fr' k j = _
        rw [hfreers, if_neg fun h => hb h.2.2, add_zero]
        rfl
  · have hne : ¬ (k = f ∧ j = n) := by
      rintro ⟨rfl, rfl⟩
      have hk' : s.hist.what k j = some (.inode ip) := hk
      rw [hwhat] at hk'
      cases hk'
    show bump s.hist.pipecloses f n k j = 0
    rw [bump_apply, if_neg hne, h.inode k j ip hk]
  · obtain ⟨h1, h2, h3, h4⟩ := h.pipe k j pg i v hk
    refine ⟨h1, h2, h3, ?_⟩
    show bump s.hist.pipecloses f n k j = 0 ↔ i = s.hist.pipes pg ∧
      (update s.pipe page ((s.pipe page).close w) pg).isOpen v = true
    rw [bump_apply]
    by_cases hkj : k = f ∧ j = n
    · obtain ⟨rfl, rfl⟩ := hkj
      have hk' : s.hist.what k j = some (.pipe pg i v) := hk
      rw [hwhat] at hk'
      cases hk'
      rw [if_pos ⟨rfl, rfl⟩, hself, isOpen_close, if_pos rfl]
      simp
    · rw [if_neg hkj, Nat.add_zero, h4]
      refine and_congr_right fun hi => ?_
      by_cases hpg : pg = page
      · subst hpg
        rw [hself, isOpen_close]
        by_cases hv : v = w
        · subst hv
          have hi' : i = s.hist.pipes pg := hi
          subst hi'
          exact absurd (h.inj k j f n _ _ _ hk hwhat) hkj
        · rw [if_neg hv]
      · rw [update_of_ne hpg]
  · refine h.inUse k ?_
    by_cases hkp : k = page
    · exact .inl (hkp ▸ hlive)
    · refine hk.imp (fun hk => ?_) fun hk => ?_
      · simpa [pipeLife, hkp] using hk
      · rwa [hfreers, if_neg fun h => hkp h.1, add_zero] at hk
  · exact h.closing q k j e' (of_update_none hq)
  · by_cases hqp : q = p
    · subst hqp
      rw [hfr', update_self] at hq
      split_ifs at hq
      · cases hq
        rfl
    · rw [hfr', update_of_ne hqp] at hq
      exact h.freeing q k j hq

theorem kfree (hp : fr p = some (page, n)) :
    Lives { s with
        inUse := update s.inUse page false
        hist := { s.hist with kfrees := bump s.hist.kfrees page (s.hist.pipes page) } }
      cl (update fr p none) := by
  obtain rfl := h.freeing p page n hp
  have hpos : 0 < freers fr page (s.hist.pipes page) := freers_pos hp
  obtain ⟨hover, hdone⟩ := h.pipes.of_todo hpos
  have hfreers : ∀ k j, freers (update fr p none) k j = freers fr k j -
      if k = page ∧ j = s.hist.pipes page then 1 else 0 := by
    intro k j
    rw [freers_update, hp]
    simp [eq_comm]
  refine ⟨h.files, ?_, h.what, h.inode, h.pipe, h.inj, fun k hk => ?_, h.closing,
    fun q k j hq => ?_⟩
  · exact h.pipes.finish (i := page) (n := s.hist.pipes page) hpos rfl (fun _ => Iff.rfl) hfreers
      fun k j => bump_apply _ _ _ _ _
  · have hkp : k ≠ page := by
      rintro rfl
      rcases hk with hk | hk
      · exact hover.2.2 rfl hk
      · have hsum := h.pipes.ended k _ hover
        rw [hdone] at hsum
        have hone : freers fr k (s.hist.pipes k) = 1 := by
          have : ((0 : ℕ) : ℤ) + freers fr k (s.hist.pipes k) = 1 := hsum
          simpa using this
        rw [hfreers] at hk
        simp [hone] at hk
    show update s.inUse page false k = true
    rw [update_of_ne hkp]
    refine h.inUse k (hk.imp_right fun hk => ?_)
    rwa [hfreers, if_neg fun h => hkp h.1, sub_zero] at hk
  · exact h.freeing q k j (of_update_none hq)

theorem newPage (hpage : s.inUse page = false) :
    Lives { s with
        inUse := update s.inUse page true
        pipe := update s.pipe page ⟨true, true⟩
        hist := { s.hist with pipes := update s.hist.pipes page (s.hist.pipes page + 1) } }
      cl fr := by
  have hdead : ¬ ((pipeLife s fr).live page ∨ 0 < freers fr page (s.hist.pipes page)) := by
    intro hl
    rw [h.inUse page hl] at hpage
    cases hpage
  rw [not_or] at hdead
  refine ⟨h.files, ?_, h.what, h.inode, fun k j pg i v hk => ?_, h.inj, fun k hk => ?_, h.closing,
    fun q k j hq => ?_⟩
  · refine h.pipes.start (i := page) hdead.1 rfl (fun k hk => ?_) ?_ rfl rfl
    · simp [pipeLife, hk]
    · simp [pipeLife]
  · obtain ⟨h1, h2, h3, h4⟩ := h.pipe k j pg i v hk
    by_cases hpg : pg = page
    · subst hpg
      simp only [update_self]
      refine ⟨h1, h2, by omega, h4.trans (iff_of_false ?_ fun h => by omega)⟩
      rintro ⟨-, hopen⟩
      exact hdead.1 (live_of_isOpen hopen)
    · simp only [update_of_ne hpg]
      exact ⟨h1, h2, h3, h4⟩
  · by_cases hkp : k = page
    · subst hkp
      simp
    · simp only [update_of_ne hkp] at hk ⊢
      refine h.inUse k (hk.imp_left fun hk => ?_)
      simpa [pipeLife, hkp] using hk
  · have hj := h.freeing q k j hq
    have hkp : k ≠ page := by
      rintro rfl
      exact hdead.2 (hj ▸ freers_pos hq)
    simpa [hkp] using hj

theorem bind (hf : (s.file f).type = .fdNone) (hx : x.type ≠ .fdNone)
    (he : ∀ pg m w, e = .pipe pg m w → 1 ≤ m ∧ m = s.hist.pipes pg ∧
      (s.pipe pg).isOpen w = true ∧ ∀ k j, s.hist.what k j ≠ some (.pipe pg m w)) :
    Lives (s.bind f x e) cl fr := by
  have hnew : s.hist.iputs f (s.hist.opens f + 1) = 0 ∧
      s.hist.pipecloses f (s.hist.opens f + 1) = 0 := by
    have h0 : s.hist.iputs f (s.hist.opens f + 1) + s.hist.pipecloses f (s.hist.opens f + 1) = 0 :=
      (h.files.not_over f (s.hist.opens f + 1) fun ho => by
        have : s.hist.opens f + 1 ≤ s.hist.opens f := ho.2.1
        omega).1
    omega
  have hwhat : ∀ k j, (s.bind f x e).hist.what k j =
      if k = f ∧ j = s.hist.opens f + 1 then some e else s.hist.what k j := by
    intro k j
    by_cases hk : k = f
    · subst hk
      by_cases hj : j = s.hist.opens k + 1
      · subst hj
        simp [State.bind]
      · simp [State.bind, hj]
    · simp [State.bind, hk]
  refine ⟨?_, h.pipes, fun k j hk => ?_, fun k j ip hk => ?_, fun k j pg i v hk => ?_,
    fun k j k' j' pg i v hk hk' => ?_, h.inUse, fun q k j e' hq => ?_, h.freeing⟩
  · refine h.files.start (i := f) (not_not.mpr hf) rfl (fun k hk => ?_) ?_ rfl rfl
    · simp [fileLife, State.bind, State.setFile, hk]
    · simp [fileLife, State.bind, State.setFile, hx]
  · rw [hwhat] at hk
    by_cases hkf : k = f
    · subst hkf
      have hopens : (s.bind k x e).hist.opens k = s.hist.opens k + 1 := update_self _ _ _
      rw [hopens]
      split_ifs at hk with hj
      · omega
      · have := h.what k j hk
        omega
    · rw [if_neg fun h => hkf h.1] at hk
      have hopens : (s.bind f x e).hist.opens k = s.hist.opens k := update_of_ne hkf _ _
      rw [hopens]
      exact h.what k j hk
  · rw [hwhat] at hk
    show s.hist.pipecloses k j = 0
    split_ifs at hk with hkj
    · rw [hkj.1, hkj.2]
      exact hnew.2
    · exact h.inode k j ip hk
  · rw [hwhat] at hk
    show s.hist.iputs k j = 0 ∧ 1 ≤ i ∧ i ≤ s.hist.pipes pg ∧
      (s.hist.pipecloses k j = 0 ↔ i = s.hist.pipes pg ∧ (s.pipe pg).isOpen v = true)
    split_ifs at hk with hkj
    · obtain ⟨h1, h2, h3, -⟩ := he pg i v (Option.some.inj hk)
      rw [hkj.1, hkj.2]
      exact ⟨hnew.1, h1, by omega, iff_of_true hnew.2 ⟨h2, h3⟩⟩
    · exact h.pipe k j pg i v hk
  · rw [hwhat] at hk hk'
    split_ifs at hk hk' with hkj hkj'
    · exact ⟨hkj.1.trans hkj'.1.symm, hkj.2.trans hkj'.2.symm⟩
    · exact absurd hk' ((he pg i v (Option.some.inj hk)).2.2.2 k' j')
    · exact absurd hk ((he pg i v (Option.some.inj hk')).2.2.2 k j)
    · exact h.inj k j k' j' pg i v hk hk'
  · have hold := h.closing q k j e' hq
    have hle := (h.what k j (by rw [hold]; exact Option.some_ne_none _)).2
    rw [hwhat, if_neg, hold]
    rintro ⟨rfl, rfl⟩
    omega

theorem what_bind (f : Fin NFILE) (x : OpenFile) (e : End) {e' : End}
    (hk : s.hist.what k n = some e') : (s.bind f x e).hist.what k n = some e' := by
  have hle := (h.what k n (by rw [hk]; exact Option.some_ne_none _)).2
  show update s.hist.what f _ k n = _
  by_cases hkf : k = f
  · subst hkf
    rw [update_self, update_of_ne (by omega), hk]
  · rw [update_of_ne hkf, hk]

end

theorem what_bind_self (f : Fin NFILE) (x : OpenFile) (e : End) :
    (s.bind f x e).hist.what f (s.hist.opens f + 1) = some e := by
  show update s.hist.what f _ f _ = _
  rw [update_self, update_self]

end Lives

/-- Both ends of every pipe have their files. -/
def History.Ends (h : History) : Prop :=
  ∀ page m w, 1 ≤ m → m ≤ h.pipes page → ∃ f n, h.what f n = some (.pipe page m w)

namespace History.Ends

theorem bind (h : s.hist.Ends) (hl : Lives s cl fr) (f : Fin NFILE) (x : OpenFile) (e : End) :
    (s.bind f x e).hist.Ends := by
  intro page m w h1 hm
  obtain ⟨k, n, hk⟩ := h page m w h1 hm
  exact ⟨k, n, hl.what_bind f x e hk⟩

end History.Ends

structure Tabs (s : State) (G : Hands) : Prop where
  busy : ∀ p h, G p = some h → s.ofile p = h.ofile ∧ s.state p = .runnable ∧ s.busy p = true
  idle : ∀ p, G p = none → s.busy p = false
  empty : ∀ p, s.state p = .unused ∨ s.state p = .zombie → ∀ fd, s.ofile p fd = none
  child : ∀ p h np l, G p = some h → h.child = some (np, l) → s.state np = .embryo ∧
    ∀ fd ∈ l, s.ofile np fd = none
  one : ∀ p q h h' np l l', G p = some h → G q = some h' → h.child = some (np, l) →
    h'.child = some (np, l') → p = q

def ownOf (s : State) (G : Hands) (f : Fin NFILE) (p : Pid) : ℤ := own s G p f

def freshOf (G : Hands) (f : Fin NFILE) (p : Pid) : Prop := f ∈ fresh G p

structure Inv (s : State) (G : Hands) : Prop where
  files : ∀ f, Counted s f (ownOf s G f) (freshOf G f)
  lives : Lives s (closing G) (freeing G)
  tabs : Tabs s G

end Xv6.Files
