import Xv6.Files.Inv

namespace Xv6.Files
open Lib Prog Function

/-- No panic but that of `exit` in the first process. -/
def protocol : Protocol State Empty Pid (Option Hand) where
  Inv s G := Inv s.st G ∧ s.st.hist.Ends
  May _ _ _ := False
  Err m := m = "init exiting"

variable {s s' : State} {G : Hands} {p : Pid} {g g' : Hand}

section Tabs

variable {x : Option Hand}

/-- One process changes its hand; what the others and their children have stays. -/
theorem Tabs.change (h : Tabs s G)
    (hself : ∀ h', x = some h' → s'.ofile p = h'.ofile ∧ s'.state p = .runnable ∧ s'.busy p = true)
    (hidle : x = none → s'.busy p = false) (hbusy : ∀ q, q ≠ p → s'.busy q = s.busy q)
    (hrun : ∀ q, q ≠ p → s.state q = .runnable → s'.ofile q = s.ofile q ∧ s'.state q = .runnable)
    (hempty : ∀ q, s'.state q = .unused ∨ s'.state q = .zombie → ∀ fd, s'.ofile q fd = none)
    (hchild : ∀ h' np l, x = some h' → h'.child = some (np, l) → s'.state np = .embryo ∧
      (∀ fd ∈ l, s'.ofile np fd = none) ∧ ∀ q h'' l', q ≠ p → G q = some h'' →
        h''.child ≠ some (np, l'))
    (hother : ∀ q h' np l, q ≠ p → G q = some h' → h'.child = some (np, l) →
      s'.state np = .embryo ∧ s'.ofile np = s.ofile np) : Tabs s' (update G p x) := by
  have hp : update G p x p = x := update_self _ _ _
  have hq : ∀ q, q ≠ p → update G p x q = G q := fun q hq => update_of_ne hq _ _
  refine ⟨fun q h' hq' => ?_, fun q hq' => ?_, hempty, fun q h' np l hq' hc => ?_,
    fun q q' h' h'' np l l' h1 h2 hc hc' => ?_⟩
  · by_cases hqp : q = p
    · subst hqp
      exact hself h' (hp ▸ hq')
    · rw [hq q hqp] at hq'
      obtain ⟨h1, h2, h3⟩ := h.busy q h' hq'
      obtain ⟨h4, h5⟩ := hrun q hqp h2
      exact ⟨h4.trans h1, h5, (hbusy q hqp).trans h3⟩
  · by_cases hqp : q = p
    · subst hqp
      exact hidle (hp ▸ hq')
    · rw [hq q hqp] at hq'
      exact (hbusy q hqp).trans (h.idle q hq')
  · by_cases hqp : q = p
    · subst hqp
      obtain ⟨h1, h2, -⟩ := hchild h' np l (hp ▸ hq') hc
      exact ⟨h1, h2⟩
    · rw [hq q hqp] at hq'
      obtain ⟨h1, h2⟩ := hother q h' np l hqp hq' hc
      exact ⟨h1, h2 ▸ (h.child q h' np l hq' hc).2⟩
  · by_cases hqp : q = p
    · by_cases hqp' : q' = p
      · rw [hqp, hqp']
      · subst hqp
        rw [hq q' hqp'] at h2
        exact absurd hc' ((hchild h' np l (hp ▸ h1) hc).2.2 q' h'' l' hqp' h2)
    · rw [hq q hqp] at h1
      by_cases hqp' : q' = p
      · subst hqp'
        exact absurd hc ((hchild h'' np l' (hp ▸ h2) hc').2.2 q h' l hqp h1)
      · rw [hq q' hqp'] at h2
        exact h.one q q' h' h'' np l l' h1 h2 hc hc'

theorem Tabs.ne_child (h : Tabs s G) {q np : Pid} {l : List (Fin NOFILE)} (hp : G q = some g)
    (hc : g.child = some (np, l)) {q' : Pid} (hrun : s.state q' ≠ .embryo) : np ≠ q' := by
  rintro rfl
  exact hrun (h.child q g np l hp hc).1

theorem Tabs.own (h : Tabs s G) (hp : G p = some g) (hofile : s'.ofile = update s.ofile p g'.ofile)
    (hstate : s'.state = s.state) (hbusy : s'.busy = s.busy) (hchild : g'.child = g.child) :
    Tabs s' (update G p (some g')) := by
  obtain ⟨-, hrun, hb⟩ := h.busy p g hp
  have hne : s.state p ≠ .embryo := by
    rw [hrun]
    rintro ⟨⟩
  have hofile' : ∀ q, q ≠ p → s'.ofile q = s.ofile q := fun q hq => by
    rw [hofile, update_of_ne hq]
  refine h.change ?_ (fun h => by cases h) (fun q _ => by rw [hbusy])
    (fun q hq hr => ⟨hofile' q hq, hstate ▸ hr⟩) (fun q hq fd => ?_) ?_ fun q h' np l _ hq hc => ?_
  · rintro _ ⟨⟩
    exact ⟨by rw [hofile, update_self], hstate ▸ hrun, hbusy ▸ hb⟩
  · rw [hstate] at hq
    have hqp : q ≠ p := by
      rintro rfl
      rw [hrun] at hq
      rcases hq with hq | hq <;> cases hq
    rw [hofile' q hqp]
    exact h.empty q hq fd
  · rintro _ np l ⟨⟩ hc
    rw [hchild] at hc
    obtain ⟨hemb, hnone⟩ := h.child p g np l hp hc
    rw [hofile' np (h.ne_child hp hc hne), hstate]
    exact ⟨hemb, hnone, fun q h'' l' hq hG hc' => hq (h.one q p h'' g np l' l hG hp hc' hc)⟩
  · rw [hstate]
    exact ⟨(h.child q h' np l hq hc).1, hofile' np (h.ne_child hq hc hne)⟩

end Tabs

def Hand.addOwn (g : Hand) (f : Fin NFILE) (d : ℤ) : Hand :=
  { g with own := update g.own f (g.own f + d) }

/-- The hand of a process at the beginning and at the end of a call. -/
def Hand.clean (t : Fin NOFILE → Option (Fin NFILE)) : Hand := ⟨t, slots t, [], none, none, none⟩

namespace Inv

variable {f : Fin NFILE}

theorem ownOf_eq (hp : G p = some g) : ownOf s G f p = g.own f := by rw [ownOf, own_some hp]

theorem freshOf_eq (hp : G p = some g) : freshOf G f p = (f ∈ g.fresh) := by
  rw [freshOf, fresh, hp]
  rfl

theorem closing_eq (hp : G p = some g) : closing G p = g.closing := by rw [closing, hp]; rfl

theorem freeing_eq (hp : G p = some g) : freeing G p = g.freeing := by rw [freeing, hp]; rfl

theorem update_fresh (hp : G p = some g) : update (fresh G) p g.fresh = fresh G := by
  rw [← show fresh G p = g.fresh by rw [fresh, hp]; rfl, update_eq_self]

theorem update_closing (hp : G p = some g) : update (closing G) p g.closing = closing G := by
  rw [← closing_eq hp, update_eq_self]

theorem update_freeing (hp : G p = some g) : update (freeing G) p g.freeing = freeing G := by
  rw [← freeing_eq hp, update_eq_self]

theorem ref_pos (h : Inv s G) (hp : G p = some g) (hf : 0 < g.own f) : 1 ≤ (s.file f).ref := by
  have hle := (h.files f).le p
  rw [ownOf_eq hp] at hle
  omega

theorem of_parts (h : Inv s G) (hp : G p = some g) (hofile : s'.ofile = update s.ofile p g'.ofile)
    (hstate : s'.state = s.state) (hbusy : s'.busy = s.busy) (hchild : g'.child = g.child)
    (hfiles : ∀ k, Counted s' k (update (ownOf s G k) p (g'.own k))
      (update (freshOf G k) p (k ∈ g'.fresh)))
    (hlives : Lives s' (update (closing G) p g'.closing) (update (freeing G) p g'.freeing)) :
    Inv s' (update G p (some g')) := by
  have hown : own s' (update G p (some g')) = update (own s G) p g'.own :=
    own_update fun q hq => by rw [hofile, update_of_ne hq]
  refine ⟨fun k => ?_, ?_, h.tabs.own hp hofile hstate hbusy hchild⟩
  · have h1 : ownOf s' (update G p (some g')) k = update (ownOf s G k) p (g'.own k) := by
      unfold ownOf
      rw [hown]
      exact comp_update (fun o : Fin NFILE → ℤ => o k) (own s G) p g'.own
    have h2 : freshOf (update G p (some g')) k = update (freshOf G k) p (k ∈ g'.fresh) := by
      unfold freshOf
      rw [fresh_update]
      exact comp_update (fun r => k ∈ r) (fresh G) p g'.fresh
    rw [h1, h2]
    exact hfiles k
  · rw [closing_update, freeing_update]
    exact hlives

theorem ofile_eq (h : Inv s G) (hp : G p = some g) : update s.ofile p g.ofile = s.ofile := by
  rw [← (h.tabs.busy p g hp).1, update_eq_self]

theorem counted_same (h : Inv s G) (hp : G p = some g) {k : Fin NFILE} {w : ℤ}
    {r : List (Fin NFILE)} (hown : w = g.own k) (hfresh : k ∈ r ↔ k ∈ g.fresh) :
    Counted s k (update (ownOf s G k) p w) (update (freshOf G k) p (k ∈ r)) := by
  rw [hown, propext hfresh, ← freshOf_eq hp, ← ownOf_eq hp, update_eq_self, update_eq_self]
  exact h.files k

/-- The table of files stays, and what the process has of it. -/
theorem of_lives (h : Inv s G) (hp : G p = some g) (hofile : s'.ofile = update s.ofile p g'.ofile)
    (hstate : s'.state = s.state) (hbusy : s'.busy = s.busy) (hchild : g'.child = g.child)
    (hown : g'.own = g.own) (hfresh : g'.fresh = g.fresh)
    (hframe : ∀ k o r, Counted s k o r → Counted s' k o r)
    (hlives : Lives s' (update (closing G) p g'.closing) (update (freeing G) p g'.freeing)) :
    Inv s' (update G p (some g')) :=
  h.of_parts hp hofile hstate hbusy hchild
    (fun k => hframe k _ _ (h.counted_same hp (by rw [hown]) (by rw [hfresh]))) hlives

theorem of_file {x : OpenFile} {w : ℤ} {r : List (Fin NFILE)}
    {c : Option (Fin NFILE × ℕ × End)} (h : Inv s G) (hp : G p = some g)
    (hr : ∀ k, k ≠ f → (k ∈ r ↔ k ∈ g.fresh))
    (hf : Counted (s.setFile f x) f (update (ownOf s G f) p w) (update (freshOf G f) p (f ∈ r)))
    (hlives : Lives (s.setFile f x) (update (closing G) p c) (freeing G)) :
    Inv (s.setFile f x) (update G p (some { g with
      own := update g.own f w, fresh := r, closing := c })) := by
  refine h.of_parts hp (h.ofile_eq hp).symm rfl rfl rfl (fun k => ?_) ?_
  · by_cases hk : k = f
    · subst hk
      show Counted _ _ (update _ p (update g.own k w k)) _
      rwa [update_self]
    · exact (h.counted_same hp (update_of_ne hk _ _) (hr k hk)).frame (update_of_ne hk _ _) rfl rfl
        (endOf_setFile_of_ne hk)
  · show Lives _ _ (update (freeing G) p g.freeing)
    rwa [update_freeing hp]

theorem setOfile (h : Inv s G) (hp : G p = some g) (fd : Fin NOFILE) (x : Option (Fin NFILE)) :
    Inv (s.setOfile p fd x) (update G p (some { g with ofile := update g.ofile fd x })) := by
  refine h.of_lives hp ?_ rfl rfl rfl rfl rfl (fun _ _ _ h => h.frame rfl rfl rfl rfl) ?_
  · show update s.ofile p (update (s.ofile p) fd x) = _
    rw [(h.tabs.busy p g hp).1]
  · rw [update_closing hp, update_freeing hp]
    exact h.lives.frame (fun _ => rfl) rfl rfl rfl

theorem type_setFile {x : OpenFile} (hx : x.type = (s.file f).type) (k : Fin NFILE) :
    ((s.setFile f x).file k).type = (s.file k).type := by
  by_cases hk : k = f
  · subst hk
    simp [State.setFile, hx]
  · simp [State.setFile, hk]

theorem lives_setFile (h : Inv s G) (hp : G p = some g) {x : OpenFile}
    (hx : x.type = (s.file f).type) :
    Lives (s.setFile f x) (update (closing G) p g.closing) (freeing G) := by
  rw [update_closing hp]
  exact h.lives.frame (type_setFile hx) rfl rfl rfl

theorem addRef (h : Inv s G) (hp : G p = some g) {d : ℤ} (hf : 0 < g.own f) (hfresh : f ∉ g.fresh)
    (hd : 0 ≤ g.own f + d) (hpos : 0 < (s.file f).ref + d) :
    Inv (s.setFile f { s.file f with ref := (s.file f).ref + d })
      (update G p (some (g.addOwn f d))) := by
  refine h.of_file hp (fun _ _ => Iff.rfl) ?_ (h.lives_setFile hp rfl)
  rw [← freshOf_eq hp, update_eq_self, ← ownOf_eq hp]
  rw [← freshOf_eq hp] at hfresh
  rw [← ownOf_eq hp] at hf hd
  exact (h.files f).step hf hfresh hd hpos

theorem alloc (h : Inv s G) (hp : G p = some g) (hf : (s.file f).ref = 0) :
    Inv (s.setFile f { s.file f with ref := 1 })
      (update G p (some { g.addOwn f 1 with fresh := f :: g.fresh })) := by
  refine h.of_file hp (fun k hk => by simp [hk]) ?_ (h.lives_setFile hp rfl)
  rw [← ownOf_eq hp, eq_true (List.mem_cons_self : f ∈ f :: g.fresh)]
  exact (h.files f).alloc hf p

/-- What a process has in hand after it dropped the last reference to `f`. -/
def lastHand (s : State) (g : Hand) (f : Fin NFILE) : Hand :=
  { g.addOwn f (-1) with
    fresh := g.fresh.filter (· ≠ f)
    closing := if (s.file f).type = .fdNone then none else some (f, s.hist.opens f, s.endOf f) }

section

variable (h : Inv s G)
include h

section

variable (hp : G p = some g)
include hp

theorem last (hf : 0 < g.own f) (href : (s.file f).ref = 1) (hcl : g.closing = none) :
    Inv (s.setFile f { s.file f with ref := 0, type := .fdNone })
      (update G p (some (lastHand s g f))) := by
  refine h.of_file hp (fun k hk => by simp [hk]) ?_ ?_
  · rw [← ownOf_eq hp, eq_false (show f ∉ g.fresh.filter (· ≠ f) by simp)]
    rw [← ownOf_eq hp] at hf
    exact (h.files f).last hf href
  · split_ifs with htype
    · rw [← hcl]
      exact h.lives_setFile hp htype.symm
    · obtain ⟨-, hpos, hwhat⟩ := (h.files f).live htype
      exact h.lives.last htype hpos ((closing_eq hp).trans hcl) hwhat rfl

theorem iput {n ip : ℕ} (hcl : g.closing = some (f, n, .inode ip)) :
    Inv { s with hist := { s.hist with iputs := bump s.hist.iputs f n } }
      (update G p (some { g with closing := none })) := by
  refine h.of_lives hp (h.ofile_eq hp).symm rfl rfl rfl rfl rfl
    (fun _ _ _ h => h.frame rfl rfl rfl rfl) ?_
  rw [update_freeing hp]
  exact h.lives.iput ((closing_eq hp).trans hcl)

theorem pipeclose {n m : ℕ} {page : Page} {w : Bool}
    (hcl : g.closing = some (f, n, .pipe page m w)) (hfr : g.freeing = none) :
    Inv { s with
        pipe := update s.pipe page ((s.pipe page).close w)
        hist := { s.hist with pipecloses := bump s.hist.pipecloses f n } }
      (update G p (some { g with
        closing := none
        freeing := if !((s.pipe page).close w).readopen && !((s.pipe page).close w).writeopen
          then some (page, s.hist.pipes page) else none })) :=
  h.of_lives hp (h.ofile_eq hp).symm rfl rfl rfl rfl rfl (fun _ _ _ h => h.frame rfl rfl rfl rfl)
    (h.lives.pipeclose ((closing_eq hp).trans hcl) ((freeing_eq hp).trans hfr))

theorem kfree {n : ℕ} {page : Page} (hfr : g.freeing = some (page, n)) :
    Inv { s with
        inUse := update s.inUse page false
        hist := { s.hist with kfrees := bump s.hist.kfrees page (s.hist.pipes page) } }
      (update G p (some { g with freeing := none })) := by
  refine h.of_lives hp (h.ofile_eq hp).symm rfl rfl rfl rfl rfl
    (fun _ _ _ h => h.frame rfl rfl rfl rfl) ?_
  rw [update_closing hp]
  exact h.lives.kfree ((freeing_eq hp).trans hfr)

theorem bind (hf : f ∈ g.fresh) {x : OpenFile} {e : End}
    (hx : x.type ≠ .fdNone) (href : x.ref = (s.file f).ref) (he : (s.setFile f x).endOf f = e)
    (hpipe : ∀ pg m w, e = .pipe pg m w → 1 ≤ m ∧ m = s.hist.pipes pg ∧
      (s.pipe pg).isOpen w = true ∧ ∀ k j, s.hist.what k j ≠ some (.pipe pg m w)) :
    Inv (s.bind f x e) (update G p (some { g with fresh := g.fresh.filter (· ≠ f) })) := by
  rw [← freshOf_eq hp] at hf
  refine h.of_parts hp (h.ofile_eq hp).symm rfl rfl rfl (fun k => ?_) ?_
  · by_cases hk : k = f
    · subst hk
      rw [← ownOf_eq hp, update_eq_self, eq_false (show k ∉ g.fresh.filter (· ≠ k) by simp)]
      exact (h.files k).bind hf hx href he
    · have hmem : k ∈ g.fresh.filter (· ≠ f) ↔ k ∈ g.fresh := by simp [hk]
      refine (h.counted_same hp rfl hmem).frame ?_ ?_ ?_ (endOf_setFile_of_ne hk)
      · exact update_of_ne hk _ _
      · exact update_of_ne hk _ _
      · exact update_of_ne hk _ _
  · rw [update_closing hp, update_freeing hp]
    exact h.lives.bind ((h.files f).fresh p hf).1 hx hpipe

end

/-- A page that is not in use becomes a pipe.  No file stands for an end of it. -/
theorem newPage {page : Page} (hpage : s.inUse page = false) :
    Inv { s with
        inUse := update s.inUse page true
        pipe := update s.pipe page ⟨true, true⟩
        hist := { s.hist with
          pipes := update s.hist.pipes page (s.hist.pipes page + 1) } } G := by
  refine ⟨fun f => ?_, h.lives.newPage hpage,
    ⟨h.tabs.busy, h.tabs.idle, h.tabs.empty, h.tabs.child, h.tabs.one⟩⟩
  obtain ⟨h1, h2, h3, h4, h5⟩ := h.files f
  refine ⟨h1, h2, h3, h4, fun hf => ?_⟩
  obtain ⟨hpos, hopens, hwhat⟩ := h5 hf
  refine ⟨hpos, hopens, hwhat.trans ?_⟩
  unfold State.endOf at hwhat ⊢
  cases ht : (s.file f).type with
  | fdPipe =>
    simp only [ht] at hwhat ⊢
    have hne : (s.file f).pipe ≠ page := by
      intro he
      have hnot : ¬ (fileLife s (closing G)).Over f (s.hist.opens f) := fun ho => ho.2.2 rfl hf
      have hdone : s.hist.iputs f (s.hist.opens f) + s.hist.pipecloses f (s.hist.opens f) = 0 :=
        (h.lives.files.not_over f _ hnot).1
      have hopen := ((h.lives.pipe f _ _ _ _ hwhat).2.2.2.mp (by omega)).2
      rw [he] at hopen
      rw [h.lives.inUse page (.inl (Lives.live_of_isOpen hopen))] at hpage
      cases hpage
    rw [update_of_ne hne]
  | fdNone | fdInode => simp only

end

end Inv

/-- What a process has, with the descriptors `t`. -/
def view (t : Fin NOFILE → Option (Fin NFILE)) (x : Option Hand) : (Fin NFILE → ℤ) ×
    List (Fin NFILE) × Option (Fin NFILE × ℕ × End) × Option (Page × ℕ) :=
  (x.elim (slots t) Hand.own, x.elim [] Hand.fresh, x.elim none Hand.closing,
    x.elim none Hand.freeing)

/-- The hand after the child `np` has been given a reference to `f`. -/
def Hand.given (g : Hand) (f : Fin NFILE) (np : Pid) (l : List (Fin NOFILE)) : Hand :=
  { g.addOwn f (-1) with child := some (np, l) }

section Processes

variable {x : Option Hand} {t : Fin NOFILE → Option (Fin NFILE)}

namespace Inv

section

variable (h : Inv s G)
include h

/-- Nothing but processes' states and the hand of one process, which holds the same. -/
theorem replace (hfile : s'.file = s.file) (hpipe : s'.pipe = s.pipe)
    (hinUse : s'.inUse = s.inUse) (hhist : s'.hist = s.hist) (hofile : s'.ofile = s.ofile)
    (hview : view (s.ofile p) x = view (s.ofile p) (G p)) (ht : Tabs s' (update G p x)) :
    Inv s' (update G p x) := by
  simp only [view, Prod.mk.injEq] at hview
  obtain ⟨hown, hfresh, hclosing, hfreeing⟩ := hview
  have hown' : own s' (update G p x) = own s G := by
    rw [own_update (s := s) fun q _ => by rw [hofile], hofile, hown, ← own_eq, update_eq_self]
  have hfresh' : fresh (update G p x) = fresh G := by
    rw [fresh_update, hfresh]
    exact update_eq_self _ _
  have hclosing' : closing (update G p x) = closing G := by
    rw [closing_update, hclosing]
    exact update_eq_self _ _
  have hfreeing' : freeing (update G p x) = freeing G := by
    rw [freeing_update, hfreeing]
    exact update_eq_self _ _
  refine ⟨fun k => ?_, ?_, ht⟩
  · unfold ownOf freshOf
    rw [hown', hfresh']
    exact (h.files k).frame (by rw [hfile]) (by rw [hhist]) (by rw [hhist])
      (by rw [State.endOf, State.endOf, hfile, hhist])
  · rw [hclosing', hfreeing']
    exact h.lives.frame (fun f => by rw [hfile]) hpipe hinUse hhist

theorem enter (hp : G p = none) (hrun : s.state p = .runnable) :
    Inv { s with busy := update s.busy p true }
      (update G p (some (.clean (s.ofile p)))) := by
  refine h.replace rfl rfl rfl rfl rfl (by rw [hp]; rfl) ?_
  refine h.tabs.change ?_ (fun h => by cases h) (fun q hq => update_of_ne hq _ _)
    (fun _ _ hr => ⟨rfl, hr⟩) h.tabs.empty ?_
    fun q h' np l _ hq hc => ⟨(h.tabs.child q h' np l hq hc).1, rfl⟩
  · rintro _ ⟨⟩
    exact ⟨rfl, hrun, update_self _ _ _⟩
  · rintro _ _ _ ⟨⟩ hc
    cases hc

theorem leave (hp : G p = some (.clean t)) :
    Inv { s with busy := update s.busy p false } (update G p none) := by
  refine h.replace rfl rfl rfl rfl rfl (by rw [hp, (h.tabs.busy p _ hp).1]; rfl) ?_
  exact h.tabs.change (fun _ h => by cases h) (fun _ => update_self _ _ _)
    (fun q hq => update_of_ne hq _ _) (fun _ _ hr => ⟨rfl, hr⟩) h.tabs.empty
    (fun _ _ _ h => by cases h) fun q h' np l _ hq hc => ⟨(h.tabs.child q h' np l hq hc).1, rfl⟩

theorem exit (hp : G p = some (.clean t)) (ht : ∀ fd, t fd = none) :
    Inv { s.setState p .zombie with busy := update s.busy p false } (update G p none) := by
  obtain ⟨hofile, hrun, -⟩ := h.tabs.busy p _ hp
  have hne : ∀ q, q ≠ p → (s.setState p .zombie).state q = s.state q :=
    fun q hq => update_of_ne hq _ _
  refine h.replace rfl rfl rfl rfl rfl (by rw [hp, hofile]; rfl) ?_
  refine h.tabs.change (fun _ h => by cases h) (fun _ => update_self _ _ _)
    (fun q hq => update_of_ne hq _ _) (fun q hq hr => ⟨rfl, (hne q hq).trans hr⟩)
    (fun q hq fd => ?_) (fun _ _ _ h => by cases h) fun q h' np l _ hq hc => ⟨?_, rfl⟩
  · by_cases hqp : q = p
    · subst hqp
      show s.ofile q fd = none
      rw [hofile]
      exact ht fd
    · refine h.tabs.empty q ?_ fd
      rwa [← hne q hqp]
  · refine (hne np (h.tabs.ne_child hq hc ?_)).trans (h.tabs.child q h' np l hq hc).1
    rw [hrun]
    rintro ⟨⟩

/-- The state of a process that is not the caller is changed; the child in the caller's hand is
`c`. -/
theorem setState (hp : G p = some g) {np : Pid} {st : ProcState}
    {c : Option (Pid × List (Fin NOFILE))} (hnp : s.state np ≠ .runnable)
    (hempty : st = .unused ∨ st = .zombie → ∀ fd, s.ofile np fd = none)
    (hc : ∀ q l, c = some (q, l) → q = np ∧ st = .embryo ∧ ∀ fd ∈ l, s.ofile np fd = none)
    (hother : ∀ q h' l, q ≠ p → G q = some h' → h'.child ≠ some (np, l)) :
    Inv (s.setState np st) (update G p (some { g with child := c })) := by
  obtain ⟨hofile, hrun, hb⟩ := h.tabs.busy p g hp
  have hne : ∀ q, q ≠ np → (s.setState np st).state q = s.state q :=
    fun q hq => update_of_ne hq _ _
  have hrunne : ∀ q, s.state q = .runnable → q ≠ np := by
    rintro q hq rfl
    exact hnp hq
  refine h.replace rfl rfl rfl rfl rfl (by rw [hp]; rfl) ?_
  refine h.tabs.change ?_ (fun h => by cases h) (fun _ _ => rfl)
    (fun q _ hr => ⟨rfl, (hne q (hrunne q hr)).trans hr⟩) (fun q hq fd => ?_) ?_
    fun q h' q' l hqp hq hcq => ⟨?_, rfl⟩
  · rintro _ ⟨⟩
    exact ⟨hofile, (hne p (hrunne p hrun)).trans hrun, hb⟩
  · by_cases hqn : q = np
    · subst hqn
      have hst : (s.setState q st).state q = st := update_self _ _ _
      rw [hst] at hq
      exact hempty hq fd
    · rw [hne q hqn] at hq
      exact h.tabs.empty q hq fd
  · rintro _ q l ⟨⟩ hcq
    obtain ⟨rfl, hst, hnone⟩ := hc q l hcq
    exact ⟨(update_self _ _ _).trans hst, hnone, fun q' h'' l' => hother q' h'' l'⟩
  · have hqn : q' ≠ np := by
      rintro rfl
      exact hother q h' l hqp hq hcq
    exact (hne q' hqn).trans (h.tabs.child q h' q' l hq hcq).1

end

section GiveChild

variable {np : Pid} {fd : Fin NOFILE} {l l' : List (Fin NOFILE)} {f : Fin NFILE}

theorem ownOf_given (hp : G p = some g) (hnp : np ≠ p) (hG : G np = none)
    (hfd : s.ofile np fd = none) (k : Fin NFILE) :
    ownOf (s.setOfile np fd (some f)) (update G p (some (g.given f np l))) k =
      if k = f then update (update (ownOf s G f) p (ownOf s G f p + -1)) np (ownOf s G f np + 1)
      else ownOf s G k := by
  funext q
  by_cases hq : q = np
  · subst hq
    have hslots : ownOf (s.setOfile q fd (some f)) (update G p (some (g.given f q l))) k q =
        slots (update (s.ofile q) fd (some f)) k := by
      rw [ownOf, own_none ((update_of_ne hnp _ _).trans hG)]
      exact congrArg (slots · k) (update_self _ _ _)
    rw [hslots, slots_insert hfd]
    by_cases hk : k = f
    · subst hk
      rw [if_pos rfl, update_self, update_self, ownOf, own_none hG]
    · rw [if_neg hk, update_of_ne hk, ownOf, own_none hG]
  · by_cases hqp : q = p
    · subst hqp
      have hg : ownOf (s.setOfile np fd (some f)) (update G q (some (g.given f np l))) k q =
          update g.own f (g.own f + -1) k := ownOf_eq (update_self _ _ _)
      rw [hg]
      by_cases hk : k = f
      · subst hk
        rw [if_pos rfl, update_self, update_of_ne hq, update_self, ownOf_eq hp]
      · rw [if_neg hk, update_of_ne hk, ownOf_eq hp]
    · have hsame : ownOf (s.setOfile np fd (some f)) (update G p (some (g.given f np l))) k q =
          ownOf s G k q := by
        rw [ownOf, ownOf, own_eq, own_eq, update_of_ne hqp]
        show (G q).elim (slots (update s.ofile np _ q)) Hand.own k = _
        rw [update_of_ne hq]
      rw [hsame]
      by_cases hk : k = f
      · subst hk
        rw [if_pos rfl, update_of_ne hq, update_of_ne hqp]
      · rw [if_neg hk]

theorem tabs_given (h : Tabs s G) (hp : G p = some g) (hc : g.child = some (np, l)) (hl : l' ⊆ l)
    (hfd : fd ∉ l') :
    Tabs (s.setOfile np fd (some f)) (update G p (some (g.given f np l'))) := by
  obtain ⟨hemb, hnone⟩ := h.child p g np _ hp hc
  obtain ⟨hofile, hrun, hb⟩ := h.busy p g hp
  have hsame : ∀ q, q ≠ np → (s.setOfile np fd (some f)).ofile q = s.ofile q :=
    fun q hq => update_of_ne hq _ _
  have hrunne : ∀ q, s.state q ≠ .embryo → q ≠ np := by
    rintro q hq rfl
    exact hq hemb
  refine h.change ?_ (fun h => by cases h) (fun _ _ => rfl)
    (fun q _ hr => ⟨hsame q (hrunne q (by rw [hr]; rintro ⟨⟩)), hr⟩) (fun q hq fd' => ?_) ?_
    fun q h' q' m hqp hq hcq => ⟨(h.child q h' q' m hq hcq).1, hsame q' ?_⟩
  · rintro _ ⟨⟩
    exact ⟨(hsame p (hrunne p (by rw [hrun]; rintro ⟨⟩))).trans hofile, hrun, hb⟩
  · rw [hsame q (hrunne q ?_)]
    · exact h.empty q hq fd'
    · intro he
      rcases hq with hq | hq <;> cases he.symm.trans hq
  · rintro _ q m ⟨⟩ ⟨⟩
    refine ⟨hemb, fun fd' hfd' => ?_, fun q h'' m' hq hG hc' => hq (h.one q p h'' g np m' l hG hp hc' hc)⟩
    have hne : fd' ≠ fd := by
      rintro rfl
      exact hfd hfd'
    show update s.ofile np (update (s.ofile np) fd (some f)) np fd' = none
    rw [update_self, update_of_ne hne]
    exact hnone fd' (hl hfd')
  · rintro rfl
    exact hqp (h.one q p h' g _ _ _ hq hp hcq hc)

theorem giveChild (h : Inv s G) (hp : G p = some g) (hc : g.child = some (np, l)) (hfd : fd ∈ l)
    (hown : 0 < g.own f) (hf : f ∉ g.fresh) :
    Inv (s.setOfile np fd (some f)) (update G p (some (g.given f np (l.filter (· ≠ fd))))) := by
  obtain ⟨hemb, hnone⟩ := h.tabs.child p g np _ hp hc
  have hG : ∀ h', G np ≠ some h' := fun h' hG => by
    rw [(h.tabs.busy np h' hG).2.1] at hemb
    cases hemb
  have hnp : np ≠ p := by
    rintro rfl
    exact hG g hp
  refine ⟨fun k => ?_, ?_, tabs_given h.tabs hp hc (fun _ h => (List.mem_filter.mp h).1) (by simp)⟩
  · have hfresh : freshOf (update G p (some (g.given f np (l.filter (· ≠ fd))))) k = freshOf G k := by
      unfold freshOf
      rw [fresh_update]
      show (fun q => k ∈ update (fresh G) p g.fresh q) = _
      rw [update_fresh hp]
    rw [ownOf_given hp hnp (Option.eq_none_iff_forall_ne_some.mpr hG) (hnone fd hfd), hfresh]
    split_ifs with hk
    · subst hk
      rw [← freshOf_eq hp] at hf
      rw [← ownOf_eq hp] at hown
      exact ((h.files k).give hnp hown hf).frame rfl rfl rfl rfl
    · exact (h.files k).frame rfl rfl rfl rfl
  · rw [closing_update, freeing_update]
    show Lives _ (update (closing G) p g.closing) (update (freeing G) p g.freeing)
    rw [update_closing hp, update_freeing hp]
    exact h.lives.frame (fun _ => rfl) rfl rfl rfl

end GiveChild

end Inv

end Processes

end Xv6.Files
