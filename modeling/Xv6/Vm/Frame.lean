import Xv6.Vm.Roles

namespace Xv6.Vm
open Lib

/-- What is not memory is the same. -/
structure Same (s s' : State) : Prop where
  proc : s'.proc = s.proc
  pipe : s'.pipe = s.pipe
  kpgdir : s'.kpgdir = s.kpgdir
  layout : s'.layout = s.layout
  deny : s'.deny = s.deny

theorem Same.refl (s : State) : Same s s := ⟨rfl, rfl, rfl, rfl, rfl⟩

theorem Same.trans {s s' s'' : State} (h : Same s s') (h' : Same s' s'') : Same s s'' :=
  ⟨h'.proc.trans h.proc, h'.pipe.trans h.pipe, h'.kpgdir.trans h.kpgdir,
    h'.layout.trans h.layout, h'.deny.trans h.deny⟩

/-- The books are right, and the pages in `U` are those that are accounted for. -/
def Good (U : Page → Prop) (s : State) (b : Books) : Prop := Inv s.layout U s.mem s.freelist b

instance (v : ℕ) : Decidable (Direct v) := inferInstanceAs (Decidable (_ ∨ _))

/-- What an address space shows at the virtual page `v`: the entry, and what is in the page unless
it belongs to the kernel. -/
def view (m : Mem) (d : Page) (v : ℕ) : Option (ℕ × Option (Bytes PGSIZE)) :=
  (lookup m d v).map fun w => (w, if Direct v then none else some (m (pteAddr w)))

variable {U : Page → Prop} {m m' : Mem} {b : Books} {a a' : Space} {d x : Page} {i v : ℕ}
  {s s' s1 s2 : State}

section View

variable {l : Layout} {f : List Page} {t : Page} {v' w : ℕ} {c : Bytes PGSIZE}

theorem lookup_of_entry (h : entry m d (v / 1024) = some t) :
    lookup m d v = if Present (word m t (v % 1024)) then some (word m t (v % 1024)) else none := by
  unfold lookup
  rw [h]
  rfl

theorem lookup_of_none (h : entry m d (v / 1024) = none) : lookup m d v = none := by
  unfold lookup
  rw [h]
  rfl

theorem lookup_congr (he : entry m' d (v / 1024) = entry m d (v / 1024))
    (hw : ∀ t, entry m d (v / 1024) = some t → word m' t (v % 1024) = word m t (v % 1024)) :
    lookup m' d v = lookup m d v := by
  cases ht : entry m d (v / 1024) with
  | none => rw [lookup_of_none ht, lookup_of_none (he.trans ht)]
  | some t => rw [lookup_of_entry ht, lookup_of_entry (he.trans ht), hw t ht]

theorem entry_of_present (h : Present (word m x i)) : entry m x i = some (pteAddr (word m x i)) :=
  if_pos h

theorem entry_of_absent (h : ¬ Present (word m x i)) : entry m x i = none := if_neg h

theorem lookup_some (h : lookup m d v = some w) :
    ∃ t, entry m d (v / 1024) = some t ∧ word m t (v % 1024) = w ∧ Present w := by
  cases ht : entry m d (v / 1024) with
  | none =>
    rw [lookup_of_none ht] at h
    cases h
  | some t =>
    rw [lookup_of_entry ht] at h
    split_ifs at h with hp
    cases h
    exact ⟨t, rfl, rfl, hp⟩

theorem holds_user (hdir : b.dir a = some d) (hv : ¬ Direct v) (h : lookup m d v = some w) :
    Holds m f b (.user a v) (pteAddr w) := by
  obtain ⟨t, ht, rfl, hp⟩ := lookup_some h
  exact ⟨hv, d, t, hdir, ht, entry_of_present hp⟩

theorem lookup_eq_view (m : Mem) (d : Page) (v : ℕ) :
    lookup m d v = (view m d v).map Prod.fst := by
  unfold view
  cases lookup m d v <;> rfl

theorem lookup_eq_of_view (h : view m' d v = view m d v) : lookup m' d v = lookup m d v := by
  rw [lookup_eq_view, h, ← lookup_eq_view]

theorem view_none : view m d v = none ↔ lookup m d v = none := Option.map_eq_none_iff

theorem view_some (hv : ¬ Direct v) (h : lookup m d v = some w) :
    view m d v = some (w, some (m (pteAddr w))) := by
  unfold view
  rw [h, Option.map_some, if_neg hv]

theorem view_eq_some {c : Bytes PGSIZE} :
    view m d v = some (w, some c) ↔ ¬ Direct v ∧ lookup m d v = some w ∧ m (pteAddr w) = c := by
  constructor
  · intro h
    unfold view at h
    obtain ⟨w', hw', heq⟩ := Option.map_eq_some_iff.mp h
    split_ifs at heq with hv
    · cases heq
    · cases heq
      exact ⟨hv, hw', rfl⟩
  · rintro ⟨hv, hw, rfl⟩
    exact view_some hv hw

theorem view_congr (hl : lookup m' d v = lookup m d v)
    (hm : ∀ w, ¬ Direct v → lookup m d v = some w → m' (pteAddr w) = m (pteAddr w)) :
    view m' d v = view m d v := by
  unfold view
  rw [hl]
  cases hw : lookup m d v with
  | none => rfl
  | some w =>
    by_cases hv : Direct v
    · simp only [Option.map_some, if_pos hv]
    · simp only [Option.map_some, if_neg hv, hm w hv hw]

/-- A space shows the same when its directory, its tables and its user pages are the same. -/
theorem view_of_holds (hdir : b.dir a = some d)
    (hm : ∀ r x, r = .dir a ∨ (∃ i, r = .table a i) ∨ (∃ v, r = .user a v) → Holds m f b r x →
      m' x = m x) : view m' d v = view m d v := by
  have hd : m' d = m d := hm (.dir a) d (.inl rfl) hdir
  refine view_congr (lookup_congr (entry_congr (by unfold word; rw [hd])) fun t ht => ?_) ?_
  · have ht' : m' t = m t := hm (.table a (v / 1024)) t (.inr (.inl ⟨_, rfl⟩)) ⟨d, hdir, ht⟩
    unfold word
    rw [ht']
  · exact fun w hv hw => hm (.user a v) _ (.inr (.inr ⟨v, rfl⟩)) (holds_user hdir hv hw)

namespace Inv

theorem view_table (h : Inv l U m f b) (hdir : b.dir a = some d) (hi : i < 1024)
    (hnone : entry m d i = none) (ht : t ∈ b.hand) (hz : ∀ j, word m t j = 0) (v : ℕ) :
    view (putWord m d i (t * PGSIZE + (PTE_P ||| PTE_W ||| PTE_U))) d v = view m d v := by
  have htd : t ≠ d := h.excl.ne .hand (.dir a) ht hdir (by rintro ⟨⟩)
  refine view_congr ?_ fun w hv hw => ?_
  · by_cases hvi : v / 1024 = i
    · subst hvi
      have hself : entry (putWord m d (v / 1024) (t * PGSIZE + (PTE_P ||| PTE_W ||| PTE_U))) d
          (v / 1024) = some t := by
        rw [entry_putWord_self hi (mk_lt (h.usable .hand t ht).2 (by decide)),
          if_pos (present_mk (by decide)), pteAddr_mk (by decide)]
      rw [lookup_of_none hnone, lookup_of_entry hself, word_putWord_of_ne (.inl htd), hz]
      rfl
    · refine lookup_congr (entry_putWord_of_ne (.inr hvi)) fun t' ht' => ?_
      exact word_putWord_of_ne (.inl (h.excl.ne (.table a _) (.dir a) ⟨d, hdir, ht'⟩ hdir
        (by rintro ⟨⟩)))
  · have hne : pteAddr w ≠ d :=
      h.excl.ne (.user a v) (.dir a) (holds_user hdir hv hw) hdir (by rintro ⟨⟩)
    exact Function.update_of_ne hne _ _

theorem lookup_put_self (h : Inv l U m f b) (hdir : b.dir a = some d)
    (ht : entry m d (v / 1024) = some t) (hw : w < 2 ^ 32) :
    lookup (putWord m t (v % 1024) w) d v = if Present w then some w else none := by
  rw [lookup_of_entry ((h.dir_of_putTable hdir ht hdir).trans ht),
    word_putWord_self (Nat.mod_lt _ (by omega)) hw]

theorem view_put_of_ne (h : Inv l U m f b) (hdir : b.dir a = some d)
    (ht : entry m d (v / 1024) = some t) (hne : v' ≠ v) :
    view (putWord m t (v % 1024) w) d v' = view m d v' := by
  refine view_congr (lookup_congr (h.dir_of_putTable hdir ht hdir) fun t' ht' => ?_)
    fun w' hv' hw' => ?_
  · refine word_putWord_of_ne ?_
    by_contra hcon
    obtain ⟨rfl, hv⟩ : t' = t ∧ v' % 1024 = v % 1024 := by tauto
    have ha := h.excl (.table a _) (.table a _) t' ⟨d, hdir, ht'⟩ ⟨d, hdir, ht⟩
    obtain ⟨-, hi⟩ := Role.table.inj ha
    exact hne (by omega)
  · have hne' : pteAddr w' ≠ t := h.excl.ne (.user a v') (.table a _) (holds_user hdir hv' hw')
      ⟨d, hdir, ht⟩ (by rintro ⟨⟩)
    exact Function.update_of_ne hne' _ _

end Inv

end View

/-- The page is in use, and not by the address space `a`. -/
def Role.Outside (a : Space) : Role → Prop
  | .free => False
  | .hand | .stack _ | .pipe => True
  | .dir a' | .table a' _ | .user a' _ => a' ≠ a

/-- The books agree outside the address space `a`, but more pages may be in hand. -/
structure Books.Agree (a : Space) (b b' : Books) : Prop where
  dir : ∀ c, c ≠ a → b'.dir c = b.dir c
  stack : b'.stack = b.stack
  pipe : b'.pipe = b.pipe
  hand : ∀ x ∈ b.hand, x ∈ b'.hand

/-- Pages outside the address space `a` are not written. -/
structure Apart (a : Space) (b : Books) (s s' : State) : Prop extends Same s s' where
  mem : ∀ r x, r.Outside a → Holds s.mem s.freelist b r x → s'.mem x = s.mem x

section Outside

variable {b' : Books} {y : Page}

theorem Books.Agree.refl (a : Space) (b : Books) : b.Agree a b :=
  ⟨fun _ _ => rfl, rfl, rfl, fun _ hx => hx⟩

theorem Books.Agree.cons (a : Space) (b : Books) (x : Page) :
    b.Agree a { b with hand := x :: b.hand } :=
  ⟨fun _ _ => rfl, rfl, rfl, fun _ hy => List.mem_cons_of_mem x hy⟩

theorem Books.Agree.setDir (a : Space) (b : Books) (d : Option Page) : b.Agree a (b.setDir a d) :=
  ⟨fun _ hc => b.setDir_of_ne d hc, rfl, rfl, fun _ hx => hx⟩

namespace Apart

theorem refl (a : Space) (b : Books) (s : State) : Apart a b s s := ⟨.refl s, fun _ _ _ _ => rfl⟩

section

variable (h : Apart a b s s')
include h

theorem entry_eq (ha : a' ≠ a) (hdir : b.dir a' = some d) (i : ℕ) :
    entry s'.mem d i = entry s.mem d i := by
  refine entry_congr ?_
  unfold word
  rw [h.mem (.dir a') d ha hdir]

theorem table_eq {t : Page} {i : ℕ} (ha : a' ≠ a) (hdir : b.dir a' = some d)
    (ht : entry s.mem d i = some t) (j : ℕ) : entry s'.mem t j = entry s.mem t j := by
  refine entry_congr ?_
  unfold word
  rw [h.mem (.table a' i) t ha ⟨d, hdir, ht⟩]

theorem holds_iff {r : Role} (hr : r.Outside a) :
    Holds s'.mem s'.freelist b r x ↔ Holds s.mem s.freelist b r x := by
  cases r with
  | free => exact hr.elim
  | hand | stack p | pipe | dir c => exact Iff.rfl
  | table c i =>
    refine exists_congr fun d => and_congr_right fun hdir => ?_
    rw [h.entry_eq hr hdir]
  | user c v =>
    refine and_congr_right fun _ => exists_congr fun d => exists_congr fun t =>
      and_congr_right fun hdir => ?_
    rw [h.entry_eq hr hdir]
    refine and_congr_right fun ht => ?_
    rw [h.table_eq hr hdir ht]

theorem holds (hb : b.Agree a b') {r : Role} (hr : r.Outside a)
    (hx : Holds s.mem s.freelist b r x) : Holds s'.mem s'.freelist b' r x := by
  have hx' := (h.holds_iff hr).mpr hx
  cases r with
  | free => exact hr.elim
  | hand => exact hb.hand x hx'
  | stack p =>
    show b'.stack p = some x
    rw [hb.stack]
    exact hx'
  | pipe =>
    show b'.pipe x = true
    rw [hb.pipe]
    exact hx'
  | dir c => exact (hb.dir c hr).trans hx'
  | table c i =>
    obtain ⟨d, hdir, hi⟩ := hx'
    exact ⟨d, (hb.dir c hr).trans hdir, hi⟩
  | user c v =>
    obtain ⟨hv, d, t, hdir, hi, hj⟩ := hx'
    exact ⟨hv, d, t, (hb.dir c hr).trans hdir, hi, hj⟩

end

theorem trans (h1 : Apart a b s s1) (hb : b.Agree a b') (h2 : Apart a b' s1 s2) :
    Apart a b s s2 :=
  ⟨h1.toSame.trans h2.toSame, fun r x hr hx =>
    (h2.mem r x hr (h1.holds hb hr hx)).trans (h1.mem r x hr hx)⟩

theorem hand (h : Apart a b s s') (hx : x ∈ b.hand) : s'.mem x = s.mem x :=
  h.mem .hand x trivial hx

theorem view_eq (h : Apart a b s s') (ha : a' ≠ a) (hdir : b.dir a' = some d) (v : ℕ) :
    view s'.mem d v = view s.mem d v := by
  refine view_of_holds (f := s.freelist) hdir fun r x hr hx => h.mem r x ?_ hx
  rcases hr with rfl | ⟨i, rfl⟩ | ⟨v, rfl⟩
  · exact ha
  · exact ha
  · exact ha

theorem free_or_outside {m : Mem} {f : List Page} {r : Role} (hnone : b.dir a = none)
    (hr : Holds m f b r x) : r = .free ∨ r.Outside a := by
  cases r with
  | free => exact .inl rfl
  | hand | stack p | pipe => exact .inr trivial
  | dir c | table c i | user c v =>
    refine .inr ?_
    rintro rfl
    simp [Holds, hnone] at hr

theorem mem_of_mem (h : Apart a b s s') (hg : Good U s b) (hg' : Good U s' b') (hb : b.Agree a b')
    (hnone : b.dir a = none) (hx : x ∈ s'.freelist) : x ∈ s.freelist := by
  obtain ⟨r, hr⟩ := (hg.all x).mp ((hg'.all x).mpr ⟨.free, hx⟩)
  rcases free_or_outside hnone hr with rfl | hro
  · exact hr
  · have := hg'.excl r .free x (h.holds hb hro hr) hx
    subst this
    exact hro.elim

theorem mem_freelist (h : Apart a b s s') (hg : Good U s b) (hg' : Good U s' b)
    (hnone : b.dir a = none) : x ∈ s'.freelist ↔ x ∈ s.freelist := by
  refine ⟨h.mem_of_mem hg hg' (.refl a b) hnone, fun hx => ?_⟩
  obtain ⟨r, hr⟩ := (hg'.all x).mp ((hg.all x).mpr ⟨.free, hx⟩)
  rcases free_or_outside hnone hr with rfl | hro
  · exact hr
  · have := hg.excl r .free x ((h.holds_iff hro).mp hr) hx
    subst this
    exact hro.elim

/-- What is free does not change if no page comes or goes. -/
theorem freelist_iff {U' : Page → Prop} (h : Apart a b s s') (hg : Good U s b)
    (hg' : Good U' s' b) (hnone : b.dir a = none) :
    (∀ x, x ∈ s'.freelist ↔ x ∈ s.freelist) ↔ U' = U := by
  constructor
  · intro hfree
    funext x
    refine propext (((hg'.all x).trans (exists_congr fun r => ?_)).trans (hg.all x).symm)
    constructor
    · intro hr
      rcases free_or_outside hnone hr with rfl | hro
      · exact (hfree x).mp hr
      · exact (h.holds_iff hro).mp hr
    · intro hr
      rcases free_or_outside hnone hr with rfl | hro
      · exact (hfree x).mpr hr
      · exact (h.holds_iff hro).mpr hr
  · rintro rfl x
    exact h.mem_freelist hg hg' hnone

end Apart

theorem Apart.write_free (h : Apart a b s s1) (hg : Good U s b) (hx : x ∈ s.freelist)
    (hsame : Same s1 s2) (hm : ∀ z, z ≠ x → s2.mem z = s1.mem z) : Apart a b s s2 := by
  refine ⟨h.toSame.trans hsame, fun r z hr hz => ?_⟩
  have hne : z ≠ x := by
    refine hg.excl.ne r .free hz hx ?_
    rintro rfl
    exact hr
  rw [hm z hne, h.mem r z hr hz]

/-- Writing to a page that is free or outside the address space does not change what that shows. -/
theorem Good.view_other {r : Role} {m : Mem} (hr : r = .free ∨ r.Outside a) (h : Good U s b)
    (hdir : b.dir a = some d) (hx : Holds s.mem s.freelist b r x) (hm : ∀ z, z ≠ x → m z = s.mem z)
    (v : ℕ) : view m d v = view s.mem d v := by
  refine view_of_holds (f := s.freelist) hdir fun r' z hr' hz => hm z (h.excl.ne r' r hz hx ?_)
  rintro rfl
  rcases hr' with rfl | ⟨i, rfl⟩ | ⟨v, rfl⟩
  · exact hr.elim (by rintro ⟨⟩) fun hne => hne rfl
  · exact hr.elim (by rintro ⟨⟩) fun hne => hne rfl
  · exact hr.elim (by rintro ⟨⟩) fun hne => hne rfl

theorem Good.apart (h : Good U s b) (hsame : Same s s')
    (hm : ∀ z, s'.mem z = s.mem z ∨ ∃ r, ¬ r.Outside a ∧ Holds s.mem s.freelist b r z) :
    Apart a b s s' := by
  refine ⟨hsame, fun r x hr hx => ?_⟩
  rcases hm x with heq | ⟨r', hr', hx'⟩
  · exact heq
  · have := h.excl r r' x hx hx'
    subst this
    exact absurd hr hr'

end Outside

/-- `n` calls of `kalloc` have been made, and each has returned a page. -/
structure Drew (s s' : State) (n : ℕ) : Prop where
  calls : s'.kallocs = s.kallocs + n
  pages : s.freelist.length = s'.freelist.length + n
  granted : ∀ k, k < n → s.deny (s.kallocs + k) = false

/-- The first `n` calls of `kalloc` return a page, and the next one fails. -/
structure FirstShort (s : State) (n : ℕ) : Prop where
  granted : ∀ k, k < n → s.deny (s.kallocs + k) = false
  pages : n ≤ s.freelist.length
  fails : s.deny (s.kallocs + n) = true ∨ s.freelist.length = n

/-- How many of the tables with numbers in `K` the directory does not have. -/
def vacant (m : Mem) (d : Page) (K : Finset ℕ) : ℕ := (K.filter fun i => entry m d i = none).card

section Drew

variable {n k : ℕ} {K : Finset ℕ}

theorem Drew.refl (s : State) : Drew s s 0 := ⟨rfl, rfl, fun _ hk => by omega⟩

theorem Drew.trans (h1 : Drew s s1 n) (hdeny : s1.deny = s.deny) (h2 : Drew s1 s2 k) :
    Drew s s2 (n + k) := by
  refine ⟨by rw [h2.calls, h1.calls, Nat.add_assoc], by have := h1.pages; have := h2.pages; omega,
    fun j hj => ?_⟩
  by_cases hjn : j < n
  · exact h1.granted j hjn
  · have := h2.granted (j - n) (by omega)
    rw [hdeny, h1.calls] at this
    rwa [show s.kallocs + j = s.kallocs + n + (j - n) by omega]

theorem Drew.firstShort (h1 : Drew s s1 n) (hdeny : s1.deny = s.deny) (h2 : FirstShort s1 k) :
    FirstShort s (n + k) := by
  have hpages := h1.pages
  refine ⟨fun j hj => ?_, by have := h2.pages; omega, ?_⟩
  · by_cases hjn : j < n
    · exact h1.granted j hjn
    · have := h2.granted (j - n) (by omega)
      rw [hdeny, h1.calls] at this
      rwa [show s.kallocs + j = s.kallocs + n + (j - n) by omega]
  · rcases h2.fails with hd | hl
    · rw [hdeny, h1.calls, Nat.add_assoc] at hd
      exact .inl hd
    · exact .inr (by omega)

theorem Drew.of_eq (h : Drew s s1 n) (hk : s2.kallocs = s1.kallocs)
    (hf : s2.freelist = s1.freelist) : Drew s s2 n :=
  ⟨hk.trans h.calls, by rw [hf, h.pages], h.granted⟩

theorem FirstShort.absurd (h : FirstShort s n) (hdeny : ∀ k, s.deny k = false)
    (hlen : n < s.freelist.length) : False := by
  rcases h.fails with hd | hl
  · rw [hdeny] at hd
    cases hd
  · omega

theorem FirstShort.unique (h : FirstShort s n) (h' : FirstShort s k) : n = k := by
  have hle : ∀ {n k}, FirstShort s n → FirstShort s k → k ≤ n := by
    intro n k h h'
    by_contra hlt
    rcases h.fails with hd | hl
    · rw [h'.granted n (by omega)] at hd
      cases hd
    · have := h'.pages
      omega
  exact le_antisymm (hle h' h) (hle h h')

theorem Drew.not_firstShort (h : Drew s s1 n) (hk : k < n) : ¬ FirstShort s k := by
  intro hshort
  have := h.pages
  rcases hshort.fails with hd | hl
  · rw [h.granted k hk] at hd
    cases hd
  · omega

theorem vacant_le (m : Mem) (d : Page) (K : Finset ℕ) : vacant m d K ≤ K.card :=
  Finset.card_filter_le _ _

theorem vacant_pos (hi : i ∈ K) (hnone : entry m d i = none) : 0 < vacant m d K :=
  Finset.card_pos.mpr ⟨i, Finset.mem_filter.mpr ⟨hi, hnone⟩⟩

theorem vacant_eq_zero (h : ∀ i ∈ K, entry m d i ≠ none) : vacant m d K = 0 := by
  unfold vacant
  rw [Finset.card_eq_zero, Finset.filter_eq_empty_iff]
  exact fun {i} hi => h i hi

theorem vacant_eq_card (h : ∀ i ∈ K, entry m d i = none) : vacant m d K = K.card := by
  unfold vacant
  rw [Finset.filter_true_of_mem h]

theorem vacant_link (hi : i ∈ K) (hnone : entry m d i = none) (hself : entry m' d i ≠ none)
    (hother : ∀ j, j ≠ i → entry m' d j = entry m d j) : vacant m' d K + 1 = vacant m d K := by
  have herase : (K.filter fun j => entry m' d j = none) =
      (K.filter fun j => entry m d j = none).erase i := by
    ext j
    rw [Finset.mem_erase, Finset.mem_filter, Finset.mem_filter]
    by_cases hj : j = i
    · subst hj
      simp [hself]
    · rw [hother j hj]
      simp [hj]
  have hmem : i ∈ K.filter fun j => entry m d j = none := Finset.mem_filter.mpr ⟨hi, hnone⟩
  unfold vacant
  rw [herase]
  exact Finset.card_erase_add_one hmem

end Drew

end Xv6.Vm
