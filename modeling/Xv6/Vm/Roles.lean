import Xv6.Lib.Exclusive
import Xv6.Vm.Basic

namespace Xv6.Vm
open Lib Function

/-- An address space: that of the kernel, that of a process, or one that a call is about to make or
to free. -/
inductive Space where
  | kernel
  | proc (p : Pid)
  | new
  deriving DecidableEq

inductive Role where
  | free
  | hand
  | stack (p : Pid)
  | pipe
  | dir (a : Space)
  | table (a : Space) (i : ℕ)
  /-- Mapped at the virtual page `v`. -/
  | user (a : Space) (v : ℕ)

structure Books where
  dir : Space → Option Page
  stack : Pid → Option Page
  pipe : Page → Bool
  hand : List Page

def Books.setDir (b : Books) (a : Space) (d : Option Page) : Books :=
  { b with dir := update b.dir a d }

theorem Books.setDir_self (b : Books) (a : Space) (d : Option Page) : (b.setDir a d).dir a = d :=
  update_self _ _ _

theorem Books.setDir_of_ne (b : Books) {a a' : Space} (d : Option Page) (h : a' ≠ a) :
    (b.setDir a d).dir a' = b.dir a' := update_of_ne h _ _

/-- The virtual page is mapped by `setupkvm`. -/
def Direct (v : ℕ) : Prop :=
  KERNBASE ≤ v * PGSIZE ∧ v * PGSIZE < KERNBASE + PHYSTOP ∨ DEVSPACE ≤ v * PGSIZE

def Holds (m : Mem) (f : List Page) (b : Books) : Role → Page → Prop
  | .free, x => x ∈ f
  | .hand, x => x ∈ b.hand
  | .stack p, x => b.stack p = some x
  | .pipe, x => b.pipe x = true
  | .dir a, x => b.dir a = some x
  | .table a i, x => ∃ d, b.dir a = some d ∧ entry m d i = some x
  | .user a v, x => ¬ Direct v ∧ ∃ d t, b.dir a = some d ∧ entry m d (v / 1024) = some t ∧
      entry m t (v % 1024) = some x

/-- A page that `kfree` takes. -/
def Layout.Usable (l : Layout) (x : Page) : Prop := l.kend ≤ x * PGSIZE ∧ x * PGSIZE < PHYSTOP

/-- No page is in two roles, or twice on the free list or in hand, and the pages in `U` are those
that are in a role. -/
structure Inv (l : Layout) (U : Page → Prop) (m : Mem) (f : List Page) (b : Books) : Prop where
  excl : Exclusive (Holds m f b)
  free : f.Nodup
  hand : b.hand.Nodup
  usable : ∀ r x, Holds m f b r x → l.Usable x
  all : ∀ x, U x ↔ ∃ r, Holds m f b r x

variable {m : Mem} {x y d : Page} {i j v : ℕ} {c : Bytes PGSIZE} {l : Layout} {U : Page → Prop}
  {f : List Page} {b : Books} {a a' : Space}

section Entries

variable {flags : ℕ}

theorem word_lt (m : Mem) (x : Page) (i : ℕ) : word m x i < 2 ^ 32 := Bytes.get32_lt _ _

theorem word_putWord_mod (hi : i < 1024) : word (putWord m x i v) x i = v % 2 ^ 32 := by
  have hlt : 4 * i + 4 ≤ PGSIZE := by
    unfold PGSIZE
    omega
  unfold word putWord
  rw [update_self]
  exact Bytes.get32_put32_mod _ hlt

theorem word_putWord_self (hi : i < 1024) (hv : v < 2 ^ 32) : word (putWord m x i v) x i = v := by
  rw [word_putWord_mod hi, Nat.mod_eq_of_lt hv]

theorem word_putWord_of_ne (h : y ≠ x ∨ j ≠ i) : word (putWord m x i v) y j = word m y j := by
  unfold word putWord
  by_cases hy : y = x
  · subst hy
    have hj : j ≠ i := h.resolve_left fun h => h rfl
    rw [update_self]
    exact Bytes.get32_put32_of_disjoint _ (by omega)
  · rw [update_of_ne hy]

theorem word_update_of_ne (h : y ≠ x) : word (update m x c) y j = word m y j := by
  unfold word
  rw [update_of_ne h]

theorem entry_congr {m' : Mem} (h : word m' x i = word m x i) : entry m' x i = entry m x i := by
  unfold entry
  rw [h]

theorem entry_putWord_of_ne (h : y ≠ x ∨ j ≠ i) : entry (putWord m x i v) y j = entry m y j :=
  entry_congr (word_putWord_of_ne h)

theorem entry_update_of_ne (h : y ≠ x) : entry (update m x c) y j = entry m y j :=
  entry_congr (word_update_of_ne h)

theorem entry_putWord_self (hi : i < 1024) (hv : v < 2 ^ 32) :
    entry (putWord m x i v) x i = if Present v then some (pteAddr v) else none := by
  unfold entry
  rw [word_putWord_self hi hv]

theorem word_fill_zero : word (update m x (fill 0)) x i = 0 := by
  have hget : ∀ k, (fill 0).get k = 0 := fun k => by simp [Bytes.get, fill]
  simp [word, Bytes.get32, num32, Bytes.slice, hget]

theorem entry_fill_zero : entry (update m x (fill 0)) x i = none := by
  unfold entry
  rw [word_fill_zero]
  rfl

theorem entry_lt (h : entry m x i = some y) : i < 1024 := by
  by_contra hi
  have hzero : word m x i = 0 := by
    have hget : ∀ k, (m x).get (4 * i + k) = 0 := fun k => by
      refine Bytes.get_of_le _ ?_
      unfold PGSIZE
      omega
    simp [word, Bytes.get32, num32, Bytes.slice, hget]
  unfold entry at h
  rw [hzero] at h
  cases h

theorem entry_some (h : entry m x i = some y) :
    Present (word m x i) ∧ pteAddr (word m x i) = y := by
  unfold entry at h
  split_ifs at h with hp
  exact ⟨hp, Option.some.inj h⟩

theorem pteAddr_mk (hf : flags < PGSIZE) : pteAddr (x * PGSIZE + flags) = x := by
  unfold pteAddr
  rw [Nat.add_comm, Nat.add_mul_div_right _ _ (by decide), Nat.div_eq_of_lt hf, Nat.zero_add]

theorem present_mk (hf : flags % 2 = 1) : Present (x * PGSIZE + flags) := by
  unfold Present PGSIZE
  omega

theorem mk_lt (hx : x * PGSIZE < PHYSTOP) (hf : flags < PGSIZE) : x * PGSIZE + flags < 2 ^ 32 :=
  (Nat.add_lt_add hx hf).trans (by decide)

end Entries

theorem holds_congr {m m' : Mem} {f : List Page} {b : Books} {r : Role} {x : Page}
    (hd : ∀ a d i, b.dir a = some d → entry m' d i = entry m d i)
    (ht : ∀ a d i t j, b.dir a = some d → entry m d i = some t → entry m' t j = entry m t j) :
    Holds m' f b r x ↔ Holds m f b r x := by
  cases r with
  | free | hand | stack p | pipe | dir a => exact Iff.rfl
  | table a i =>
    constructor
    · rintro ⟨d, hdir, hi⟩
      exact ⟨d, hdir, (hd a d i hdir).symm.trans hi⟩
    · rintro ⟨d, hdir, hi⟩
      exact ⟨d, hdir, (hd a d i hdir).trans hi⟩
  | user a v =>
    constructor
    · rintro ⟨hv, d, t, hdir, hi, hj⟩
      have hi' := (hd a d _ hdir).symm.trans hi
      exact ⟨hv, d, t, hdir, hi', (ht a d _ t _ hdir hi').symm.trans hj⟩
    · rintro ⟨hv, d, t, hdir, hi, hj⟩
      exact ⟨hv, d, t, hdir, (hd a d _ hdir).trans hi, (ht a d _ t _ hdir hi).trans hj⟩

namespace Inv

variable {m' : Mem} {f' : List Page} {b' : Books} {t : Page} {w : ℕ} {r : Role} {d' : Page}

section

variable (h : Inv l U m f b)
include h

theorem same (hf : f'.Nodup) (hh : b'.hand.Nodup)
    (hm : ∀ r z, Holds m' f' b' r z ↔ Holds m f b r z) : Inv l U m' f' b' :=
  ⟨h.excl.mono fun r z => (hm r z).mp, hf, hh, fun r z hz => h.usable r z ((hm r z).mp hz),
    fun z => (h.all z).trans (exists_congr fun r => (hm r z).symm)⟩

theorem move (r1 r0 : Role) (hf : f'.Nodup) (hh : b'.hand.Nodup)
    (hm : Move (Holds m f b) (Holds m' f' b') r1 r0 y) : Inv l U m' f' b' := by
  refine ⟨h.excl.move hm, hf, hh, fun r z hz => ?_, fun z => (h.all z).trans hm.taken.symm⟩
  rcases hm.comes r z hz with ⟨-, rfl⟩ | ⟨hold, -⟩
  · exact h.usable r1 z hm.src
  · exact h.usable r z hold

theorem not_mem_hand (hr : r ≠ .hand) (hx : Holds m f b r x) : x ∉ b.hand :=
  fun hh => hr (h.excl r .hand x hx hh)

theorem ofHand (r0 : Role) (hr0 : r0 ≠ .hand) (hx : x ∈ b.hand) (hf : f'.Nodup)
    (hhand : b'.hand = b.hand.erase x)
    (hm : ∀ r z, r ≠ .hand → (Holds m' f' b' r z ↔ r = r0 ∧ z = x ∨ Holds m f b r z)) :
    Inv l U m' f' b' := by
  have hmem : ∀ z, Holds m' f' b' .hand z ↔ z ≠ x ∧ z ∈ b.hand := by
    intro z
    show z ∈ b'.hand ↔ _
    rw [hhand, h.hand.mem_erase_iff]
  refine h.move .hand r0 hf (hhand ▸ h.hand.erase x)
    ⟨hx, (hm r0 x hr0).mpr (.inl ⟨rfl, rfl⟩), fun r z hz => ?_, fun r z hz => ?_⟩
  · by_cases hr : r = .hand
    · subst hr
      by_cases hzx : z = x
      · exact .inl ⟨rfl, hzx⟩
      · exact .inr ((hmem z).mpr ⟨hzx, hz⟩)
    · exact .inr ((hm r z hr).mpr (.inr hz))
  · by_cases hr : r = .hand
    · subst hr
      have hz' := (hmem z).mp hz
      exact .inr ⟨hz'.2, fun _ => hz'.1⟩
    · rcases (hm r z hr).mp hz with hnew | hold
      · exact .inl hnew
      · exact .inr ⟨hold, fun h => absurd h hr⟩

theorem toHand (r1 : Role) (hr1 : r1 ≠ .hand) (hx : Holds m f b r1 x)
    (hf : f'.Nodup) (hhand : b'.hand = x :: b.hand)
    (hm : ∀ r z, r ≠ .hand → (Holds m' f' b' r z ↔ Holds m f b r z ∧ ¬ (r = r1 ∧ z = x))) :
    Inv l U m' f' b' := by
  have hmem : ∀ z, Holds m' f' b' .hand z ↔ z = x ∨ z ∈ b.hand := by
    intro z
    show z ∈ b'.hand ↔ _
    rw [hhand, List.mem_cons]
  have hnodup : b'.hand.Nodup := by
    rw [hhand]
    exact List.nodup_cons.mpr ⟨h.not_mem_hand hr1 hx, h.hand⟩
  refine h.move r1 .hand hf hnodup
    ⟨hx, (hmem x).mpr (.inl rfl), fun r z hz => ?_, fun r z hz => ?_⟩
  · by_cases hr : r = .hand
    · subst hr
      exact .inr ((hmem z).mpr (.inr hz))
    · by_cases hrz : r = r1 ∧ z = x
      · exact .inl hrz
      · exact .inr ((hm r z hr).mpr ⟨hz, hrz⟩)
  · by_cases hr : r = .hand
    · subst hr
      rcases (hmem z).mp hz with rfl | hz
      · exact .inl ⟨rfl, rfl⟩
      · exact .inr ⟨hz, fun h => absurd h.symm hr1⟩
    · obtain ⟨hold, hne⟩ := (hm r z hr).mp hz
      exact .inr ⟨hold, fun h1 h2 => hne ⟨h1, h2⟩⟩

end

theorem kalloc (h : Inv l U m (x :: f) b) : Inv l U m f { b with hand := x :: b.hand } := by
  obtain ⟨hx, hf⟩ := List.nodup_cons.mp h.free
  refine h.toHand .free (by rintro ⟨⟩) List.mem_cons_self hf rfl fun r z hr => ?_
  cases r with
  | free =>
    show z ∈ f ↔ z ∈ x :: f ∧ _
    rw [List.mem_cons]
    constructor
    · intro hz
      refine ⟨.inr hz, ?_⟩
      rintro ⟨-, rfl⟩
      exact hx hz
    · rintro ⟨hz | hz, hne⟩
      · exact absurd ⟨rfl, hz⟩ hne
      · exact hz
  | hand => exact absurd rfl hr
  | stack p | pipe | dir c | table c i | user c v => simp [Holds]

section

variable (h : Inv l U m f b)
include h

theorem toFree (hx : x ∈ b.hand) :
    Inv l U m (x :: f) { b with hand := b.hand.erase x } := by
  have hnot : x ∉ f := fun hf => by cases h.excl .free .hand x hf hx
  refine h.ofHand .free (by rintro ⟨⟩) hx (List.nodup_cons.mpr ⟨hnot, h.free⟩) rfl fun r z hr => ?_
  cases r with
  | free | stack p | pipe | dir c | table c i | user c v => simp [Holds]
  | hand => exact absurd rfl hr

theorem forget (hx : x ∈ b.hand) :
    Inv l (fun z => U z ∧ z ≠ x) m f { b with hand := b.hand.erase x } := by
  have hm : ∀ r z, Holds m f { b with hand := b.hand.erase x } r z ↔ Holds m f b r z ∧ z ≠ x := by
    intro r z
    by_cases hr : r = .hand
    · subst hr
      show z ∈ b.hand.erase x ↔ z ∈ b.hand ∧ z ≠ x
      rw [h.hand.mem_erase_iff, and_comm]
    · have hne : Holds m f b r z → z ≠ x := fun hz => h.excl.ne r .hand hz hx hr
      cases r with
      | hand => exact absurd rfl hr
      | free | stack p | pipe | dir c | table c i | user c v =>
        exact ⟨fun hz => ⟨hz, hne hz⟩, And.left⟩
  refine ⟨h.excl.mono fun r z hz => ((hm r z).mp hz).1, h.free, h.hand.erase x,
    fun r z hz => h.usable r z ((hm r z).mp hz).1, fun z => ?_⟩
  simp only [hm, h.all]
  exact exists_and_right.symm

/-- A page that is in a role other than that of a directory or a table has no entries. -/
theorem not_walked (hx : Holds m f b r x) (hd : ∀ a, r ≠ .dir a)
    (ht : ∀ a i, r ≠ .table a i) : (∀ a d, b.dir a = some d → d ≠ x) ∧
      ∀ a d i t, b.dir a = some d → entry m d i = some t → t ≠ x :=
  ⟨fun a _ hdir => h.excl.ne (.dir a) r hdir hx (hd a).symm,
    fun a d i _ hdir hi => h.excl.ne (.table a i) r ⟨d, hdir, hi⟩ hx (ht a i).symm⟩

theorem write (hd : ∀ a d, b.dir a = some d → d ≠ x)
    (ht : ∀ a d i t, b.dir a = some d → entry m d i = some t → t ≠ x) :
    Inv l U (update m x c) f b :=
  h.same h.free h.hand fun _ _ => holds_congr
    (fun a d _ hdir => entry_update_of_ne (hd a d hdir))
    fun a d i t _ hdir hi => entry_update_of_ne (ht a d i t hdir hi)

theorem write_hand (hx : x ∈ b.hand) : Inv l U (update m x c) f b :=
  have hw := h.not_walked (r := .hand) hx (fun _ => by rintro ⟨⟩) fun _ _ => by rintro ⟨⟩
  h.write hw.1 hw.2

section

variable (hdir : b.dir a = some d)
include hdir

theorem dir_of_putWord (hdir' : b.dir a' = some d')
    (hne : ¬ (a' = a ∧ j = i)) : entry (putWord m d i w) d' j = entry m d' j := by
  refine entry_putWord_of_ne ?_
  by_contra hcon
  obtain ⟨rfl, rfl⟩ : d' = d ∧ j = i := by tauto
  have ha := h.excl (.dir a') (.dir a) d' hdir' hdir
  exact hne ⟨Role.dir.inj ha, rfl⟩

theorem table_of_putWord {t' : Page} {k : ℕ}
    (hdir' : b.dir a' = some d') (ht' : entry m d' k = some t') :
    entry (putWord m d i w) t' j = entry m t' j :=
  entry_putWord_of_ne (.inl (h.excl.ne (.table a' k) (.dir a) ⟨d', hdir', ht'⟩ hdir
    (by rintro ⟨⟩)))

theorem table (hi : i < 1024)
    (hnone : entry m d i = none) (ht : t ∈ b.hand) (hz : ∀ j, entry m t j = none) :
    Inv l U (putWord m d i (t * PGSIZE + (PTE_P ||| PTE_W ||| PTE_U))) f
      { b with hand := b.hand.erase t } := by
  have hself : entry (putWord m d i (t * PGSIZE + (PTE_P ||| PTE_W ||| PTE_U))) d i = some t := by
    rw [entry_putWord_self hi (mk_lt (h.usable .hand t ht).2 (by decide)),
      if_pos (present_mk (by decide)), pteAddr_mk (by decide)]
  have htd : t ≠ d := h.excl.ne .hand (.dir a) ht hdir (by rintro ⟨⟩)
  refine h.ofHand (.table a i) (by rintro ⟨⟩) ht h.free rfl fun r z hr => ?_
  cases r with
  | hand => exact absurd rfl hr
  | free | stack p | pipe | dir c => simp [Holds]
  | table a' i' =>
    by_cases hai : a' = a ∧ i' = i
    · obtain ⟨rfl, rfl⟩ := hai
      simp only [Holds, hdir, Option.some.injEq, exists_eq_left', hself, hnone, true_and,
        reduceCtorEq, or_false]
      exact eq_comm
    · have hrole : ¬ (Role.table a' i' = .table a i ∧ z = t) := fun hcon => hai (by
        obtain ⟨rfl, rfl⟩ := Role.table.inj hcon.1
        exact ⟨rfl, rfl⟩)
      rw [or_iff_right hrole]
      refine exists_congr fun d' => and_congr_right fun hdir' => ?_
      rw [h.dir_of_putWord hdir hdir' hai]
  | user a' v' =>
    rw [or_iff_right (fun hcon => by cases hcon.1)]
    refine and_congr_right fun _ => exists_congr fun d' => ?_
    by_cases hai : a' = a ∧ v' / 1024 = i
    · -- The new table is empty.
      obtain ⟨rfl, rfl⟩ := hai
      constructor
      · rintro ⟨t', hdir', he, hj⟩
        rw [hdir] at hdir'
        cases hdir'
        rw [hself] at he
        cases he
        rw [entry_putWord_of_ne (.inl htd), hz] at hj
        cases hj
      · rintro ⟨t', hdir', he, -⟩
        rw [hdir] at hdir'
        cases hdir'
        rw [hnone] at he
        cases he
    · refine exists_congr fun t' => and_congr_right fun hdir' => ?_
      have hentry : entry (putWord m d i (t * PGSIZE + (PTE_P ||| PTE_W ||| PTE_U))) d' (v' / 1024) =
          entry m d' (v' / 1024) := h.dir_of_putWord hdir hdir' hai
      rw [hentry]
      refine and_congr_right fun he => ?_
      rw [h.table_of_putWord hdir hdir' he]

theorem dir_of_putTable (ht : entry m d i = some t)
    {k : ℕ} (hdir' : b.dir a' = some d') : entry (putWord m t j w) d' k = entry m d' k :=
  entry_putWord_of_ne (.inl (h.excl.ne (.dir a') (.table a i) hdir' ⟨d, hdir, ht⟩
    (by rintro ⟨⟩)))

section

variable (ht : entry m d (v / 1024) = some t)
include ht

theorem table_of_putTable {t' : Page} {v' : ℕ} (hdir' : b.dir a' = some d')
    (ht' : entry m d' (v' / 1024) = some t') (hne : ¬ (a' = a ∧ v' = v)) :
    entry (putWord m t (v % 1024) w) t' (v' % 1024) = entry m t' (v' % 1024) := by
  refine entry_putWord_of_ne ?_
  by_contra hcon
  obtain ⟨rfl, hv⟩ : t' = t ∧ v' % 1024 = v % 1024 := by tauto
  have ha := h.excl (.table a' _) (.table a _) t' ⟨d', hdir', ht'⟩ ⟨d, hdir, ht⟩
  obtain ⟨ha, hi⟩ := Role.table.inj ha
  exact hne ⟨ha, by omega⟩

theorem holds_putTable (hne : r ≠ .user a v) :
    Holds (putWord m t (v % 1024) w) f b r x ↔ Holds m f b r x := by
  cases r with
  | free | hand | stack p | pipe | dir c => exact Iff.rfl
  | table a' i' =>
    refine exists_congr fun d' => and_congr_right fun hdir' => ?_
    rw [h.dir_of_putTable hdir ht hdir']
  | user a' v' =>
    have hne' : ¬ (a' = a ∧ v' = v) := by
      rintro ⟨rfl, rfl⟩
      exact hne rfl
    refine and_congr_right fun _ => exists_congr fun d' => exists_congr fun t' =>
      and_congr_right fun hdir' => ?_
    rw [h.dir_of_putTable hdir ht hdir']
    refine and_congr_right fun he => ?_
    rw [h.table_of_putTable hdir ht hdir' he hne']

theorem holds_putTable_self (hw : w < 2 ^ 32) :
    Holds (putWord m t (v % 1024) w) f b (.user a v) x ↔
      ¬ Direct v ∧ Present w ∧ x = pteAddr w := by
  have hself : entry (putWord m t (v % 1024) w) t (v % 1024) =
      if Present w then some (pteAddr w) else none := entry_putWord_self (Nat.mod_lt _ (by omega)) hw
  refine and_congr_right fun _ => ?_
  constructor
  · rintro ⟨d', t', hdir', he, hj⟩
    rw [h.dir_of_putTable hdir ht hdir'] at he
    rw [hdir] at hdir'
    cases hdir'
    rw [ht] at he
    cases he
    rw [hself] at hj
    split_ifs at hj with hp
    exact ⟨hp, (Option.some.inj hj).symm⟩
  · rintro ⟨hp, rfl⟩
    refine ⟨d, t, hdir, (h.dir_of_putTable hdir ht hdir).trans ht, ?_⟩
    rw [hself, if_pos hp]

theorem page (hx : x ∈ b.hand) (hv : ¬ Direct v)
    (hnone : entry m t (v % 1024) = none) {flags : ℕ} (hf : flags < PGSIZE) (hp : flags % 2 = 1) :
    Inv l U (putWord m t (v % 1024) (x * PGSIZE + flags)) f { b with hand := b.hand.erase x } := by
  refine h.ofHand (.user a v) (by rintro ⟨⟩) hx h.free rfl fun r z hr => ?_
  by_cases hru : r = .user a v
  · subst hru
    have hold : ¬ Holds m f b (.user a v) z := by
      rintro ⟨-, d', t', hdir', he, hj⟩
      rw [hdir] at hdir'
      cases hdir'
      rw [ht] at he
      cases he
      rw [hnone] at hj
      cases hj
    have hw : x * PGSIZE + flags < 2 ^ 32 := mk_lt (h.usable .hand x hx).2 hf
    have hiff := h.holds_putTable_self (x := z) hdir ht hw
    rw [pteAddr_mk hf] at hiff
    rw [or_iff_left hold]
    exact hiff.trans ⟨fun hz => ⟨rfl, hz.2.2⟩, fun hz => ⟨hv, present_mk hp, hz.2⟩⟩
  · rw [or_iff_right fun hcon => hru hcon.1]
    have hiff := h.holds_putTable (x := z) (w := x * PGSIZE + flags) hdir ht hru
    cases r with
    | hand => exact absurd rfl hr
    | free | stack p | pipe | dir c | table c i | user c v => exact hiff

theorem direct (hv : Direct v) : Inv l U (putWord m t (v % 1024) w) f b := by
  refine h.same h.free h.hand fun r z => ?_
  by_cases hru : r = .user a v
  · subst hru
    exact ⟨fun hz => absurd hv hz.1, fun hz => absurd hv hz.1⟩
  · exact h.holds_putTable hdir ht hru

theorem clear (hx : entry m t (v % 1024) = some x) (hv : ¬ Direct v) :
    Inv l U (putWord m t (v % 1024) 0) f { b with hand := x :: b.hand } := by
  have hold : Holds m f b (.user a v) x := ⟨hv, d, t, hdir, ht, hx⟩
  refine h.toHand (.user a v) (by rintro ⟨⟩) hold h.free rfl fun r z hr => ?_
  by_cases hru : r = .user a v
  · subst hru
    have hself := h.holds_putTable_self (x := z) (w := 0) hdir ht (by decide)
    constructor
    · intro hz
      cases (hself.mp hz).2.1
    · rintro ⟨⟨-, d', t', hdir', he, hj⟩, hne⟩
      rw [hdir] at hdir'
      cases hdir'
      rw [ht] at he
      cases he
      rw [hx] at hj
      exact absurd ⟨rfl, (Option.some.inj hj).symm⟩ hne
  · rw [and_iff_left fun hcon => hru hcon.1]
    have hiff := h.holds_putTable (x := z) (w := 0) hdir ht hru
    cases r with
    | hand => exact absurd rfl hr
    | free | stack p | pipe | dir c | table c i | user c v => exact hiff

theorem flags (hsame : entry (putWord m t (v % 1024) w) t (v % 1024) = entry m t (v % 1024)) :
    Inv l U (putWord m t (v % 1024) w) f b := by
  refine h.same h.free h.hand fun r z => ?_
  by_cases hru : r = .user a v
  · subst hru
    refine and_congr_right fun _ => exists_congr fun d' => exists_congr fun t' =>
      and_congr_right fun hdir' => ?_
    rw [h.dir_of_putTable hdir ht hdir']
    refine and_congr_right fun he => ?_
    rw [hdir] at hdir'
    cases hdir'
    rw [ht] at he
    cases he
    rw [hsame]
  · exact h.holds_putTable hdir ht hru

end

end

theorem openDir (hnone : b.dir a = none) (hd : d ∈ b.hand) (hz : ∀ i, entry m d i = none) :
    Inv l U m f { b.setDir a (some d) with hand := b.hand.erase d } := by
  have hdirs : ∀ a' d', update b.dir a (some d) a' = some d' ↔
      a' = a ∧ d' = d ∨ b.dir a' = some d' := by
    intro a' d'
    by_cases ha : a' = a
    · subst ha
      simp [hnone, eq_comm]
    · simp [ha]
  refine h.ofHand (.dir a) (by rintro ⟨⟩) hd h.free rfl fun r z hr => ?_
  cases r with
  | hand => exact absurd rfl hr
  | free | stack p | pipe => simp [Holds, Books.setDir]
  | dir a' =>
    refine (hdirs a' z).trans (or_congr_left ?_)
    rw [Role.dir.injEq]
  | table a' i' =>
    rw [or_iff_right fun hcon => by cases hcon.1]
    refine exists_congr fun d' => ?_
    constructor
    · rintro ⟨hd', he⟩
      rcases (hdirs a' d').mp hd' with ⟨rfl, rfl⟩ | hdir
      · rw [hz] at he
        cases he
      · exact ⟨hdir, he⟩
    · rintro ⟨hdir, he⟩
      exact ⟨(hdirs a' d').mpr (.inr hdir), he⟩
  | user a' v' =>
    rw [or_iff_right fun hcon => by cases hcon.1]
    refine and_congr_right fun _ => exists_congr fun d' => exists_congr fun t' => ?_
    constructor
    · rintro ⟨hd', he, hj⟩
      rcases (hdirs a' d').mp hd' with ⟨rfl, rfl⟩ | hdir
      · rw [hz] at he
        cases he
      · exact ⟨hdir, he, hj⟩
    · rintro ⟨hdir, he, hj⟩
      exact ⟨(hdirs a' d').mpr (.inr hdir), he, hj⟩

end

end Inv

def tables (m : Mem) (d : Page) (l : List ℕ) : List Page := l.filterMap (entry m d)

theorem mem_tables {m : Mem} {d t : Page} {l : List ℕ} :
    t ∈ tables m d l ↔ ∃ i ∈ l, entry m d i = some t := List.mem_filterMap

/-- What is left of a directory that is given up: its page, the tables with numbers in `l`, and
what was in hand before. -/
def remains (m : Mem) (d : Page) (l : List ℕ) (H : List Page) : List Page := d :: (tables m d l ++ H)

def Role.close (a : Space) : Role → Role
  | .dir a' => if a' = a then .hand else .dir a'
  | .table a' i => if a' = a then .hand else .table a' i
  | r => r

def Role.swap (a a' : Space) : Role → Role
  | .dir c => .dir (Equiv.swap a a' c)
  | .table c i => .table (Equiv.swap a a' c) i
  | .user c v => .user (Equiv.swap a a' c) v
  | r => r

namespace Inv

variable {p : Pid}

theorem holds_closeDir (hdir : b.dir a = some d) {r : Role} {z : Page} :
    Holds m f { b.setDir a none with hand := remains m d (List.range 1024) b.hand } r z ↔
      ∃ k, Holds m f b k z ∧ k.close a = r ∧ ∀ v, k ≠ .user a v := by
  have hdirs : ∀ c d', update b.dir a none c = some d' ↔ b.dir c = some d' ∧ c ≠ a := by
    intro c d'
    by_cases hc : c = a
    · subst hc
      simp
    · simp [hc]
  constructor
  · intro hz
    cases r with
    | free => exact ⟨.free, hz, rfl, nofun⟩
    | stack p => exact ⟨.stack p, hz, rfl, nofun⟩
    | pipe => exact ⟨.pipe, hz, rfl, nofun⟩
    | hand =>
      rcases List.mem_cons.mp hz with rfl | hz
      · exact ⟨.dir a, hdir, if_pos rfl, nofun⟩
      · rcases List.mem_append.mp hz with ht | hh
        · obtain ⟨i, -, hi⟩ := mem_tables.mp ht
          exact ⟨.table a i, ⟨d, hdir, hi⟩, if_pos rfl, nofun⟩
        · exact ⟨.hand, hh, rfl, nofun⟩
    | dir c =>
      obtain ⟨hd', hne⟩ := (hdirs c z).mp hz
      exact ⟨.dir c, hd', if_neg hne, nofun⟩
    | table c i =>
      obtain ⟨d', hd', he⟩ := hz
      obtain ⟨hd', hne⟩ := (hdirs c d').mp hd'
      exact ⟨.table c i, ⟨d', hd', he⟩, if_neg hne, nofun⟩
    | user c v =>
      obtain ⟨hv, d', t', hd', he, hj⟩ := hz
      obtain ⟨hd', hne⟩ := (hdirs c d').mp hd'
      refine ⟨.user c v, ⟨hv, d', t', hd', he, hj⟩, rfl, fun v' heq => ?_⟩
      exact hne (Role.user.inj heq).1
  · rintro ⟨k, hk, rfl, hne⟩
    cases k with
    | free | stack p | pipe => exact hk
    | hand => exact List.mem_cons_of_mem d (List.mem_append_right _ hk)
    | dir c =>
      by_cases hc : c = a
      · subst hc
        have hk : b.dir c = some z := hk
        rw [hdir] at hk
        cases hk
        rw [Role.close, if_pos rfl]
        exact List.mem_cons_self
      · rw [Role.close, if_neg hc]
        exact (hdirs c z).mpr ⟨hk, hc⟩
    | table c i =>
      obtain ⟨d', hd', he⟩ := hk
      by_cases hc : c = a
      · subst hc
        rw [hdir] at hd'
        cases hd'
        rw [Role.close, if_pos rfl]
        exact List.mem_cons_of_mem d (List.mem_append_left _
          (mem_tables.mpr ⟨i, List.mem_range.mpr (entry_lt he), he⟩))
      · rw [Role.close, if_neg hc]
        exact ⟨d', (hdirs c d').mpr ⟨hd', hc⟩, he⟩
    | user c v =>
      obtain ⟨hv, d', t', hd', he, hj⟩ := hk
      have hc : c ≠ a := by
        rintro rfl
        exact hne v rfl
      exact ⟨hv, d', t', (hdirs c d').mpr ⟨hd', hc⟩, he, hj⟩

section

variable (h : Inv l U m f b)
include h

theorem closeDir (hdir : b.dir a = some d) :
    Inv l (fun x => U x ∧ ¬ ∃ v, Holds m f b (.user a v) x) m f
      { b.setDir a none with hand := remains m d (List.range 1024) b.hand } := by
  have htable : ∀ t ∈ tables m d (List.range 1024), ∃ i, Holds m f b (.table a i) t := by
    intro t ht
    obtain ⟨i, -, hi⟩ := mem_tables.mp ht
    exact ⟨i, d, hdir, hi⟩
  have hnodup : (tables m d (List.range 1024)).Nodup := by
    refine List.nodup_range.filterMap fun i j t hi hj => ?_
    have := h.excl (.table a i) (.table a j) t ⟨d, hdir, hi⟩ ⟨d, hdir, hj⟩
    exact (Role.table.inj this).2
  have hdnot : d ∉ tables m d (List.range 1024) ++ b.hand := by
    rw [List.mem_append]
    rintro (ht | hh)
    · obtain ⟨i, hi⟩ := htable d ht
      cases h.excl (.dir a) (.table a i) d hdir hi
    · cases h.excl (.dir a) .hand d hdir hh
  have hdisj : ∀ t ∈ tables m d (List.range 1024), t ∉ b.hand := by
    intro t ht hh
    obtain ⟨i, hi⟩ := htable t ht
    cases h.excl (.table a i) .hand t hi hh
  refine ⟨h.excl.merge (Role.close a) fun r z hz => ?_, h.free, ?_, fun r z hz => ?_, fun x => ?_⟩
  · obtain ⟨k, hk, hr, -⟩ := (holds_closeDir hdir).mp hz
    exact ⟨k, hk, hr⟩
  · exact List.nodup_cons.mpr ⟨hdnot, List.nodup_append'.mpr ⟨hnodup, h.hand,
      fun t ht hh => hdisj t ht hh⟩⟩
  · obtain ⟨k, hk, -⟩ := (holds_closeDir hdir).mp hz
    exact h.usable k z hk
  · rw [h.all]
    constructor
    · rintro ⟨⟨k, hk⟩, hno⟩
      refine ⟨k.close a, (holds_closeDir hdir).mpr ⟨k, hk, rfl, ?_⟩⟩
      rintro v rfl
      exact hno ⟨v, hk⟩
    · rintro ⟨r, hr⟩
      obtain ⟨k, hk, -, hne⟩ := (holds_closeDir hdir).mp hr
      refine ⟨⟨k, hk⟩, ?_⟩
      rintro ⟨v, hv⟩
      exact hne v (h.excl k (.user a v) x hk hv)

theorem swap (a a' : Space) :
    Inv l U m f { b with dir := fun c => b.dir (Equiv.swap a a' c) } := by
  have hold : ∀ r z, Holds m f { b with dir := fun c => b.dir (Equiv.swap a a' c) } r z ↔
      Holds m f b (r.swap a a') z := by
    intro r z
    cases r with
    | free | hand | stack p | pipe | dir c | table c i | user c v => exact Iff.rfl
  have hinv : ∀ r : Role, (r.swap a a').swap a a' = r := by
    intro r
    cases r <;> simp [Role.swap]
  refine ⟨h.excl.merge (Role.swap a a') fun r z hz => ⟨_, (hold r z).mp hz, hinv r⟩, h.free, h.hand,
    fun r z hz => h.usable _ z ((hold r z).mp hz), fun z => ?_⟩
  rw [h.all]
  constructor
  · rintro ⟨r, hr⟩
    refine ⟨r.swap a a', (hold _ z).mpr ?_⟩
    rwa [hinv]
  · rintro ⟨r, hr⟩
    exact ⟨_, (hold r z).mp hr⟩

theorem toStack (hnone : b.stack p = none) (hx : x ∈ b.hand) :
    Inv l U m f { b with
      stack := update b.stack p (some x)
      hand := b.hand.erase x } := by
  refine h.ofHand (.stack p) (by rintro ⟨⟩) hx h.free rfl fun r z hr => ?_
  cases r with
  | hand => exact absurd rfl hr
  | free | pipe | dir c | table c i | user c v => simp [Holds]
  | stack q =>
    show update b.stack p (some x) q = some z ↔ _ ∨ b.stack q = some z
    by_cases hq : q = p
    · subst hq
      simp [hnone, eq_comm]
    · simp [hq]

theorem ofStack (hx : b.stack p = some x) :
    Inv l U m f { b with
      stack := update b.stack p none
      hand := x :: b.hand } := by
  refine h.toHand (.stack p) (by rintro ⟨⟩) hx h.free rfl fun r z hr => ?_
  cases r with
  | hand => exact absurd rfl hr
  | free | pipe | dir c | table c i | user c v => simp [Holds]
  | stack q =>
    show update b.stack p none q = some z ↔ b.stack q = some z ∧ _
    by_cases hq : q = p
    · subst hq
      simp [hx, eq_comm]
    · simp [hq]

theorem toPipe (hx : x ∈ b.hand) :
    Inv l U m f { b with
      pipe := update b.pipe x true
      hand := b.hand.erase x } := by
  refine h.ofHand .pipe (by rintro ⟨⟩) hx h.free rfl fun r z hr => ?_
  cases r with
  | hand => exact absurd rfl hr
  | free | stack q | dir c | table c i | user c v => simp [Holds]
  | pipe =>
    show update b.pipe x true z = true ↔ _ ∨ b.pipe z = true
    by_cases hz : z = x
    · subst hz
      simp
    · simp [hz]

theorem ofPipe (hx : b.pipe x = true) :
    Inv l U m f { b with
      pipe := update b.pipe x false
      hand := x :: b.hand } := by
  refine h.toHand .pipe (by rintro ⟨⟩) hx h.free rfl fun r z hr => ?_
  cases r with
  | hand => exact absurd rfl hr
  | free | stack q | dir c | table c i | user c v => simp [Holds]
  | pipe =>
    show update b.pipe x false z = true ↔ b.pipe z = true ∧ _
    by_cases hz : z = x
    · subst hz
      simp
    · simp [hz]

end

end Inv

end Xv6.Vm
