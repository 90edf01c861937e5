import Xv6.Fs.Change

namespace Xv6
open Lib Prog Function

/-- What counts of a name: its first `DIRSIZ` bytes up to a zero byte. -/
def nameOf (l : List UInt8) : Str := (l.take DIRSIZ).takeWhile (· != 0)

theorem strncmpEq_iff (n : ℕ) (s t : Str) :
    strncmpEq n s t = true ↔ (s.take n).takeWhile (· != 0) = (t.take n).takeWhile (· != 0) := by
  induction n generalizing s t with
  | zero => simp [strncmpEq]
  | succ n ih =>
    cases s with
    | nil =>
      cases t with
      | nil => simp [strncmpEq]
      | cons b t =>
        by_cases hb : b = 0
        · simp [strncmpEq, hb]
        · simp [strncmpEq, hb, Ne.symm hb]
    | cons a s =>
      cases t with
      | nil =>
        by_cases ha : a = 0
        · simp [strncmpEq, ha]
        · simp [strncmpEq, ha]
      | cons b t =>
        by_cases hab : a = b
        · subst hab
          by_cases ha : a = 0
          · simp [strncmpEq, ha]
          · simp [strncmpEq, ha, ih]
        · -- The two names differ in this byte, which is not zero in both.
          by_cases ha : a = 0
          · subst ha
            simp [strncmpEq, Ne.symm hab, hab]
          · by_cases hb : b = 0
            · subst hb
              simp [strncmpEq, ha]
            · simp [strncmpEq, ha, hb, hab]

theorem namecmpEq_iff (s t : Str) : namecmpEq s t = true ↔ nameOf s = nameOf t :=
  strncmpEq_iff DIRSIZ s t

theorem nameOf_strncpy (name : Str) : nameOf (strncpy name) = nameOf name := by
  have hlen := strncpy_length name
  have hzero : ∀ k, (List.replicate k (0 : UInt8)).takeWhile (· != 0) = [] := by
    intro k
    cases k with
    | zero => rfl
    | succ k => rw [List.replicate_succ, List.takeWhile_cons]; rfl
  rw [nameOf, List.take_of_length_le (le_of_eq hlen), strncpy, nameOf, List.takeWhile_append,
    hzero, List.append_nil]
  split_ifs with h
  · exact ((List.takeWhile_prefix _).eq_of_length h).symm
  · rfl

namespace Node

def Live (x : Node) (k : ℕ) : Prop := k < x.len ∧ (x.ent k).inum ≠ 0

instance (x : Node) (k : ℕ) : Decidable (x.Live k) := inferInstanceAs (Decidable (_ ∧ _))

/-- The node of the directory `d` has whole entries, `.` and `..` in front and no name twice. -/
structure IsDir (x : Node) (d : ℕ) : Prop where
  rest : x.rest = 0
  len : 2 ≤ x.len
  dot : (x.ent 0).inum = d ∧ nameOf (x.ent 0).name = dot
  dotdot : (x.ent 1).inum ≠ 0 ∧ nameOf (x.ent 1).name = dotdot
  uniq : ∀ j k, x.Live j → x.Live k → nameOf (x.ent j).name = nameOf (x.ent k).name → j = k

def binding (x : Node) (name : Str) : Option ℕ :=
  ((List.range x.len).find? fun k => (x.ent k).inum != 0 && nameOf (x.ent k).name == name).map
    fun k => (x.ent k).inum

variable {x : Node} {d k : ℕ} {e : Dirent} {name : Str}

theorem binding_eq_none : x.binding name = none ↔
    ∀ k, x.Live k → nameOf (x.ent k).name ≠ name := by
  rw [binding, Option.map_eq_none_iff, List.find?_eq_none]
  constructor
  · intro h k hk he
    have := h k (List.mem_range.mpr hk.1)
    simp [hk.2, he] at this
  · intro h k hk
    simp only [Bool.and_eq_true, bne_iff_ne, beq_iff_eq, not_and]
    exact fun hl => h k ⟨List.mem_range.mp hk, hl⟩

theorem IsDir.binding_eq (h : x.IsDir d) (hk : x.Live k) (hn : nameOf (x.ent k).name = name) :
    x.binding name = some (x.ent k).inum := by
  cases hb : x.binding name with
  | none => exact absurd hn (binding_eq_none.mp hb k hk)
  | some m =>
    obtain ⟨j, hj, rfl⟩ := Option.map_eq_some_iff.mp hb
    have hmem := List.mem_range.mp (List.mem_of_find?_eq_some hj)
    have hp := List.find?_some hj
    simp only [Bool.and_eq_true, bne_iff_ne, beq_iff_eq] at hp
    rw [h.uniq j k ⟨hmem, hp.1⟩ hk (hp.2.trans hn.symm)]

theorem setEnt_ent_self : (x.setEnt k e).ent k = e := update_self _ _ _

theorem setEnt_ent_of_ne {j : ℕ} (h : j ≠ k) : (x.setEnt k e).ent j = x.ent j :=
  update_of_ne h _ _

theorem setEnt_live_of_ne {j : ℕ} (hk : k ≤ x.len) (h : j ≠ k) :
    (x.setEnt k e).Live j ↔ x.Live j := by
  unfold Live
  rw [setEnt_ent_of_ne h]
  show j < max x.len (k + 1) ∧ _ ↔ _
  constructor
  · exact fun hj => ⟨by omega, hj.2⟩
  · exact fun hj => ⟨by omega, hj.2⟩

theorem IsDir.setEnt (h : x.IsDir d) (h2 : 2 ≤ k) (hk : k ≤ x.len)
    (hnew : e.inum ≠ 0 → ∀ j, x.Live j → nameOf (x.ent j).name ≠ nameOf e.name) :
    (x.setEnt k e).IsDir d where
  rest := by
    show (if k < x.len then x.rest else 0) = 0
    rw [h.rest, ite_self]
  len := le_trans h.len (le_max_left _ _)
  dot := by
    rw [setEnt_ent_of_ne (by omega)]
    exact h.dot
  dotdot := by
    rw [setEnt_ent_of_ne (by omega)]
    exact h.dotdot
  uniq i j hi hj he := by
    by_cases hik : i = k
    · subst hik
      by_cases hji : j = i
      · exact hji.symm
      · have hei : e.inum ≠ 0 := by
          have := hi.2
          rwa [setEnt_ent_self] at this
        rw [setEnt_ent_self, setEnt_ent_of_ne hji] at he
        exact absurd he.symm (hnew hei j ((setEnt_live_of_ne hk hji).mp hj))
    · by_cases hjk : j = k
      · subst hjk
        have hej : e.inum ≠ 0 := by
          have := hj.2
          rwa [setEnt_ent_self] at this
        rw [setEnt_ent_self, setEnt_ent_of_ne hik] at he
        exact absurd he (hnew hej i ((setEnt_live_of_ne hk hik).mp hi))
      · rw [setEnt_ent_of_ne hik, setEnt_ent_of_ne hjk] at he
        exact h.uniq i j ((setEnt_live_of_ne hk hik).mp hi) ((setEnt_live_of_ne hk hjk).mp hj) he

/-- Two directories with the same entries for a name map it to the same inode. -/
theorem IsDir.binding_congr {y : Node} {d' : ℕ} (hx : x.IsDir d) (hy : y.IsDir d')
    (h : ∀ j, x.Live j → nameOf (x.ent j).name = name → y.Live j ∧ y.ent j = x.ent j)
    (h' : ∀ j, y.Live j → nameOf (y.ent j).name = name → x.Live j ∧ y.ent j = x.ent j) :
    y.binding name = x.binding name := by
  by_cases hno : ∃ j, x.Live j ∧ nameOf (x.ent j).name = name
  · obtain ⟨j, hj, hn⟩ := hno
    obtain ⟨hj', he⟩ := h j hj hn
    rw [hx.binding_eq hj hn, hy.binding_eq hj' (by rw [he, hn]), he]
  · have hxn : x.binding name = none := binding_eq_none.mpr fun j hj hn => hno ⟨j, hj, hn⟩
    rw [hxn]
    refine binding_eq_none.mpr fun j hj hn => ?_
    obtain ⟨hj', he⟩ := h' j hj hn
    exact hno ⟨j, hj', by rw [← he, hn]⟩

theorem IsDir.binding_enter (h : x.IsDir d) (h2 : 2 ≤ k) (hk : k ≤ x.len) (he : e.inum ≠ 0)
    (hfree : k < x.len → (x.ent k).inum = 0)
    (hnew : ∀ j, x.Live j → nameOf (x.ent j).name ≠ nameOf e.name) :
    (x.setEnt k e).binding = update x.binding (nameOf e.name) (some e.inum) := by
  have h' := h.setEnt (e := e) h2 hk fun _ => hnew
  funext name
  by_cases hn : name = nameOf e.name
  · have hlive : (x.setEnt k e).Live k := by
      refine ⟨lt_of_lt_of_le (Nat.lt_succ_self k) (le_max_right _ _), ?_⟩
      rwa [setEnt_ent_self]
    rw [hn, update_self, h'.binding_eq hlive (by rw [setEnt_ent_self]), setEnt_ent_self]
  · rw [update_of_ne hn]
    refine h.binding_congr h' (fun j hj _ => ?_) fun j hj hjn => ?_
    · have hjk : j ≠ k := by
        rintro rfl
        exact hj.2 (hfree hj.1)
      exact ⟨(setEnt_live_of_ne hk hjk).mpr hj, setEnt_ent_of_ne hjk⟩
    · have hjk : j ≠ k := by
        rintro rfl
        rw [setEnt_ent_self] at hjn
        exact hn hjn.symm
      exact ⟨(setEnt_live_of_ne hk hjk).mp hj, setEnt_ent_of_ne hjk⟩

theorem IsDir.binding_clear (h : x.IsDir d) (h2 : 2 ≤ k) (hk : x.Live k) (he : e.inum = 0)
    (hn : nameOf (x.ent k).name = name) :
    (x.setEnt k e).binding = update x.binding name none := by
  have hle := le_of_lt hk.1
  have h' := h.setEnt (e := e) h2 hle fun h0 => absurd he h0
  have hfree : ∀ j, (x.setEnt k e).Live j → j ≠ k := by
    rintro j hj rfl
    exact hj.2 (by rw [setEnt_ent_self, he])
  funext name'
  by_cases hn' : name' = name
  · subst hn'
    rw [update_self]
    refine binding_eq_none.mpr fun j hj hjn => ?_
    have hjk := hfree j hj
    rw [setEnt_ent_of_ne hjk] at hjn
    exact hjk (h.uniq j k ((setEnt_live_of_ne hle hjk).mp hj) hk (hjn.trans hn.symm))
  · rw [update_of_ne hn']
    refine h.binding_congr h' (fun j hj hjn => ?_) fun j hj _ => ?_
    · have hjk : j ≠ k := by
        rintro rfl
        exact hn' (hjn.symm.trans hn)
      exact ⟨(setEnt_live_of_ne hle hjk).mpr hj, setEnt_ent_of_ne hjk⟩
    · have hjk := hfree j hj
      exact ⟨(setEnt_live_of_ne hle hjk).mp hj, setEnt_ent_of_ne hjk⟩

end Node

end Xv6
