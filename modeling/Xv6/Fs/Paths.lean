import Mathlib.Data.List.DropRight
import Xv6.Fs.Walk

namespace Xv6
open Lib

/-- What stands between the slashes of a path, each cut to `DIRSIZ` bytes. -/
def segments (path : Str) : List Str :=
  ((path.splitOn slash).filter (· ≠ [])).map (List.take DIRSIZ)

theorem segments_nil : segments [] = [] := rfl

theorem segments_slash (path : Str) : segments (slash :: path) = segments path := by
  unfold segments
  rw [List.splitOn, List.splitOnP_cons_eq_if_modifyHead, if_pos (by simp)]
  simp [List.splitOn]

theorem segments_dropWhile (path : Str) :
    segments (path.dropWhile (· == slash)) = segments path := by
  induction path with
  | nil => rfl
  | cons c path ih =>
    by_cases hc : c = slash
    · subst hc
      rw [List.dropWhile_cons_of_pos (by simp), segments_slash, ih]
    · rw [List.dropWhile_cons_of_neg (by simpa using hc)]

theorem segments_head {name path : Str} (hne : name ≠ []) (hname : ∀ c ∈ name, c ≠ slash)
    (hpath : path = [] ∨ path.head? = some slash) :
    segments (name ++ path) = name.take DIRSIZ :: segments path := by
  have hno : ∀ c ∈ name, (c == slash) = false := by
    intro c hc
    rw [beq_eq_false_iff_ne]
    exact hname c hc
  rcases hpath with rfl | hslash
  · rw [List.append_nil, segments, List.splitOn, List.splitOnP_eq_singleton hno]
    simp [hne, segments_nil]
  · obtain ⟨rest, rfl⟩ : ∃ rest, path = slash :: rest := by
      cases path with
      | nil => cases hslash
      | cons c rest => exact ⟨rest, by rw [Option.some.inj hslash]⟩
    rw [segments_slash]
    unfold segments
    rw [List.splitOn, List.splitOnP_append_cons_of_forall_mem hno slash (by simp)]
    simp [hne, List.splitOn]

theorem skipelem_eq_none {path : Str} (h : skipelem path = none) : segments path = [] := by
  unfold skipelem at h
  simp only at h
  split_ifs at h with hp
  rw [← segments_dropWhile, hp, segments_nil]

theorem skipelem_eq_some {path name rest : Str} (h : skipelem path = some (name, rest)) :
    segments path = name :: segments rest := by
  unfold skipelem at h
  simp only at h
  split_ifs at h with hp
  obtain ⟨rfl, rfl⟩ := Prod.mk.inj (Option.some.inj h)
  rw [← segments_dropWhile path, segments_dropWhile (List.dropWhile _ _)]
  generalize hq : path.dropWhile (· == slash) = q at hp ⊢
  conv_lhs => rw [← List.takeWhile_append_dropWhile (p := (· != slash)) (l := q)]
  apply segments_head
  · -- The first byte that is left is no slash.
    obtain ⟨c, cs, rfl⟩ := List.exists_cons_of_ne_nil hp
    have hc := List.head_dropWhile_not (· == slash) (l := path) (by rw [hq]; simp)
    simp only [hq, List.head_cons, beq_eq_false_iff_ne] at hc
    rw [List.takeWhile_cons_of_pos (by simpa using hc)]
    exact List.cons_ne_nil _ _
  · intro c hc
    simpa using List.mem_takeWhile_imp hc
  · by_cases hr : q.dropWhile (· != slash) = []
    · exact .inl hr
    · right
      have hhead := List.head_dropWhile_not (· != slash) hr
      rw [List.head?_eq_some_head hr]
      simpa using hhead

/-- `skipelem` over and over, until it finds nothing. -/
inductive Elements : Str → List Str → Prop
  | stop {path : Str} : skipelem path = none → Elements path []
  | next {path name rest : Str} {names : List Str} : skipelem path = some (name, rest) →
      Elements rest names → Elements path (name :: names)

theorem elements_iff {path : Str} {names : List Str} :
    Elements path names ↔ names = segments path := by
  constructor
  · intro h
    induction h with
    | stop h => exact (skipelem_eq_none h).symm
    | next h _ ih => rw [skipelem_eq_some h, ih]
  · rintro rfl
    induction hn : path.length using Nat.strongRecOn generalizing path with
    | ind n ih =>
      cases h : skipelem path with
      | none =>
        rw [skipelem_eq_none h]
        exact .stop h
      | some elem =>
        obtain ⟨name, rest⟩ := elem
        rw [skipelem_eq_some h]
        exact .next h (ih _ (by have := skipelem_length h; omega) rfl)

theorem segments_rest {path name rest : Str} (h : skipelem path = some (name, rest)) :
    segments rest = [] ↔ rest = [] := by
  constructor
  · intro hseg
    cases hr : skipelem rest with
    | some elem =>
      obtain ⟨name', rest'⟩ := elem
      rw [skipelem_eq_some hr] at hseg
      cases hseg
    | none =>
      unfold skipelem at h hr
      simp only at h hr
      split_ifs at h hr with hp hp'
      obtain ⟨-, rfl⟩ := Prod.mk.inj (Option.some.inj h)
      rwa [List.dropWhile_idempotent] at hp'
  · rintro rfl
    rfl

namespace Tree

def lookup (T : Tree) (d : ℕ) (name : Str) : Option ℕ :=
  ((List.range (T d).len).find? fun k => decide (T.Matches d k name)).map
    fun k => ((T d).ent k).inum

def step (T : Tree) (d : ℕ) (name : Str) : Option ℕ :=
  if (T d).type = T_DIR then T.lookup d name else none

def resolve (T : Tree) (d : ℕ) (names : List Str) : Option ℕ := names.foldlM T.step d

/-- The directory in which the last element is to be looked up, and that element. -/
def parent (T : Tree) (d : ℕ) (names : List Str) : Option (ℕ × Str) :=
  names.getLast?.bind fun last => (T.resolve d names.dropLast).bind fun n =>
    if (T n).type = T_DIR then some (n, last) else none

/-- The loop of `namex` on the tree. -/
def namex (T : Tree) (par : Bool) : ℕ → ℕ → Str → Str → Option (ℕ × Str)
  | 0, _, _, _ => none
  | k + 1, n, path, name =>
    match skipelem path with
    | none => if par then none else some (n, name)
    | some (name, path) =>
      if (T n).type ≠ T_DIR then none
      else if par ∧ path = [] then some (n, name)
      else (T.lookup n name).bind fun m => T.namex par k m path name

/-- Whatever the loop meets is allocated, and it does not meet the end of a directory inside an
entry. -/
def Clear (T : Tree) (par : Bool) : ℕ → ℕ → Str → Prop
  | 0, _, _ => True
  | k + 1, n, path =>
    match skipelem path with
    | none => True
    | some (name, path) => (T n).type ≠ 0 ∧ ((T n).type = T_DIR → ¬ (par ∧ path = []) →
        ((T n).rest = 0 ∨ (T.lookup n name).isSome) ∧
          ∀ m ∈ T.lookup n name, T.Clear par k m path)

variable {T : Tree} {d n m k : ℕ} {name path : Str} {par : Bool}

theorem lookup_eq_some : T.lookup d name = some n ↔
    ∃ j, T.FirstMatch d 0 (T d).len name j ∧ ((T d).ent j).inum = n := by
  unfold lookup
  rw [Option.map_eq_some_iff]
  constructor
  · rintro ⟨j, hj, rfl⟩
    obtain ⟨hm, hlt, hfirst⟩ := List.find?_range_eq_some.mp hj
    rw [List.mem_range] at hlt
    refine ⟨j, ⟨Nat.zero_le _, hlt, hlt, of_decide_eq_true hm, fun i _ hi => ?_⟩, rfl⟩
    simpa using hfirst i hi
  · rintro ⟨j, ⟨-, hlt, -, hm, hfirst⟩, rfl⟩
    refine ⟨j, List.find?_range_eq_some.mpr ⟨decide_eq_true hm, List.mem_range.mpr hlt, ?_⟩, rfl⟩
    intro i hi
    simpa using hfirst i (Nat.zero_le _) hi

theorem lookup_eq_none : T.lookup d name = none ↔ ∀ j, j < (T d).len → ¬ T.Matches d j name := by
  unfold lookup
  rw [Option.map_eq_none_iff, List.find?_eq_none]
  simp only [List.mem_range, decide_eq_true_eq]

theorem resolve_cons (T : Tree) (d : ℕ) (name : Str) (names : List Str) :
    T.resolve d (name :: names) = (T.step d name).bind fun n => T.resolve n names := rfl

theorem parent_nil (T : Tree) (d : ℕ) : T.parent d [] = none := rfl

theorem parent_single (T : Tree) (d : ℕ) (name : Str) :
    T.parent d [name] = if (T d).type = T_DIR then some (d, name) else none := rfl

theorem parent_cons (T : Tree) (d : ℕ) (name : Str) {names : List Str} (h : names ≠ []) :
    T.parent d (name :: names) = (T.step d name).bind fun n => T.parent n names := by
  obtain ⟨b, l, rfl⟩ := List.exists_cons_of_ne_nil h
  unfold parent
  rw [List.getLast?_cons_cons, List.dropLast_cons_cons, resolve_cons]
  cases T.step d name with
  | none => cases (b :: l).getLast? <;> rfl
  | some n => rfl

theorem resolve_eq_parent (T : Tree) (d : ℕ) {names : List Str} (h : names ≠ []) :
    T.resolve d names = (T.parent d names).bind fun x => T.lookup x.1 x.2 := by
  induction names generalizing d with
  | nil => exact absurd rfl h
  | cons name names ih =>
    by_cases hn : names = []
    · subst hn
      rw [parent_single, resolve_cons, step]
      split_ifs
      · exact Option.bind_fun_some (T.lookup d name)
      · rfl
    · rw [parent_cons T d name hn, resolve_cons]
      cases T.step d name with
      | none => rfl
      | some n => exact ih n hn

theorem namex_eq_resolve (name : Str) (hk : path.length < k) :
    (T.namex false k n path name).map Prod.fst = T.resolve n (segments path) := by
  induction k generalizing n path name with
  | zero => omega
  | succ k ih =>
    rw [namex]
    cases hskip : skipelem path with
    | none =>
      rw [skipelem_eq_none hskip]
      rfl
    | some elem =>
      obtain ⟨name', rest⟩ := elem
      have hlen := skipelem_length hskip
      rw [skipelem_eq_some hskip, resolve_cons, step]
      simp only [Bool.false_eq_true, false_and, if_false, ite_not]
      split_ifs
      · cases T.lookup n name' with
        | none => rfl
        | some m => exact ih name' (by omega)
      · rfl

theorem namex_eq_parent (name : Str) (hk : path.length < k) :
    T.namex true k n path name = T.parent n (segments path) := by
  induction k generalizing n path name with
  | zero => omega
  | succ k ih =>
    rw [namex]
    cases hskip : skipelem path with
    | none =>
      rw [skipelem_eq_none hskip]
      rfl
    | some elem =>
      obtain ⟨name', rest⟩ := elem
      have hlen := skipelem_length hskip
      rw [skipelem_eq_some hskip]
      simp only [true_and, ite_not]
      by_cases hrest : rest = []
      · rw [hrest, segments_nil, parent_single]
        simp only [if_true]
      · rw [parent_cons T n name' (mt (segments_rest hskip).mp hrest), step]
        split_ifs
        · cases T.lookup n name' with
          | none => rfl
          | some m => exact ih name' (by omega)
        · rfl

end Tree

end Xv6
