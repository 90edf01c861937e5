import Mathlib.Data.Finset.Card
import Mathlib.Data.Fintype.Basic
import Xv6.Fs.Paths

namespace Xv6
open Lib Function

/-- The cache entries that are free when the references are `r`. -/
def vacant (r : Slot → ℤ) : Finset Slot := Finset.univ.filter fun i => r i = 0

def Fs.Cached (s : Fs) (n : ℕ) : Prop := ∃ i, 0 < (s.inode i).ref ∧ (s.inode i).inum = n

instance (s : Fs) (n : ℕ) : Decidable (s.Cached n) := inferInstanceAs (Decidable (∃ _, _))

/-- `iget` finds an entry for the inode `n` when the inodes in `H` are referenced as well. -/
def Fs.Fits (s : Fs) (H : Finset ℕ) (n : ℕ) : Prop :=
  n ∈ H ∨ s.Cached n ∨ (H.filter fun m => ¬ s.Cached m).card < (vacant (refs s)).card

instance (s : Fs) (H : Finset ℕ) (n : ℕ) : Decidable (s.Fits H n) :=
  inferInstanceAs (Decidable (_ ∨ _))

/-- `iget` finds an entry for every inode on the way from `m` along the names, where the directory
in which a name is looked up is referenced. -/
def Fs.FitsAlong (s : Fs) (H : Finset ℕ) : ℕ → List Str → Prop
  | _, [] => True
  | m, name :: names => match (tree s).step m name with
    | none => True
    | some n => s.Fits (insert m H) n ∧ s.FitsAlong H n names

def lookups (par : Bool) (path : Str) : List Str :=
  if par then (segments path).dropLast else segments path

/-- `namex` finds room in the cache for every inode that it comes to. -/
def Fs.FitsPath (s : Fs) (H : Finset ℕ) (p : Pid) (par : Bool) (path : Str) : Prop :=
  (path.head? = some slash → s.Fits H ROOTINO) ∧
    ∀ m, s.startOf p path = some m → s.FitsAlong H m (lookups par path)

variable {s t : Fs} {r : Slot → ℤ} {i ip : Slot} {n m x : ℕ} {H : Finset ℕ}

theorem mem_vacant : i ∈ vacant r ↔ r i = 0 := by simp [vacant]

theorem lookups_of_skipelem_none {par : Bool} {path : Str} (h : skipelem path = none) :
    lookups par path = [] := by
  unfold lookups
  rw [skipelem_eq_none h]
  cases par <;> rfl

theorem lookups_of_last {path name : Str} (h : skipelem path = some (name, [])) :
    lookups true path = [] := by
  unfold lookups
  rw [skipelem_eq_some h, segments_nil]
  rfl

theorem lookups_of_skipelem {par : Bool} {path name rest : Str}
    (h : skipelem path = some (name, rest)) (hne : ¬ (par = true ∧ rest = [])) :
    lookups par path = name :: lookups par rest := by
  unfold lookups
  rw [skipelem_eq_some h]
  cases par with
  | false => rfl
  | true =>
    have hrest : segments rest ≠ [] := fun hnil => hne ⟨rfl, (segments_rest h).mp hnil⟩
    exact List.dropLast_cons_of_ne_nil hrest

section Fits

theorem fits_empty : s.Fits ∅ n ↔ s.Cached n ∨ 0 < (vacant (refs s)).card := by
  simp [Fs.Fits]

theorem cached_of_moves (hm : Moves (refs s) s t) : t.Cached n ↔ s.Cached n := by
  have hrefs : ∀ i, (t.inode i).ref = (s.inode i).ref := fun i => congrFun hm.refs i
  have hinum : ∀ i, 0 < (s.inode i).ref → (t.inode i).inum = (s.inode i).inum := fun i hi =>
    (hm.persist i hi (by show 0 < (t.inode i).ref; rwa [hrefs])).1
  refine exists_congr fun i => ?_
  rw [hrefs]
  exact and_congr_right fun hi => by rw [hinum i hi]

theorem fits_of_moves (hm : Moves (refs s) s t) : t.Fits H n ↔ s.Fits H n := by
  unfold Fs.Fits
  simp only [cached_of_moves hm, hm.refs]

section Ref

variable (hm : Moves (addRef (refs s) ip 1) s t) (hip : Refers t ip x)
include hm hip

/-- The entry was in use before just if it had the inode already. -/
theorem ref_pos_iff : 0 < refs s ip ↔ s.Cached x := by
  constructor
  · intro hpos
    refine ⟨ip, hpos, ?_⟩
    rw [← hip.2, (hm.persist ip hpos hip.1).1]
  · rintro ⟨j, hj, hjx⟩
    have hpos : 0 < refs t j := by
      rw [hm.refs]
      exact lt_of_lt_of_le hj (le_addOne _)
    have hjt := hm.persist.refers ⟨hj, hjx⟩ hpos
    obtain rfl := hm.sane.uniq j ip hjt.1 hip.1 (hjt.2.trans hip.2.symm)
    exact hj

theorem cached_of_ref : t.Cached n ↔ n = x ∨ s.Cached n := by
  constructor
  · rintro ⟨j, hj, rfl⟩
    by_cases hjp : j = ip
    · exact .inl (by rw [hjp, hip.2])
    · have hpos : 0 < refs s j := by
        have hrefs := congrFun hm.refs j
        rw [addRef_of_ne _ _ hjp] at hrefs
        rw [← hrefs]
        exact hj
      exact .inr ⟨j, hpos, (hm.persist j hpos hj).1.symm⟩
  · rintro (rfl | ⟨j, hj, hjn⟩)
    · exact ⟨ip, hip.1, hip.2⟩
    · have hpos : 0 < refs t j := by
        rw [hm.refs]
        exact lt_of_lt_of_le hj (le_addOne _)
      exact ⟨j, hm.persist.refers ⟨hj, hjn⟩ hpos⟩

variable (hs : Coherent s)
include hs

theorem vacant_of_ref :
    (vacant (refs t)).card + (if s.Cached x then 0 else 1) = (vacant (refs s)).card := by
  have herase : vacant (refs t) = (vacant (refs s)).erase ip := by
    ext j
    rw [Finset.mem_erase, mem_vacant, mem_vacant, hm.refs]
    by_cases hj : j = ip
    · subst hj
      have h0 : 0 ≤ refs s j := hs.nonneg j
      rw [addRef_self]
      refine iff_of_false (by omega) fun h => h.1 rfl
    · rw [addRef_of_ne _ _ hj]
      exact ⟨fun h => ⟨hj, h⟩, And.right⟩
  rw [herase]
  by_cases hx : s.Cached x
  · rw [if_pos hx, Finset.erase_eq_of_notMem]
    · rfl
    · rw [mem_vacant]
      exact ((ref_pos_iff hm hip).mpr hx).ne'
  · have hmem : ip ∈ vacant (refs s) := by
      rw [mem_vacant]
      have h0 : 0 ≤ refs s ip := hs.nonneg ip
      have hle := mt (ref_pos_iff hm hip).mp hx
      omega
    rw [if_neg hx, Finset.card_erase_add_one hmem]

theorem fits_of_ref : t.Fits H n ↔ s.Fits (insert x H) n := by
  have hv := vacant_of_ref hm hip hs
  have hfilter : (H.filter fun m => ¬ t.Cached m) = (H.filter fun m => ¬ s.Cached m).erase x := by
    ext m
    simp only [Finset.mem_erase, Finset.mem_filter, cached_of_ref hm hip, not_or]
    tauto
  unfold Fs.Fits
  rw [hfilter, cached_of_ref hm hip, Finset.mem_insert, Finset.filter_insert]
  by_cases hx : s.Cached x
  · rw [if_pos hx] at hv
    rw [if_neg (not_not.mpr hx), Finset.erase_eq_of_notMem (by simp [hx])]
    rw [← hv]
    tauto
  · rw [if_neg hx] at hv
    rw [if_pos hx, ← hv, Finset.card_insert_eq_ite]
    have hcard := Finset.card_erase_add_one (s := H.filter fun m => ¬ s.Cached m) (a := x)
    by_cases hmem : x ∈ H.filter fun m => ¬ s.Cached m
    · have := hcard hmem
      rw [if_pos hmem, ← this, Nat.add_lt_add_iff_right]
      tauto
    · rw [if_neg hmem, Finset.erase_eq_of_notMem hmem, Nat.add_lt_add_iff_right]
      tauto

end Ref

theorem fitsAlong_congr {H' : Finset ℕ} (hfit : ∀ m n, t.Fits (insert m H) n ↔ s.Fits (insert m H') n)
    (htree : ∀ m name, (tree t).step m name = (tree s).step m name) (m : ℕ) (names : List Str) :
    t.FitsAlong H m names ↔ s.FitsAlong H' m names := by
  induction names generalizing m with
  | nil => exact .rfl
  | cons name names ih =>
    unfold Fs.FitsAlong
    rw [htree]
    cases (tree s).step m name with
    | none => exact .rfl
    | some n => exact and_congr (hfit m n) (ih n)

theorem fitsPath_congr {H' : Finset ℕ} {p : Pid} {path : Str} (par : Bool)
    (hfit : t.Fits H ROOTINO ↔ s.Fits H' ROOTINO)
    (hfit' : ∀ m n, t.Fits (insert m H) n ↔ s.Fits (insert m H') n)
    (htree : ∀ m name, (tree t).step m name = (tree s).step m name)
    (hstart : t.startOf p path = s.startOf p path) :
    t.FitsPath H p par path ↔ s.FitsPath H' p par path := by
  unfold Fs.FitsPath
  rw [hfit, hstart]
  simp only [fitsAlong_congr hfit' htree]

theorem fits_of_vacant (h : H.card < (vacant (refs s)).card) (n : ℕ) : s.Fits H n :=
  .inr (.inr (lt_of_le_of_lt (Finset.card_filter_le _ _) h))

theorem fitsPath_of_vacant (h : H.card + 1 < (vacant (refs s)).card) (p : Pid) (par : Bool)
    (path : Str) : s.FitsPath H p par path := by
  have hinsert : ∀ m n, s.Fits (insert m H) n := fun m =>
    fits_of_vacant (lt_of_le_of_lt (Finset.card_insert_le m H) h)
  have halong : ∀ names m, s.FitsAlong H m names := by
    intro names
    induction names with
    | nil => exact fun _ => trivial
    | cons name names ih =>
      intro m
      unfold Fs.FitsAlong
      cases (tree s).step m name with
      | none => trivial
      | some n => exact ⟨hinsert m n, ih n⟩
  exact ⟨fun _ => fits_of_vacant (Nat.lt_of_succ_lt h) _, fun m _ => halong _ m⟩

end Fits

theorem startOf_of_moves {p : Pid} (hcwd : ∀ i, (s.proc p).cwd = some i → 0 < refs s i)
    (hm : Moves r s t) (hr : ∀ j, refs s j ≤ r j) (path : Str) :
    t.startOf p path = s.startOf p path := by
  unfold Fs.startOf
  split_ifs
  · rfl
  · rw [hm.proc]
    cases hi : (s.proc p).cwd with
    | none => rfl
    | some i =>
      have hpos : 0 < refs t i := by
        rw [hm.refs]
        exact lt_of_lt_of_le (hcwd i hi) (hr i)
      rw [Option.map_some, Option.map_some, (hm.persist i (hcwd i hi) hpos).1]

/-- Locking an inode or taking part in a transaction leaves the room as it is. -/
theorem fitsPath_of_moves {p : Pid} (hcwd : ∀ i, (s.proc p).cwd = some i → 0 < refs s i)
    (hm : Moves (refs s) s t) (hd : SameDisk s t) (par : Bool) (path : Str) :
    t.FitsPath H p par path ↔ s.FitsPath H p par path :=
  fitsPath_congr par (fits_of_moves hm) (fun _ _ => fits_of_moves hm) (fun m name => by rw [hd.tree])
    (startOf_of_moves hcwd hm (fun _ => le_rfl) path)

end Xv6
