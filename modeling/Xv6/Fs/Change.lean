import Xv6.Fs.Unlink

namespace Xv6
open Lib

namespace Tree

/-- The entries `.` and `..` of a new directory, whose link to its parent is counted. -/
def addDots (T : Tree) (d x : ℕ) : Tree :=
  ((T.setNlink d (toShort ((T d).nlink + 1))).setEnt x 0 ⟨x % 65536, strncpy dot⟩).setEnt x 1
    ⟨d % 65536, strncpy dotdot⟩

def newInode (T : Tree) (d x : ℕ) (type : ℤ) : Tree :=
  if type = T_DIR then ((T.alloc x type).setNlink x 1).addDots d x
  else (T.alloc x type).setNlink x 1

/-- A new inode `x` with one link, entry `k` of `d`. -/
def create (T : Tree) (d k x : ℕ) (name : Str) (type : ℤ) : Tree :=
  (T.newInode d x type).setEnt d k ⟨x % 65536, strncpy name⟩

def link (T : Tree) (d k x : ℕ) (name : Str) : Tree :=
  (T.setNlink x (toShort ((T x).nlink + 1))).setEnt d k ⟨x % 65536, strncpy name⟩

def unlink (T : Tree) (d k x : ℕ) : Tree :=
  (T.clear d k x).setNlink x (toShort ((T x).nlink - 1))

/-- Entry `k` of `d` is the place where `dirlink` enters the name, which is not there yet. -/
structure Vacant (T : Tree) (d k : ℕ) (name : Str) : Prop where
  dir : (T d).type = T_DIR
  le : k ≤ (T d).len
  free : k < (T d).len → ((T d).ent k).inum = 0
  new : ∀ j, j < (T d).len → ¬ T.Matches d j name

section

variable {T : Tree} {d k n x : ℕ} {name : Str} {type : ℤ}

theorem newInode_of_ne (hx : n ≠ x) (hd : n ≠ d) : T.newInode d x type n = T n := by
  unfold newInode addDots
  split_ifs
  · rw [setEnt_of_ne hx, setEnt_of_ne hx, setNlink_of_ne hd, setNlink_of_ne hx, alloc_of_ne hx]
  · rw [setNlink_of_ne hx, alloc_of_ne hx]

theorem newInode_dir (T : Tree) (hne : x ≠ d) (type : ℤ) :
    (T.newInode d x type d).type = (T d).type ∧ (T.newInode d x type d).len = (T d).len ∧
      (T.newInode d x type d).ent = (T d).ent ∧ (T.newInode d x type d).rest = (T d).rest := by
  unfold newInode addDots
  split_ifs
  · simp [setEnt_of_ne hne.symm, setNlink_of_ne hne.symm, alloc_of_ne hne.symm]
  · simp [setNlink_of_ne hne.symm, alloc_of_ne hne.symm]

theorem newInode_type (hne : x ≠ d) : (T.newInode d x type x).type = type := by
  unfold newInode addDots
  split_ifs
  · simp [Node.setEnt, setNlink_of_ne hne]
  · simp

theorem newInode_self_dir (hne : x ≠ d) : T.newInode d x T_DIR x =
    ⟨T_DIR, 1, 2, Function.update (Function.update (fun _ => .none) 0 ⟨x % 65536, strncpy dot⟩) 1
      ⟨d % 65536, strncpy dotdot⟩, 0⟩ := by
  unfold newInode addDots
  simp [Node.setEnt, setNlink_of_ne hne]

theorem create_new (hne : x ≠ d) : (T.create d k x name type x).type = type := by
  rw [create, setEnt_of_ne hne, newInode_type hne]

theorem create_file_nlink (hne : x ≠ d) : (T.create d k x name T_FILE x).nlink = 1 := by
  rw [create, setEnt_of_ne hne, newInode, if_neg (by decide), setNlink_self]

theorem create_of_ne (hx : n ≠ x) (hd : n ≠ d) : T.create d k x name type n = T n := by
  rw [create, setEnt_of_ne hd, newInode_of_ne hx hd]

theorem clear_of_ne (hd : n ≠ d) : T.clear d k x n = T n := by
  unfold clear
  split_ifs
  · rw [setNlink_of_ne hd, setEnt_of_ne hd]
  · rw [setEnt_of_ne hd]

theorem clear_type (T : Tree) (d k x n : ℕ) : (T.clear d k x n).type = (T n).type := by
  unfold clear
  split_ifs
  · rw [(setNlink_rest _ _ _ n).1, (setEnt_rest _ _ _ _ n).1]
  · rw [(setEnt_rest _ _ _ _ n).1]

theorem Vacant.congr {T' : Tree} (h : T'.Vacant d k name) (ht : (T' d).type = (T d).type)
    (hl : (T' d).len = (T d).len) (he : (T' d).ent = (T d).ent) : T.Vacant d k name where
  dir := ht ▸ h.dir
  le := hl ▸ h.le
  free := by
    have := h.free
    rwa [hl, he] at this
  new j hj hmatch := by
    refine h.new j (hl ▸ hj) ?_
    rwa [Matches, he]

end

/-- Inodes without links are freed, one after the other. -/
inductive Frees (T : Tree) : Tree → Prop
  | refl : Frees T T
  | free {T' : Tree} {n : ℕ} (h : Frees T T') (hnl : (T' n).nlink = 0) (ht : (T' n).type ≠ 0) :
      Frees T (T'.free n)

variable {T T' : Tree}

theorem Frees.nlink (h : T.Frees T') (m : ℕ) : (T' m).nlink = (T m).nlink := by
  induction h with
  | refl => rfl
  | @free T' n _ _ _ ih =>
    by_cases hm : m = n
    · subst hm
      rw [free_self, ih]
    · rw [free_of_ne hm, ih]

theorem Frees.eq_or_free (h : T.Frees T') (m : ℕ) : T' m = T m ∨ (T' m).type = 0 := by
  induction h with
  | refl => exact .inl rfl
  | @free T' n _ _ _ ih =>
    by_cases hm : m = n
    · subst hm
      exact .inr (by rw [free_self])
    · rwa [free_of_ne hm]

def Short (T : Tree) : Prop := ∀ n, toShort (T n).nlink = (T n).nlink

theorem Short.setNlink (h : T.Short) (n : ℕ) (v : ℤ) : (T.setNlink n (toShort v)).Short := by
  intro m
  by_cases hm : m = n
  · subst hm
    simp [toShort]
  · rw [setNlink_of_ne hm]
    exact h m

theorem Short.setEnt (h : T.Short) (d k : ℕ) (e : Dirent) : (T.setEnt d k e).Short := by
  intro m
  rw [(setEnt_rest T d k e m).2]
  exact h m

theorem Short.newInode (h : T.Short) (d x : ℕ) (type : ℤ) : (T.newInode d x type).Short := by
  have ha : ((T.alloc x type).setNlink x 1).Short := by
    refine Short.setNlink (fun m => ?_) x 1
    by_cases hm : m = x
    · subst hm
      rw [alloc_self]
      rfl
    · rw [alloc_of_ne hm]
      exact h m
  unfold Tree.newInode
  split_ifs
  · exact ((ha.setNlink d _).setEnt _ _ _).setEnt _ _ _
  · exact ha

theorem Short.clear (h : T.Short) (d k x : ℕ) : (T.clear d k x).Short := by
  unfold Tree.clear
  split_ifs
  · exact (h.setEnt _ _ _).setNlink _ _
  · exact h.setEnt _ _ _

theorem Frees.eq_of_nlink {m : ℕ} (h : T.Frees T') (hnl : (T m).nlink ≠ 0) : T' m = T m := by
  induction h with
  | refl => rfl
  | @free T' n hf h0 _ ih =>
    have hmn : m ≠ n := by
      rintro rfl
      exact hnl (hf.nlink m ▸ h0)
    rw [free_of_ne hmn, ih]

theorem Frees.trans {T'' : Tree} (h : T.Frees T') (h' : T'.Frees T'') : T.Frees T'' := by
  induction h' with
  | refl => exact h
  | free _ hnl ht ih => exact ih.free hnl ht

end Tree

variable {n N : ℕ} {T T' : Tree} {P U : ℕ → Str → Prop}

theorem Dropped.frees {s0 t : Fs} (h : Dropped s0 t n T T') : T.Frees T' := by
  rcases h with ⟨hnl, ht, rfl⟩ | ⟨-, rfl⟩
  · exact .free .refl hnl ht
  · exact .refl

/-- The changes of the tree by one call that enters names as in `P` and removes names as in `U`,
which are directories and names there.  There are `N` inodes. -/
inductive Change (N : ℕ) (P U : ℕ → Str → Prop) (T : Tree) : Tree → Prop
  | same : Change N P U T T
  | create (d k x : ℕ) (name : Str) (type : ℤ) (hP : P d name) (hv : T.Vacant d k name)
      (hx : (T x).type = 0) (hx0 : x ≠ 0) (hxN : x < N) (ht : type ≠ 0) :
      Change N P U T (T.create d k x name type)
  | link (d k x : ℕ) (name : Str) (hP : P d name) (hv : T.Vacant d k name)
      (hx : (T x).type ≠ T_DIR) (hx0 : (T x).type ≠ 0) : Change N P U T (T.link d k x name)
  | unlink (d k x : ℕ) (name : Str) (hU : U d name) (hu : Unlinkable T d k x name)
      (hne : x ≠ d) : Change N P U T (T.unlink d k x)

/-- A change, and then inodes without links are freed. -/
def Effect (N : ℕ) (P U : ℕ → Str → Prop) (T T' : Tree) : Prop :=
  ∃ T₁, Change N P U T T₁ ∧ T₁.Frees T'

theorem Effect.free {T'' : Tree} (h : Effect N P U T T') (h' : T'.Frees T'') :
    Effect N P U T T'' := by
  obtain ⟨T1, hc, hf⟩ := h
  exact ⟨T1, hc, hf.trans h'⟩

theorem Effect.short (h : Effect N P U T T') (hT : T.Short) : T'.Short := by
  obtain ⟨T1, hc, hf⟩ := h
  have h1 : T1.Short := by
    cases hc with
    | same => exact hT
    | create d k x name type => exact (hT.newInode d x type).setEnt _ _ _
    | link d k x name => exact (hT.setNlink x _).setEnt _ _ _
    | unlink d k x name => exact (hT.clear d k x).setNlink x _
  intro n
  rw [hf.nlink]
  exact h1 n

theorem Change.type {T1 : Tree} (h : Change N P U T T1) (hn : (T n).type ≠ 0) :
    (T1 n).type = (T n).type := by
  cases h with
  | same => rfl
  | create d k x name type hP hv hx =>
    have hnx : n ≠ x := by
      rintro rfl
      exact hn hx
    rw [Tree.create, (Tree.setEnt_rest _ _ _ _ n).1]
    by_cases hnd : n = d
    · subst hnd
      exact (T.newInode_dir hnx.symm type).1
    · rw [Tree.newInode_of_ne hnx hnd]
  | link d k x name =>
    rw [Tree.link, (Tree.setEnt_rest _ _ _ _ n).1, (Tree.setNlink_rest _ _ _ n).1]
  | unlink d k x name =>
    rw [Tree.unlink, (Tree.setNlink_rest _ _ _ n).1, Tree.clear_type]

theorem Effect.type (h : Effect N P U T T') (hn : (T n).type ≠ 0) (hn' : (T' n).type ≠ 0) :
    (T' n).type = (T n).type := by
  obtain ⟨T1, hc, hf⟩ := h
  rw [(hf.eq_or_free n).resolve_right hn']
  exact hc.type hn

theorem Effect.same (h : T.Frees T') : Effect N P U T T' := ⟨T, .same, h⟩

end Xv6
