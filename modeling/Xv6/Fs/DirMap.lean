import Xv6.Fs.LinkExisting

namespace Xv6
open Lib Prog Function

/-- What `dirlink` does to a finite map: it fails if the name is bound, and binds it if not. -/
def Binds (s : Fs) (d : ℕ) (name : Str) (inum : ℕ) (r : ℤ) (t : Fs) : Prop :=
  r = -1 ∧ (tree s d).binding (nameOf name) ≠ none ∧ tree t d = tree s d ∨
  r = 0 ∧ (tree s d).binding (nameOf name) = none ∧
    (tree t d).binding = update (tree s d).binding (nameOf name) (some inum) ∧
    ∀ m, m ≠ d → tree t m = tree s m

section Partial

variable {s : Fs} {d : ℕ} {p : Pid} {E : String → Prop} {i : Slot}

theorem does_dirlookup_map (hE : Exhausts E) (hs : Sane s) (hi : Loaded s i d)
    (hdir : (tree s d).type = T_DIR) (h : (tree s d).IsDir d) (name : Str) :
    Does p E (dirlookup i name) s fun r t => SameDisk s t ∧ match r with
      | none => (tree s d).binding (nameOf name) = none
      | some (ip, off) => ∃ n, (tree s d).binding (nameOf name) = some n ∧ Refers t ip n ∧
          ∃ k, off = k * DIRENT ∧ (tree s d).Live k ∧
            nameOf ((tree s d).ent k).name = nameOf name := by
  refine (does_dirlookup hE (.inr ⟨hdir, h.rest⟩) hs hi name).mono ?_
  rintro r t ⟨-, hr⟩
  match r with
  | none =>
    obtain ⟨rfl, hno⟩ := hr
    refine ⟨.refl t, Node.binding_eq_none.mpr fun k hk he => hno k hk.1 ⟨hk.2, ?_⟩⟩
    exact (namecmpEq_iff _ _).mpr he.symm
  | some (ip, off) =>
    obtain ⟨-, hd, k, hoff, ⟨-, -, hk, hmatch, -⟩, hip⟩ := hr
    have hname := ((namecmpEq_iff _ _).mp hmatch.2).symm
    exact ⟨hd, _, h.binding_eq ⟨hk, hmatch.1⟩ hname, hip, k, hoff, ⟨hk, hmatch.1⟩, hname⟩

theorem closed_dir (hi : Loaded s i d) : Closed s fun t => tree t d = tree s d where
  same t u h ht := by rwa [h.tree]
  free t u n ht _ _ hno hf := by
    have hne : d ≠ n := by
      rintro rfl
      exact hno i hi.1.1 hi.1.2
    rw [hf.tree, Tree.free_of_ne hne]
    exact ht

theorem does_dirlink_map (hE : Exhausts E) (hlarge : E "dirlink") (hs : Sane s) (hi : Loaded s i d)
    (hdir : (tree s d).type = T_DIR) (hd : d ≠ 0) (h : (tree s d).IsDir d) (name : Str) {inum : ℕ}
    (hinum : 0 < inum ∧ inum < 65536) :
    Does p E (dirlink i name inum) s (Binds s d name inum) := by
  refine (does_dirlink hE (.inr ⟨hdir, h.rest⟩) hlarge (closed_dir hi) hs rfl hi name inum).mono ?_
  rintro r t ⟨-, -, ⟨rfl, ht, j, hj, hmatch⟩ | ⟨rfl, hno, k, hk, hfree, ht⟩⟩
  · refine .inl ⟨rfl, fun hnone => ?_, ht⟩
    exact Node.binding_eq_none.mp hnone j ⟨hj, hmatch.1⟩ ((namecmpEq_iff _ _).mp hmatch.2).symm
  · have hv : (tree s).Vacant d k name := ⟨hdir, hk, hfree, hno⟩
    have h2 : 2 ≤ k := by
      have hlen := h.len
      by_contra hlt
      have h0 := hfree (by omega)
      obtain rfl | rfl : k = 0 ∨ k = 1 := by omega
      · exact hd (h.dot.1.symm.trans h0)
      · exact h.dotdot.1 h0
    refine .inr ⟨rfl, Node.binding_eq_none.mpr fun j hj he => ?_, ?_, fun m hm => ?_⟩
    · exact hno j hj.1 ⟨hj.2, (namecmpEq_iff _ _).mpr he.symm⟩
    · rw [Nat.mod_eq_of_lt hinum.2] at ht
      rw [ht, Tree.setEnt_self]
      refine (h.binding_enter h2 hk (e := ⟨inum, strncpy name⟩) (by show inum ≠ 0; omega) hfree
        hv.new_name).trans ?_
      rw [nameOf_strncpy]
    · rw [ht, Tree.setEnt_of_ne hm]

theorem does_clear_map (hE : Exhausts E) (hs : Sane s) (hi : Loaded s i d)
    (hdir : (tree s d).type = T_DIR) (h : (tree s d).IsDir d) {k : ℕ} (h2 : 2 ≤ k)
    (hk : (tree s d).Live k) :
    Does p E (writei i (List.replicate DIRENT 0) (k * DIRENT)) s fun r t => r = DIRENT ∧
      (tree t d).binding =
        update (tree s d).binding (nameOf ((tree s d).ent k).name) none ∧
      ∀ m, m ≠ d → tree t m = tree s m := by
  refine (does_writeEnt hE hs hi hdir (List.length_replicate ..) rfl).mono ?_
  rintro r t ⟨-, ht, hr⟩
  obtain ⟨-, ht⟩ := ht (hr hk.1)
  refine ⟨hr hk.1, ?_, fun m hm => by rw [ht, Tree.setEnt_of_ne hm]⟩
  rw [ht, Tree.setEnt_self]
  exact h.binding_clear h2 hk (by decide) rfl

end Partial

/-- The lookup in the tree is the lookup in the finite map. -/
theorem Node.IsDir.lookup {T : Tree} {d : ℕ} (h : (T d).IsDir d) (name : Str) :
    T.lookup d name = (T d).binding (nameOf name) := by
  cases hlook : T.lookup d name with
  | none =>
    symm
    refine Node.binding_eq_none.mpr fun k hk he => ?_
    exact Tree.lookup_eq_none.mp hlook k hk.1 ⟨hk.2, (namecmpEq_iff _ _).mpr he.symm⟩
  | some m =>
    obtain ⟨k, ⟨-, -, hk, hmatch, -⟩, rfl⟩ := Tree.lookup_eq_some.mp hlook
    exact (h.binding_eq ⟨hk, hmatch.1⟩ ((namecmpEq_iff _ _).mp hmatch.2).symm).symm

/-- A process has the directory `d`, which has the cache entry `i`, locked and no other inode is
locked. -/
structure DirLocked (s : Shared Fs Slot Pid) (p : Pid) (i : Slot) (d : ℕ) : Prop where
  sane : Sane s.st
  anchored : Anchored s.st
  loaded : Loaded s.st i d
  dir : (tree s.st d).type = T_DIR
  isDir : (tree s.st d).IsDir d
  held : s.owner i = some p
  free : ∀ l, l ≠ i → s.owner l = none

namespace DirLocked

variable {s : Shared Fs Slot Pid} {p : Pid} {i : Slot} {d : ℕ} (h : DirLocked s p i d)
include h

theorem not_dev : (s.st.inode i).type ≠ T_DEV := by
  rw [h.loaded.type h.sane, h.dir]
  decide

theorem finishes_lookup (name : Str) : Finishes p (fun e => e ≠ none) (dirlookup i name) s
    fun r t => Stays s t ∧ ((tree s.st).lookup d name = none → r = none ∧ t.st = s.st) := by
  refine (finishes_dirlookup h.sane h.loaded h.dir (fun _ _ _ => nofun) (.inl h.isDir.rest)).mono ?_
  rintro r t ⟨hstay, hr⟩
  refine ⟨hstay, fun hnone => ?_⟩
  rw [hnone] at hr
  exact hr

theorem finishes_emptyFrom {k m : ℕ} (hkm : k + m ≤ (tree s.st d).len) :
    Finishes p (fun e => e ≠ none) (emptyFrom i m (k * DIRENT)) s fun _ t => t = s := by
  induction m generalizing k with
  | zero => exact .ret rfl
  | succ m ih =>
    refine (finishes_readDirent h.sane h.loaded h.dir (by omega) _).bind ?_
    rintro de _ ⟨rfl, -⟩
    refine .ite (fun _ => .ret rfl) fun _ => ?_
    have hnext := ih (k := k + 1) (by omega)
    rwa [Nat.add_mul, Nat.one_mul] at hnext

theorem finishes_dirlink {name : Str} (hne : (tree s.st d).binding (nameOf name) ≠ some d)
    (inum : ℕ) : Finishes p (fun e => e ≠ none) (dirlink i name inum) s fun _ _ => True := by
  rw [← h.isDir.lookup] at hne
  cases hlook : (tree s.st).lookup d name with
  | some m =>
    have hm : m ≠ d := by
      rintro rfl
      exact hne hlook
    exact (finishes_dirlink_found h.sane h.anchored h.loaded h.dir hlook (fun _ => nofun)
      (fun hmd => absurd hmd hm) h.held h.free inum).mono fun _ _ _ => trivial
  | none =>
    refine (h.finishes_lookup name).bind ?_
    rintro r t ⟨hstay, hr⟩
    obtain ⟨rfl, ht⟩ := hr hlook
    obtain rfl : t = s := by
      cases t
      cases s
      exact congrArg₂ Shared.mk ht hstay.1
    apply Finishes.bind_read
    have hsize : (t.st.inode i).size = (t.st.dinode d).size :=
      congrArg Dinode.size (h.loaded.copy h.sane).1
    have hlen := numEntries_eq_len h.dir h.isDir.rest
    rw [← hsize] at hlen
    have hempty := h.finishes_emptyFrom (k := 0) (m := numEntries (t.st.inode i).size)
      (by rw [hlen, Nat.zero_add])
    rw [Nat.zero_mul] at hempty
    refine hempty.bind ?_
    rintro off _ rfl
    refine (finishes_writei h.not_dev _ off).bind fun r u _ => ?_
    exact .ite (fun _ => .atomic_panic rfl nofun) fun _ => .ret trivial

theorem dirlink_blocked {name : Str} (heq : (tree s.st d).binding (nameOf name) = some d)
    (inum : ℕ) : (dirlink i name inum).run p s = .blocked := by
  rw [← h.isDir.lookup] at heq
  have hfit : s.st.Fits ∅ d := .inr (.inl ⟨i, h.loaded.1⟩)
  have hwait := finishes_dirlink_found (E := fun e => e = none) h.sane h.anchored h.loaded h.dir heq
    (fun hno => absurd hfit hno) (fun _ => rfl) h.held h.free inum
  unfold Finishes at hwait
  cases hrun : (dirlink i name inum).run p s with
  | done r t =>
    rw [hrun] at hwait
    exact absurd rfl hwait.1.2
  | blocked => rfl
  | panic m =>
    rw [hrun] at hwait
    cases hwait

end DirLocked

theorem root_locked : ∃ s i, DirLocked s initproc i ROOTINO ∧
    tree s.st = tree (boot fun _ => none) := by
  have hs := (boot_fresh fun _ => none).settled
  have hroot : Refers (boot fun _ => none) ⟨0, by decide⟩ ROOTINO := ⟨Int.one_pos, rfl⟩
  have htype : (tree (boot fun _ => none) ROOTINO).type ≠ 0 := by
    rw [boot_root.1]
    decide
  obtain ⟨-, t, -, ⟨howner, -⟩, hm, hl, hd⟩ := (finishes_ilock_loaded (E := fun _ => False)
    (p := initproc) (s := started fun _ => none) hs.sane hroot rfl htype).run
  refine ⟨t, _, ⟨hm.sane, ?_, hl, ?_, ?_, ?_, fun l hl => ?_⟩, hd.tree⟩
  · exact (closes_of_same hs.anchored hm hd).anchored
  · rw [hd.tree]
    exact boot_root.1
  · rw [hd.tree]
    exact boot_isDir
  · rw [howner, update_self]
  · rw [howner, update_of_ne hl]
    rfl

end Xv6
