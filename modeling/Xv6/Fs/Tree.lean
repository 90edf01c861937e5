import Xv6.Fs.Ops

namespace Xv6
open Lib Prog Function

def Dirent.none : Dirent := ⟨0, []⟩

/-- An inode: its type, its link count and, if it is a directory, the number of its entries, the
entries, and the number of bytes behind the last whole entry. -/
@[ext] structure Node where
  type : ℤ
  nlink : ℤ
  len : ℕ
  ent : ℕ → Dirent
  rest : ℕ

/-- Write entry `k` of a directory, which may be the one behind the last. -/
def Node.setEnt (x : Node) (k : ℕ) (e : Dirent) : Node :=
  { x with
    len := max x.len (k + 1)
    ent := update x.ent k e
    rest := if k < x.len then x.rest else 0 }

abbrev Tree := ℕ → Node

def direntAt (block : ℕ → Block) (d : Dinode) (k : ℕ) : Dirent :=
  .decode (bytesAt block d (k * DIRENT) DIRENT)

def node (block : ℕ → Block) (d : Dinode) : Node where
  type := d.type
  nlink := d.nlink
  len := if d.type = T_DIR then d.size / DIRENT else 0
  ent k := if d.type = T_DIR ∧ k < d.size / DIRENT then direntAt block d k else .none
  rest := if d.type = T_DIR then d.size % DIRENT else 0

def tree (s : Fs) : Tree := fun n => node s.block (s.dinode n)

namespace Tree

def free (T : Tree) (n : ℕ) : Tree :=
  update T n ⟨0, (T n).nlink, 0, fun _ => .none, 0⟩

def alloc (T : Tree) (n : ℕ) (type : ℤ) : Tree :=
  update T n ⟨type, 0, 0, fun _ => .none, 0⟩

def setNlink (T : Tree) (n : ℕ) (v : ℤ) : Tree := update T n { T n with nlink := v }

def setEnt (T : Tree) (d k : ℕ) (e : Dirent) : Tree := update T d ((T d).setEnt k e)

section

variable {T : Tree} {d k n : ℕ} {e : Dirent} {v type : ℤ}

theorem free_of_ne (h : n ≠ d) : T.free d n = T n := update_of_ne h _ _

theorem alloc_of_ne (h : n ≠ d) : T.alloc d type n = T n := update_of_ne h _ _

theorem setNlink_of_ne (h : n ≠ d) : T.setNlink d v n = T n := update_of_ne h _ _

theorem setEnt_of_ne (h : n ≠ d) : T.setEnt d k e n = T n := update_of_ne h _ _

@[simp] theorem free_self : T.free d d = ⟨0, (T d).nlink, 0, fun _ => .none, 0⟩ :=
  update_self _ _ _

@[simp] theorem alloc_self : T.alloc d type d = ⟨type, 0, 0, fun _ => .none, 0⟩ :=
  update_self _ _ _

@[simp] theorem setNlink_self : T.setNlink d v d = { T d with nlink := v } :=
  update_self _ _ _

@[simp] theorem setEnt_self : T.setEnt d k e d = (T d).setEnt k e := update_self _ _ _

theorem setNlink_rest (T : Tree) (n : ℕ) (v : ℤ) (m : ℕ) :
    (T.setNlink n v m).type = (T m).type ∧ (T.setNlink n v m).len = (T m).len ∧
      (T.setNlink n v m).ent = (T m).ent ∧ (T.setNlink n v m).rest = (T m).rest := by
  by_cases hm : m = n
  · subst hm
    simp
  · rw [setNlink_of_ne hm]
    exact ⟨rfl, rfl, rfl, rfl⟩

theorem setEnt_rest (T : Tree) (d k : ℕ) (e : Dirent) (m : ℕ) :
    (T.setEnt d k e m).type = (T m).type ∧ (T.setEnt d k e m).nlink = (T m).nlink := by
  by_cases hm : m = d
  · subst hm
    rw [setEnt_self]
    exact ⟨rfl, rfl⟩
  · rw [setEnt_of_ne hm]
    exact ⟨rfl, rfl⟩

end

def Matches (T : Tree) (d k : ℕ) (name : Str) : Prop :=
  ((T d).ent k).inum ≠ 0 ∧ namecmpEq name ((T d).ent k).name = true

instance (T : Tree) (d k : ℕ) (name : Str) : Decidable (T.Matches d k name) :=
  inferInstanceAs (Decidable (_ ∧ _))

end Tree

section Effects

variable {s t : Fs} {n : ℕ} {d : Dinode}

theorem SameDisk.tree (h : SameDisk s t) : tree t = tree s := by
  funext m
  simp only [Xv6.tree, h.dinode, h.block]

theorem tree_update (hd : t.dinode = update s.dinode n d) (hb : t.block = s.block) :
    tree t = update (tree s) n (node s.block d) := by
  funext m
  by_cases hm : m = n
  · rw [hm, update_self, tree, hd, hb, update_self]
  · rw [update_of_ne hm, tree, hd, hb, update_of_ne hm, tree]

theorem Freed.tree (h : Freed s t n) : tree t = (tree s).free n := by
  rw [tree_update h.dinode h.block, Tree.free]
  have hdir : (0 : ℤ) ≠ T_DIR := by decide
  have hnode : node s.block (s.dinode n).freed = ⟨0, (s.dinode n).nlink, 0, fun _ => .none, 0⟩ := by
    simp [node, Dinode.freed, Dinode.truncated, hdir]
  rw [hnode]
  rfl

theorem Allocated.tree {type : ℤ} (h : Allocated s t n type) : tree t = (tree s).alloc n type := by
  rw [tree_update h.dinode h.block, Tree.alloc]
  congr 1
  refine Node.ext rfl rfl ?_ ?_ ?_
  · simp [node, Dinode.fresh]
  · simp [node, Dinode.fresh]
  · show (if type = T_DIR then 0 % DIRENT else 0) = 0
    rw [Nat.zero_mod, ite_self]

theorem tree_relabel {v : ℤ} (hd : t.dinode = update s.dinode n d)
    (hb : t.block = s.block) (ht : d.type = (s.dinode n).type) (hs : d.size = (s.dinode n).size)
    (ha : d.addrs = (s.dinode n).addrs) (hv : d.nlink = v) : tree t = (tree s).setNlink n v := by
  rw [tree_update hd hb, Tree.setNlink]
  congr 1
  have hp : ∀ k, ptr s.block d k = ptr s.block (s.dinode n) k := by
    intro k
    simp only [ptr, ha]
  refine Node.ext ht hv ?_ ?_ ?_
  · simp only [node, Xv6.tree, ht, hs]
  · simp only [node, Xv6.tree, ht, hs, direntAt, bytesAt, byteAt, hp]
  · simp only [node, Xv6.tree, ht, hs]

theorem WroteFile.tree {src : List UInt8} {k : ℕ} (h : WroteFile n (k * DIRENT) src s t)
    (hlen : src.length = DIRENT) (hdir : (s.dinode n).type = T_DIR)
    (hk : k * DIRENT ≤ (s.dinode n).size) :
    tree t = (tree s).setEnt n k (.decode src) := by
  have hself := h.self
  have htype : (t.dinode n).type = T_DIR := by rw [hself]; exact hdir
  have hsize : (t.dinode n).size = max (s.dinode n).size (k * DIRENT + DIRENT) := by
    rw [hself, hlen]
  have hsz : (t.dinode n).size / DIRENT = max ((s.dinode n).size / DIRENT) (k + 1) := by
    rw [hsize]
    unfold DIRENT at hk ⊢
    omega
  have hlast : k ≤ (s.dinode n).size / DIRENT := by
    unfold DIRENT at hk ⊢
    omega
  have hkept : ∀ m j, (s.dinode m).type = T_DIR → j < (s.dinode m).size / DIRENT →
      ¬ (m = n ∧ j = k) →
      direntAt t.block (t.dinode m) j = direntAt s.block (s.dinode m) j := by
    intro m j hm hj hne
    unfold direntAt
    congr 1
    apply List.map_congr_left
    intro x hx
    rw [List.mem_range] at hx
    refine h.kept m _ (by rw [hm]; decide) ?_ ?_
    · unfold DIRENT at hx hj ⊢
      omega
    · rw [hlen]
      unfold DIRENT at hx ⊢
      omega
  funext m
  by_cases hm : m = n
  · subst hm
    rw [Tree.setEnt, update_self]
    refine Node.ext (htype.trans hdir.symm) ?_ ?_ ?_ ?_
    · show (t.dinode m).nlink = (s.dinode m).nlink
      rw [hself]
    · simp only [Xv6.tree, node, Node.setEnt, htype, hdir, if_true, hsz]
    · funext j
      simp only [Xv6.tree, node, Node.setEnt, htype, hdir, true_and, hsz]
      by_cases hj : j = k
      · subst hj
        rw [update_self, if_pos (by omega), direntAt]
        congr 1
        apply List.ext_getElem (by rw [bytesAt_length, hlen])
        intro x hx hx'
        rw [bytesAt_length] at hx
        simp only [bytesAt, List.getElem_map, List.getElem_range]
        rw [h.new _ (by omega) (by omega), Nat.add_sub_cancel_left, List.getD_eq_getElem _ _ hx']
      · rw [update_of_ne hj]
        by_cases hlt : j < (s.dinode m).size / DIRENT
        · rw [if_pos hlt, if_pos (by omega), hkept m j hdir hlt fun hx => hj hx.2]
        · rw [if_neg hlt, if_neg (by omega)]
    · simp only [Xv6.tree, node, Node.setEnt, htype, hdir, if_true, hsize]
      unfold DIRENT at hk hlast ⊢
      split_ifs with hlt <;> omega
  · rw [Tree.setEnt, update_of_ne hm]
    have hd := h.other m hm
    refine Node.ext ?_ ?_ ?_ ?_ ?_
    · simp only [Xv6.tree, node, hd]
    · simp only [Xv6.tree, node, hd]
    · simp only [Xv6.tree, node, hd]
    · funext j
      simp only [Xv6.tree, node, hd]
      by_cases hj : (s.dinode m).type = T_DIR ∧ j < (s.dinode m).size / DIRENT
      · rw [if_pos hj, if_pos hj, ← hkept m j hj.1 hj.2 fun hx => hm hx.1, hd]
      · rw [if_neg hj, if_neg hj]
    · simp only [Xv6.tree, node, hd]

theorem WroteFile.tree_eq {off : ℕ} {src : List UInt8} (h : WroteFile n off src s t)
    (hdir : (s.dinode n).type ≠ T_DIR) : Xv6.tree t = Xv6.tree s := by
  funext m
  by_cases hm : m = n
  · subst hm
    have htype : (t.dinode m).type = (s.dinode m).type := by rw [h.self]
    have hnlink : (t.dinode m).nlink = (s.dinode m).nlink := by rw [h.self]
    simp only [Xv6.tree, node, htype, hnlink, hdir, if_false, false_and]
  · have hd := h.other m hm
    have hent : ∀ j, (s.dinode m).type = T_DIR ∧ j < (s.dinode m).size / DIRENT →
        direntAt t.block (s.dinode m) j = direntAt s.block (s.dinode m) j := by
      rintro j ⟨htype, hj⟩
      unfold direntAt
      congr 1
      apply List.map_congr_left
      intro x hx
      rw [List.mem_range] at hx
      have hkept := h.kept m (j * DIRENT + x) (by rw [htype]; decide)
        (by unfold DIRENT at hx hj ⊢; omega) fun hx => hm hx.1
      rwa [hd] at hkept
    refine Node.ext ?_ ?_ ?_ ?_ ?_
    · simp only [Xv6.tree, node, hd]
    · simp only [Xv6.tree, node, hd]
    · simp only [Xv6.tree, node, hd]
    · funext j
      simp only [Xv6.tree, node, hd]
      by_cases hj : (s.dinode m).type = T_DIR ∧ j < (s.dinode m).size / DIRENT
      · rw [if_pos hj, if_pos hj, hent j hj]
      · rw [if_neg hj, if_neg hj]
    · simp only [Xv6.tree, node, hd]

end Effects

end Xv6
