import Xv6.Fs.Graph
import Xv6.Fs.Dirs

namespace Xv6
open Lib Prog
open Function (comp_update update update_eq_self update_of_ne update_self)

def Node.Counts (x : Node) (k : ℕ) : Prop :=
  x.type = T_DIR ∧ x.Live k ∧ nameOf (x.ent k).name ≠ dot ∧
    (nameOf (x.ent k).name = dotdot → 0 < x.nlink)

instance (x : Node) (k : ℕ) : Decidable (x.Counts k) := inferInstanceAs (Decidable (_ ∧ _))

/-- The number of entries of directories below `N` that count as links to `n`. -/
def Tree.links (N : ℕ) (T : Tree) (n : ℕ) : ℕ :=
  ∑ d ∈ Finset.range N,
    ((Finset.range (T d).len).filter fun k => (T d).Counts k ∧ ((T d).ent k).inum = n).card

/-- What entry `k` links to.  `.` is entry 0 and `..` is entry 1. -/
def Node.cell (x : Node) (k : ℕ) : Option ℕ :=
  if x.type = T_DIR ∧ x.Live k ∧ k ≠ 0 ∧ (k = 1 → 0 < x.nlink) then some (x.ent k).inum else none

def Tree.cell (T : Tree) (p : ℕ × ℕ) : Option ℕ := (T p.1).cell p.2

namespace Node

variable {x : Node} {d k n : ℕ} {e : Dirent}

theorem cell_eq_some : x.cell k = some n ↔
    x.type = T_DIR ∧ x.Live k ∧ k ≠ 0 ∧ (k = 1 → 0 < x.nlink) ∧ (x.ent k).inum = n := by
  unfold cell
  split_ifs with h
  · rw [Option.some.injEq]
    tauto
  · constructor
    · rintro ⟨⟩
    · exact fun h' => absurd ⟨h'.1, h'.2.1, h'.2.2.1, h'.2.2.2.1⟩ h

theorem cell_of_ge (hk : 2 ≤ k) : x.cell k = some n ↔
    x.type = T_DIR ∧ x.Live k ∧ (x.ent k).inum = n := by
  rw [cell_eq_some]
  constructor
  · exact fun h => ⟨h.1, h.2.1, h.2.2.2.2⟩
  · exact fun h => ⟨h.1, h.2.1, by omega, by omega, h.2.2⟩

theorem cell_of_type (h : x.type ≠ T_DIR) : x.cell k = none := by
  unfold cell
  rw [if_neg fun h' => h h'.1]

theorem IsDir.counts_iff (h : x.IsDir d) (hd : d ≠ 0) :
    x.Counts k ↔ x.type = T_DIR ∧ x.Live k ∧ k ≠ 0 ∧ (k = 1 → 0 < x.nlink) := by
  have h0 : x.Live 0 := by
    refine ⟨lt_of_lt_of_le (by decide) h.len, ?_⟩
    rw [h.dot.1]
    exact hd
  have h1 : x.Live 1 := ⟨lt_of_lt_of_le (by decide) h.len, h.dotdot.1⟩
  unfold Counts
  refine and_congr_right fun _ => and_congr_right fun hk => ?_
  refine and_congr (not_congr ⟨fun he => ?_, ?_⟩) (imp_congr ⟨fun he => ?_, ?_⟩ Iff.rfl)
  · exact h.uniq k 0 hk h0 (he.trans h.dot.2.symm)
  · rintro rfl
    exact h.dot.2
  · exact h.uniq k 1 hk h1 (he.trans h.dotdot.2.symm)
  · rintro rfl
    exact h.dotdot.2

theorem cell_setNlink {v : ℤ} (hv : x.type = T_DIR → (0 < v ↔ 0 < x.nlink)) :
    ({ x with nlink := v } : Node).cell = x.cell := by
  funext k
  refine Option.ext fun n => ?_
  rw [cell_eq_some, cell_eq_some]
  refine and_congr_right fun ht => ?_
  show _ ∧ _ ∧ (k = 1 → 0 < v) ∧ _ ↔ _
  rw [hv ht]
  rfl

theorem cell_setNlink_zero :
    ({ x with nlink := 0 } : Node).cell = update x.cell 1 none := by
  funext k
  refine Option.ext fun n => ?_
  by_cases hk : k = 1
  · subst hk
    rw [update_self, cell_eq_some]
    simp
  · rw [update_of_ne hk, cell_eq_some, cell_eq_some]
    simp only [hk, false_imp_iff]
    rfl

theorem cell_setEnt (ht : x.type = T_DIR) (h2 : 2 ≤ k) (hk : k ≤ x.len) :
    (x.setEnt k e).cell =
      update x.cell k (if e.inum ≠ 0 then some e.inum else none) := by
  funext j
  by_cases hj : j = k
  · subst hj
    refine Option.ext fun n => ?_
    rw [update_self, cell_of_ge h2, Live, setEnt_ent_self]
    have hlen : j < (x.setEnt j e).len := lt_of_lt_of_le (Nat.lt_succ_self j) (le_max_right _ _)
    have ht' : (x.setEnt j e).type = T_DIR := ht
    by_cases he : e.inum = 0
    · simp [he]
    · simp [ht', hlen, he]
  · refine Option.ext fun n => ?_
    rw [update_of_ne hj, cell_eq_some, cell_eq_some, setEnt_live_of_ne hk hj,
      setEnt_ent_of_ne hj]
    rfl

end Node

namespace Tree

variable {N : ℕ} {T T' : Tree} {d k n x : ℕ} {e : Dirent} {type : ℤ}

theorem Dirs.finitely (h : T.Dirs N) : Finitely T.cell := by
  refine ((Finset.range N).sigma fun d => Finset.range (T d).len).finite_toSet.image
    (fun p => (p.1, p.2)) |>.subset ?_
  rintro ⟨d, k⟩ hne
  obtain ⟨n, hn⟩ := Option.ne_none_iff_exists'.mp hne
  obtain ⟨ht, hl, -⟩ := Node.cell_eq_some.mp hn
  refine ⟨⟨d, k⟩, ?_, rfl⟩
  simp only [Finset.coe_sigma, Set.mem_sigma_iff, Finset.mem_coe, Finset.mem_range]
  exact ⟨((h d).pos ht).2, hl.1⟩

theorem Dirs.links_eq (h : T.Dirs N) (n : ℕ) : T.links N n = tally T.cell n := by
  unfold links tally
  rw [← Finset.card_sigma, ← Set.ncard_coe_finset]
  refine (Set.ncard_congr (fun p _ => (p.1, p.2)) ?_ ?_ ?_)
  · rintro ⟨d, k⟩ hp
    simp only [Finset.coe_sigma, Set.mem_sigma_iff, Finset.mem_coe, Finset.mem_filter] at hp
    obtain ⟨-, -, hc, hn⟩ := hp
    have hd := (h d).isDir hc.1
    have hpos := ((h d).pos hc.1).1
    have hcell := (hd.counts_iff (by omega)).mp hc
    exact Node.cell_eq_some.mpr ⟨hcell.1, hcell.2.1, hcell.2.2.1, hcell.2.2.2, hn⟩
  · rintro ⟨d, k⟩ ⟨d', k'⟩ - - he
    cases he
    rfl
  · rintro ⟨d, k⟩ hp
    obtain ⟨ht, hl, hk, h1, hn⟩ := Node.cell_eq_some.mp hp
    have hd := (h d).isDir ht
    have hpos := (h d).pos ht
    refine ⟨⟨d, k⟩, ?_, rfl⟩
    simp only [Finset.coe_sigma, Set.mem_sigma_iff, Finset.mem_coe, Finset.mem_filter,
      Finset.mem_range]
    exact ⟨hpos.2, hl.1, (hd.counts_iff (by omega)).mpr ⟨ht, hl, hk, h1⟩, hn⟩

theorem cell_setNlink {v : ℤ} (hv : (T n).type = T_DIR → (0 < v ↔ 0 < (T n).nlink)) :
    (T.setNlink n v).cell = T.cell := by
  funext ⟨d, k⟩
  unfold cell
  by_cases hd : d = n
  · subst hd
    simp only [setNlink_self, Node.cell_setNlink hv]
  · simp only [setNlink_of_ne hd]

theorem cell_setNlink_zero : (T.setNlink n 0).cell = update T.cell (n, 1) none := by
  funext ⟨d, k⟩
  by_cases hd : d = n
  · subst hd
    show (T.setNlink d 0 d).cell k = _
    rw [setNlink_self, Node.cell_setNlink_zero]
    by_cases hk : k = 1
    · subst hk
      simp
    · rw [update_of_ne hk, update_of_ne (by simpa using hk)]
      rfl
  · rw [update_of_ne (by simp [hd])]
    unfold cell
    simp only [setNlink_of_ne hd]

theorem cell_setEnt (ht : (T d).type = T_DIR) (h2 : 2 ≤ k) (hk : k ≤ (T d).len) :
    (T.setEnt d k e).cell =
      update T.cell (d, k) (if e.inum ≠ 0 then some e.inum else none) := by
  funext ⟨d', k'⟩
  by_cases hd : d' = d
  · subst hd
    have hnode : (T.setEnt d' k e d').cell = _ :=
      (congrArg Node.cell setEnt_self).trans (Node.cell_setEnt (e := e) ht h2 hk)
    show (T.setEnt d' k e d').cell k' = _
    rw [hnode]
    by_cases hk' : k' = k
    · subst hk'
      simp
    · rw [update_of_ne hk', update_of_ne (by simpa using hk')]
      rfl
  · rw [update_of_ne (by simp [hd])]
    show (T.setEnt d k e d').cell k' = _
    rw [setEnt_of_ne hd]
    rfl

theorem cell_of_type (ht : (T d).type ≠ T_DIR) : T.cell (d, k) = none := Node.cell_of_type ht

theorem cell_alloc (type : ℤ) (hx : (T x).type = 0) : (T.alloc x type).cell = T.cell := by
  funext ⟨e, j⟩
  by_cases he : e = x
  · subst he
    have hold : T.cell (e, j) = none := cell_of_type (by rw [hx]; decide)
    rw [hold]
    refine Option.eq_none_iff_forall_ne_some.mpr fun m hm => ?_
    have hlive := (Node.cell_eq_some.mp hm).2.1.1
    simp at hlive
  · unfold cell
    simp only [alloc_of_ne he]

theorem newInode_file (ht : type ≠ T_DIR) :
    T.newInode d x type = (T.alloc x type).setNlink x 1 := if_neg ht

theorem newInode_parent (hne : x ≠ d) : T.newInode d x T_DIR d =
    { T d with nlink := toShort ((T d).nlink + 1) } := by
  unfold newInode addDots
  simp [setEnt_of_ne hne.symm, setNlink_of_ne hne.symm, alloc_of_ne hne.symm]

theorem cell_newInode_file (hx : (T x).type = 0) (ht : type ≠ T_DIR) :
    (T.newInode d x type).cell = T.cell := by
  rw [newInode_file ht]
  funext ⟨e, j⟩
  by_cases he : e = x
  · subst he
    rw [cell_of_type (by simpa using ht), cell_of_type (by rw [hx]; decide)]
  · unfold cell
    simp only [setNlink_of_ne he, alloc_of_ne he]

theorem cell_newInode_dir (hx : (T x).type = 0) (hne : x ≠ d) (hd : d < 65536) (hd0 : d ≠ 0)
    (hnl : 0 < (T d).nlink) (hnl' : 0 < toShort ((T d).nlink + 1)) :
    (T.newInode d x T_DIR).cell = update T.cell (x, 1) (some d) := by
  funext ⟨e, j⟩
  by_cases hex : e = x
  · subst hex
    have hold : T.cell (e, j) = none := cell_of_type (by rw [hx]; decide)
    have hnew : (T.newInode d e T_DIR).cell (e, j) = if j = 1 then some d else none := by
      show (T.newInode d e T_DIR e).cell j = _
      rw [newInode_self_dir hne]
      refine Option.ext fun m => ?_
      rw [Node.cell_eq_some, Node.Live]
      by_cases hj : j = 1
      · subst hj
        simp [Nat.mod_eq_of_lt hd, hd0]
      · rw [if_neg hj]
        refine iff_of_false (fun h => ?_) (by rintro ⟨⟩)
        have hlt : j < 2 := h.2.1.1
        have := h.2.2.1
        omega
    rw [hnew]
    by_cases hj : j = 1
    · rw [hj, update_self, if_pos rfl]
    · rw [update_of_ne (by simpa using hj), if_neg hj, hold]
  · rw [update_of_ne (by simp [hex])]
    by_cases hed : e = d
    · subst hed
      show (T.newInode e x T_DIR e).cell j = _
      rw [newInode_parent hne, Node.cell_setNlink fun _ => by simp [hnl, hnl']]
      rfl
    · unfold cell
      simp only [newInode_of_ne hex hed]

end Tree

def Tree.graph (T : Tree) : Graph where
  type n := (T n).type
  nlink n := (T n).nlink
  cell := T.cell
  up n := ((T n).ent 1).inum

section Graph

variable {T : Tree} {d k n x : ℕ} {e : Dirent} {v type : ℤ}

@[simp] theorem graph_free_type : (T.free n).graph.type = update T.graph.type n 0 :=
  comp_update Node.type T n _

@[simp] theorem graph_free_nlink : (T.free n).graph.nlink = T.graph.nlink :=
  (comp_update Node.nlink T n _).trans (update_eq_self _ _)

@[simp] theorem graph_alloc_type :
    (T.alloc n type).graph.type = update T.graph.type n type :=
  comp_update Node.type T n _

@[simp] theorem graph_alloc_nlink :
    (T.alloc n type).graph.nlink = update T.graph.nlink n 0 :=
  comp_update Node.nlink T n _

@[simp] theorem graph_setNlink_type : (T.setNlink n v).graph.type = T.graph.type :=
  (comp_update Node.type T n _).trans (update_eq_self _ _)

@[simp] theorem graph_setNlink_nlink :
    (T.setNlink n v).graph.nlink = update T.graph.nlink n v :=
  comp_update Node.nlink T n _

@[simp] theorem graph_setNlink_up : (T.setNlink n v).graph.up = T.graph.up :=
  (comp_update (fun x : Node => (x.ent 1).inum) T n _).trans (update_eq_self _ _)

@[simp] theorem graph_setEnt_type : (T.setEnt d k e).graph.type = T.graph.type :=
  (comp_update Node.type T d _).trans (update_eq_self _ _)

@[simp] theorem graph_setEnt_nlink : (T.setEnt d k e).graph.nlink = T.graph.nlink :=
  (comp_update Node.nlink T d _).trans (update_eq_self _ _)

theorem graph_setEnt_up (h2 : 2 ≤ k) : (T.setEnt d k e).graph.up = T.graph.up := by
  have h1 : (((T d).setEnt k e).ent 1).inum = ((T d).ent 1).inum := by
    rw [Node.setEnt_ent_of_ne (by omega)]
  refine (comp_update (fun x : Node => (x.ent 1).inum) T d _).trans ?_
  simp only [h1]
  exact update_eq_self d T.graph.up

end Graph

/-- The directories are in order and all link counts are exact. -/
structure Tree.Linked (N : ℕ) (T : Tree) : Prop where
  dirs : T.Dirs N
  exact : T.graph.Exact

theorem toShort_of_lt {x : ℤ} (h0 : -32768 ≤ x) (h : x < 32768) : toShort x = x :=
  Int.bmod_eq_of_le (by omega) (by omega)

namespace Tree.Linked

variable {N : ℕ} {T T' : Tree} {d k n x : ℕ} {name : Str} {type : ℤ}

theorem links_eq (h : T.Linked N) (ht : (T n).type ≠ 0) : (T n).nlink = T.links N n := by
  rw [h.dirs.links_eq]
  exact h.exact.nlink n ht

theorem frees (h : T.Linked N) (hf : T.Frees T') : T'.Linked N := by
  induction hf with
  | refl => exact h
  | @free T' n hf hnl ht ih =>
    refine ⟨h.dirs.frees (hf.free hnl ht), ih.exact.release hnl ht (by simp) (by simp) ?_
      fun y hy => congrArg (fun x => (Node.ent x 1).inum) (free_of_ne hy)⟩
    funext ⟨d, k⟩
    by_cases hd : d = n
    · subst hd
      refine Eq.trans (cell_of_type ?_) (ih.exact.cell_removed hnl k).symm
      simp only [free_self]
      decide
    · show (T'.free n d).cell k = _
      rw [free_of_ne hd]
      rfl

theorem cell_vacant (hv : T.Vacant d k name) : T.cell (d, k) = none := by
  refine Option.eq_none_iff_forall_ne_some.mpr fun m hm => ?_
  have hlive := (Node.cell_eq_some.mp hm).2.1
  exact hlive.2 (hv.free hlive.1)

theorem alloc (h : T.Linked N) (type : ℤ) (hx : (T x).type = 0) (u : ℕ) :
    ({ (T.alloc x type).graph with up := update T.graph.up x u } : Graph).Exact :=
  h.exact.alloc hx graph_alloc_type graph_alloc_nlink (cell_alloc type hx)
    fun _ hy => update_of_ne hy _ _

theorem create_up (h2 : 2 ≤ k) (hne : x ≠ d) {y : ℕ} (hy : y ≠ x) :
    (T.create d k x name type).graph.up y = T.graph.up y := by
  rw [create, graph_setEnt_up h2]
  by_cases hyd : y = d
  · subst hyd
    exact congrArg (fun ent => (ent 1).inum) (T.newInode_dir hne type).2.2.1
  · exact congrArg (fun x => (Node.ent x 1).inum) (newInode_of_ne hy hyd)

theorem create_nlink (hne : x ≠ d) {y : ℕ} (hy : y ≠ x) : (T.create d k x name type y).nlink =
    if y = d ∧ type = T_DIR then toShort ((T y).nlink + 1) else (T y).nlink := by
  rw [create, (setEnt_rest _ _ _ _ y).2]
  by_cases hyd : y = d
  · subst hyd
    by_cases ht : type = T_DIR
    · subst ht
      rw [newInode_parent hne, if_pos ⟨rfl, rfl⟩]
    · rw [newInode_file ht, setNlink_of_ne hy, alloc_of_ne hy, if_neg fun h => ht h.2]
  · rw [newInode_of_ne hy hyd, if_neg fun h => hyd h.1]

theorem create_file (h : T.Linked N) (hv : T.Vacant d k name) (hnl : 0 < (T d).nlink)
    (hx : (T x).type = 0) (hx0 : x ≠ 0) (hxN : x < 65536) (ht0 : type ≠ 0) (ht : type ≠ T_DIR) :
    (T.create d k x name type).graph.Exact := by
  have hne : d ≠ x := by
    rintro rfl
    exact Graph.dir_ne_zero (hv.dir.symm.trans hx)
  have h2 := h.dirs.vacant_ge hv
  obtain ⟨hd, hlen, -⟩ := T.newInode_dir hne.symm type
  have hcell : (T.create d k x name type).cell = update T.cell (d, k) (some x) := by
    rw [create, cell_setEnt (hd.trans hv.dir) h2 (hlen ▸ hv.le), cell_newInode_file hx ht]
    simp [Nat.mod_eq_of_lt hxN, hx0]
  refine (h.alloc type hx 0).attach (d := d) (k := k) (x := x) ?_ ?_ ?_ ?_ h2 ?_ ?_ ?_ ?_
    fun y hy => ?_
  · exact (congrArg Node.type (alloc_of_ne hne)).trans hv.dir
  · exact lt_of_lt_of_eq hnl (congrArg Node.nlink (alloc_of_ne hne)).symm
  · simpa using ht
  · simpa using ht0
  · exact (congrFun (cell_alloc _ hx) _).trans (cell_vacant hv)
  · simp [create, newInode_file ht]
  · simp [create, newInode_file ht]
  · exact hcell.trans (by rw [← cell_alloc type hx]; rfl)
  · have hyx : y ≠ x := by
      rintro rfl
      exact ht (by simpa using hy)
    exact (create_up h2 hne.symm hyx).trans (update_of_ne hyx _ _).symm

theorem create_dir (h : T.Linked N) (hv : T.Vacant d k name) (hnl : 0 < (T d).nlink)
    (hlt : (T d).nlink < 32767) (hx : (T x).type = 0) (hx0 : x ≠ 0) (hxN : x < 65536)
    (hdN : d < 65536) (hd0 : d ≠ 0) : (T.create d k x name T_DIR).graph.Exact := by
  have hne : d ≠ x := by
    rintro rfl
    exact Graph.dir_ne_zero (hv.dir.symm.trans hx)
  have hshort : toShort ((T d).nlink + 1) = (T d).nlink + 1 := toShort_of_lt (by omega) (by omega)
  have h2 := h.dirs.vacant_ge hv
  obtain ⟨hd, hlen, -⟩ := T.newInode_dir hne.symm T_DIR
  have hcell : (T.create d k x name T_DIR).cell =
      update (update T.cell (x, 1) (some d)) (d, k) (some x) := by
    rw [create, cell_setEnt (hd.trans hv.dir) h2 (hlen ▸ hv.le),
      cell_newInode_dir hx hne.symm hdN hd0 hnl (by omega)]
    simp [Nat.mod_eq_of_lt hxN, hx0]
  have hnlink : ((T.alloc x T_DIR).setNlink x 1 d).nlink = (T d).nlink := by
    rw [setNlink_of_ne hne, alloc_of_ne hne]
  refine (h.alloc T_DIR hx d).attachDir (d := d) (k := k) (x := x) ?_ ?_ ?_ ?_ ?_ h2
    ?_ ?_ ?_ ?_ fun y hy => ?_
  · exact (congrArg Node.type (alloc_of_ne hne)).trans hv.dir
  · exact lt_of_lt_of_eq hnl (congrArg Node.nlink (alloc_of_ne hne)).symm
  · simp
  · simp
  · exact update_self _ _ _
  · exact (congrFun (cell_alloc _ hx) _).trans (cell_vacant hv)
  · simp [create, newInode, addDots]
  · simp only [create, newInode, addDots, if_true, graph_setEnt_nlink, graph_setNlink_nlink,
      graph_alloc_nlink, hnlink, hshort, update_of_ne hne]
    rfl
  · exact hcell.trans (by rw [← cell_alloc T_DIR hx]; rfl)
  · by_cases hyx : y = x
    · subst hyx
      show _ = update T.graph.up y d y
      rw [update_self, create, graph_setEnt_up h2]
      refine (congrArg (fun x => (Node.ent x 1).inum) (newInode_self_dir hne.symm)).trans ?_
      simp [Nat.mod_eq_of_lt hdN]
    · exact (create_up h2 hne.symm hyx).trans (update_of_ne hyx _ _).symm

theorem link_up (h2 : 2 ≤ k) : (T.link d k x name).graph.up = T.graph.up := by
  rw [Tree.link, graph_setEnt_up h2, graph_setNlink_up]

theorem link (h : T.Linked N) (hv : T.Vacant d k name) (hnl : 0 < (T d).nlink)
    (hlt : (T x).nlink < 32767) (hx : (T x).type ≠ T_DIR) (hx0 : (T x).type ≠ 0)
    (hxN : 0 < x ∧ x < 65536) : (T.link d k x name).graph.Exact := by
  have hne : d ≠ x := by
    rintro rfl
    exact hx hv.dir
  have hnn := h.exact.nlink_nonneg hx0
  have hshort : toShort ((T x).nlink + 1) = (T x).nlink + 1 :=
    toShort_of_lt (by have : 0 ≤ (T x).nlink := hnn; omega) (by omega)
  have h2 := h.dirs.vacant_ge hv
  refine h.exact.attach (d := d) (k := k) (x := x) hv.dir hnl hx hx0 h2 (cell_vacant hv) ?_ ?_ ?_
    fun y hy => ?_
  · simp [Tree.link]
  · simp only [Tree.link, graph_setEnt_nlink, graph_setNlink_nlink, hshort]
    rfl
  · obtain ⟨htype, hlen, -⟩ := setNlink_rest T x (toShort ((T x).nlink + 1)) d
    show (T.link d k x name).cell = _
    rw [Tree.link, cell_setEnt (htype.trans hv.dir) h2 (hlen ▸ hv.le),
      cell_setNlink fun hd => absurd hd hx]
    simp [Nat.mod_eq_of_lt hxN.2, hxN.1.ne']
    rfl
  · exact congrFun (link_up h2) y

theorem cell_unlinkable (h2 : 2 ≤ k) (hu : Unlinkable T d k x name) : T.cell (d, k) = some x :=
  (Node.cell_of_ge h2).mpr ⟨hu.dir, ⟨hu.first.2.2.1, hu.first.2.2.2.1.1⟩, hu.inum⟩

theorem cell_cleared (h2 : 2 ≤ k) (hu : Unlinkable T d k x name) :
    (T.setEnt d k .cleared).cell = update T.cell (d, k) none := by
  have h0 : Dirent.cleared.inum = 0 := by decide
  rw [cell_setEnt hu.dir h2 (le_of_lt hu.first.2.2.1), h0]
  rfl

theorem unlink_up (h2 : 2 ≤ k) : (T.unlink d k x).graph.up = T.graph.up := by
  unfold Tree.unlink Tree.clear
  split_ifs
  · rw [graph_setNlink_up, graph_setNlink_up, graph_setEnt_up h2]
  · rw [graph_setNlink_up, graph_setEnt_up h2]

theorem unlink_nlink {y : ℕ} (hy : y ≠ x) : (T.unlink d k x y).nlink =
    if y = d ∧ (T x).type = T_DIR then toShort ((T y).nlink - 1) else (T y).nlink := by
  rw [Tree.unlink, setNlink_of_ne hy, Tree.clear, (setEnt_rest T d k _ x).1]
  by_cases ht : (T x).type = T_DIR
  · rw [if_pos ht]
    by_cases hyd : y = d
    · subst hyd
      simp [ht, Node.setEnt]
    · rw [setNlink_of_ne hyd, setEnt_of_ne hyd, if_neg fun h => hyd h.1]
  · rw [if_neg ht, (setEnt_rest T d k _ y).2, if_neg fun h => ht h.2]

theorem empty_cell (hempty : T.Empty x) (j : ℕ) (hj : 2 ≤ j) :
    T.graph.cell (x, j) = none := by
  refine Option.eq_none_iff_forall_ne_some.mpr fun m hm => ?_
  have hlive := ((Node.cell_of_ge hj).mp hm).2.1
  exact hlive.2 (hempty j hj hlive.1)

theorem unlink (h : T.Linked N) (hu : Unlinkable T d k x name) (hne : x ≠ d)
    (hlt : (T x).nlink < 32768) (hlt' : (T d).nlink < 32768) : (T.unlink d k x).graph.Exact := by
  have h2 := h.dirs.unlinkable_ge hu
  have hc : T.graph.cell (d, k) = some x := cell_unlinkable h2 hu
  have hpos := hu.nlink
  have hshort : toShort ((T x).nlink - 1) = (T x).nlink - 1 := toShort_of_lt (by omega) (by omega)
  have htype : (T.setEnt d k .cleared x).type = (T x).type := (setEnt_rest T d k _ x).1
  by_cases hx : (T x).type = T_DIR
  · -- A directory takes its link to the parent along.
    have hempty := empty_cell (hu.empty hx)
    have hx1 : (T x).nlink = 1 := h.exact.nlink_empty h2 hc hx hempty
    have hd2 : 2 ≤ (T d).nlink := h.exact.two_le_nlink hne h2 hc hx
    have hshort' : toShort ((T d).nlink - 1) = (T d).nlink - 1 :=
      toShort_of_lt (by omega) (by omega)
    have heq : T.unlink d k x =
        ((T.setEnt d k .cleared).setNlink d ((T d).nlink - 1)).setNlink x ((T x).nlink - 1) := by
      rw [Tree.unlink, Tree.clear, if_pos (htype.trans hx), hshort, (setEnt_rest T d k _ d).2,
        hshort']
    refine h.exact.detachDir hne h2 hc hx hempty ?_ ?_ ?_ fun y hy => ?_
    · simp [heq]
    · rw [heq]
      simp only [graph_setNlink_nlink, graph_setEnt_nlink]
      exact Function.update_comm hne.symm _ _ _
    · show (T.unlink d k x).cell = _
      have h0 : (T x).nlink - 1 = 0 := by omega
      rw [heq, h0, cell_setNlink_zero, cell_setNlink, cell_cleared h2 hu]
      · exact Function.update_comm (by rintro ⟨⟩; exact hne rfl) _ _ _
      · rw [(setEnt_rest T d k _ d).2]
        omega
    · exact congrFun (unlink_up h2) y
  · have heq : T.unlink d k x = (T.setEnt d k .cleared).setNlink x ((T x).nlink - 1) := by
      rw [Tree.unlink, Tree.clear, if_neg (htype ▸ hx), hshort]
    refine h.exact.detach hx h2 hc ?_ ?_ ?_ fun y hy => ?_
    · simp [heq]
    · rw [heq]
      simp only [graph_setNlink_nlink, graph_setEnt_nlink]
      rfl
    · show (T.unlink d k x).cell = _
      rw [heq, cell_setNlink fun hd => absurd (htype.symm.trans hd) hx, cell_cleared h2 hu]
      rfl
    · exact congrFun (unlink_up h2) y

end Tree.Linked

/-- A call keeps the counts if it enters names only in directories with links. -/
theorem Effect.linked {N : ℕ} {P U : ℕ → Str → Prop} {T T' : Tree} (h : Effect N P U T T')
    (hN : N ≤ 65536) (hT : T.Linked N) (hlt : ∀ n, (T n).type ≠ 0 → (T n).nlink < 32767)
    (hP : ∀ d name, P d name → (T d).nlink ≠ 0) : T'.Linked N := by
  obtain ⟨T1, hc, hf⟩ := h
  refine Tree.Linked.frees ⟨Effect.dirs ⟨T1, hc, .refl⟩ hN hT.dirs, ?_⟩ hf
  have hdir0 : ∀ {d}, (T d).type = T_DIR → (T d).type ≠ 0 := fun hd => by
    rw [hd]
    exact Graph.dir_ne_zero
  have hpos : ∀ {d}, (T d).type = T_DIR → (T d).nlink ≠ 0 → 0 < (T d).nlink := by
    intro d hd hnl
    have : 0 ≤ (T d).nlink := hT.exact.nlink_nonneg (hdir0 hd)
    omega
  cases hc with
  | same => exact hT.exact
  | create d k x name type hname hv hx hx0 hxN ht =>
    have hnl := hpos hv.dir (hP d name hname)
    by_cases hdir : type = T_DIR
    · subst hdir
      have hd := (hT.dirs d).pos hv.dir
      exact hT.create_dir hv hnl (hlt d (hdir0 hv.dir)) hx hx0 (by omega) (by omega) (by omega)
    · exact hT.create_file hv hnl hx hx0 (by omega) ht hdir
  | link d k x name hname hv hx hx0 =>
    have hxN := (hT.dirs x).bound hx0
    exact hT.link hv (hpos hv.dir (hP d name hname)) (hlt x hx0) hx hx0 (by omega)
  | unlink d k x name hU hu hne =>
    have h2 := hT.dirs.unlinkable_ge hu
    have hx0 : (T x).type ≠ 0 := (hT.exact.cited (Tree.Linked.cell_unlinkable h2 hu)).1
    have hx := hlt x hx0
    have hd := hlt d (hdir0 hu.dir)
    exact hT.unlink hu hne (by omega) (by omega)

namespace Tree

/-- A directory that has links, or whose parent is a directory that has links. -/
def Housed (T : Tree) (w : ℕ) : Prop :=
  (T w).type = T_DIR ∧ ((T w).nlink = 0 →
    (T ((T w).ent 1).inum).type = T_DIR ∧ 0 < (T ((T w).ent 1).inum).nlink)

variable {N : ℕ} {T : Tree} {w m n0 : ℕ} {path rest : Str}

theorem Linked.root_housed (h : T.Linked N) : T.Housed ROOTINO :=
  ⟨h.exact.root.1, fun h0 => by
    have : 0 < (T ROOTINO).nlink := h.exact.root.2.1
    omega⟩

theorem Linked.up_linked (h : T.Linked N) (hw : T.Housed w) :
    (T ((T w).ent 1).inum).type = T_DIR ∧ 0 < (T ((T w).ent 1).inum).nlink := by
  by_cases hnl : (T w).nlink = 0
  · exact hw.2 hnl
  · exact h.exact.up_linked hw.1 hnl

theorem Linked.walk (h : T.Linked N) (hn : T.Housed n0) (hw : T.Walk n0 path m rest) :
    m = n0 ∨ (T m).type ≠ 0 ∧ 0 < (T m).nlink := by
  induction hw with
  | start => exact .inl rfl
  | @next d k path name rest _ _ hdir hfirst ih =>
    obtain ⟨-, -, hk, hmatch, -⟩ := hfirst
    have hd := (h.dirs d).isDir hdir
    obtain rfl | rfl | h2 : k = 0 ∨ k = 1 ∨ 2 ≤ k := by omega
    · rw [hd.dot.1]
      exact ih
    · -- `..` of a directory with links, or of the one at the start.
      have hhoused : T.Housed d := by
        rcases ih with rfl | ⟨-, hnl⟩
        · exact hn
        · exact ⟨hdir, fun h0 => by omega⟩
      obtain ⟨ht, hnl⟩ := h.up_linked hhoused
      exact .inr ⟨by rw [ht]; exact Graph.dir_ne_zero, hnl⟩
    · have hc : T.graph.cell (d, k) = some ((T d).ent k).inum :=
        (Node.cell_of_ge h2).mpr ⟨hdir, ⟨hk, hmatch.1⟩, rfl⟩
      obtain ⟨ht, hnl⟩ := h.exact.cited hc
      exact .inr ⟨ht, hnl⟩

theorem Linked.walk_alloc (h : T.Linked N) (hn : T.Housed n0) (hw : T.Walk n0 path m rest) :
    (T m).type ≠ 0 := by
  rcases h.walk hn hw with rfl | ⟨ht, -⟩
  · rw [hn.1]
    exact Graph.dir_ne_zero
  · exact ht

end Tree

end Xv6
