import Xv6.Fs.LinkCounts

namespace Xv6
open Lib Prog

variable {T : Tree} {N : ℕ} {P U : ℕ → Str → Prop} {s : Fs} {p : Pid}

/-- A call changes no `..`, and the directory it leads to keeps a link, unless the call removes
it. -/
theorem Change.parent {T1 : Tree} {u w : ℕ} (h : Change N P U T T1) (hT : T.Linked N)
    (hlt : ∀ n, (T n).type ≠ 0 → (T n).nlink < 32767) (hw : (T w).type = T_DIR)
    (hup : ((T w).ent 1).inum = u) (hu : (T u).type = T_DIR ∧ 0 < (T u).nlink)
    (hU : ∀ d name k, U d name → T.FirstMatch d 0 (T d).len name k → (T w).nlink = 0 → ((T d).ent k).inum ≠ u) :
    (T1 u).type = T_DIR ∧ 0 < (T1 u).nlink ∧ ((T1 w).ent 1).inum = u := by
  have hdir0 : ∀ {d}, (T d).type = T_DIR → (T d).type ≠ 0 := fun hd => by
    rw [hd]
    exact Graph.dir_ne_zero
  refine ⟨(h.type (hdir0 hu.1)).trans hu.1, ?_⟩
  have hshort : toShort ((T u).nlink + 1) = (T u).nlink + 1 := by
    have := hlt u (hdir0 hu.1)
    exact toShort_of_lt (by omega) (by omega)
  cases h with
  | same => exact ⟨hu.2, hup⟩
  | create d k x name type _ hv hx =>
    have h2 := hT.dirs.vacant_ge hv
    have hne : ∀ {y}, (T y).type = T_DIR → y ≠ x := by
      rintro y hy rfl
      exact hdir0 hy hx
    refine ⟨?_, (Tree.Linked.create_up h2 (hne hv.dir).symm (hne hw)).trans hup⟩
    rw [Tree.Linked.create_nlink (hne hv.dir).symm (hne hu.1)]
    split_ifs with hd
    · rw [hshort]
      omega
    · exact hu.2
  | link d k x name _ hv hx =>
    have h2 := hT.dirs.vacant_ge hv
    have hux : u ≠ x := by
      rintro rfl
      exact hx hu.1
    refine ⟨?_, (congrFun (Tree.Linked.link_up h2) w).trans hup⟩
    rw [Tree.link, (Tree.setEnt_rest _ _ _ _ u).2, Tree.setNlink_of_ne hux]
    exact hu.2
  | unlink d k x name hname hunl hne =>
    have h2 := hT.dirs.unlinkable_ge hunl
    have hc : T.graph.cell (d, k) = some x := Tree.Linked.cell_unlinkable h2 hunl
    -- The inode that is removed is not `u`: it has no child `w` that has links.
    have hux : u ≠ x := by
      rintro rfl
      by_cases hnl : (T w).nlink = 0
      · exact hU d name k hname hunl.first hnl hunl.inum
      · by_cases hroot : w = ROOTINO
        · subst hroot
          have : ROOTINO = u := hT.exact.root.2.2.symm.trans hup
          exact (hT.exact.parent d k u h2 hc hu.1).1 this.symm
        · obtain ⟨j, hj, hcj⟩ := hT.exact.named w hw hnl hroot
          have hcj' : T.graph.cell (u, j) = some w := hup ▸ hcj
          rw [Tree.Linked.empty_cell (hunl.empty hu.1) j hj] at hcj'
          cases hcj'
    refine ⟨?_, (congrFun (Tree.Linked.unlink_up h2) w).trans hup⟩
    rw [Tree.Linked.unlink_nlink hux]
    split_ifs with hd
    · obtain ⟨rfl, hx⟩ := hd
      have htwo : 2 ≤ (T u).nlink := hT.exact.two_le_nlink hne h2 hc hx
      have := hlt u (hdir0 hu.1)
      rw [toShort_of_lt (by omega) (by omega)]
      omega
    · exact hu.2

/-- One can still start from a directory that is not freed, unless the call removes its parent. -/
theorem Effect.housed {T' : Tree} {w : ℕ} (h : Effect N P U T T') (hT : T.Linked N)
    (hlt : ∀ n, (T n).type ≠ 0 → (T n).nlink < 32767) (hw : T.Housed w)
    (hU : ∀ d name k, U d name → T.FirstMatch d 0 (T d).len name k → (T w).nlink = 0 → ((T d).ent k).inum ≠ ((T w).ent 1).inum)
    (hw' : (T' w).type ≠ 0) : T'.Housed w := by
  have hdir := (h.type (by rw [hw.1]; exact Graph.dir_ne_zero) hw').trans hw.1
  obtain ⟨T1, hc, hf⟩ := h
  obtain ⟨h1, h2, h3⟩ := hc.parent hT hlt hw.1 rfl (hT.up_linked hw) hU
  refine ⟨hdir, fun _ => ?_⟩
  rw [(hf.eq_or_free w).resolve_right hw', h3, hf.eq_of_nlink (by omega)]
  exact ⟨h1, h2⟩

/-- The call does not remove the parent of a current directory that has been removed. -/
def Fs.KeepsParents (s : Fs) (p : Pid) (a : Action) : Prop :=
  ∀ d name k, s.removes p a d name → (tree s).FirstMatch d 0 (tree s d).len name k →
    ∀ q i, s.cwd q = some i → (tree s (s.inode i).inum).nlink = 0 →
      ((tree s d).ent k).inum ≠ ((tree s (s.inode i).inum).ent 1).inum

/-- The inode of a current directory has been read, except for the root, and a walk can start
there. -/
def Fs.CwdOk (s : Fs) : Prop :=
  ∀ q i, s.cwd q = some i →
    ((s.inode i).valid = true ∨ (s.inode i).inum = ROOTINO) ∧ (tree s).Housed (s.inode i).inum

theorem Fs.CwdOk.housed_start (h : s.CwdOk) (hl : (tree s).Linked N) {path : Str} {n : ℕ}
    (hn : n ∈ s.startOf p path) : (tree s).Housed n := by
  unfold Fs.startOf at hn
  split_ifs at hn
  · rw [Option.mem_some] at hn
    exact hn ▸ hl.root_housed
  · obtain ⟨i, hi, rfl⟩ := Option.map_eq_some_iff.mp hn
    exact (h p i hi).2

theorem Acts.cwdOk {t : Fs} {a : Action} (h : Acts s p a t) (hs : Settled s)
    (hl : (tree s).Linked s.sb.ninodes) (hlt : ∀ n, (tree s n).type ≠ 0 → (tree s n).nlink < 32767)
    (hcwd : s.CwdOk) (hl' : (tree t).Linked t.sb.ninodes) (hkeep : s.KeepsParents p a) :
    t.CwdOk := by
  intro q i hi
  have hpos' := h.settled.cwd_pos hi
  rcases h.cwd q i hi with ⟨q', hq'⟩ | ⟨path, n, rest, rfl, hip, hwalk, hdir⟩
  · obtain ⟨hvalid, hhoused⟩ := hcwd q' i hq'
    obtain ⟨hinum, hval⟩ := h.persist i (hs.cwd_pos hq') hpos'
    rw [hinum]
    refine ⟨hvalid.imp_left hval, ?_⟩
    rcases hvalid with hv | hroot
    · refine h.effect.housed hl hlt hhoused (fun d name k hU hfirst h0 => ?_) ?_
      · exact hkeep d name k hU hfirst q' i hq' h0
      · have := (h.settled.sane.copy i hpos' (hval hv)).2
        rwa [hinum] at this
    · rw [hroot]
      exact hl'.root_housed
  · have hn : (t.inode i).inum = n := hip.1.2
    rw [hn]
    refine ⟨.inl hip.2, ?_⟩
    refine h.effect.housed hl hlt ?_ (fun _ _ _ hU => absurd hU id) ?_
    · obtain ⟨x, -, n0, hn0, hw⟩ := hwalk
      have hstart := hcwd.housed_start hl hn0
      rcases hl.walk hstart hw with rfl | ⟨-, hnl⟩
      · exact hstart
      · exact ⟨hdir, fun h0 => by omega⟩
    · have := (h.settled.sane.copy i hip.1.1 hip.2).2
      rwa [hn] at this

theorem Runs.cwdOk {C : Fs → Pid → Action → Prop} {s t : Shared Fs Slot Pid} (h : Runs C s t)
    (hC : ∀ s p a, C s p a → s.EntersLinked p a ∧ s.KeepsParents p a) (hs : Settled s.st)
    (hsb : s.st.sb = mkfsSb) (hl : (tree s.st).Linked s.st.sb.ninodes) (hcwd : s.st.CwdOk) :
    t.st.CwdOk := by
  induction h with
  | start => exact hcwd
  | @call t u p a r hr hen hc hrun ih =>
    obtain ⟨ht, hsbt, hlt⟩ := hr.linked (fun s p a hc => (hC s p a hc).1) hs hsb hl
    obtain ⟨hu, hsbu, hlu⟩ :=
      (hr.call hen hc hrun).linked (fun s p a hc => (hC s p a hc).1) hs hsb hl
    have hact := (does_action (p := p) (E := fun _ => True) (fun _ _ _ => trivial) ht a hen
      (fun _ _ => .inr trivial) fun d k x name hu => hlt.dirs.unlinkable_ne hu).run hrun
    exact hact.cwdOk ht hlt (hlt.nlink_lt ht.sane.toWellFormed hsbt) ih hlu (hC _ _ _ hc).2

theorem Fresh.cwdOk (h : Fresh s) : s.CwdOk := by
  intro q i hi
  have hroot := h.cwd q i hi
  rw [hroot]
  exact ⟨.inr rfl, h.linked.root_housed⟩

/-- `namex` and the `ilock` of its caller. -/
def lookup (p : Pid) (path : Str) (nameiparent : Bool) : FsM Unit := do
  let r ← namex p path nameiparent
  match r with
  | none => return ()
  | some (ip, _) => ilock ip

theorem does_lookup {E : String → Prop} {path : Str} (hE : Tolerates E) (hs : Settled s)
    (hno : s.Passable p E (some path)) (nameiparent : Bool) :
    Does p E (lookup p path nameiparent) s fun _ _ => True := by
  refine (does_namex hE hs.anchored.closed hs.sane (route_walks hno) (.refl hs.sane) (.refl s)
    (hs.startsIn rfl (.refl hs.sane) fun _ => le_rfl) nameiparent).bind ?_
  intro r t ht
  match r with
  | none => exact .ret trivial
  | some (ip, name) =>
    obtain ⟨hI, hm, n, rest, hip, hwalk, -⟩ := ht
    exact (does_ilock_walked hE hno hm hI hip hwalk).mono fun _ _ _ => trivial

theorem Tree.Linked.passable (hl : (tree s).Linked s.sb.ninodes) (hcwd : s.CwdOk)
    {path : Option Str} {n : ℕ} {rest : Str} (h : s.walks p path n rest) : (tree s n).type ≠ 0 := by
  obtain ⟨x, -, n0, hn0, hw⟩ := h
  exact hl.walk_alloc (hcwd.housed_start hl hn0) hw

/-- Every inode that a lookup locks is allocated, after any completed calls of which none enters a
name in a directory without links and none removes the parent of a removed current directory. -/
theorem lookups_meet_allocated {s t : Shared Fs Slot Pid} (hs : Fresh s.st)
    (h : Runs (fun s p a => s.EntersLinked p a ∧ s.KeepsParents p a) s t) :
    (∀ p path n rest, t.st.walks p path n rest → (t.st.dinode n).type ≠ 0) ∧
    (∀ p path nameiparent, (lookup p path nameiparent).run p t ≠ .panic noType) ∧
    ∀ p (a : Action), a.Enabled t.st → (a.prog p).run p t ≠ .panic noType := by
  obtain ⟨ht, -, hl⟩ := h.linked (fun _ _ _ hc => hc.1) hs.settled hs.sb hs.linked
  have hcwd := h.cwdOk (fun _ _ _ hc => hc) hs.settled hs.sb hs.linked hs.cwdOk
  have hpass : ∀ p path, t.st.Passable p (· ≠ noType) path :=
    fun p path => .inl fun n rest hw => hl.passable hcwd hw
  have hE : Tolerates (· ≠ noType) := fun _ _ hm => hm
  refine ⟨fun p path n rest hw => hl.passable hcwd hw, fun p path par => ?_, fun p a hen => ?_⟩
  · exact (does_lookup hE ht (hpass p (some path)) par).no_panic (not_not.mpr rfl)
  · exact (does_action hE ht a hen (fun path _ => hpass p path)
      fun d k x name hu => hl.dirs.unlinkable_ne hu).no_panic (not_not.mpr rfl)

/-- The parent of the removed working directory is removed as well. -/
def strandCalls : List Action :=
  [.mkdir (some [slash, 97]), .mkdir (some [slash, 97, slash, 98]),
    .chdir (some [slash, 97, slash, 98]), .unlink (some [slash, 97, slash, 98]),
    .unlink (some [slash, 97])]

def stranded : Shared Fs Slot Pid :=
  (follow initproc strandCalls (started fun _ => none)).get (by decide +kernel)

theorem stranded_runs : Runs (fun _ _ _ => True) (started fun _ => none) stranded :=
  Runs.start.follow (l := strandCalls) (by simp [strandCalls, Action.Enabled])
    (Option.some_get _).symm

theorem lookups_stranded : ¬ ∀ s t : Shared Fs Slot Pid, Fresh s.st →
    Runs (fun _ _ _ => True) s t →
      (∀ p path n rest, t.st.walks p path n rest → (t.st.dinode n).type ≠ 0) ∧
      (∀ p path nameiparent, (lookup p path nameiparent).run p t ≠ .panic noType) ∧
      ∀ p (a : Action), a.Enabled t.st → (a.prog p).run p t ≠ .panic noType := by
  intro h
  refine (h _ _ (boot_fresh fun _ => none) stranded_runs).2.1 initproc dotdot false ?_
  apply Outcome.eq_panic
  decide +kernel

theorem lookups_meet_allocated_mkdirD :
    (lookup initproc [slash, 100] false).run initproc afterMkdirD ≠ .panic noType := by
  refine (lookups_meet_allocated (s := started fun _ => none) (t := afterMkdirD)
    (boot_fresh fun _ => none) ?_).2.1 initproc [slash, 100] false
  exact .call .start (p := initproc) (a := mkdirD) trivial
    ⟨mkdirD_entersLinked, fun _ _ _ hU => absurd hU id⟩ (Outcome.eq_done (by decide +kernel))

end Xv6
