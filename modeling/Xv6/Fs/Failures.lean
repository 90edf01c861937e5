import Xv6.Fs.Alone
import Xv6.Fs.Dirs

namespace Xv6
open Lib Prog

/-- The calls that should either be done or change nothing. -/
def Action.AllOrNothing : Action → Prop
  | .open .. | .mkdir .. | .mknod .. | .link .. | .unlink .. | .chdir .. | .dup .. | .pipe .. => True
  | _ => False

/-- The call makes a new file before it takes a `struct file` and a descriptor. -/
def Fs.makesFile (s : Fs) (p : Pid) : Action → Prop
  | .open path omode => s.creates p path omode
  | _ => False

theorem Answers.unchanged {P U : ℕ → Str → Prop} {s t : Fs} {r : ℤ} (h : Answers P U s r t)
    (hr : r = err) : Unchanged s t := by
  subst hr
  rcases h with ⟨-, hm, hd⟩ | ⟨h0, -⟩
  · exact Quiet.unchanged ⟨hm, hd⟩
  · cases h0

theorem does_failed {p : Pid} {E : String → Prop} {s : Fs} (hE : Tolerates E) (hs : Settled s)
    {a : Action} (ha : a.AllOrNothing) (hroom : s.makesFile p a → s.HasRoom p)
    (hno : ∀ path ∈ a.paths, s.Passable p E path)
    (hne : ∀ d k x name, Unlinkable (tree s) d k x name → x ≠ d) :
    Does p E (a.prog p) s fun r t => r = err → Unchanged s t := by
  cases a with
  | «open» path omode =>
    refine (does_sysOpen (U := fun _ _ => False) hE hs (hno path (by simp [Action.paths]))).mono ?_
    intro r t h hr
    rcases h.failed hr with h | ⟨hcreate, hfull⟩
    · exact h
    · exact absurd (hroom hcreate) hfull
  | link old new =>
    exact (does_sysLink (U := fun _ _ => False) hE hs (hno old (by simp [Action.paths]))
      (hno new (by simp [Action.paths]))).mono fun _ _ h => h.unchanged
  | unlink path =>
    exact (does_unlink (P := fun _ _ => False) hE hs (hno path (by simp [Action.paths])) hne).mono
      fun _ _ h => h.unchanged
  | mkdir path =>
    exact (does_makeNode (U := fun _ _ => False) hE hs (hno path (by simp [Action.paths]))
      (by decide)).mono fun _ _ h => h.unchanged
  | mknod path major minor =>
    exact (does_sysMknod (U := fun _ _ => False) hE hs (hno path (by simp [Action.paths])) major
      minor).mono fun _ _ h => h.unchanged
  | chdir path =>
    refine (does_sysChdir (P := fun _ _ => False) (U := fun _ _ => False) hE hs
      (hno path (by simp [Action.paths]))).mono ?_
    rintro r t (⟨-, h⟩ | ⟨h0, -⟩) hr
    · exact h.unchanged
    · rw [h0] at hr
      cases hr
  | dup fd => exact (does_sysDup hE hs fd).mono fun _ _ h => h.2
  | pipe buf => exact (does_sysPipe hs buf).mono fun _ _ h => h.2
  | _ => exact absurd ha id

section NewFile

variable {p : Pid} {path last name : Str} {d omode : ℕ}

theorem finishes_create_new {s : Shared Fs Slot Pid} (hs : Settled s.st)
    (hlock : ∀ i, s.owner i = none) (hd : s.st.Exists p true path d last)
    (hlast : skipelem last = some (name, []))
    (hnew : ∀ j, j < (tree s.st d).len → ¬ (tree s.st).Matches d j name) :
    Finishes p (fun _ => True) (create p path T_FILE 0 0) s fun r t => ∃ ip x, r = some ip ∧
      (tree s.st x).type = 0 ∧ Refers t.st ip x ∧ (tree t.st x).type = T_FILE ∧
        (tree t.st x).nlink ≠ 0 := by
  have hdir : (tree s.st d).type = T_DIR := hd.2.2
  apply (finishes_namex hs.sane hs.anchored (fun _ hi => hs.cwd_pos hi) (fun _ => trivial) hd
    hlock).bind
  rintro _ t ⟨-, hstay, dp, name', rfl, hj, hname⟩
  obtain rfl : name = name' := by
    have := hname rfl
    rw [hlast] at this
    cases this
    rfl
  have halloc : (t.st.dinode d).type ≠ 0 := by
    rw [hj.disk.dinode]
    exact hdir.trans_ne (by decide)
  apply (Finishes.of_does (does_ilock (E := fun _ => True) tolerates_true hj.moves.sane hj.refers.2
    (.inl halloc))).bind
  rintro _ u ⟨hmu, hl, hdu, -⟩
  have htree : tree u.st = tree s.st := (hj.disk.trans hdu).tree
  apply (Finishes.of_does (does_dirlookup (E := fun _ => True) (fun _ _ => trivial)
    (.inl fun _ _ => trivial) hmu.sane hl name)).bind
  rintro r v ⟨hdiru, hr⟩
  cases r with
  | some e =>
    obtain ⟨-, -, k, -, hfirst, -⟩ := hr
    rw [htree] at hfirst
    exact absurd hfirst.2.2.2.1 (hnew k hfirst.2.2.1)
  | none =>
    obtain ⟨hvu, -⟩ := hr
    have hm1 := hj.moves.then_same hmu
    rw [← hvu] at hm1 hl htree hdiru
    have hmade : Does p (fun _ => True) (createAt dp name T_FILE 0 0) v.st _ :=
      does_createAt tolerates_true hm1 hl hdiru (by rwa [htree]) (by decide)
        (by rw [hm1.sb]; exact hs.ninodes)
    apply (Finishes.of_does hmade).bind
    rintro ip w ⟨-, x, hip, htype, k, -, hfree, -, -, hdrop⟩
    rw [htree] at hfree hdrop
    have hne : x ≠ d := by
      rintro rfl
      rw [hdir] at hfree
      cases hfree
    refine .ret ⟨ip, x, rfl, hfree, hip.1, htype, ?_⟩
    rw [hdrop.of_ne hne, Tree.create_file_nlink hne]
    decide

theorem does_openLocked_err {E : String → Prop} {s : Fs} (hE : Tolerates E) (hs : Sane s)
    (ha : Anchored s) (hfree : Balance.FreeFiles s.file) {ip : Slot} {x : ℕ}
    (hip : Refers s ip x) : Does p E (openLocked p ip omode) s fun r t =>
      r = err → (tree s).Frees (tree t) := by
  refine (does_openFile (.start s) hfree).bind fun r t ht => ?_
  cases r with
  | none =>
    have hcl := ht.1.toSameCore.closes hs ha
    refine (does_openFail hE hcl.sane hcl.anchored (ht.1.refers hip)).mono ?_
    rintro _ u ⟨hu, -⟩ -
    exact hcl.frees.trans hu.frees
  | some y =>
    have hcl := ht.2.toSameCore.closes hs ha
    refine (does_iunlock hE).bind ?_
    rintro _ _ rfl
    refine (does_endOp hE hcl.sane).bind fun _ u _ => ?_
    refine .bind (Q := fun _ _ => True) (.modify trivial) fun _ v _ => .ret fun h => ?_
    have hneg : ((y.2 : ℕ) : ℤ) = -1 := h
    omega

theorem finishes_sysOpen_new {s : Shared Fs Slot Pid} {path : Option Str} {omode : Option ℕ}
    (hs : Settled s.st) (hlock : ∀ i, s.owner i = none) (hc : s.st.creates p path omode) :
    Finishes p (fun _ => True) (sysOpen p path omode) s fun r t =>
      r = err → ∃ x, (tree s.st x).type = 0 ∧ (tree t.st x).type = T_FILE := by
  obtain ⟨⟨m, hm, hcreate⟩, d, name, ⟨last, ⟨x, hx, n, hn, hwalk⟩, hlast, hdir⟩, hnew⟩ := hc
  obtain rfl : omode = some m := hm
  obtain rfl : path = some x := hx
  apply (Finishes.atomic_owner.does (does_beginOp (E := fun _ => True) hs.sane)).bind
  rintro _ t ⟨howner, hmt, hdt⟩
  have hst := (Quiet.keeps ⟨hmt, hdt⟩).settled hs
  have hexists : t.st.Exists p true x d last := by
    refine ⟨⟨x, rfl, n, ?_, hdt.tree ▸ hwalk⟩, ⟨name, hlast⟩, hdt.tree ▸ hdir⟩
    rw [startOf_of_moves (fun _ hi => hs.cwd_pos hi) hmt fun _ => le_rfl]
    exact hn
  rw [openInode, if_pos hcreate]
  have hcreates := finishes_create_new hst (fun i => by rw [howner]; exact hlock i) hexists hlast
    (by rwa [hdt.tree])
  apply (hcreates.does (does_create (E := fun _ => True) tolerates_true hst.sane hst.anchored
    (route_walks (show t.st.Passable p _ (some x) from .inr trivial)) (.refl hst.sane) (.refl _)
    (hst.startsIn rfl (.refl hst.sane) fun _ => le_rfl) (by decide) hst.ninodes)).bind
  rintro _ u ⟨⟨ip, x, rfl, hfree, hip, htype, hnl⟩, hu⟩
  have hend := hu.ends (P := fun _ _ => True) (U := fun _ _ => False) hst (by decide)
    fun _ _ _ _ _ _ => trivial
  refine (Finishes.of_does (does_openLocked_err (E := fun _ => True) tolerates_true hend.sane
    hend.anchored ?_ hip)).mono ?_
  · rw [hu.1.file]
    exact hst.free
  · intro r v hv hr
    refine ⟨x, hdt.tree ▸ hfree, ?_⟩
    rw [(hv hr).eq_of_nlink hnl, htype]

end NewFile

/-- A call that returns -1 in a state that completed calls lead to changes nothing, if and only if
it is not an `open` that made a new file and then found a table full. -/
theorem failed_calls_change_nothing {s t u : Shared Fs Slot Pid} {p : Pid} {a : Action}
    (hs : Fresh s.st) (h : Runs (fun _ _ _ => True) s t) (hlock : ∀ i, t.owner i = none)
    (ha : a.AllOrNothing) (hrun : (a.prog p).run p t = .done err u) :
    Unchanged t.st u.st ↔ (t.st.makesFile p a → t.st.HasRoom p) := by
  obtain ⟨ht, hd⟩ := h.dirs hs.settled hs.dirs
  constructor
  · intro hsame hmakes
    cases a with
    | «open» path omode =>
      obtain ⟨x, h0, hfile⟩ := (finishes_sysOpen_new ht hlock hmakes).of_done hrun rfl
      rw [hsame.disk.tree, h0] at hfile
      cases hfile
    | _ => exact absurd hmakes id
  · intro hroom
    exact (does_failed (p := p) (E := fun _ => True) (fun _ _ _ => trivial) ht ha hroom
      (fun _ _ => .inr trivial) fun d k x name hu => hd.unlinkable_ne hu).run hrun rfl

/-- The root directory is opened until the process has no descriptor left. -/
def fillCalls : List Action := List.replicate NOFILE (.open (some [slash]) (some 0))

def filled : Shared Fs Slot Pid :=
  (follow initproc fillCalls (started fun _ => none)).get (by decide +kernel)

theorem filled_runs : Runs (fun _ _ _ => True) (started fun _ => none) filled :=
  Runs.start.follow (l := fillCalls) (by simp [fillCalls, Action.Enabled]) (Option.some_get _).symm

def openF : Action := .open (some [slash, 102]) (some 0x202)

def afterOpenF : Shared Fs Slot Pid :=
  (((openF.prog initproc).run initproc filled).result.get (by decide +kernel)).2

theorem failed_open_creates : ¬ ∀ (s t u : Shared Fs Slot Pid) (p : Pid) (a : Action),
    Fresh s.st → Runs (fun _ _ _ => True) s t → a.AllOrNothing →
      (a.prog p).run p t = .done err u → Unchanged t.st u.st := by
  intro h
  have hrun : (openF.prog initproc).run initproc filled = .done err afterOpenF :=
    Outcome.eq_done_of_fst _ (by decide +kernel)
  have hsame := h _ _ _ initproc openF (boot_fresh fun _ => none) filled_runs trivial hrun
  have htype : (afterOpenF.st.dinode 2).type = (filled.st.dinode 2).type := by
    rw [hsame.disk.dinode]
  revert htype
  decide +kernel

/-- `link("/f", "/d/g")` fails when the link has been counted, since there is no `/d`. -/
def linkF : Action := .link (some [slash, 102]) (some [slash, 100, slash, 103])

def created : Shared Fs Slot Pid :=
  (follow initproc [openF] (started fun _ => none)).get (by decide +kernel)

def afterLinkF : Shared Fs Slot Pid :=
  (((linkF.prog initproc).run initproc created).result.get (by decide +kernel)).2

theorem failed_link_changes_nothing : Unchanged created.st afterLinkF.st := by
  have hruns : Runs (fun _ _ _ => True) (started fun _ => none) created :=
    Runs.start.follow (l := [openF]) (by simp [openF, Action.Enabled]) (Option.some_get _).symm
  have hrun : (linkF.prog initproc).run initproc created = .done err afterLinkF :=
    Outcome.eq_done_of_fst _ (by decide +kernel)
  have hiff := failed_calls_change_nothing (boot_fresh fun _ => none) hruns (by decide +kernel)
    (a := linkF) trivial hrun
  exact hiff.mpr False.elim

end Xv6
