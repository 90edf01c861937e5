import Xv6.Fs.Calls

namespace Xv6
open Lib Prog Function

/-- The file is open for the same inode as before, or for no inode before and after. -/
structure File.Alike (x y : File) : Prop where
  type : y.type = .fdInode ↔ x.type = .fdInode
  ip : x.type = .fdInode → y.ip = x.ip ∧ y.writable = x.writable ∧ (0 < y.ref ↔ 0 < x.ref)
  free : (x.ref = 0 → x.type = .fdNone) → y.ref = 0 → y.type = .fdNone

/-- The tree, the references and the current directories are the same, and no inode is opened or
closed. -/
structure Keeps (s t : Fs) : Prop where
  sane : Sane t
  sb : t.sb = s.sb
  refs : refs t = refs s
  persist : Persist s t
  tree : tree t = tree s
  cwd : t.cwd = s.cwd
  files : ∀ f, (s.file f).Alike (t.file f)

theorem File.Alike.refl (x : File) : x.Alike x := ⟨Iff.rfl, fun _ => ⟨rfl, rfl, Iff.rfl⟩, id⟩

theorem File.Alike.trans {x y z : File} (h : x.Alike y) (h' : y.Alike z) : x.Alike z where
  type := h'.type.trans h.type
  ip hx := by
    obtain ⟨h1, h2, h3⟩ := h.ip hx
    obtain ⟨k1, k2, k3⟩ := h'.ip (h.type.mpr hx)
    exact ⟨k1.trans h1, k2.trans h2, k3.trans h3⟩
  free hx := h'.free (h.free hx)

namespace Keeps

variable {s t u : Fs} {p : Pid} {E : String → Prop} {ip : Slot} {n : ℕ} {f : Fin NFILE}

variable {P U : ℕ → Str → Prop}

theorem refl (hs : Sane s) : Keeps s s :=
  ⟨hs, rfl, rfl, fun _ _ _ => ⟨rfl, id⟩, rfl, rfl, fun _ => .refl _⟩

theorem trans (h : Keeps s t) (h' : Keeps t u) : Keeps s u where
  sane := h'.sane
  sb := h'.sb.trans h.sb
  refs := h'.refs.trans h.refs
  persist := h.persist.trans h'.persist fun j hj _ => by rwa [h.refs]
  tree := h'.tree.trans h.tree
  cwd := h'.cwd.trans h.cwd
  files f := (h.files f).trans (h'.files f)

theorem of_moves (hm : Moves (Xv6.refs s) s t) (ht : Xv6.tree t = Xv6.tree s) : Keeps s t where
  sane := hm.sane
  sb := hm.sb
  refs := hm.refs
  persist := hm.persist
  tree := ht
  cwd := cwd_of_proc hm.proc
  files f := by
    rw [hm.file]
    exact .refl _

theorem of_core (hs : Sane s) (h : SameCore s t) (hcwd : t.cwd = s.cwd)
    (hf : ∀ f, (s.file f).Alike (t.file f)) : Keeps s t := by
  have hm : Moves (Xv6.refs s) s { t with proc := s.proc, file := s.file } :=
    moves_congr hs h.sb h.dinode h.bitmap h.block h.inode rfl rfl
  exact ⟨⟨hm.sane.toWellFormed.congr rfl rfl rfl rfl,
    hm.sane.nonneg, hm.sane.dev, hm.sane.uniq, hm.sane.copy⟩, h.sb, hm.refs, hm.persist,
    SameDisk.tree ⟨h.dinode, h.block, h.bitmap⟩, hcwd, hf⟩

theorem setFile (hs : Sane s) {f : Fin NFILE} {x : File} (hx : (s.file f).Alike x) :
    Keeps s (s.setFile f x) := by
  refine .of_core hs (t := s.setFile f x) ⟨rfl, rfl, rfl, rfl, rfl⟩ rfl fun g => ?_
  by_cases hg : g = f
  · subst hg
    simpa using hx
  · simpa [hg] using File.Alike.refl _

theorem setOfile (hs : Sane s) (q : Pid) (o : Fin NOFILE → Option (Fin NFILE)) :
    Keeps s (s.setProc q { s.proc q with ofile := o }) := by
  refine .of_core hs (t := s.setProc q { s.proc q with ofile := o }) ⟨rfl, rfl, rfl, rfl, rfl⟩ ?_
    fun _ => .refl _
  funext q'
  by_cases hq : q' = q
  · subst hq
    simp [Fs.cwd]
  · simp [Fs.cwd, hq]

theorem closes (h : Keeps s t) (ha : Anchored s) : Closes s t where
  sane := h.sane
  sb := h.sb
  persist := h.persist
  anchored := by
    intro n h1 h2
    rw [h.tree] at h1 h2
    obtain ⟨i, hi⟩ := ha n h1 h2
    exact ⟨i, h.persist.loaded hi (by rw [h.refs]; exact hi.1.1)⟩
  frees := h.tree ▸ .refl
  refs_le j := le_of_eq (congrFun h.refs j)

theorem keepsFiles (h : Keeps s t) : KeepsFiles s t := by
  intro f hf
  have hx := (h.files f).type.mp hf
  obtain ⟨h1, h2, h3⟩ := (h.files f).ip hx
  exact ⟨hx, h1, h2, h3.mpr⟩

theorem done (h : Keeps s t) (ha : Anchored s) : Done P U s t :=
  ⟨(h.closes ha).ends, h.cwd, h.keepsFiles⟩

theorem settled (h : Keeps s t) (hs : Settled s) : Settled t := by
  have hend : Ended (fun _ _ => False) (fun _ _ => False) s t := (h.closes hs.anchored).ends
  refine hs.after hend (fun i => ?_) ?_ fun f hf => .inl (h.keepsFiles f hf)
  · have hopen : count (Balance.opensInode i) t.file = count (Balance.opensInode i) s.file := by
      refine count_congr fun f => ?_
      have := h.files f
      simp only [Balance.opensInode, decide_eq_decide]
      constructor
      · rintro ⟨h1, h2, h3⟩
        have hx := this.type.mp h2
        obtain ⟨k1, -, k3⟩ := this.ip hx
        exact ⟨k3.mp h1, hx, k1 ▸ h3⟩
      · rintro ⟨h1, h2, h3⟩
        obtain ⟨k1, -, k3⟩ := this.ip h2
        exact ⟨k3.mpr h1, this.type.mpr h2, k1.trans h3⟩
    have hcwd : count (Balance.isCwd i) t.proc = count (Balance.isCwd i) s.proc := by
      refine count_congr fun q => ?_
      have hq : (t.proc q).cwd = (s.proc q).cwd := congrFun h.cwd q
      simp only [Balance.isCwd, hq]
    rw [h.refs, hopen, hcwd]
    exact hs.balanced i
  · intro f hf
    exact (h.files f).free (hs.free f) hf

end Keeps

section Use

theorem does_argfd (fd : Option ℤ) : Does p E (argfd p fd) s fun _ t => t = s := by
  unfold argfd
  split
  · exact .ret rfl
  · split_ifs
    · exact .bind_read (.ret rfl)
    · exact .ret rfl

theorem does_advance (hs : Sane s) (r : ℕ) :
    Does p E (advance f r) s fun _ t => Keeps s t :=
  .when (fun _ => .modify (.setFile hs ⟨Iff.rfl, fun _ => ⟨rfl, rfl, Iff.rfl⟩, id⟩))
    fun _ => .refl hs

theorem Keeps.loaded (h : Keeps s t) (hip : Loaded s ip n) : Loaded t ip n :=
  h.persist.loaded hip (by rw [h.refs]; exact hip.1.1)

section

variable (hE : Tolerates E)
include hE

theorem does_lockFile (hs : Sane s) (hip : Loaded s ip n) :
    Does p E (ilock ip) s fun _ t => Keeps s t ∧ Loaded t ip n := by
  refine (does_relock hE hs hip).mono ?_
  rintro _ t ⟨hm, hd⟩
  have ht := Keeps.of_moves hm hd.tree
  exact ⟨ht, ht.loaded hip⟩

section

variable (hs : Settled s)
include hs

theorem does_fileread (m : ℕ) :
    Does p E (fileread f m) s fun _ t => Keeps s t := by
  unfold fileread
  refine .bind_read ?_
  split_ifs
  · exact .ret (.refl hs.sane)
  · cases htype : (s.file f).type with
    | fdPipe =>
      refine .bind (Q := fun _ t => Keeps s t) (.atomic ?_) fun _ _ h => .ret h
      exact .of_moves (moves_congr hs.sane rfl rfl rfl rfl rfl rfl rfl) rfl
    | fdNone => exact .panic (hE _ (by decide) (by decide))
    | fdInode =>
      obtain ⟨-, n, hip, -⟩ := hs.files f htype
      refine (does_lockFile hE hs.sane hip).bind ?_
      rintro _ t ⟨ht, hipt⟩
      refine .bind_read ?_
      refine (does_readi hE ht.sane hipt _ m).bind ?_
      rintro r u ⟨hm, hd⟩
      have hu := ht.trans (.of_moves hm hd.tree)
      refine (does_advance hu.sane _).bind fun _ v hv => ?_
      refine (does_iunlock hE).bind ?_
      rintro _ _ rfl
      exact .ret (hu.trans hv)

theorem does_filestat :
    Does p E (filestat f) s fun _ t => Keeps s t := by
  unfold filestat
  refine .bind_read ?_
  cases htype : (s.file f).type with
  | fdPipe | fdNone => exact .ret (.refl hs.sane)
  | fdInode =>
    obtain ⟨-, n, hip, -⟩ := hs.files f htype
    refine (does_lockFile hE hs.sane hip).bind ?_
    rintro _ t ⟨ht, -⟩
    refine .bind_read ?_
    refine (does_iunlock hE).bind ?_
    rintro _ _ rfl
    exact .ret ht

theorem does_filewriteLoop (hip : Loaded s ip n)
    (hdir : (tree s n).type ≠ T_DIR) (k : ℕ) (src : List UInt8) :
    Does p E (filewriteLoop f ip k src) s fun _ t => Keeps s t := by
  induction k generalizing s src with
  | zero => exact .ret (.refl hs.sane)
  | succ k ih =>
    unfold filewriteLoop
    split_ifs
    · exact .ret (.refl hs.sane)
    · refine (does_beginOp hs.sane).bind ?_
      rintro _ t ⟨hmt, hdt⟩
      have ht := Keeps.of_moves hmt hdt.tree
      refine (does_lockFile hE ht.sane (ht.loaded hip)).bind ?_
      rintro _ u ⟨hu, hipu⟩
      have htu := ht.trans hu
      refine .bind_read ?_
      refine (does_writei hE hu.sane hipu _ _).bind ?_
      rintro r v ⟨hmv, hv⟩
      have htree : tree v = tree u := by
        rcases hv with hd | hw
        · exact hd.tree
        · refine hw.tree_eq ?_
          rw [← htu.tree] at hdir
          exact hdir
      have hv := htu.trans (.of_moves hmv htree)
      refine (does_advance hv.sane _).bind fun _ w hw => ?_
      refine (does_iunlock hE).bind ?_
      rintro _ _ rfl
      refine (does_endOp hE hw.sane).bind ?_
      rintro _ x ⟨hmx, hdx⟩
      have hw := (hv.trans hw).trans (.of_moves hmx hdx.tree)
      split_ifs
      · exact .ret hw
      · exact .panic (hE _ (by decide) (by decide))
      · refine (ih (hw.settled hs) (hw.loaded hip) ?_ _).mono fun _ x hx => hw.trans hx
        rw [hw.tree]
        exact hdir

theorem does_filewrite (src : List UInt8) :
    Does p E (filewrite f src) s fun _ t => Keeps s t := by
  unfold filewrite
  refine .bind_read ?_
  split_ifs with hw
  · exact .ret (.refl hs.sane)
  · cases htype : (s.file f).type with
    | fdPipe =>
      refine .bind (Q := fun _ t => Keeps s t) (.atomic ?_) fun _ _ h => .ret h
      exact .of_moves (moves_congr hs.sane rfl rfl rfl rfl rfl rfl rfl) rfl
    | fdNone => exact .panic (hE _ (by decide) (by decide))
    | fdInode =>
      obtain ⟨-, n, hip, hdir⟩ := hs.files f htype
      exact (does_filewriteLoop hE hs hip (hdir (by simpa using hw)) _ src).bind
        fun _ _ h => .ret h

theorem does_sysRead (fd : Option ℤ) (m : Option ℕ) :
    Does p E (sysRead p fd m) s fun _ t => Keeps s t := by
  refine (does_argfd fd).bind ?_
  rintro r _ rfl
  split
  · refine (does_fileread hE hs _).bind fun r t ht => ?_
    cases r with
    | none | some l => exact .ret ht
  · exact .ret (.refl hs.sane)

theorem does_sysWrite (fd : Option ℤ)
    (src : Option (List UInt8)) : Does p E (sysWrite p fd src) s fun _ t => Keeps s t := by
  refine (does_argfd fd).bind ?_
  rintro r _ rfl
  split
  · exact does_filewrite hE hs _
  · exact .ret (.refl hs.sane)

theorem does_sysFstat (fd : Option ℤ) (st : Bool) :
    Does p E (sysFstat p fd st) s fun _ t => Keeps s t := by
  refine (does_argfd fd).bind ?_
  rintro r s rfl
  cases r with
  | none => exact .ret (.refl hs.sane)
  | some x =>
    obtain ⟨_, f⟩ := x
    simp only
    split_ifs
    · exact (does_filestat hE hs).bind fun _ _ ht => .ret ht
    · exact .ret (.refl hs.sane)

end

end

end Use

/-- Nothing changes but the cache, the log and the environment. -/
structure Quiet (s t : Fs) : Prop where
  moves : Moves (refs s) s t
  disk : SameDisk s t

section Exec

theorem Quiet.refl (hs : Sane s) : Quiet s s := ⟨.refl hs, .refl s⟩

theorem Quiet.trans (h : Quiet s t) (h' : Quiet t u) : Quiet s u :=
  ⟨h.moves.then_same h'.moves, h.disk.trans h'.disk⟩

theorem Quiet.loaded (h : Quiet s t) (hip : Loaded s ip n) : Loaded t ip n :=
  h.moves.loaded hip hip.1.1

theorem Quiet.keeps (h : Quiet s t) : Keeps s t := .of_moves h.moves h.disk.tree

theorem does_answer (hs : Sane s) : Does p E answer s fun _ t => Quiet s t :=
  .atomic ⟨moves_congr hs rfl rfl rfl rfl rfl rfl rfl, rfl, rfl, rfl⟩

theorem does_readi_quiet (hE : Tolerates E) (hs : Sane s) (hip : Loaded s ip n) (off m : ℕ) :
    Does p E (readi ip off m) s fun _ t => Quiet s t :=
  (does_readi hE hs hip off m).mono fun _ _ h => ⟨h.1, h.2⟩

theorem does_allocuvm (hs : Sane s) (oldsz newsz : ℕ) :
    Does p E (allocuvm oldsz newsz) s fun _ t => Quiet s t := by
  unfold allocuvm
  split_ifs
  · exact .ret (.refl hs)
  · exact .ret (.refl hs)
  · exact (does_answer hs).bind fun _ _ h => .ret h

section

variable (hE : Tolerates E) (hs : Sane s) (hip : Loaded s ip n)
include hE hs hip

theorem does_loaduvm (k off sz : ℕ) :
    Does p E (loaduvm ip k off sz) s fun _ t => Quiet s t := by
  induction k generalizing s off sz with
  | zero => exact .ret (.refl hs)
  | succ k ih =>
    refine (does_readi_quiet hE hs hip _ _).bind fun r t ht => ?_
    split_ifs
    · exact .ret ht
    · exact (ih ht.moves.sane (ht.loaded hip) _ _).mono fun _ _ hu => ht.trans hu

theorem does_loadSegments (k off sz : ℕ) :
    Does p E (loadSegments ip k off sz) s fun _ t => Quiet s t := by
  induction k generalizing s off sz with
  | zero => exact .ret (.refl hs)
  | succ k ih =>
    refine (does_readi_quiet hE hs hip _ _).bind fun r t ht => ?_
    have next : ∀ u, Quiet s u → ∀ off sz,
        Does p E (loadSegments ip k off sz) u fun _ v => Quiet s v := fun u hu off sz =>
      (ih hu.moves.sane (hu.loaded hip) off sz).mono fun _ _ hv => hu.trans hv
    cases r with
    | none => exact .ret ht
    | some l =>
      refine .ite (fun _ => .ret ht) fun _ => .ite (fun _ => next t ht _ _) fun _ =>
        .ite (fun _ => .ret ht) fun _ => .ite (fun _ => .ret ht) fun _ => ?_
      refine (does_allocuvm ht.moves.sane _ _).bind fun sz u hu => ?_
      have hu' := ht.trans hu
      refine .ite (fun _ => .ret hu') fun _ => .ite (fun _ => .ret hu') fun _ => ?_
      refine (does_loaduvm hE hu.moves.sane (hu'.loaded hip) _ _ _).bind fun ok v hv => ?_
      exact .ite (fun _ => next v (hu'.trans hv) _ _) fun _ => .ret (hu'.trans hv)

theorem does_loadImage :
    Does p E (loadImage ip) s fun _ t => Quiet s t := by
  refine (does_readi_quiet hE hs hip _ _).bind fun r t ht => ?_
  cases r with
  | none => exact .ret ht
  | some l =>
    simp only
    split_ifs
    · exact .ret ht
    · refine (does_answer ht.moves.sane).bind fun pgdir u hu => ?_
      have hu' := ht.trans hu
      split_ifs
      · exact (does_loadSegments hE hu.moves.sane (hu'.loaded hip) _ _ _).mono
          fun _ _ hv => hu'.trans hv
      · exact .ret hu'

end

theorem does_pushArgs (hs : Sane s) (argc : ℕ) (argv : List Str) :
    Does p E (pushArgs argc argv) s fun _ t => Quiet s t := by
  induction argv generalizing s argc with
  | nil => exact (does_answer hs).bind fun _ _ h => .ret h
  | cons a argv ih =>
    unfold pushArgs
    split_ifs
    · exact .ret (.refl hs)
    · refine (does_answer hs).bind fun r t ht => ?_
      split_ifs
      · exact (ih ht.moves.sane _).mono fun _ _ hu => ht.trans hu
      · exact .ret ht

theorem does_exec (hE : Tolerates E) (hs : Settled s) {path : Str}
    (hno : s.Passable p E (some path)) (argv : List Str) :
    Does p E (exec p path argv) s fun _ t => Quiet s t := by
  unfold exec
  refine (does_beginOp hs.sane).bind ?_
  rintro _ t ⟨hmt, hdt⟩
  refine (hs.does_namei hE hno hmt hdt).bind ?_
  rintro r u ⟨hu, hr⟩
  cases r with
  | none => exact (does_endOp_err hE hr hu).mono fun _ _ h => ⟨h.2.1, h.2.2⟩
  | some ip =>
    obtain ⟨hmu, n, rest, hip, hW⟩ := hr
    refine (does_ilock_walked hE hno hmu hu hip hW).bind ?_
    rintro _ v ⟨hmv, hipv, hdv, -⟩
    refine (does_loadImage hE hmv.sane hipv).bind fun image w hw => ?_
    have hm1 := hmv.then_same hw.moves
    have hd1 : SameDisk s w := hdv.trans hw.disk
    have hle : ∀ j, refs s j ≤ addRef (addRef (refs s) ip 1) ip (-1) j := by simp
    refine (does_iunlockput_in hE hs.anchored.closed hs.sane hm1 hd1 hle (hw.loaded hipv).1.2).bind ?_
    rintro _ x ⟨hmx, -, hdx⟩
    rw [addRef_neg] at hmx
    refine (does_endOp hE hmx.sane).bind ?_
    rintro _ y ⟨hmy, hdy⟩
    have hy : Quiet s y := ⟨hmx.then_same hmy, hdx.trans hdy⟩
    cases image with
    | none => exact .ret hy
    | some sz =>
      refine Does.bind (Q := fun _ z => Quiet y z) ?_ ?_
      · exact does_allocuvm hmy.sane _ _
      · intro sz z hz
        have hz' := hy.trans hz
        refine .ite (fun _ => .ret hz') fun _ => ?_
        exact (does_pushArgs hz.moves.sane _ _).mono fun _ _ h => hz'.trans h

theorem does_sysExec (hE : Tolerates E) (hs : Settled s) {path : Option Str}
    (hno : s.Passable p E path) (argv : Option (List Str)) :
    Does p E (sysExec p path argv) s fun _ t => Keeps s t := by
  unfold sysExec
  split
  · exact (does_exec hE hs hno _).mono fun _ _ h => h.keeps
  · exact .ret (.refl hs.sane)

end Exec

structure Tables (s : Fs) (file : Fin NFILE → File) (proc : Pid → Proc) (t : Fs) : Prop
    extends SameCore s t where
  file : t.file = file
  proc : t.proc = proc

def withOfile (proc : Pid → Proc) (q : Pid) (o : Fin NOFILE → Option (Fin NFILE)) : Pid → Proc :=
  update proc q { proc q with ofile := o }

def File.closed (x : File) : File := { x with ref := 0, type := .fdNone }

section Tables

variable {file : Fin NFILE → File} {proc : Pid → Proc} {old : Fin NFILE → File} {f0 f1 : Fin NFILE}

theorem Tables.start (s : Fs) : Tables s s.file s.proc s := ⟨⟨rfl, rfl, rfl, rfl, rfl⟩, rfl, rfl⟩

section

variable (h : Tables s file proc t)
include h

theorem Tables.disk : SameDisk s t := ⟨h.dinode, h.block, h.bitmap⟩

theorem Tables.setFile (f : Fin NFILE) (x : File) :
    Tables s (update file f x) proc (t.setFile f x) := by
  refine ⟨⟨h.sb, h.dinode, h.bitmap, h.block, h.inode⟩, ?_, h.proc⟩
  rw [← h.file]
  rfl

theorem Tables.setOfile (q : Pid) (o : Fin NOFILE → Option (Fin NFILE)) :
    Tables s file (withOfile proc q o) (t.setProc q { t.proc q with ofile := o }) := by
  refine ⟨⟨h.sb, h.dinode, h.bitmap, h.block, h.inode⟩, h.file, ?_⟩
  rw [withOfile, ← h.proc]
  rfl

theorem does_filealloc :
    Does p E filealloc t fun r u => match r with
      | none => Tables s file proc u ∧ ∀ f, (file f).ref ≠ 0
      | some f => (file f).ref = 0 ∧
          Tables s (update file f { file f with ref := 1 }) proc u := by
  refine .atomic ?_
  rw [h.file]
  cases hf : (List.finRange NFILE).find? fun f => decide ((file f).ref = 0) with
  | none =>
    refine ⟨h, fun f => ?_⟩
    simpa using List.find?_eq_none.mp hf f (List.mem_finRange f)
  | some f =>
    refine ⟨by simpa using List.find?_some hf, ?_⟩
    have := h.setFile f { file f with ref := 1 }
    rwa [← h.file] at this ⊢

theorem does_fdalloc (f : Fin NFILE) :
    Does p E (fdalloc p f) t fun r u => match r with
      | none => Tables s file proc u ∧ ∀ fd, (proc p).ofile fd ≠ none
      | some fd => (proc p).ofile fd = none ∧ Tables s file
          (withOfile proc p (update (proc p).ofile fd (some f))) u := by
  refine .atomic ?_
  rw [h.proc]
  cases hfd : (List.finRange NOFILE).find? fun fd => ((proc p).ofile fd).isNone with
  | none =>
    refine ⟨h, fun fd => ?_⟩
    simpa using List.find?_eq_none.mp hfd fd (List.mem_finRange fd)
  | some fd =>
    refine ⟨by simpa using List.find?_some hfd, ?_⟩
    have := h.setOfile p (update (proc p).ofile fd (some f))
    rwa [← h.proc] at this ⊢

theorem does_fileclose_last (h1 : (file f).ref = 1) (ht : (file f).type ≠ .fdInode) :
    Does p E (fileclose f) t fun _ u =>
      Tables s (update file f (file f).closed) proc u := by
  have hclosed := h.setFile f (file f).closed
  have hf : t.file f = file f := congrFun h.file f
  refine .bind (Q := fun r u => r = some (file f) ∧
    Tables s (update file f (file f).closed) proc u) (.atomic ?_) ?_
  · rw [hf, h1]
    exact ⟨rfl, hclosed⟩
  · rintro _ u ⟨rfl, hu⟩
    simp only
    cases htype : (file f).type with
    | fdInode => exact absurd htype ht
    | fdPipe | fdNone => exact .ret hu

theorem does_dropOfile (fd : Fin NOFILE) (x : Option (Fin NFILE)) :
    Does p E (setOfile p fd x) t fun _ u =>
      Tables s file (withOfile proc p (update (proc p).ofile fd x)) u := by
  refine .modify ?_
  rw [h.proc]
  have := h.setOfile p (update (proc p).ofile fd x)
  rwa [h.proc] at this

end

theorem closed_alloc (hfree : Balance.FreeFiles file) (h0 : (file f).ref = 0) :
    update (update file f { file f with ref := 1 }) f
      (update file f { file f with ref := 1 } f).closed = file := by
  rw [update_idem, update_self]
  have hx : (({ file f with ref := 1 } : File)).closed = file f := by
    simp only [File.closed, ← h0, ← hfree f h0]
  rw [hx, update_eq_self]

theorem does_openFile (h : Tables s file proc t) (hfree : Balance.FreeFiles file) :
    Does p E (openFile p) t fun r u => match r with
      | none => Tables s file proc u ∧
          ((∀ f, (file f).ref ≠ 0) ∨ ∀ fd, (proc p).ofile fd ≠ none)
      | some (f, fd) => (file f).ref = 0 ∧
          Tables s (update file f { file f with ref := 1 })
            (withOfile proc p (update (proc p).ofile fd (some f))) u := by
  refine (does_filealloc h).bind fun r u hu => ?_
  cases r with
  | none => exact .ret ⟨hu.1, .inl hu.2⟩
  | some f =>
    obtain ⟨h0, hu⟩ := hu
    refine (does_fdalloc hu f).bind fun fd v hv => ?_
    cases fd with
    | some fd => exact .ret ⟨h0, hv.2⟩
    | none =>
      refine (does_fileclose_last hv.1 (f := f) (by simp) (by simp [hfree f h0])).bind ?_
      intro _ w hw
      rw [closed_alloc hfree h0] at hw
      exact .ret ⟨hw, .inr hv.2⟩

/-- The disk, the processes and the references to open files are the same. -/
structure Unchanged (s t : Fs) : Prop where
  disk : SameDisk s t
  proc : t.proc = s.proc
  ref : ∀ f, (t.file f).ref = (s.file f).ref

@[simp] theorem withOfile_cwd (proc : Pid → Proc) (q : Pid) (o : Fin NOFILE → Option (Fin NFILE))
    (q' : Pid) : (withOfile proc q o q').cwd = (proc q').cwd := by
  unfold withOfile
  by_cases hq : q' = q
  · subst hq
    simp
  · simp [hq]

theorem Tables.keeps (h : Tables s file proc t) (hs : Sane s)
    (hcwd : ∀ q, (proc q).cwd = (s.proc q).cwd) (hf : ∀ f, (s.file f).Alike (file f)) :
    Keeps s t := by
  refine .of_core hs h.toSameCore ?_ fun f => ?_
  · funext q
    rw [Fs.cwd, h.proc]
    exact hcwd q
  · rw [h.file]
    exact hf f

theorem Tables.unchanged (h : Tables s file s.proc t) (hf : ∀ f, (file f).ref = (s.file f).ref) :
    Unchanged s t :=
  ⟨h.disk, h.proc, fun f => by rw [h.file, hf f]⟩

theorem does_filedup (hE : Tolerates E) (h : Tables s file proc t) (f : Fin NFILE) :
    Does p E (filedup f) t fun _ u => 1 ≤ (file f).ref ∧
      Tables s (update file f { file f with ref := (file f).ref + 1 }) proc u := by
  refine .atomic ?_
  rw [h.file]
  split_ifs with hlt
  · exact hE _ (by decide) (by decide)
  · refine ⟨not_lt.mp hlt, ?_⟩
    have := h.setFile f { file f with ref := (file f).ref + 1 }
    rwa [← h.file] at this ⊢

theorem alike_dup {x : File} (h : 1 ≤ x.ref) : x.Alike { x with ref := x.ref + 1 } where
  type := Iff.rfl
  ip _ := ⟨rfl, rfl, by constructor <;> intro <;> simp only at * <;> omega⟩
  free _ h0 := by
    simp only at h0
    omega

theorem does_sysDup (hE : Tolerates E) (hs : Settled s) (fd : Option ℤ) :
    Does p E (sysDup p fd) s fun r t => Keeps s t ∧ (r = err → Unchanged s t) := by
  have same : Keeps s s ∧ (err = err → Unchanged s s) :=
    ⟨.refl hs.sane, fun _ => ⟨.refl s, rfl, fun _ => rfl⟩⟩
  refine (does_argfd fd).bind ?_
  rintro r s rfl
  cases r with
  | none => exact .ret same
  | some x =>
    obtain ⟨_, f⟩ := x
    refine (does_fdalloc (.start s) f).bind fun fd t ht => ?_
    cases fd with
    | none => exact .ret ⟨ht.1.keeps hs.sane (fun _ => rfl) fun _ => .refl _,
        fun _ => ht.1.unchanged fun _ => rfl⟩
    | some fd =>
      refine (does_filedup hE ht.2 f).bind ?_
      rintro _ u ⟨h1, hu⟩
      refine .ret ⟨hu.keeps hs.sane (by simp) fun g => ?_, fun h => ?_⟩
      · by_cases hg : g = f
        · subst hg
          simpa using alike_dup h1
        · simpa [hg] using File.Alike.refl _
      · have hneg : ((fd : ℕ) : ℤ) = -1 := h
        omega

/-- The files `f0` and `f1` are newly allocated, and the others are as in the table `old`. -/
structure Piped (old : Fin NFILE → File) (f0 f1 : Fin NFILE) (file : Fin NFILE → File) : Prop where
  ne : f0 ≠ f1
  free : ∀ f, f = f0 ∨ f = f1 → (old f).ref = 0
  new : ∀ f, f = f0 ∨ f = f1 → (file f).ref = 1 ∧ (file f).type ≠ .fdInode
  other : ∀ f, f ≠ f0 → f ≠ f1 → file f = old f

theorem Piped.set {x : File} (h : Piped old f0 f1 file) (hf : f = f0 ∨ f = f1) (hr : x.ref = 1)
    (ht : x.type ≠ .fdInode) : Piped old f0 f1 (update file f x) where
  ne := h.ne
  free := h.free
  new g hg := by
    by_cases hgf : g = f
    · subst hgf
      simpa using ⟨hr, ht⟩
    · rw [update_of_ne hgf]
      exact h.new g hg
  other g h0 h1 := by
    have hgf : g ≠ f := by
      rintro rfl
      exact hf.elim h0 h1
    rw [update_of_ne hgf, h.other g h0 h1]

theorem Piped.alike (h : Piped old f0 f1 file) (hfree : Balance.FreeFiles old) (f : Fin NFILE) :
    (old f).Alike (file f) := by
  by_cases hf : f = f0 ∨ f = f1
  · have hold := hfree f (h.free f hf)
    obtain ⟨hr, ht⟩ := h.new f hf
    exact ⟨by simp [ht, hold], by simp [hold], fun _ h0 => by omega⟩
  · rw [not_or] at hf
    rw [h.other f hf.1 hf.2]
    exact .refl _

theorem does_closeBoth {α : Type} {a : α} (h : Tables s file proc t) (hp : Piped s.file f0 f1 file)
    (hfree : Balance.FreeFiles s.file) :
    Does p E (do fileclose f0; fileclose f1; return a) t fun r u => r = a ∧ ∃ file',
      Tables s file' proc u ∧ ∀ f, (s.file f).Alike (file' f) ∧ (file' f).ref = (s.file f).ref := by
  obtain ⟨r0, t0⟩ := hp.new f0 (.inl rfl)
  obtain ⟨r1, t1⟩ := hp.new f1 (.inr rfl)
  refine (does_fileclose_last h r0 t0).bind fun _ u hu => ?_
  have h10 : update file f0 (file f0).closed f1 = file f1 :=
    update_of_ne hp.ne.symm _ _
  refine (does_fileclose_last hu (f := f1) (by rw [h10, r1]) (by rw [h10]; exact t1)).bind ?_
  intro _ v hv
  refine .ret ⟨rfl, _, hv, fun f => ?_⟩
  by_cases hf : f = f0 ∨ f = f1
  · -- A free file has no type before, and a closed one has none after.
    have hold := hfree f (hp.free f hf)
    have hclosed : ∃ x : File, update (update file f0 (file f0).closed) f1
        (update file f0 (file f0).closed f1).closed f = x.closed := by
      by_cases hf1 : f = f1
      · subst hf1
        exact ⟨_, update_self _ _ _⟩
      · obtain rfl := hf.resolve_right hf1
        rw [update_of_ne hf1, update_self]
        exact ⟨_, rfl⟩
    obtain ⟨x, hx⟩ := hclosed
    rw [hx, hp.free f hf]
    exact ⟨⟨by simp [File.closed, hold], by simp [hold], fun _ _ => rfl⟩, rfl⟩
  · rw [not_or] at hf
    rw [update_of_ne hf.2, update_of_ne hf.1, hp.other f hf.1 hf.2]
    exact ⟨.refl _, rfl⟩

theorem does_pipePage (h : Tables s file proc t) (hp : Piped s.file f0 f1 file)
    (hfree : Balance.FreeFiles s.file) : Does p E (do
      let page ← answer
      if page.isSome then
        modifyFile f0 fun x => { x with type := .fdPipe, readable := true, writable := false }
        modifyFile f1 fun x => { x with type := .fdPipe, readable := false, writable := true }
        return some (f0, f1)
      else
        fileclose f0
        fileclose f1
        return none) t fun r u => match r with
      | none => ∃ file, Tables s file proc u ∧
          ∀ f, (s.file f).Alike (file f) ∧ (file f).ref = (s.file f).ref
      | some (f0, f1) => ∃ file, Tables s file proc u ∧ Piped s.file f0 f1 file := by
  refine .bind (Q := fun _ w => Tables s file proc w) (.atomic ?_) fun page w hw => ?_
  · exact ⟨⟨h.sb, h.dinode, h.bitmap, h.block, h.inode⟩, h.file, h.proc⟩
  · refine .ite (fun _ => ?_) fun _ => ?_
    · refine .bind (Q := fun _ x => ∃ file, Tables s file proc x ∧ Piped s.file f0 f1 file)
        (.modify ⟨_, hw.setFile f0 _, hp.set (.inl rfl) ?_ ?_⟩) ?_
      · rw [hw.file]
        exact (hp.new f0 (.inl rfl)).1
      · simp
      · rintro _ x ⟨file, hx, hpx⟩
        refine .bind (Q := fun _ y => ∃ file, Tables s file proc y ∧ Piped s.file f0 f1 file)
          (.modify ⟨_, hx.setFile f1 _, hpx.set (.inr rfl) ?_ ?_⟩) fun _ _ hy => .ret hy
        · rw [hx.file]
          exact (hpx.new f1 (.inr rfl)).1
        · simp
    · refine (does_closeBoth hw hp hfree).mono ?_
      rintro _ x ⟨rfl, hx⟩
      exact hx

theorem does_pipealloc (h : Tables s s.file proc t) (hfree : Balance.FreeFiles s.file) :
    Does p E pipealloc t fun r u => match r with
      | none => ∃ file, Tables s file proc u ∧
          ∀ f, (s.file f).Alike (file f) ∧ (file f).ref = (s.file f).ref
      | some (f0, f1) => ∃ file, Tables s file proc u ∧ Piped s.file f0 f1 file := by
  refine (does_filealloc h).bind fun r u hu => ?_
  cases r with
  | none => exact .ret ⟨_, hu.1, fun _ => ⟨.refl _, rfl⟩⟩
  | some f0 =>
    obtain ⟨h0, hu⟩ := hu
    refine (does_filealloc hu).bind fun r v hv => ?_
    cases r with
    | none =>
      refine (does_fileclose_last hv.1 (f := f0) (by simp) (by simp [hfree f0 h0])).bind ?_
      intro _ w hw
      rw [closed_alloc hfree h0] at hw
      exact .ret ⟨_, hw, fun _ => ⟨.refl _, rfl⟩⟩
    | some f1 =>
      obtain ⟨h1, hv⟩ := hv
      have hne : f1 ≠ f0 := by
        rintro rfl
        simp at h1
      rw [update_of_ne hne] at h1 hv
      have hp : Piped s.file f0 f1 (update (update s.file f0
          { s.file f0 with ref := 1 }) f1 { s.file f1 with ref := 1 }) := by
        refine ⟨hne.symm, ?_, ?_, fun f hf0 hf1 => ?_⟩
        · rintro f (rfl | rfl)
          · exact h0
          · exact h1
        · rintro f (rfl | rfl)
          · simp [hne.symm, hfree f h0]
          · simp [hfree f h1]
        · rw [update_of_ne hf1, update_of_ne hf0]
      exact does_pipePage hv hp hfree

theorem withOfile_back {fd : Fin NOFILE} {x : Option (Fin NFILE)} (h : (proc p).ofile fd = none) :
    withOfile (withOfile proc p (update (proc p).ofile fd x)) p
      (update (withOfile proc p (update (proc p).ofile fd x) p).ofile fd none) =
        proc := by
  have h2 : update (update (proc p).ofile fd x) fd none = (proc p).ofile := by
    rw [update_idem, ← h, update_eq_self]
  simp [withOfile, h2]

theorem does_sysPipe (hs : Settled s) (buf : Bool) :
    Does p E (sysPipe p buf) s fun r t => Keeps s t ∧ (r = err → Unchanged s t) := by
  have failed : ∀ {u : Fs}, (∃ file, Tables s file s.proc u ∧
      ∀ f, (s.file f).Alike (file f) ∧ (file f).ref = (s.file f).ref) →
      Keeps s u ∧ (err = err → Unchanged s u) := by
    rintro u ⟨file, hu, hf⟩
    exact ⟨hu.keeps hs.sane (fun _ => rfl) fun f => (hf f).1,
      fun _ => hu.unchanged fun f => (hf f).2⟩
  unfold sysPipe
  refine .ite (fun _ => ?_) fun _ => .ret (failed ⟨_, .start s, fun _ => ⟨.refl _, rfl⟩⟩)
  refine (does_pipealloc (.start s) hs.free).bind fun r t ht => ?_
  cases r with
  | none => exact .ret (failed ht)
  | some x =>
    obtain ⟨rf, wf⟩ := x
    obtain ⟨file, ht, hp⟩ := ht
    have close : ∀ {u : Fs}, Tables s file s.proc u → Does p E (do fileclose rf; fileclose wf; return err) u
        fun r v => Keeps s v ∧ (r = err → Unchanged s v) := by
      intro u hu
      refine (does_closeBoth hu hp hs.free).mono ?_
      rintro _ v ⟨rfl, hv⟩
      exact failed hv
    refine (does_fdalloc ht rf).bind fun fd0 u hu => ?_
    cases fd0 with
    | none => exact close hu.1
    | some fd0 =>
      obtain ⟨hfd0, hu⟩ := hu
      refine (does_fdalloc hu wf).bind fun fd1 v hv => ?_
      cases fd1 with
      | none =>
        refine (does_dropOfile hv.1 fd0 none).bind fun _ w hw => ?_
        rw [withOfile_back hfd0] at hw
        exact close hw
      | some fd1 =>
        exact .ret ⟨hv.2.keeps hs.sane (by simp) fun f => hp.alike hs.free f,
          fun h => absurd h (by decide)⟩

end Tables

end Xv6
