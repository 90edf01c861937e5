import Xv6.Fs.FileCalls

namespace Xv6
open Lib Prog Function

variable {p : Pid} {E : String → Prop} {s t u : Fs} {P U : ℕ → Str → Prop}

section Open

theorem SameCore.refers {i : Slot} {n : ℕ} (h : SameCore s t) (hi : Refers s i n) :
    Refers t i n := by
  unfold Refers refs at hi ⊢
  rwa [h.inode]

theorem SameCore.loaded {i : Slot} {n : ℕ} (h : SameCore s t) (hi : Loaded s i n) :
    Loaded t i n := by
  refine ⟨h.refers hi.1, ?_⟩
  rw [h.inode]
  exact hi.2

/-- Where `open` enters a name, with `O_CREATE` only. -/
def Fs.opens (s : Fs) (p : Pid) (path : Option Str) (omode : Option ℕ) (d : ℕ) (name : Str) :
    Prop := (∃ m ∈ omode, isCreate m = true) ∧ s.parent p path d name

/-- The path leads to a directory that has no entry with the last name. -/
def Fs.lacks (s : Fs) (p : Pid) (path : Option Str) : Prop :=
  ∃ d name, s.parent p path d name ∧ ∀ j, j < (tree s d).len → ¬ (tree s).Matches d j name

/-- The call makes a new file, if it does not panic. -/
def Fs.creates (s : Fs) (p : Pid) (path : Option Str) (omode : Option ℕ) : Prop :=
  (∃ m ∈ omode, isCreate m = true) ∧ s.lacks p path

/-- A `struct file` and a descriptor are free. -/
def Fs.HasRoom (s : Fs) (p : Pid) : Prop :=
  (∃ f, (s.file f).ref = 0) ∧ ∃ fd, (s.proc p).ofile fd = none

theorem does_openInode (hE : Tolerates E) (hs : Settled s) {path : Str} {omode : ℕ}
    (hno : s.Passable p E (some path)) (hm : Moves (refs s) s t) (ht : SameDisk s t) :
    Does p E (openInode p path omode) t fun r u => match r with
      | none => Quiet s u
      | some ip => Done (s.opens p (some path) (some omode)) U s u ∧ u.proc = s.proc ∧
          u.file = s.file ∧
          (∃ x, Loaded u ip x ∧ ((tree u x).type = T_DIR → omode = O_RDONLY)) ∧
          (s.creates p (some path) (some omode) ∨
            Moves (addRef (refs s) ip 1) s u ∧ SameDisk s u) := by
  unfold openInode
  split_ifs with hcreate
  · refine (does_create hE hs.sane hs.anchored (route_walks hno) hm ht
      (hs.startsIn rfl hm fun _ => le_rfl) (by decide) hs.ninodes).mono ?_
    intro r u hu
    cases r with
    | none => exact ⟨hu.1, hu.2⟩
    | some ip =>
      have hend : Ended (s.opens p (some path) (some omode)) U s u :=
        hu.ends hs (by decide) fun d name rest hW hlast hdir =>
          ⟨⟨omode, rfl, hcreate⟩, rest, hW, hlast, hdir⟩
      obtain ⟨hmu, x, hip, htype, hdisk⟩ := hu
      refine ⟨⟨hend, cwd_of_proc hmu.proc, .of_eq hmu.file⟩, hmu.proc, hmu.file,
        ⟨x, hip, fun hdir => ?_⟩, ?_⟩
      · rw [htype] at hdir
        exact absurd hdir (by decide)
      · rcases hdisk with hdisk | ⟨d, name, rest, hW, hlast, k, hv, -⟩
        · exact .inr ⟨hmu, hdisk⟩
        · exact .inl ⟨⟨omode, rfl, hcreate⟩, d, name, ⟨rest, hW, hlast, hv.dir⟩, hv.new⟩
  · refine (hs.does_namei hE hno hm ht).bind ?_
    rintro r u ⟨hu, hr⟩
    cases r with
    | none => exact .ret ⟨hr, hu⟩
    | some ip =>
      obtain ⟨hmu, x, rest, hip, hW⟩ := hr
      refine (does_ilock_walked hE hno hmu hu hip hW).bind ?_
      rintro _ v ⟨hm1, hipv, hv, -⟩
      refine .bind_read ?_
      simp only [hipv.type hm1.sane]
      refine .ite (fun _ => ?_) fun hmode => ?_
      · have hle : ∀ j, refs s j ≤ addRef (addRef (refs s) ip 1) ip (-1) j := by simp
        refine (does_iunlockput_in hE hs.anchored.closed hs.sane hm1 hv hle hipv.1.2).bind ?_
        rintro _ w ⟨hmw, -, hdw⟩
        rw [addRef_neg] at hmw
        exact .ret ⟨hmw, hdw⟩
      · refine .ret ⟨done_of_moves hs.anchored hm1 le_addOne hv,
          hm1.proc, hm1.file, ⟨x, hipv, fun hdir => ?_⟩, .inr ⟨hm1, hv⟩⟩
        exact not_and_not_right.mp hmode hdir

/-- What `open` leads to.  It fails without a trace, or after it created a file because a table
is full. -/
structure Opened (p : Pid) (path : Option Str) (omode : Option ℕ) (U : ℕ → Str → Prop) (s : Fs)
    (r : ℤ) (t : Fs) : Prop extends Ended (s.opens p path omode) U s t where
  cwd : t.cwd = s.cwd
  files : ∀ f, (t.file f).type = .fdInode → (s.file f).Kept (t.file f) ∨ FileOk t (t.file f)
  failed : r = err → Unchanged s t ∨ s.creates p path omode ∧ ¬ s.HasRoom p

theorem Quiet.unchanged (h : Quiet s t) : Unchanged s t :=
  ⟨h.disk, h.moves.proc, fun f => by rw [h.moves.file]⟩

theorem Quiet.opened {path : Option Str} {omode : Option ℕ} {r : ℤ} (h : Quiet s t)
    (hs : Settled s) : Opened p path omode U s r t where
  toEnded := ends_of_moves hs.anchored h.moves (fun _ => le_rfl) h.disk
  cwd := cwd_of_proc h.moves.proc
  files f hf := .inl (KeepsFiles.of_eq h.moves.file f hf)
  failed _ := .inl h.unchanged

theorem cwd_of_withOfile {o : Fin NOFILE → Option (Fin NFILE)}
    (h : t.proc = withOfile s.proc p o) : t.cwd = s.cwd := by
  funext q
  rw [Fs.cwd, h, withOfile_cwd]
  rfl

theorem not_hasRoom (h : (∀ f, (s.file f).ref ≠ 0) ∨ ∀ fd, (s.proc p).ofile fd ≠ none) :
    ¬ s.HasRoom p := by
  rintro ⟨⟨f, hf⟩, fd, hfd⟩
  rcases h with h | h
  · exact h f hf
  · exact h fd hfd

theorem does_openFail (hE : Tolerates E) (hs : Sane s) (ha : Anchored s) {ip : Slot} {x : ℕ}
    (hip : Refers s ip x) : Does p E (do iunlockput ip; endOp; return err) s fun _ t =>
      Closes s t ∧ t.proc = s.proc ∧ t.file = s.file := by
  refine Does.bind (Q := fun _ t => Closes s t ∧ t.proc = s.proc ∧ t.file = s.file) ?_ ?_
  · refine (does_iunlock hE).bind ?_
    rintro _ _ rfl
    refine (does_iput_closes hE hs ha hip).mono ?_
    rintro _ t ⟨hcl, -, hp, hf⟩
    exact ⟨hcl, hp, hf⟩
  · rintro _ t ⟨hcl, hp, hf⟩
    refine (does_endOp hE hcl.sane).bind fun _ u hu => .ret ?_
    exact ⟨hcl.trans (closes_of_same hcl.anchored hu.1 hu.2), hu.1.proc.trans hp,
      hu.1.file.trans hf⟩

theorem does_openLocked (hE : Tolerates E) (hs : Settled s) {path : Str} {omode : ℕ} {ip : Slot}
    {x : ℕ} (hu : Done (s.opens p (some path) (some omode)) U s u) (hpu : u.proc = s.proc)
    (hfu : u.file = s.file) (hip : Loaded u ip x)
    (hmode : (tree u x).type = T_DIR → omode = O_RDONLY)
    (hsame : s.creates p (some path) (some omode) ∨
      Moves (addRef (refs s) ip 1) s u ∧ SameDisk s u) :
    Does p E (openLocked p ip omode) u (Opened p (some path) (some omode) U s) := by
  refine (does_openFile (.start u) (hfu ▸ hs.free)).bind fun r v hv => ?_
  cases r with
  | none =>
    obtain ⟨hv, hfull⟩ := hv
    have hcore := hv.toSameCore.closes hu.sane hu.anchored
    have hdone := hu.then_closes hcore hv.proc hv.file
    have hipv := hv.refers hip.1
    rcases hsame with hc | ⟨hmu, hdu⟩
    · refine (does_openFail hE hdone.sane hdone.anchored hipv).mono ?_
      rintro _ w ⟨hcl, hpw, hfw⟩
      have hw := hdone.then_closes hcl hpw hfw
      rw [hfu, hpu] at hfull
      exact ⟨hw.toEnded, hw.cwd, fun f hf => .inl (hw.files f hf),
        fun _ => .inr ⟨hc, not_hasRoom hfull⟩⟩
    · have hmv : Moves (addRef (refs s) ip 1) s v :=
        hmu.then_same (moves_congr hmu.sane hv.sb hv.dinode hv.bitmap hv.block hv.inode hv.proc
          hv.file)
      refine (does_put_err hE hs hmv (hdu.trans hv.disk) hipv).mono ?_
      rintro _ w ⟨rfl, hmw, hdw⟩
      exact Quiet.opened ⟨hmw, hdw⟩ hs
  | some y =>
    obtain ⟨f, fd⟩ := y
    obtain ⟨-, hv⟩ := hv
    rw [hfu, hpu] at hv
    have hv' := hu.toEnded.then_closes (hv.toSameCore.closes hu.sane hu.anchored)
    refine (does_iunlock hE).bind ?_
    rintro _ v rfl
    refine (does_endOp hE hv'.sane).bind ?_
    rintro _ w ⟨hmw, hdw⟩
    have hw := hv'.then_closes (closes_of_same hv'.anchored hmw hdw)
    have hipw := hmw.loaded (hv.loaded hip) (hv.loaded hip).1.1
    refine .bind (Q := fun _ z => z = w.setFile f { w.file f with
        type := .fdInode
        ip := ip
        off := 0
        readable := !isWronly omode
        writable := isWronly omode || isRdwr omode }) (.modify rfl) ?_
    rintro _ z rfl
    generalize hx : ({ w.file f with
        type := .fdInode
        ip := ip
        off := 0
        readable := !isWronly omode
        writable := isWronly omode || isRdwr omode } : File) = y
    have hcore : SameCore w (w.setFile f y) := ⟨rfl, rfl, rfl, rfl, rfl⟩
    refine .ret ⟨hw.then_closes (hcore.closes hw.sane hw.anchored), ?_, fun g hg => ?_, fun h => ?_⟩
    · exact cwd_of_withOfile (hmw.proc.trans hv.proc)
    · by_cases hgf : g = f
      · subst hgf
        refine .inr ?_
        rw [Fs.setFile_file, update_self]
        refine ⟨?_, x, ?_, fun hwr hdir => ?_⟩
        · rw [← hx, hmw.file, hv.file]
          simp
        · rw [← hx]
          exact hcore.loaded hipw
        · have hwt : tree (w.setFile g y) = tree u := by
            have hwz : SameDisk w (w.setFile g y) := ⟨rfl, rfl, rfl⟩
            rw [hwz.tree, hdw.tree, hv.disk.tree]
          rw [hwt] at hdir
          rw [← hx] at hwr
          have hw0 : (isWronly omode || isRdwr omode) = true := hwr
          rw [hmode hdir] at hw0
          exact absurd hw0 (by decide)
      · refine .inl ?_
        have hsame : (w.setFile f y).file g = s.file g := by
          rw [Fs.setFile_file, update_of_ne hgf, hmw.file, hv.file,
            update_of_ne hgf]
        rw [hsame] at hg ⊢
        exact KeepsFiles.refl s g hg
    · have hneg : ((fd : ℕ) : ℤ) = -1 := h
      omega

theorem does_sysOpen (hE : Tolerates E) (hs : Settled s) {path : Option Str} {omode : Option ℕ}
    (hno : s.Passable p E path) :
    Does p E (sysOpen p path omode) s (Opened p path omode U s) := by
  unfold sysOpen
  split
  · rename_i path omode
    refine (does_beginOp hs.sane).bind ?_
    rintro _ t ⟨hmt, hdt⟩
    refine (does_openInode (U := U) hE hs hno hmt hdt).bind fun r u hu => ?_
    cases r with
    | none =>
      refine (does_endOp_err hE hu.moves hu.disk).mono ?_
      rintro _ v ⟨rfl, hmv, hdv⟩
      exact Quiet.opened ⟨hmv, hdv⟩ hs
    | some ip =>
      obtain ⟨hu, hpu, hfu, ⟨x, hip, hmode⟩, hsame⟩ := hu
      exact does_openLocked hE hs hu hpu hfu hip hmode hsame
  · exact .ret ((Quiet.refl hs.sane).opened hs)

theorem does_sysChdir (hE : Tolerates E) (hs : Settled s) {path : Option Str}
    (hno : s.Passable p E path) :
    Does p E (sysChdir p path) s fun r t => r = err ∧ Quiet s t ∨ r = 0 ∧ Ended P U s t ∧
      KeepsFiles s t ∧ ∃ ip n rest, t.cwd = update s.cwd p (some ip) ∧ Loaded t ip n ∧
        s.walks p path n rest ∧ (tree s n).type = T_DIR := by
  refine (does_beginOp hs.sane).bind ?_
  rintro _ t ⟨hmt, hdt⟩
  refine .bind (Q := fun r u => SameDisk s u ∧ match r with
    | none => Moves (refs s) s u
    | some j => Moves (addRef (refs s) j 1) s u ∧
        ∃ m rest, Refers u j m ∧ s.walks p path m rest) ?_ ?_
  · cases path with
    | none => exact .ret ⟨hdt, hmt⟩
    | some x =>
      exact hs.does_namei hE hno hmt hdt
  · rintro r u ⟨hu, hr⟩
    cases r with
    | none =>
      refine (does_endOp_err hE hr hu).mono ?_
      rintro _ v ⟨rfl, hmv, hdv⟩
      exact .inl ⟨rfl, hmv, hdv⟩
    | some ip =>
      obtain ⟨hmu, n, rest, hip, hW⟩ := hr
      refine (does_ilock_walked hE hno hmu hu hip hW).bind ?_
      rintro _ v ⟨hm1, hipv, hv, -⟩
      have hend : Ended P U s v :=
        ends_of_moves hs.anchored hm1 le_addOne hv
      refine .bind_read ?_
      simp only [hipv.type hm1.sane, hv.tree]
      refine .ite (fun _ => ?_) fun hdir => ?_
      · refine (does_put_err hE hs hm1 hv hipv.1).mono ?_
        rintro _ w ⟨rfl, hmw, hdw⟩
        exact .inl ⟨rfl, hmw, hdw⟩
      · refine (does_iunlock hE).bind ?_
        rintro _ v rfl
        -- The old directory is given up while the new one is referenced.
        refine .bind (Q := fun _ w => Closes v w ∧ w.proc = s.proc ∧ w.file = s.file ∧
          Loaded w ip n) ?_ ?_
        · refine .bind_read ?_
          rw [hm1.proc]
          cases hc : (s.proc p).cwd with
          | none => exact .panic (hE _ (by decide) (by decide))
          | some c =>
            have hpos := hs.cwd_pos hc
            have hcv : Refers v c (s.inode c).inum := hm1.refers ⟨hpos, rfl⟩
              (lt_of_lt_of_le hpos (le_addOne _))
            refine (does_iput_closes hE hend.sane hend.anchored hcv).mono ?_
            rintro _ w ⟨hcl, hrefs, hpw, hfw⟩
            refine ⟨hcl, hpw.trans hm1.proc, hfw.trans hm1.file, hcl.persist.loaded hipv ?_⟩
            rw [hrefs, hm1.refs]
            have h0 : 0 ≤ refs s ip := hs.sane.nonneg ip
            by_cases hci : ip = c
            · subst hci
              rw [addRef_neg]
              exact hpos
            · rw [addRef_of_ne _ _ hci, addRef_self]
              omega
        · rintro _ w ⟨hcl, hpw, hfw, hipw⟩
          have hw := hend.then_closes hcl
          refine (does_endOp hE hw.sane).bind ?_
          rintro _ y ⟨hmy, hdy⟩
          have hy := hw.then_closes (closes_of_same hw.anchored hmy hdy)
          have hpy : y.proc = s.proc := hmy.proc.trans hpw
          have hipy := hmy.loaded hipw hipw.1.1
          refine .bind (Q := fun _ z => z = y.setProc p { y.proc p with cwd := some ip })
            (.modify rfl) ?_
          rintro _ _ rfl
          have hcore : SameCore y (y.setProc p { y.proc p with cwd := some ip }) :=
            ⟨rfl, rfl, rfl, rfl, rfl⟩
          refine .ret (.inr ⟨rfl, hy.then_closes (hcore.closes hy.sane hy.anchored),
            .of_eq (hmy.file.trans hfw), ip, n, rest, ?_, hipy, hW, not_not.mp hdir⟩)
          funext q
          by_cases hq : q = p
          · subst hq
            simp [Fs.cwd]
          · simp [Fs.cwd, hq, hpy]

end Open

section Close

variable {f : Fin NFILE}

theorem does_and_ok {α : Type} {x : FsM α} {Q : α → Fs → Prop} (hs : Settled s)
    (hx : Does p E x s Q) (hv : ∀ v, Balance.Ok v → v.proc = s.proc →
      Views (Balance.view p) p x v fun _ w => Balance.Ok w) :
    Does p E x s fun a t => Q a t ∧ Balance.Balanced (refs t) t.file t.proc ∧
      Balance.FreeFiles t.file := by
  intro o
  have hok : Balance.Ok (Balance.view p ⟨s, o⟩) := ⟨hs.balanced, hs.free⟩
  refine wp_imp (wp_and (hx o) (hv _ hok rfl ⟨s, o⟩ rfl)) ?_
  rintro a t ⟨hq, hw⟩
  exact ⟨hq, hw.balanced, hw.free⟩

theorem does_filedrop (hE : Tolerates E) (f : Fin NFILE) :
    Does p E (filedrop f) s fun r t => SameCore s t ∧ t.cwd = s.cwd ∧ KeepsFiles s t ∧
      ∀ x ∈ r, x = s.file f ∧ 0 < (s.file f).ref := by
  have keeps : ∀ x : File, (x.type = .fdInode → (s.file f).Kept x) →
      KeepsFiles s (s.setFile f x) := by
    intro x hx g hg
    by_cases hgf : g = f
    · subst hgf
      rw [Fs.setFile_file, update_self] at hg ⊢
      exact hx hg
    · rw [Fs.setFile_file, update_of_ne hgf] at hg ⊢
      exact KeepsFiles.refl s g hg
  refine .atomic ?_
  split_ifs with h1 h2
  · exact hE _ (by decide) (by decide)
  · refine ⟨⟨rfl, rfl, rfl, rfl, rfl⟩, rfl, keeps _ fun ht => ?_, fun x hx => by cases hx⟩
    exact ⟨ht, rfl, rfl, fun _ => h2⟩
  · exact ⟨⟨rfl, rfl, rfl, rfl, rfl⟩, rfl, keeps _ (fun ht => by cases ht),
      fun x hx => ⟨(Option.some.inj hx).symm, by omega⟩⟩

structure Shuts (s t : Fs) : Prop extends Closes s t where
  cwd : t.cwd = s.cwd
  files : KeepsFiles s t

theorem Shuts.trans (h : Shuts s t) (h' : Shuts t u) : Shuts s u :=
  ⟨h.toCloses.trans h'.toCloses, h'.cwd.trans h.cwd, h.files.trans h'.files⟩

theorem Keeps.shuts (h : Keeps s t) (ha : Anchored s) : Shuts s t :=
  ⟨h.closes ha, h.cwd, h.keepsFiles⟩

theorem Shuts.done (h : Shuts s t) : Done P U s t := ⟨h.toCloses.ends, h.cwd, h.files⟩

theorem does_fileclose (hE : Tolerates E) (hs : Settled s) (f : Fin NFILE) :
    Does p E (fileclose f) s fun _ t => Shuts s t ∧ Settled t := by
  have hclose : Does p E (fileclose f) s fun _ t => Shuts s t := by
    refine (does_filedrop hE f).bind ?_
    rintro r t ⟨hc, hcwd, hfiles, hr⟩
    have ht : Shuts s t := ⟨hc.closes hs.sane hs.anchored, hcwd, hfiles⟩
    cases r with
    | none => exact .ret ht
    | some x =>
      obtain ⟨rfl, hpos⟩ := hr x rfl
      simp only
      cases htype : (s.file f).type with
      | fdInode =>
        simp only
        have hip : Refers t (s.file f).ip (s.inode (s.file f).ip).inum :=
          hc.refers ⟨file_pos hs.balanced hpos htype, rfl⟩
        refine (does_beginOp ht.sane).bind ?_
        rintro _ u ⟨hmu, hdu⟩
        have hu := ht.trans ((Keeps.of_moves hmu hdu.tree).shuts ht.anchored)
        refine (does_iput_closes hE hu.sane hu.anchored (hmu.refers hip hip.1)).bind ?_
        rintro _ v ⟨hcv, -, hpv, hfv⟩
        have hv := hu.trans ⟨hcv, cwd_of_proc hpv, .of_eq hfv⟩
        refine (does_endOp hE hv.sane).mono ?_
        rintro _ w ⟨hmw, hdw⟩
        exact hv.trans ((Keeps.of_moves hmw hdw.tree).shuts hv.anchored)
      | fdPipe | fdNone => exact .ret ht
  refine (does_and_ok hs hclose fun v hv _ => ?_).mono ?_
  · refine Balance.views_fileclose.mono ?_
    rintro _ _ ⟨hf, rfl⟩
    exact hv.close hf
  · rintro _ t ⟨ht, hb, hf⟩
    have hend : Ended (fun _ _ => False) (fun _ _ => False) s t := ht.toCloses.ends
    exact ⟨ht, hs.after hend hb hf fun g hg => .inl (ht.files g hg)⟩

theorem does_setOfile (hs : Settled s) (fd : Fin NOFILE) (f : Option (Fin NFILE)) :
    Does p E (setOfile p fd f) s fun _ t => Shuts s t ∧ Settled t := by
  have hk := Keeps.setOfile hs.sane p (update (s.proc p).ofile fd f)
  exact .modify ⟨hk.shuts hs.anchored, hk.settled hs⟩

section

variable (hE : Tolerates E)
include hE

section

variable (hs : Settled s)
include hs

theorem does_sysClose (fd : Option ℤ) :
    Does p E (sysClose p fd) s fun _ t => Shuts s t := by
  refine (does_argfd fd).bind ?_
  rintro r s rfl
  cases r with
  | none => exact .ret ((Keeps.refl hs.sane).shuts hs.anchored)
  | some x =>
    obtain ⟨fd, f⟩ := x
    refine (does_setOfile hs fd none).bind ?_
    rintro _ t ⟨hst, ht⟩
    refine (does_fileclose hE ht f).bind ?_
    rintro _ u ⟨htu, -⟩
    exact .ret (hst.trans htu)

theorem does_closeFiles (l : List (Fin NOFILE)) :
    Does p E (closeFiles p l) s fun _ t => Shuts s t ∧ Settled t := by
  induction l generalizing s with
  | nil => exact .ret ⟨(Keeps.refl hs.sane).shuts hs.anchored, hs⟩
  | cons fd l ih =>
    refine .bind_read ?_
    cases (s.proc p).ofile fd with
    | none => exact ih hs
    | some f =>
      refine (does_fileclose hE hs f).bind ?_
      rintro _ t ⟨hst, ht⟩
      refine (does_setOfile ht fd none).bind ?_
      rintro _ u ⟨htu, hu⟩
      refine (ih hu).mono ?_
      rintro _ v ⟨huv, hv⟩
      exact ⟨(hst.trans htu).trans huv, hv⟩

theorem does_exit :
    Does p E (exit p) s fun _ t =>
      Closes s t ∧ KeepsFiles s t ∧ t.cwd = update s.cwd p none := by
  refine (does_closeFiles hE hs _).bind ?_
  rintro _ t ⟨hst, ht⟩
  refine (does_beginOp ht.sane).bind ?_
  rintro _ u ⟨hmu, hdu⟩
  have hu := hst.trans ((Keeps.of_moves hmu hdu.tree).shuts ht.anchored)
  refine .bind (Q := fun _ v => Shuts s v ∧ v.proc = t.proc) ?_ ?_
  · refine .bind_read ?_
    rw [hmu.proc]
    cases hc : (t.proc p).cwd with
    | none => exact .panic (hE _ (by decide) (by decide))
    | some c =>
      have hpos := ht.cwd_pos hc
      refine (does_iput_closes hE hu.sane hu.anchored (hmu.refers ⟨hpos, rfl⟩ hpos)).mono ?_
      rintro _ v ⟨hcv, -, hpv, hfv⟩
      exact ⟨hu.trans ⟨hcv, cwd_of_proc hpv, .of_eq hfv⟩, hpv.trans hmu.proc⟩
  · rintro _ v ⟨hcv, hpv⟩
    refine (does_endOp hE hcv.sane).bind ?_
    rintro _ w ⟨hmw, hdw⟩
    have hw := hcv.trans ((Keeps.of_moves hmw hdw.tree).shuts hcv.anchored)
    have hcore : SameCore w (w.setProc p { w.proc p with cwd := none }) :=
      ⟨rfl, rfl, rfl, rfl, rfl⟩
    refine .modify ⟨hw.toCloses.trans (hcore.closes hw.sane hw.anchored), hw.files, ?_⟩
    rw [← hw.cwd]
    funext q
    by_cases hq : q = p
    · subst hq
      simp [Fs.cwd]
    · simp [Fs.cwd, hq]

theorem does_dupFiles (np : Pid) (l : List (Fin NOFILE)) :
    Does p E (dupFiles p np l) s fun _ t => Keeps s t := by
  induction l generalizing s with
  | nil => exact .ret (.refl hs.sane)
  | cons fd l ih =>
    refine .bind_read ?_
    cases (s.proc p).ofile fd with
    | none => exact ih hs
    | some f =>
      refine .bind (Q := fun _ t => Keeps s t) (.atomic ?_) fun _ t ht => ?_
      · split_ifs with hlt
        · exact hE _ (by decide) (by decide)
        · exact Keeps.setFile hs.sane (alike_dup (not_lt.mp hlt))
      · refine .bind (Q := fun _ u => Keeps s u) (.modify (ht.trans (.setOfile ht.sane _ _))) ?_
        intro _ u hu
        exact (ih (hu.settled hs)).mono fun _ v hv => hu.trans hv

theorem does_fork (np : Pid) :
    Does p E (fork p np) s fun _ t => Ended P U s t ∧ KeepsFiles s t ∧
      ∃ i, s.cwd p = some i ∧ t.cwd = update s.cwd np (some i) := by
  refine (does_dupFiles hE hs np _).bind fun _ t ht => ?_
  refine .bind_read ?_
  have hp : (t.proc p).cwd = s.cwd p := congrFun ht.cwd p
  rw [hp]
  cases hc : s.cwd p with
  | none => exact .panic (hE _ (by decide) (by decide))
  | some i =>
    have hst := (ht.settled hs)
    refine (does_idup ht.sane ⟨hst.cwd_pos (hp.trans hc), rfl⟩).bind ?_
    rintro i u ⟨rfl, hmu, -, hdu⟩
    have hu : Ended P U s u := by
      have htu : Ended P U t u :=
        ends_of_moves hst.anchored hmu le_addOne hdu
      exact ⟨htu.sane, htu.sb.trans ht.sb, ht.persist.trans htu.persist fun j hj _ => by rwa [ht.refs],
        htu.anchored, by rw [← ht.tree, ← ht.sb]; exact htu.effect⟩
    refine .bind (Q := fun _ v => v = u.setProc np { u.proc np with cwd := some i })
      (.modify rfl) ?_
    rintro _ _ rfl
    have hcore : SameCore u (u.setProc np { u.proc np with cwd := some i }) :=
      ⟨rfl, rfl, rfl, rfl, rfl⟩
    refine .ret ⟨hu.then_closes (hcore.closes hu.sane hu.anchored),
      ht.keepsFiles.trans (.of_eq hmu.file), i, rfl, ?_⟩
    rw [← ht.cwd]
    funext q
    by_cases hq : q = np
    · subst hq
      simp [Fs.cwd]
    · simp [Fs.cwd, hq, hmu.proc]

end

end

end Close

end Xv6
