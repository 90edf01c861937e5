import Xv6.Fs.Balance
import Xv6.Fs.Mkfs

namespace Xv6.Balance
open Lib Function
open Lib.Prog (Still Views)

variable {p : Pid} {v : View} {i ip dp : Slot} {path : Option Str} {type major minor : ℤ}
  {fd : Option ℤ} {f : Fin NFILE} {q : Pid}

def View.addOut (v : View) (n : ℤ) : View := { v with outstanding := v.outstanding + n }

theorem View.addOut_neg (v : View) : (v.addOut 1).addOut (-1) = v := by
  show ({ v with outstanding := v.outstanding + 1 + -1 } : View) = v
  rw [Int.add_neg_cancel_right]

theorem View.addOut_addRef (v : View) (i : Slot) (n : ℤ) :
    ((v.addOut 1).addRef i n).addOut (-1) = v.addRef i n :=
  congrArg (·.addRef i n) v.addOut_neg

theorem views_beginOp : Views (view p) p beginOp v fun _ w => w = v.addOut 1 := by
  rintro s rfl
  rw [beginOp, Prog.wp_atomic]
  split_ifs
  · trivial
  · trivial
  · rfl

theorem views_leave : Views (view p) p (Prog.atomic fun s : Fs => match s.log.leave with
    | .error m => .panic m
    | .ok l => .done l.committing { s with log := l }) v fun _ w => w = v.addOut (-1) := by
  rintro s rfl
  rw [Prog.wp_atomic]
  unfold Log.leave
  split_ifs
  · trivial
  · rfl

theorem views_endOp : Views (view p) p endOp v fun _ w => w = v.addOut (-1) := by
  refine views_leave.seq fun doCommit => ?_
  exact Still.when (Still.bind (Still.modify fun _ => rfl) fun _ => Still.modify fun _ => rfl) _

theorem views_endOp_ret {α : Type} {a : α} :
    Views (view p) p (do endOp; return a) (v.addOut 1) fun _ w => w = v := by
  refine views_endOp.seq fun _ => ?_
  exact .ret (View.addOut_neg v)

theorem still_setNlink {f : ℤ → ℤ} : Still (view p) p (setNlink f i) :=
  still_modifyInode fun _ => rfl

theorem views_linkAt {new : Str} : Views (view p) p (linkAt p new ip) v fun _ w => w = v := by
  refine views_namex.seq fun r => ?_
  cases r with
  | none => exact .ret rfl
  | some x =>
    obtain ⟨dp, name⟩ := x
    refine views_ilock_own.bind ?_
    rintro _ _ ⟨hd, rfl⟩
    refine still_readInode.seq fun dpdev => ?_
    refine still_readInode.seq fun ipdev => ?_
    split_ifs
    · exact (views_iunlockput_own hd).bind fun _ _ hw => .ret hw
    · refine still_readInode.seq fun inum => ?_
      refine (views_dirlink (View.own_held_self _ _)).seq fun r => ?_
      exact (views_iunlockput_own hd).bind fun _ _ hw => .ret hw

theorem still_sysLink {old new : Option Str} : Still (view p) p (sysLink p old new) := by
  intro v
  cases old with
  | none => exact .ret rfl
  | some old =>
    cases new with
    | none => exact .ret rfl
    | some new =>
      refine views_beginOp.seq fun _ => ?_
      refine views_namei.seq fun r => ?_
      cases r with
      | none => exact views_endOp_ret
      | some ip =>
        refine views_ilock_own.bind ?_
        rintro _ _ ⟨hi, rfl⟩
        refine still_readInode.seq fun type => ?_
        split_ifs
        · refine (views_iunlockput_own hi).seq fun _ => ?_
          exact views_endOp_ret
        · refine still_setNlink.seq fun _ => ?_
          refine still_iupdate.seq fun _ => ?_
          refine (views_iunlock_own hi).seq fun _ => ?_
          refine views_linkAt.seq fun ok => ?_
          split_ifs
          · refine views_iput_ref.seq fun _ => ?_
            exact views_endOp_ret
          · refine views_ilock_own.bind ?_
            rintro _ _ ⟨hi, rfl⟩
            refine still_setNlink.seq fun _ => ?_
            refine still_iupdate.seq fun _ => ?_
            refine (views_iunlockput_own hi).seq fun _ => ?_
            exact views_endOp_ret

theorem views_isdiremptyFrom (hi : v.held i = true) (n off : ℕ) :
    Views (view p) p (isdiremptyFrom i n off) v fun _ w => w = v := by
  induction n generalizing off with
  | zero => exact .ret rfl
  | succ n ih =>
    refine (views_readDirent hi).seq fun de => ?_
    split_ifs
    · exact .ret rfl
    · exact ih _

theorem views_isdirempty (hi : v.held i = true) :
    Views (view p) p (isdirempty i) v fun _ w => w = v := by
  unfold isdirempty
  refine still_readInode.seq fun size => ?_
  exact views_isdiremptyFrom hi _ _

theorem views_isBusy (hi : v.held i = true) : Views (view p) p (isBusy i) v fun _ w => w = v := by
  unfold isBusy
  refine still_readInode.seq fun type => ?_
  split_ifs
  · refine (views_isdirempty hi).seq fun empty => ?_
    exact .ret rfl
  · exact .ret rfl

theorem views_unlinkBad (hd : v.held dp = false) :
    Views (view p) p (unlinkBad dp) ((v.addOut 1).own dp) fun _ w => w = v := by
  refine (views_iunlockput_own (v := v.addOut 1) hd).seq fun _ => ?_
  exact views_endOp_ret

theorem views_unlinkEntry {off : ℕ} (hne : dp ≠ ip) (hd : v.held dp = false)
    (hi : v.held ip = false) :
    Views (view p) p (unlinkEntry dp ip off) (((v.addOut 1).own ip).own dp) fun _ w => w = v := by
  refine (views_writei (View.own_held_self _ _)).seq fun r => ?_
  split_ifs
  · exact .panic
  · refine still_readInode.seq fun type => ?_
    refine (Still.when (Still.bind still_setNlink fun _ => still_iupdate)).seq fun _ => ?_
    have hd' : ((v.addOut 1).own ip).held dp = false := by
      rw [View.own_held_of_ne _ hne.symm]
      exact hd
    refine (views_iunlockput_own hd').seq fun _ => ?_
    refine still_setNlink.seq fun _ => ?_
    refine still_iupdate.seq fun _ => ?_
    refine (views_iunlockput_own (v := v.addOut 1) hi).seq fun _ => ?_
    exact views_endOp_ret

theorem views_unlinkFound {off : ℕ} (hd : v.held dp = false) :
    Views (view p) p (unlinkFound dp ip off) (((v.addOut 1).own dp).addRef ip 1)
      fun _ w => w = v := by
  refine views_ilock_own.bind ?_
  rintro _ _ ⟨hi, rfl⟩
  obtain ⟨hne, hi'⟩ := View.own_held_false hi
  refine still_readInode.seq fun nlink => ?_
  split_ifs
  · exact .panic
  · refine (views_isBusy (View.own_held_self _ _)).seq fun busy => ?_
    split_ifs
    · refine (views_iunlockput_own hi).seq fun _ => ?_
      exact views_unlinkBad hd
    · rw [View.own_comm hne]
      exact views_unlinkEntry hne hd hi'

theorem still_sysUnlink : Still (view p) p (sysUnlink p path) := by
  intro v
  cases path with
  | none => exact .ret rfl
  | some path =>
    refine views_beginOp.seq fun _ => ?_
    refine views_namex.seq fun r => ?_
    cases r with
    | none => exact views_endOp_ret
    | some x =>
      obtain ⟨dp, name⟩ := x
      refine views_ilock_own.bind ?_
      rintro _ _ ⟨hd, rfl⟩
      split_ifs
      · exact views_unlinkBad hd
      · refine (views_dirlookup (View.own_held_self _ _)).seq fun r => ?_
        cases r with
        | none => exact views_unlinkBad hd
        | some x => exact views_unlinkFound hd

theorem views_createDots (hi : v.held ip = true) :
    Views (view p) p (createDots dp ip) v fun _ w => w = v := by
  unfold createDots
  refine still_setNlink.seq fun _ => ?_
  refine still_iupdate.seq fun _ => ?_
  refine still_readInode.seq fun inum => ?_
  refine (views_dirlink hi).seq fun r => ?_
  split_ifs
  · exact .panic
  · refine still_readInode.seq fun dinum => ?_
    refine (views_dirlink hi).seq fun r => ?_
    exact Still.ite Still.panic Still.ret _

theorem views_createAt {name : Str} (hd : v.held dp = false) :
    Views (view p) p (createAt dp name type major minor) (v.own dp)
      fun ip w => v.held ip = false ∧ w = v.own ip := by
  refine still_readInode.seq fun dev => ?_
  refine views_ialloc.seq fun ip => ?_
  refine views_ilock_own.bind ?_
  rintro _ _ ⟨hi, rfl⟩
  obtain ⟨hne, hi'⟩ := View.own_held_false hi
  have hnew : Still (view p) p (modifyInode ip fun x =>
      { x with major := major, minor := minor, nlink := 1 }) := still_modifyInode fun _ => rfl
  refine hnew.seq fun _ => ?_
  refine still_iupdate.seq fun _ => ?_
  refine Views.bind (Q := fun _ w => w = (v.own dp).own ip) ?_ ?_
  · exact .when (fun _ => views_createDots (View.own_held_self _ _)) fun _ => rfl
  · rintro _ _ rfl
    refine still_readInode.seq fun inum => ?_
    rw [View.own_comm hne]
    refine (views_dirlink (View.own_held_self _ _)).seq fun r => ?_
    split_ifs
    · exact .panic
    · have hd' : (v.own ip).held dp = false := by
        rw [View.own_held_of_ne _ hne.symm]
        exact hd
      exact (views_iunlockput_own hd').bind fun _ _ hw => .ret ⟨hi', hw⟩

def Owns (v : View) (r : Option Slot) (w : View) : Prop :=
  match r with
  | none => w = v
  | some ip => v.held ip = false ∧ w = v.own ip

theorem views_create {path : Str} :
    Views (view p) p (create p path type major minor) v (Owns v) := by
  refine views_namex.seq fun r => ?_
  cases r with
  | none => exact .ret rfl
  | some x =>
    obtain ⟨dp, name⟩ := x
    refine views_ilock_own.bind ?_
    rintro _ _ ⟨hd, rfl⟩
    refine (views_dirlookup (View.own_held_self _ _)).seq fun r => ?_
    cases r with
    | none => exact (views_createAt hd).bind fun ip _ hw => .ret hw
    | some x =>
      obtain ⟨ip, off⟩ := x
      show Views (view p) p _ ((v.own dp).addRef ip 1) _
      rw [View.own_addRef]
      refine (views_iunlockput_own (v := v.addRef ip 1) hd).seq fun _ => ?_
      refine views_ilock_own.bind ?_
      rintro _ _ ⟨hi, rfl⟩
      refine still_readInode.seq fun t => ?_
      split_ifs
      · exact .ret ⟨hi, rfl⟩
      · exact (views_iunlockput_own hi).bind fun _ _ hw => .ret hw

theorem still_makeNode : Still (view p) p (makeNode p path type major minor) := by
  intro v
  refine views_beginOp.seq fun _ => ?_
  refine Views.bind (Q := Owns (v.addOut 1)) ?_ ?_
  · cases path with
    | none => exact .ret rfl
    | some path => exact views_create
  · intro r w hw
    cases r with
    | none => exact hw ▸ views_endOp_ret
    | some ip =>
      obtain ⟨hi, rfl⟩ := hw
      refine (views_iunlockput_own hi).seq fun _ => ?_
      exact views_endOp_ret

theorem still_sysMknod {major minor : Option ℤ} :
    Still (view p) p (sysMknod p path major minor) := by
  unfold sysMknod
  split
  · exact still_makeNode
  · exact still_makeNode

theorem still_allocuvm {oldsz newsz : ℕ} : Still (view p) p (allocuvm oldsz newsz) :=
  Still.ite Still.ret (Still.ite Still.ret (Still.bind still_answer fun _ => Still.ret))

theorem views_loaduvm (hi : v.held ip = true) (k off sz : ℕ) :
    Views (view p) p (loaduvm ip k off sz) v fun _ w => w = v := by
  induction k generalizing off sz with
  | zero => exact .ret rfl
  | succ k ih =>
    refine (views_readi hi).seq fun r => ?_
    split_ifs
    · exact .ret rfl
    · exact ih _ _

theorem views_loadSegments (hi : v.held ip = true) (k off sz : ℕ) :
    Views (view p) p (loadSegments ip k off sz) v fun _ w => w = v := by
  induction k generalizing off sz with
  | zero => exact .ret rfl
  | succ k ih =>
    refine (views_readi hi).seq fun r => ?_
    cases r with
    | none => exact .ret rfl
    | some l =>
      refine .ite (.ret rfl) (.ite (ih _ _) (.ite (.ret rfl) (.ite (.ret rfl) ?_)))
      refine still_allocuvm.seq fun sz => ?_
      refine .ite (.ret rfl) (.ite (.ret rfl) ?_)
      refine (views_loaduvm hi _ _ _).seq fun ok => ?_
      exact .ite (ih _ _) (.ret rfl)

theorem views_loadImage (hi : v.held ip = true) :
    Views (view p) p (loadImage ip) v fun _ w => w = v := by
  refine (views_readi hi).seq fun r => ?_
  cases r with
  | none => exact .ret rfl
  | some l =>
    refine .ite (.ret rfl) ?_
    refine still_answer.seq fun pgdir => ?_
    exact .ite (views_loadSegments hi _ _ _) (.ret rfl)

theorem still_pushArgs (argc : ℕ) (argv : List Str) : Still (view p) p (pushArgs argc argv) := by
  induction argv generalizing argc with
  | nil => exact Still.bind still_answer fun _ => Still.ret
  | cons _ argv ih =>
    exact Still.ite Still.ret (Still.bind still_answer fun _ => Still.ite (ih _) Still.ret)

theorem still_exec {path : Str} {argv : List Str} : Still (view p) p (exec p path argv) := by
  intro v
  refine views_beginOp.seq fun _ => ?_
  refine views_namei.seq fun r => ?_
  cases r with
  | none => exact views_endOp_ret
  | some ip =>
    refine views_ilock_own.bind ?_
    rintro _ _ ⟨hi, rfl⟩
    refine (views_loadImage (View.own_held_self _ _)).seq fun image => ?_
    refine (views_iunlockput_own hi).seq fun _ => ?_
    refine views_endOp.seq fun _ => ?_
    rw [View.addOut_neg]
    cases image with
    | none => exact .ret rfl
    | some sz =>
      exact Still.bind still_allocuvm (fun sz => Still.ite Still.ret (still_pushArgs _ _)) v

theorem still_sysExec {argv : Option (List Str)} : Still (view p) p (sysExec p path argv) := by
  unfold sysExec
  split
  · exact still_exec
  · exact Still.ret

theorem still_argfd : Still (view p) p (argfd p fd) := by
  unfold argfd
  cases fd with
  | none => exact Still.ret
  | some fd =>
    simp only
    split_ifs
    · exact Still.bind Still.read fun _ => Still.ret
    · exact Still.ret

theorem views_filestat : Views (view p) p (filestat f) v fun _ w => w = v := by
  refine Views.bind (Q := fun _ w => w = v) (.read fun _ => rfl) ?_
  rintro x _ rfl
  cases x.type with
  | fdInode =>
    refine views_ilock.bind ?_
    rintro _ _ ⟨hi, rfl⟩
    refine still_readInode.seq fun st => ?_
    refine views_iunlock.seq fun _ => ?_
    exact .ret (View.unlock_lock hi)
  | fdPipe | fdNone => exact .ret rfl

theorem still_sysFstat {st : Bool} : Still (view p) p (sysFstat p fd st) := by
  refine Still.bind still_argfd fun r => ?_
  cases r with
  | none => exact Still.ret
  | some x => exact Still.ite (Still.bind (fun _ => views_filestat) fun _ => Still.ret) Still.ret

namespace View

def setFile (v : View) (f : Fin NFILE) (x : File) : View :=
  { v with file := update v.file f x }

def setProc (v : View) (q : Pid) (x : Proc) : View :=
  { v with proc := update v.proc q x }

def dropFile (v : View) (x : File) : View :=
  match x.type with
  | .fdInode => v.addRef x.ip (-1)
  | _ => v

def close (v : View) (f : Fin NFILE) : View :=
  if 1 < (v.file f).ref then v.setFile f { v.file f with ref := (v.file f).ref - 1 }
  else (v.setFile f { v.file f with ref := 0, type := .fdNone }).dropFile (v.file f)

end View

theorem views_filedrop : Views (view p) p (filedrop f) v fun r w => 1 ≤ (v.file f).ref ∧
      match r with
      | none => 1 < (v.file f).ref ∧ w = v.setFile f { v.file f with ref := (v.file f).ref - 1 }
      | some x => ¬ 1 < (v.file f).ref ∧ x = v.file f ∧
          w = v.setFile f { v.file f with ref := 0, type := .fdNone } := by
  rintro s rfl
  rw [filedrop, Prog.wp_atomic]
  split_ifs with h1 h2
  · trivial
  · exact ⟨not_lt.mp h1, by show 1 < (s.st.file f).ref; omega, rfl⟩
  · exact ⟨not_lt.mp h1, by show ¬ 1 < (s.st.file f).ref; omega, rfl, rfl⟩

theorem views_fileclose :
    Views (view p) p (fileclose f) v fun _ w => 1 ≤ (v.file f).ref ∧ w = v.close f := by
  refine views_filedrop.bind ?_
  rintro r w ⟨hr, hw⟩
  unfold View.close
  cases r with
  | none =>
    obtain ⟨hlt, rfl⟩ := hw
    rw [if_pos hlt]
    exact .ret ⟨hr, rfl⟩
  | some x =>
    obtain ⟨hlt, rfl, rfl⟩ := hw
    rw [if_neg hlt]
    unfold View.dropFile
    cases hx : (v.file f).type with
    | fdInode =>
      simp only [hx]
      refine views_beginOp.seq fun _ => ?_
      refine views_iput.bind ?_
      rintro _ _ ⟨-, rfl⟩
      refine views_endOp.mono ?_
      rintro _ _ rfl
      exact ⟨hr, View.addOut_addRef _ _ _⟩
    | fdPipe | fdNone =>
      simp only [hx]
      exact .ret ⟨hr, rfl⟩

theorem views_setOfile {fd : Fin NOFILE} {f : Option (Fin NFILE)} :
    Views (view p) p (setOfile q fd f) v fun _ w =>
      w = v.setProc q { v.proc q with ofile := update (v.proc q).ofile fd f } := by
  rintro s rfl
  rfl

theorem views_sysClose : Views (view p) p (sysClose p fd) v fun _ w => w = v ∨ ∃ o f,
      1 ≤ (v.file f).ref ∧ w = (v.setProc p { v.proc p with ofile := o }).close f := by
  refine still_argfd.seq fun r => ?_
  cases r with
  | none => exact .ret (.inl rfl)
  | some x =>
    obtain ⟨fd, f⟩ := x
    refine views_setOfile.seq fun _ => ?_
    refine views_fileclose.bind ?_
    rintro _ _ ⟨hr, rfl⟩
    exact .ret (.inr ⟨_, f, hr, rfl⟩)

theorem views_filealloc :
    Views (view p) p filealloc v fun r w => match r with
      | none => w = v
      | some f => (v.file f).ref = 0 ∧ w = v.setFile f { v.file f with ref := 1 } := by
  rintro s rfl
  rw [filealloc, Prog.wp_atomic]
  split
  · rename_i f hf
    have h0 : (s.st.file f).ref = 0 := by simpa using List.find?_some hf
    exact ⟨h0, rfl⟩
  · rfl

theorem views_fdalloc : Views (view p) p (fdalloc p f) v fun r w => match r with
      | none => w = v
      | some _ => ∃ o, w = v.setProc p { v.proc p with ofile := o } := by
  rintro s rfl
  rw [fdalloc, Prog.wp_atomic]
  split
  · exact ⟨_, rfl⟩
  · rfl

theorem View.close_alloc (hr : (v.file f).ref = 0) (ht : (v.file f).type = .fdNone) :
    (v.setFile f { v.file f with ref := 1 }).close f = v := by
  have hx : ({ v.file f with ref := 0, type := .fdNone } : File) = v.file f := by
    rw [← hr, ← ht]
  unfold close
  rw [if_neg (by simp [setFile])]
  simp only [setFile, update_self, update_idem, dropFile, ht, hx,
    update_eq_self]

theorem views_openFile (hfree : ∀ f, (v.file f).ref = 0 → (v.file f).type = .fdNone) :
    Views (view p) p (openFile p) v fun r w => match r with
      | none => w = v
      | some (f, _) => (v.file f).ref = 0 ∧ ∃ o,
          w = (v.setFile f { v.file f with ref := 1 }).setProc p { v.proc p with ofile := o } := by
  refine views_filealloc.bind ?_
  rintro r w hw
  cases r with
  | none => exact .ret hw
  | some f =>
    obtain ⟨hr, rfl⟩ := hw
    refine views_fdalloc.bind ?_
    rintro fd w hw
    cases fd with
    | none =>
      subst hw
      refine views_fileclose.bind ?_
      rintro _ _ ⟨-, rfl⟩
      exact .ret (View.close_alloc hr (hfree f hr))
    | some fd =>
      obtain ⟨o, rfl⟩ := hw
      exact .ret ⟨hr, o, rfl⟩

theorem views_modifyFile {g : File → File} :
    Views (view p) p (modifyFile f g) v fun _ w => w = v.setFile f (g (v.file f)) := by
  rintro s rfl
  rfl

theorem views_openInode {path : Str} {omode : ℕ} :
    Views (view p) p (openInode p path omode) v (Owns v) := by
  refine .ite views_create ?_
  refine views_namei.seq fun r => ?_
  cases r with
  | none => exact .ret rfl
  | some ip =>
    refine views_ilock_own.bind ?_
    rintro _ _ ⟨hi, rfl⟩
    refine still_readInode.seq fun type => ?_
    exact .ite ((views_iunlockput_own hi).bind fun _ _ hw => .ret hw) (.ret ⟨hi, rfl⟩)

/-- A new open file takes the place of a free one and has a reference to its inode. -/
def View.opened (v : View) (q : Pid) (f : Fin NFILE) (x : File) (o : Fin NOFILE → Option (Fin NFILE)) :
    View :=
  ((v.setFile f x).setProc q { v.proc q with ofile := o }).addRef x.ip 1

theorem views_sysOpen {omode : Option ℕ}
    (hfree : ∀ f, (v.file f).ref = 0 → (v.file f).type = .fdNone) :
    Views (view p) p (sysOpen p path omode) v fun _ w => w = v ∨ ∃ f x o,
      (v.file f).ref = 0 ∧ x.ref = 1 ∧ x.type = .fdInode ∧ w = v.opened p f x o := by
  unfold sysOpen
  split
  · rename_i path omode
    refine views_beginOp.seq fun _ => ?_
    refine views_openInode.bind ?_
    rintro r w hw
    cases r with
    | none => exact hw ▸ views_endOp_ret.mono fun _ _ h => .inl h
    | some ip =>
      obtain ⟨hi, rfl⟩ := hw
      refine (views_openFile (v := (v.addOut 1).own ip) hfree).bind ?_
      rintro r w hw
      cases r with
      | none =>
        subst hw
        refine (views_iunlockput_own hi).seq fun _ => ?_
        exact views_endOp_ret.mono fun _ _ h => .inl h
      | some x =>
        obtain ⟨f, fd⟩ := x
        obtain ⟨hr, o, rfl⟩ := hw
        let w := (v.setFile f { v.file f with ref := 1 }).setProc p { v.proc p with ofile := o }
        refine (views_iunlock_own (v := w.addOut 1) hi).seq fun _ => ?_
        refine views_endOp.seq fun _ => ?_
        rw [View.addOut_addRef]
        refine views_modifyFile.seq fun _ => ?_
        let x : File := ⟨.fdInode, 1, !isWronly omode, isWronly omode || isRdwr omode, ip, 0⟩
        refine .ret (.inr ⟨f, x, o, hr, rfl, rfl, ?_⟩)
        simp [View.opened, View.setFile, View.setProc, View.addRef, w, x]
  · exact .ret (.inl rfl)

theorem views_putCwd :
    Views (view p) p (putCwd p) v fun _ w =>
      ∃ c, (v.proc p).cwd = some c ∧ w = v.addRef c (-1) := by
  rintro s rfl
  unfold putCwd
  simp only [Prog.bind_eq, Prog.wp_bind, Prog.wp_read]
  cases hc : (s.st.proc p).cwd with
  | none => trivial
  | some c => exact Prog.wp_imp (views_iput s rfl) fun _ _ h => ⟨c, hc, h.2⟩

theorem views_setCwd {i : Option Slot} :
    Views (view p) p (setCwd q i) v fun _ w => w = v.setProc q { v.proc q with cwd := i } := by
  rintro s rfl
  rfl

theorem views_sysChdir : Views (view p) p (sysChdir p path) v fun _ w => w = v ∨ ∃ c i,
      (v.proc p).cwd = some c ∧
      w = ((v.addRef i 1).addRef c (-1)).setProc p { v.proc p with cwd := some i } := by
  refine views_beginOp.seq fun _ => ?_
  refine Views.bind (Q := fun r w => w = r.elim (v.addOut 1) fun i => (v.addOut 1).addRef i 1) ?_ ?_
  · cases path with
    | none => exact .ret rfl
    | some path => exact views_namei
  · rintro r _ rfl
    cases r with
    | none => exact views_endOp_ret.mono fun _ _ h => .inl h
    | some i =>
      refine views_ilock_own.bind ?_
      rintro _ _ ⟨hi, rfl⟩
      refine still_readInode.seq fun type => ?_
      refine .ite ?_ ?_
      · refine (views_iunlockput_own hi).seq fun _ => ?_
        exact views_endOp_ret.mono fun _ _ h => .inl h
      · refine (views_iunlock_own hi).seq fun _ => ?_
        refine views_putCwd.bind ?_
        rintro _ _ ⟨c, hc, rfl⟩
        refine views_endOp.seq fun _ => ?_
        show Views (view p) p _ ((((v.addRef i 1).addOut 1).addRef c (-1)).addOut (-1)) _
        rw [View.addOut_addRef]
        refine views_setCwd.seq fun _ => ?_
        exact .ret (.inr ⟨c, i, hc, rfl⟩)

/-- An open file of type `FD_INODE` that points to inode `i`. -/
def opensInode (i : Slot) (x : File) : Bool := decide (0 < x.ref ∧ x.type = .fdInode ∧ x.ip = i)

def isCwd (i : Slot) (x : Proc) : Bool := decide (x.cwd = some i)

/-- `ref` counts the open files and the current directories. -/
def Balanced (ref : Slot → ℤ) (file : Fin NFILE → File) (proc : Pid → Proc) : Prop :=
  ∀ i, ref i = count (opensInode i) file + count (isCwd i) proc

def FreeFiles (file : Fin NFILE → File) : Prop := ∀ f, (file f).ref = 0 → (file f).type = .fdNone

structure Ok (v : View) : Prop where
  balanced : Balanced v.ref v.file v.proc
  free : FreeFiles v.file

theorem count_ofile {o : Fin NOFILE → Option (Fin NFILE)} (i : Slot) (pr : Pid → Proc) :
    count (isCwd i) (update pr q { pr q with ofile := o }) = count (isCwd i) pr := by
  rw [count_update]
  show _ + (if isCwd i (pr q) then 1 else 0) - _ = _
  omega

theorem FreeFiles.update {file : Fin NFILE → File} (h : FreeFiles file) {x : File}
    (hx : x.ref = 0 → x.type = .fdNone) : FreeFiles (update file f x) := by
  intro g hg
  by_cases hgf : g = f
  · subst hgf
    simp only [update_self] at hg ⊢
    exact hx hg
  · simp only [update_of_ne hgf] at hg ⊢
    exact h g hg

section

variable (h : Ok v)
include h

theorem Ok.setOfile (q : Pid) (o : Fin NOFILE → Option (Fin NFILE)) :
    Ok (v.setProc q { v.proc q with ofile := o }) where
  balanced i := by
    show v.ref i = _ + count (isCwd i) (update v.proc q _)
    rw [count_ofile]
    exact h.balanced i
  free := h.free

theorem Ok.setRef {n : ℤ} (hf : 1 ≤ (v.file f).ref) (hn : 1 ≤ n) :
    Ok (v.setFile f { v.file f with ref := n }) where
  balanced i := by
    have hsame : opensInode i { v.file f with ref := n } = opensInode i (v.file f) := by
      simp only [opensInode, decide_eq_decide]
      constructor
      · exact fun h => ⟨by omega, h.2⟩
      · exact fun h => ⟨by omega, h.2⟩
    show v.ref i = count _ (update v.file f _) + _
    rw [count_update, hsame, h.balanced i]
    show _ = _ + _ + count (isCwd i) v.proc
    omega
  free := h.free.update fun h0 => by
    simp only at h0
    omega

theorem Ok.close (hf : 1 ≤ (v.file f).ref) : Ok (v.close f) := by
  unfold View.close
  split_ifs with h1
  · exact h.setRef hf (by omega)
  · have hfree : FreeFiles (update v.file f { v.file f with ref := 0, type := .fdNone }) :=
      h.free.update fun _ => rfl
    have hcount : ∀ i, count (opensInode i)
        (update v.file f { v.file f with ref := 0, type := .fdNone }) =
        count (opensInode i) v.file - if opensInode i (v.file f) then 1 else 0 := by
      intro i
      rw [count_update]
      simp [opensInode]
    have hopen : ∀ i, opensInode i (v.file f) =
        decide ((v.file f).type = .fdInode ∧ i = (v.file f).ip) := by
      intro i
      simp only [opensInode, decide_eq_decide]
      constructor
      · rintro ⟨_, ht, rfl⟩
        exact ⟨ht, rfl⟩
      · rintro ⟨ht, rfl⟩
        exact ⟨by omega, ht, rfl⟩
    unfold View.dropFile
    cases ht : (v.file f).type with
    | fdInode =>
      refine ⟨fun i => ?_, hfree⟩
      show v.ref i + (if i = (v.file f).ip then -1 else 0) = count _ (update v.file f _) + _
      rw [hcount, hopen, ht, h.balanced i]
      simp only [true_and, decide_eq_true_eq]
      show _ = _ + count (isCwd i) v.proc
      split_ifs <;> omega
    | _ =>
      refine ⟨fun i => ?_, hfree⟩
      show v.ref i = count _ (update v.file f _) + _
      rw [hcount, hopen, ht, h.balanced i]
      simp [View.setFile]

theorem Ok.opened (q : Pid) {x : File} (o : Fin NOFILE → Option (Fin NFILE))
    (hf : (v.file f).ref = 0) (hr : x.ref = 1) (ht : x.type = .fdInode) :
    Ok (v.opened q f x o) where
  balanced i := by
    have hold : opensInode i (v.file f) = false := by simp [opensInode, hf]
    have hnew : opensInode i x = decide (i = x.ip) := by simp [opensInode, hr, ht, eq_comm]
    show v.ref i + (if i = x.ip then 1 else 0) =
      count _ (update v.file f x) + count (isCwd i) (update v.proc q _)
    rw [count_update, count_ofile, hold, hnew, h.balanced i]
    simp only [decide_eq_true_eq, Bool.false_eq_true, if_false]
    omega
  free := h.free.update fun h0 => by omega

theorem Ok.setCwd {c : Option Slot} {ref : Slot → ℤ}
    (hr : ∀ j, ref j = v.ref j + (if c = some j then 1 else 0) - (if (v.proc q).cwd = some j then 1 else 0)) :
    Ok { v with ref := ref, proc := update v.proc q { v.proc q with cwd := c } } where
  balanced j := by
    show ref j = _ + count (isCwd j) (update v.proc q _)
    rw [count_update, hr, h.balanced j]
    simp only [isCwd, decide_eq_true_eq]
    show _ = count (opensInode j) v.file + _
    omega
  free := h.free

theorem views_closeFiles (l : List (Fin NOFILE)) :
    Views (view p) p (closeFiles p l) v fun _ w => Ok w := by
  induction l generalizing v with
  | nil => exact .ret h
  | cons fd l ih =>
    refine Views.bind (Q := fun _ w => w = v) (.read fun _ => rfl) ?_
    rintro f _ rfl
    cases f with
    | none => exact ih h
    | some f =>
      refine views_fileclose.bind ?_
      rintro _ _ ⟨hf, rfl⟩
      refine views_setOfile.seq fun _ => ?_
      exact ih ((h.close hf).setOfile p _)

theorem views_exit : Views (view p) p (exit p) v fun _ w => Ok w := by
  refine (views_closeFiles h _).bind fun _ v h => ?_
  refine views_beginOp.seq fun _ => ?_
  refine views_putCwd.bind ?_
  rintro _ _ ⟨c, hc, rfl⟩
  refine views_endOp.seq fun _ => ?_
  rw [View.addOut_addRef]
  refine views_setCwd.mono ?_
  rintro _ _ rfl
  refine h.setCwd fun j => ?_
  have hc' : (v.proc p).cwd = some c := hc
  by_cases hj : j = c
  · subst hj
    simp [View.addRef, hc', sub_eq_add_neg]
  · simp [View.addRef, hc', hj, Ne.symm hj]

theorem views_dupFiles (np : Pid) (l : List (Fin NOFILE)) :
    Views (view p) p (dupFiles p np l) v fun _ w =>
      Ok w ∧ ∀ q, (w.proc q).cwd = (v.proc q).cwd := by
  induction l generalizing v with
  | nil => exact .ret ⟨h, fun _ => rfl⟩
  | cons fd l ih =>
    refine Views.bind (Q := fun _ w => w = v) (.read fun _ => rfl) ?_
    rintro f v rfl
    cases f with
    | none => exact ih h
    | some f =>
      refine Views.bind (Q := fun _ w => 1 ≤ (v.file f).ref ∧
        w = v.setFile f { v.file f with ref := (v.file f).ref + 1 }) ?_ ?_
      · rintro s rfl
        rw [filedup, Prog.wp_atomic]
        split_ifs with hf
        · trivial
        · exact ⟨not_lt.mp hf, rfl⟩
      · rintro _ _ ⟨hf, rfl⟩
        refine views_setOfile.seq fun _ => ?_
        refine (ih ((h.setRef hf (by omega)).setOfile np _)).mono ?_
        rintro _ w ⟨hw, hcwd⟩
        refine ⟨hw, fun q => (hcwd q).trans ?_⟩
        by_cases hq : q = np
        · subst hq
          simp [View.setProc, View.setFile]
        · simp [View.setProc, View.setFile, hq]

theorem views_fork {np : Pid} (hnp : (v.proc np).cwd = none) :
    Views (view p) p (fork p np) v fun _ w => Ok w := by
  refine (views_dupFiles h np _).bind ?_
  rintro _ w ⟨hw, hcwd⟩
  refine Views.bind (Q := fun _ u => u = w) (.read fun _ => rfl) ?_
  rintro c w rfl
  cases c with
  | none => exact .panic
  | some i =>
    refine views_idup.bind ?_
    rintro i _ ⟨rfl, rfl⟩
    refine views_setCwd.seq fun _ => ?_
    refine .ret (hw.setCwd fun j => ?_)
    have hnp' : (w.proc np).cwd = none := (hcwd np).trans hnp
    by_cases hj : j = i
    · subst hj
      simp [View.addRef, hnp']
    · simp [View.addRef, hnp', hj, Ne.symm hj]

end

inductive Call where
  | open (path : Option Str) (omode : Option ℕ)
  | link (old new : Option Str)
  | unlink (path : Option Str)
  | mkdir (path : Option Str)
  | mknod (path : Option Str) (major minor : Option ℤ)
  | chdir (path : Option Str)
  | exec (path : Option Str) (argv : Option (List Str))
  | close (fd : Option ℤ)
  | fstat (fd : Option ℤ) (st : Bool)

def Call.prog (p : Pid) : Call → FsM ℤ
  | .open path omode => sysOpen p path omode
  | .link old new => sysLink p old new
  | .unlink path => sysUnlink p path
  | .mkdir path => sysMkdir p path
  | .mknod path major minor => sysMknod p path major minor
  | .chdir path => sysChdir p path
  | .exec path argv => sysExec p path argv
  | .close fd => sysClose p fd
  | .fstat fd st => sysFstat p fd st

theorem views_call (c : Call) (h : Ok v) :
    Views (view p) p (c.prog p) v fun _ w =>
      w.held = v.held ∧ w.outstanding = v.outstanding ∧ Ok w := by
  have same : ∀ {x : FsM ℤ}, Still (view p) p x → Views (view p) p x v fun _ w =>
      w.held = v.held ∧ w.outstanding = v.outstanding ∧ Ok w :=
    fun hx => hx.views fun _ => ⟨rfl, rfl, h⟩
  cases c with
  | «open» path omode =>
    refine (views_sysOpen h.free).mono ?_
    rintro _ _ (rfl | ⟨f, x, o, hf, hr, ht, rfl⟩)
    · exact ⟨rfl, rfl, h⟩
    · exact ⟨rfl, rfl, h.opened p o hf hr ht⟩
  | link old new => exact same still_sysLink
  | unlink path => exact same still_sysUnlink
  | mkdir path => exact same still_makeNode
  | mknod path major minor => exact same still_sysMknod
  | chdir path =>
    refine views_sysChdir.mono ?_
    rintro _ _ (rfl | ⟨c, i, hc, rfl⟩)
    · exact ⟨rfl, rfl, h⟩
    · refine ⟨rfl, rfl, h.setCwd fun j => ?_⟩
      show v.ref j + (if j = i then 1 else 0) + (if j = c then -1 else 0) = _
      simp only [hc, Option.some.injEq, eq_comm (b := j)]
      split_ifs <;> omega
  | exec path argv => exact same still_sysExec
  | close fd =>
    refine views_sysClose.mono ?_
    rintro _ _ (rfl | ⟨o, f, hf, rfl⟩)
    · exact ⟨rfl, rfl, h⟩
    · refine ⟨?_, ?_, (h.setOfile p o).close hf⟩
      · unfold View.close View.dropFile
        split_ifs
        · rfl
        · split <;> rfl
      · unfold View.close View.dropFile
        split_ifs
        · rfl
        · split <;> rfl
  | fstat fd st => exact same still_sysFstat

/-- A call that returns has given back every lock, transaction and reference that it took: for
every inode `ref` is the number of open files and current directories, as it was before. -/
theorem call_balance (c : Call) (p : Pid) {s t : Shared Fs Slot Pid} {r : ℤ}
    (hlock : ∀ i, s.owner i ≠ some p) (hfree : FreeFiles s.st.file)
    (hbal : Balanced (fun i => (s.st.inode i).ref) s.st.file s.st.proc)
    (hrun : (c.prog p).run p s = .done r t) :
    (∀ i, t.owner i ≠ some p) ∧ t.st.log.outstanding = s.st.log.outstanding ∧
    Balanced (fun i => (t.st.inode i).ref) t.st.file t.st.proc ∧ FreeFiles t.st.file := by
  have h : Ok (view p s) := ⟨hbal, hfree⟩
  obtain ⟨hheld, hout, hok⟩ := (views_call c h).run hrun
  refine ⟨fun i hi => hlock i ?_, hout, hok.balanced, hok.free⟩
  have := congrFun hheld i
  simpa [view, hi] using this

theorem boot_balanced (env : ℕ → Option (List UInt8)) :
    Balanced (fun i => ((boot env).inode i).ref) (boot env).file (boot env).proc := by
  intro i
  have hf : count (opensInode i) (boot env).file = 0 := by
    simp [count, boot, opensInode, File.empty]
  have hp : count (isCwd i) (boot env).proc = if i = ⟨0, by decide⟩ then 1 else 0 := by
    rw [boot, count_update]
    simp [count, isCwd, eq_comm]
  rw [hf, hp, boot]
  by_cases hi : i = ⟨0, by decide⟩
  · simp [hi]
  · simp [hi, Inode.empty]

def openRoot : Call := .open (some [slash]) (some O_RDONLY)

def afterOpenRoot : Shared Fs Slot Pid :=
  (((openRoot.prog initproc).run initproc (started fun _ => none)).result.get rfl).2

theorem call_balance_openRoot : (openRoot.prog initproc).run initproc (started fun _ => none) =
      .done 0 afterOpenRoot ∧
    Balanced (fun i => (afterOpenRoot.st.inode i).ref) afterOpenRoot.st.file
      afterOpenRoot.st.proc := by
  have hrun : (openRoot.prog initproc).run initproc (started fun _ => none) =
      .done 0 afterOpenRoot := Outcome.eq_done rfl
  have h := call_balance openRoot initproc (fun _ => by simp [started]) (fun f _ => rfl) (boot_balanced _) hrun
  exact ⟨hrun, h.2.2.1⟩

end Xv6.Balance
