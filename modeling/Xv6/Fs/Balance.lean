import Xv6.Lib.Count
import Xv6.Lib.View
import Xv6.Exec

namespace Xv6.Balance
open Lib Function
open Lib.Prog (Still Views)

/-- The part of the state that the balance is about. -/
@[ext] structure View where
  ref : Slot → ℤ
  file : Fin NFILE → File
  proc : Pid → Proc
  held : Slot → Bool
  outstanding : ℤ

def view (p : Pid) (s : Shared Fs Slot Pid) : View where
  ref i := (s.st.inode i).ref
  file := s.st.file
  proc := s.st.proc
  held i := decide (s.owner i = some p)
  outstanding := s.st.log.outstanding

namespace View

def addRef (v : View) (i : Slot) (n : ℤ) : View :=
  { v with ref := fun j => v.ref j + if j = i then n else 0 }

def lock (v : View) (i : Slot) : View := { v with held := update v.held i true }

def unlock (v : View) (i : Slot) : View := { v with held := update v.held i false }

@[simp] theorem addRef_held (v : View) (i : Slot) (n : ℤ) : (v.addRef i n).held = v.held := rfl

theorem addRef_neg (v : View) (i : Slot) (n : ℤ) : (v.addRef i n).addRef i (-n) = v := by
  unfold addRef
  ext j
  · show v.ref j + (if j = i then n else 0) + (if j = i then -n else 0) = v.ref j
    split_ifs <;> omega
  all_goals rfl

theorem addRef_comm (v : View) (i j : Slot) (m n : ℤ) :
    (v.addRef i m).addRef j n = (v.addRef j n).addRef i m := by
  unfold addRef
  ext k
  · show v.ref k + (if k = i then m else 0) + (if k = j then n else 0) =
      v.ref k + (if k = j then n else 0) + (if k = i then m else 0)
    omega
  all_goals rfl

variable {i j : Slot}

theorem unlock_lock {v : View} (h : v.held i = false) : (v.lock i).unlock i = v := by
  unfold lock unlock
  simp [← h]

theorem lock_unlock {v : View} (h : v.held i = true) : (v.unlock i).lock i = v := by
  unfold lock unlock
  simp [← h]

def own (v : View) (i : Slot) : View := (v.lock i).addRef i 1

@[simp] theorem own_held_self (v : View) (i : Slot) : (v.own i).held i = true := by
  simp [own, lock]

theorem own_held_of_ne (v : View) (h : i ≠ j) : (v.own i).held j = v.held j := by
  simp [own, lock, h.symm]

theorem own_held_false {v : View} (h : (v.own i).held j = false) : i ≠ j ∧ v.held j = false := by
  have hij : i ≠ j := by
    rintro rfl
    simp at h
  exact ⟨hij, by rwa [own_held_of_ne v hij] at h⟩

theorem own_comm {v : View} (h : i ≠ j) : (v.own i).own j = (v.own j).own i := by
  have hl : (v.lock i).lock j = (v.lock j).lock i := by
    unfold lock
    simp [update_comm h]
  show (((v.lock i).lock j).addRef i 1).addRef j 1 = (((v.lock j).lock i).addRef j 1).addRef i 1
  rw [hl, addRef_comm]

theorem own_addRef (v : View) (i j : Slot) (n : ℤ) :
    (v.own i).addRef j n = (v.addRef j n).own i := by
  show ((v.lock i).addRef i 1).addRef j n = ((v.lock i).addRef j n).addRef i 1
  rw [addRef_comm]

theorem unlock_own {v : View} (h : v.held i = false) : (v.own i).unlock i = v.addRef i 1 := by
  show ((v.lock i).unlock i).addRef i 1 = v.addRef i 1
  rw [unlock_lock h]

end View

variable {p : Pid} {v : View} {s : Shared Fs Slot Pid} {i : Slot} {b k dev off : ℕ}
  {name path : Str} {parent : Bool}

theorem view_congr {t : Fs} (hr : ∀ i, (t.inode i).ref = (s.st.inode i).ref)
    (hf : t.file = s.st.file) (hp : t.proc = s.st.proc)
    (ho : t.log.outstanding = s.st.log.outstanding) : view p { s with st := t } = view p s := by
  unfold view
  simp only [hr, hf, hp, ho]

theorem still_modifyInode {f : Inode → Inode} (hf : ∀ ip, (f ip).ref = ip.ref) :
    Still (view p) p (modifyInode i f) := by
  apply Still.modify
  intro s
  refine view_congr (fun j => ?_) rfl rfl rfl
  by_cases hj : j = i
  · subst hj
    simp [hf]
  · simp [hj]

theorem still_readInode {α : Type} {f : Inode → α} : Still (view p) p (readInode i f) := Still.read

theorem logged_view {α : Type} {a : α} {t : Fs} (hi : t.inode = s.st.inode)
    (hf : t.file = s.st.file) (hp : t.proc = s.st.proc) :
    (logged b a s.st t).Sat (fun _ => True) fun _ u => view p { s with st := u } = view p s := by
  unfold logged
  cases s.st.log.logWriteCheck with
  | some m => trivial
  | none => exact view_congr (fun i => by rw [← hi]) hf hp rfl

theorem still_bzero : Still (view p) p (bzero b) :=
  Still.atomic fun _ => logged_view rfl rfl rfl

theorem still_ballocFrom (k b : ℕ) : Still (view p) p (ballocFrom k b) := by
  induction k generalizing b with
  | zero => exact Still.panic
  | succ k ih =>
    refine Still.bind (Still.atomic fun s => ?_) fun r => ?_
    · cases firstFree s.st.bitmap b (min BPB (s.st.sb.size - b)) with
      | some c => exact logged_view rfl rfl rfl
      | none => rfl
    · cases r with
      | some c => exact Still.bind still_bzero fun _ => Still.ret
      | none => exact ih _

theorem still_balloc : Still (view p) p balloc :=
  Still.bind Still.read fun _ => still_ballocFrom _ _

theorem still_bfree : Still (view p) p (bfree b) := by
  apply Still.atomic
  intro s
  show Outcome.Sat (if _ then _ else _) _ _
  split_ifs
  · trivial
  · exact logged_view rfl rfl rfl

theorem still_iupdate : Still (view p) p (iupdate i) :=
  Still.atomic fun _ => logged_view rfl rfl rfl

theorem still_setAddr {a : ℕ} : Still (view p) p (modifyInode i (·.setAddr k a)) :=
  still_modifyInode fun _ => rfl

theorem still_addrOrAlloc : Still (view p) p (addrOrAlloc i k) := by
  refine Still.bind still_readInode fun a => Still.ite ?_ Still.ret
  exact Still.bind still_balloc fun b => Still.bind still_setAddr fun _ => Still.ret

theorem still_entryOrAlloc {a : ℕ} : Still (view p) p (entryOrAlloc a k) := by
  refine Still.bind Still.read fun a => Still.ite ?_ Still.ret
  refine Still.bind still_balloc fun b => Still.bind ?_ fun _ => Still.ret
  exact Still.atomic fun _ => logged_view rfl rfl rfl

theorem still_bmap {bn : ℕ} : Still (view p) p (bmap i bn) :=
  Still.ite still_addrOrAlloc (Still.ite
    (Still.bind still_addrOrAlloc fun _ => still_entryOrAlloc) Still.panic)

theorem still_freeDirect (n k : ℕ) : Still (view p) p (freeDirect i n k) := by
  induction n generalizing k with
  | zero => exact Still.ret
  | succ n ih =>
    refine Still.bind still_readInode fun a => Still.bind (Still.when ?_) fun _ => ih _
    exact Still.bind still_bfree fun _ => still_setAddr

theorem still_freeEntries {a : Block} (n k : ℕ) : Still (view p) p (freeEntries a n k) := by
  induction n generalizing k with
  | zero => exact Still.ret
  | succ n ih => exact Still.bind (Still.when still_bfree) fun _ => ih _

theorem still_itrunc : Still (view p) p (itrunc i) := by
  refine Still.bind (still_freeDirect _ _) fun _ => Still.bind still_readInode fun a => ?_
  refine Still.bind (Still.when ?_) fun _ =>
    Still.bind (still_modifyInode fun _ => rfl) fun _ => still_iupdate
  refine Still.bind Still.read fun _ => Still.bind (still_freeEntries _ _) fun _ => ?_
  exact Still.bind still_bfree fun _ => still_setAddr

theorem still_ifree : Still (view p) p (ifree i) := by
  refine Still.bind still_readInode fun r => Still.when ?_
  refine Still.bind still_itrunc fun _ => Still.bind (still_modifyInode fun _ => rfl) fun _ => ?_
  exact Still.bind still_iupdate fun _ => still_modifyInode fun _ => rfl

theorem still_answer : Still (view p) p answer := Still.atomic fun _ => rfl

theorem still_iload : Still (view p) p (iload i) := by
  apply Still.atomic
  intro s
  show Outcome.Sat (if _ then _ else _) _ _
  split_ifs
  · rfl
  · trivial
  · refine view_congr (fun j => ?_) rfl rfl rfl
    by_cases hj : j = i
    · subst hj
      simp
    · simp [hj]

theorem still_readLoop (k off n : ℕ) : Still (view p) p (readLoop i k off n) := by
  induction k generalizing off n with
  | zero => exact Still.ret
  | succ k ih =>
    refine Still.ite Still.ret (Still.bind still_bmap fun a => ?_)
    exact Still.bind Still.read fun _ => Still.bind (ih _ _) fun _ => Still.ret

theorem still_writeLoop (k off : ℕ) (src : List UInt8) :
    Still (view p) p (writeLoop i k off src) := by
  induction k generalizing off src with
  | zero => exact Still.ret
  | succ k ih =>
    refine Still.ite Still.ret (Still.bind still_bmap fun a => ?_)
    exact Still.bind (Still.atomic fun _ => logged_view rfl rfl rfl) fun _ => ih _ _

theorem views_iget {inum : ℕ} : Views (view p) p (iget dev inum) v fun i w => w = v.addRef i 1 := by
  rintro s rfl
  rw [iget, Prog.wp_atomic]
  have add : ∀ (i : Slot) (ip : Inode), ip.ref = (s.st.inode i).ref + 1 →
      view p { s with st := s.st.setInode i ip } = (view p s).addRef i 1 := by
    intro i ip hip
    ext j
    · by_cases hj : j = i
      · subst hj
        simp [view, View.addRef, hip]
      · simp [view, View.addRef, hj]
    all_goals rfl
  split
  · exact add _ _ rfl
  · split
    · rename_i i hi
      have h0 : (s.st.inode i).ref = 0 := by simpa using List.find?_some hi
      exact add _ _ (by simp [h0])
    · trivial

theorem views_iallocFrom {type : ℤ} (k inum : ℕ) :
    Views (view p) p (iallocFrom dev type k inum) v fun i w => w = v.addRef i 1 := by
  induction k generalizing inum with
  | zero => exact .panic
  | succ k ih =>
    have hs : Still (view p) p (Prog.atomic fun s : Fs =>
        if (s.dinode inum).type = 0 then
          logged (s.sb.iblock inum) true s (s.setDinode inum (.fresh type))
        else .done false s) := by
      apply Still.atomic
      intro s
      split_ifs
      · exact logged_view rfl rfl rfl
      · rfl
    refine hs.seq fun free => ?_
    cases free with
    | true => exact views_iget
    | false => exact ih _

theorem views_ialloc {type : ℤ} :
    Views (view p) p (ialloc dev type) v fun i w => w = v.addRef i 1 :=
  Views.bind (Q := fun _ w => w = v) (.read fun _ => rfl) fun _ _ hw => hw ▸ views_iallocFrom _ _

theorem views_addRef {n : ℤ} :
    Views (view p) p (modifyInode i fun ip => { ip with ref := ip.ref + n }) v
      fun _ w => w = v.addRef i n := by
  rintro s rfl
  ext j
  · by_cases hj : j = i
    · subst hj
      simp [view, View.addRef]
    · simp [view, View.addRef, hj]
  all_goals rfl

theorem views_idup : Views (view p) p (idup i) v fun j w => j = i ∧ w = v.addRef i 1 :=
  views_addRef.bind fun _ _ hw => .ret ⟨rfl, hw⟩

theorem views_acquire :
    Views (view p) p (Prog.acquire i (pure ())) v fun _ w => v.held i = false ∧ w = v.lock i := by
  rintro s rfl
  rw [Prog.wp_acquire]
  intro ho
  refine ⟨by simp [view, ho], ?_⟩
  ext j
  case held =>
    by_cases hj : j = i
    · subst hj
      simp [view, View.lock]
    · simp [view, View.lock, hj]
  all_goals rfl

theorem views_release :
    Views (view p) p (Prog.release i (pure ())) v fun _ w => w = v.unlock i := by
  rintro s rfl
  rw [Prog.wp_release]
  show view p _ = _
  ext j
  case held =>
    by_cases hj : j = i
    · subst hj
      simp [view, View.unlock]
    · simp [view, View.unlock, hj]
  all_goals rfl

theorem views_ilock : Views (view p) p (ilock i) v fun _ w => v.held i = false ∧ w = v.lock i := by
  refine still_readInode.seq fun ref => ?_
  split_ifs
  · exact .panic
  · exact views_acquire.bind fun _ w hw => still_iload.views fun _ => hw

theorem views_iunlock : Views (view p) p (iunlock i) v fun _ w => w = v.unlock i := by
  have hh : Still (view p) p (Prog.held i pure : FsM Bool) := by
    rintro v s rfl
    rfl
  refine hh.seq fun locked => ?_
  refine still_readInode.seq fun ref => ?_
  split_ifs
  · exact .panic
  · exact views_release

theorem views_iput :
    Views (view p) p (iput i) v fun _ w => v.held i = false ∧ w = v.addRef i (-1) := by
  refine views_acquire.bind ?_
  rintro _ _ ⟨hi, rfl⟩
  refine still_readInode.seq fun unlinked => ?_
  refine (Still.when still_ifree).seq fun _ => ?_
  refine views_release.seq fun _ => ?_
  rw [View.unlock_lock hi]
  exact views_addRef.mono fun _ _ hw => ⟨hi, hw⟩

theorem views_ilock_own :
    Views (view p) p (ilock i) (v.addRef i 1) fun _ w => v.held i = false ∧ w = v.own i :=
  views_ilock

theorem views_iunlock_own (hi : v.held i = false) :
    Views (view p) p (iunlock i) (v.own i) fun _ w => w = v.addRef i 1 := by
  refine views_iunlock.mono ?_
  rintro _ _ rfl
  exact View.unlock_own hi

theorem views_iput_ref : Views (view p) p (iput i) (v.addRef i 1) fun _ w => w = v := by
  refine views_iput.mono ?_
  rintro _ _ ⟨-, rfl⟩
  exact View.addRef_neg _ _ _

theorem views_iunlockput_own (hi : v.held i = false) :
    Views (view p) p (iunlockput i) (v.own i) fun _ w => w = v := by
  refine (views_iunlock_own hi).seq fun _ => ?_
  exact views_iput_ref

theorem views_readi {n : ℕ} (hi : v.held i = true) :
    Views (view p) p (readi i off n) v fun _ w => w = v := by
  refine still_readInode.seq fun ip => ?_
  split_ifs
  · refine views_iunlock.seq fun _ => ?_
    refine still_answer.seq fun r => ?_
    refine views_ilock.bind ?_
    rintro _ _ ⟨-, rfl⟩
    exact .ret (View.lock_unlock hi)
  · exact .ret rfl
  · exact .ret rfl
  all_goals exact Still.bind (still_readLoop _ _ _) (fun _ => Still.ret) _

theorem views_writei {src : List UInt8} (hi : v.held i = true) :
    Views (view p) p (writei i src off) v fun _ w => w = v := by
  refine still_readInode.seq fun ip => ?_
  split_ifs
  · refine views_iunlock.seq fun _ => ?_
    refine views_ilock.bind ?_
    rintro _ _ ⟨-, rfl⟩
    exact .ret (View.lock_unlock hi)
  · exact .ret rfl
  · exact .ret rfl
  · exact .ret rfl
  · refine Still.bind (still_writeLoop _ _ _) (fun _ => ?_) _
    refine Still.bind still_readInode fun _ => Still.bind (Still.when ?_) fun _ => Still.ret
    exact Still.bind (still_modifyInode fun _ => rfl) fun _ => still_iupdate

theorem views_readDirent {msg : String} (hi : v.held i = true) :
    Views (view p) p (readDirent msg i off) v fun _ w => w = v := by
  refine (views_readi hi).seq fun r => ?_
  cases r with
  | none => exact .panic
  | some l => exact Still.ite Still.panic Still.ret _

def Refs {α : Type} (v : View) (r : Option (Slot × α)) (w : View) : Prop :=
  w = r.elim v fun x => v.addRef x.1 1

section

variable (hi : v.held i = true)
include hi

theorem views_dirlookupFrom (n off : ℕ) :
    Views (view p) p (dirlookupFrom i name n off) v (Refs v) := by
  induction n generalizing off with
  | zero => exact .ret rfl
  | succ n ih =>
    refine (views_readDirent hi).seq fun de => ?_
    split_ifs
    · refine still_readInode.seq fun dev => ?_
      exact views_iget.bind fun ip w hw => .ret hw
    · exact ih _

theorem views_dirlookup :
    Views (view p) p (dirlookup i name) v (Refs v) := by
  refine still_readInode.seq fun dp => ?_
  split_ifs
  · exact .panic
  · exact views_dirlookupFrom hi _ _

theorem views_emptyFrom (n off : ℕ) :
    Views (view p) p (emptyFrom i n off) v fun _ w => w = v := by
  induction n generalizing off with
  | zero => exact .ret rfl
  | succ n ih =>
    refine (views_readDirent hi).seq fun de => ?_
    split_ifs
    · exact .ret rfl
    · exact ih _

theorem views_dirlink {inum : ℕ} :
    Views (view p) p (dirlink i name inum) v fun _ w => w = v := by
  refine (views_dirlookup hi).seq fun found => ?_
  cases found with
  | some x => exact views_iput_ref.bind fun _ _ hw => .ret hw
  | none =>
    refine still_readInode.seq fun size => ?_
    refine (views_emptyFrom hi _ _).seq fun off => ?_
    refine (views_writei hi).seq fun r => ?_
    exact Still.ite Still.panic Still.ret _

end

theorem views_namexFrom (k : ℕ) {ip : Slot} (hk : path.length < k) :
    Views (view p) p (namexFrom parent k ip path name) (v.addRef ip 1) (Refs v) := by
  induction k generalizing ip path name with
  | zero => omega
  | succ k ih =>
    unfold namexFrom
    cases he : skipelem path with
    | none =>
      cases parent with
      | true => exact views_iput_ref.bind fun _ _ hw => .ret hw
      | false => exact .ret rfl
    | some x =>
      obtain ⟨name, rest⟩ := x
      have hlen := skipelem_length he
      refine views_ilock_own.bind ?_
      rintro _ _ ⟨hh, rfl⟩
      refine still_readInode.seq fun type => ?_
      split_ifs
      · exact (views_iunlockput_own hh).bind fun _ _ hw => .ret hw
      · exact (views_iunlock_own hh).bind fun _ _ hw => .ret hw
      · refine (views_dirlookup (View.own_held_self _ _)).seq fun next => ?_
        cases next with
        | none => exact (views_iunlockput_own hh).bind fun _ _ hw => .ret hw
        | some x =>
          obtain ⟨next, _⟩ := x
          show Views (view p) p _ ((v.own ip).addRef next 1) _
          rw [View.own_addRef]
          refine (views_iunlockput_own (v := v.addRef next 1) hh).seq fun _ => ?_
          exact ih (by omega)

theorem views_namex : Views (view p) p (namex p path parent) v (Refs v) := by
  have hstart : Views (view p) p (namexStart p path) v fun i w => w = v.addRef i 1 := by
    unfold namexStart
    split_ifs
    · exact views_iget
    · refine Views.bind (Q := fun _ w => w = v) (.read fun _ => rfl) ?_
      rintro cwd _ rfl
      cases cwd with
      | none => exact .panic
      | some i =>
        refine views_idup.mono ?_
        rintro _ _ ⟨rfl, rfl⟩
        rfl
  refine hstart.seq fun i => ?_
  exact views_namexFrom _ (by omega)

theorem views_namei :
    Views (view p) p (namei p path) v fun r w => w = r.elim v fun i => v.addRef i 1 := by
  refine views_namex.seq fun r => ?_
  cases r with
  | none | some x => exact .ret rfl

end Xv6.Balance
