import Xv6.Fs.Alone
import Xv6.Fs.Failures

namespace Xv6
open Lib Prog Function

section Existing

variable {P : Type} {p : P} {E : Option String → Prop} {s : Shared Fs Slot P} {i : Slot} {n m : ℕ}

/-- `dirlink` of a name that is there looks the inode up and gives it back; it waits for ever if the
inode is the directory itself, whose lock its caller holds. -/
theorem finishes_dirlink_found (hs : Sane s.st) (ha : Anchored s.st) (hi : Loaded s.st i n)
    (hdir : (tree s.st n).type = T_DIR) {name : Str} (hlook : (tree s.st).lookup n name = some m)
    (hfull : ¬ s.st.Fits ∅ m → E (some "iget: no inodes")) (hwait : m = n → E none)
    (hheld : s.owner i = some p) (hlock : ∀ l, l ≠ i → s.owner l = none) (inum : ℕ) :
    Finishes p E (dirlink i name inum) s fun r t => (s.st.Fits ∅ m ∧ m ≠ n) ∧ r = -1 ∧ Stays s t ∧
      Moves (refs s.st) s.st t.st ∧ SameDisk s.st t.st := by
  apply (finishes_dirlookup hs hi hdir (fun m' hm' hno => ?_) (.inr (by rw [hlook]; rfl))).bind
  · rintro r t ⟨hstay, hr⟩
    rw [hlook] at hr
    obtain ⟨hfit, ip, off, rfl, hm, hd, hip⟩ := hr
    have hit : Refers t.st i n := hm.refers hi.1 (lt_of_lt_of_le hi.1.1 (le_addOne _))
    by_cases hmn : m = n
    · obtain rfl : ip = i := hm.sane.uniq ip i hip.1 hit.1 (by rw [hip.2, hit.2, hmn])
      exact .bind (.acquire_held (by rw [hstay.1, hheld]) (hwait hmn)) fun _ _ h => h
    have hslot : ip ≠ i := by
      rintro rfl
      exact hmn (hip.2.symm.trans hit.2)
    have hlt : refs s.st ip < addRef (refs s.st) ip 1 ip := by
      rw [addRef_self]
      omega
    apply (finishes_iput hm.sane hip (by rw [hstay.1]; exact hlock ip hslot)
      (ha.not_drops hm hd le_addOne hlt)).bind
    rintro _ u ⟨hstay', hmu, hdu⟩
    have hm' := hm.then_put hmu fun j => by rw [addRef_neg]
    rw [addRef_neg] at hm'
    exact .ret ⟨⟨hfit, hmn⟩, rfl, hstay.trans hstay', hm', hd.trans hdu⟩
  · rw [hlook] at hm'
    cases hm'
    exact hfull hno

end Existing

section Link

variable {p : Pid} {E : Option String → Prop} {s : Shared Fs Slot Pid} {ip : Slot} {d m x : ℕ}
  {new name last : Str}

/-- What `link` needs of the cache and of the entry that it finds, with the inodes in `H`
referenced. -/
def Fs.LinkReturns (s : Fs) (H : Finset ℕ) (p : Pid) (new : Str) (d m : ℕ) : Prop :=
  s.FitsPath H p true new ∧ s.Fits (insert d H) m ∧ m ≠ d

theorem finishes_linkAt_found (hs : Sane s.st) (ha : Anchored s.st)
    (hcwd : ∀ i, (s.st.proc p).cwd = some i → 0 < refs s.st i) (hlock : ∀ i, s.owner i = none)
    (hnew : s.st.Exists p true new d last) (hlast : skipelem last = some (name, []))
    (hlook : (tree s.st).lookup d name = some m) (hip : Refers s.st ip x)
    (hE : ∀ e, ¬ s.st.LinkReturns ∅ p new d m → E e) :
    Finishes p E (linkAt p new ip) s fun ok t => s.st.LinkReturns ∅ p new d m ∧ ok = false ∧
      Stays s t ∧ Moves (refs s.st) s.st t.st ∧ SameDisk s.st t.st := by
  have hdir : (tree s.st d).type = T_DIR := (hnew.2.of_skipelem hlast).2
  apply (finishes_namex hs ha hcwd (fun hno => hE _ fun h => hno h.1) hnew hlock).bind
  rintro _ t ⟨hfits, ⟨howner, hlog⟩, dp, name', rfl, hdp, hname⟩
  obtain rfl : name' = name := by
    have := (hname rfl).symm.trans hlast
    cases this
    rfl
  have halloc : (t.st.dinode d).type ≠ 0 := by
    have hdir' : (s.st.dinode d).type = T_DIR := hdir
    rw [hdp.disk.dinode, hdir']
    decide
  apply (finishes_ilock_loaded hdp.moves.sane hdp.refers (by rw [howner, hlock]) halloc).bind
  rintro _ u ⟨⟨howner', hlog'⟩, hmu, hl, hdu⟩
  have hm := hdp.moves.then_same hmu
  have hd : SameDisk s.st u.st := hdp.disk.trans hdu
  have hipu : Refers u.st ip x :=
    hm.refers hip (lt_of_lt_of_le hip.1 (le_addOne _))
  apply Finishes.bind_read
  apply Finishes.bind_read
  have hdev : (u.st.inode dp).dev = (u.st.inode ip).dev := by
    rw [hm.sane.dev dp hl.1.1, hm.sane.dev ip hipu.1]
  rw [if_neg (not_not.mpr hdev)]
  apply Finishes.bind_read
  have hle : ∀ j, refs s.st j ≤ addRef (refs s.st) dp 1 j := le_addOne
  have hau : Anchored u.st := by
    refine ha.of_moves hm hle fun n h1 h2 => .inl ?_
    rw [hd.tree] at h1 h2
    exact ⟨h1, h2⟩
  have hheld : u.owner dp = some p := by rw [howner', update_self]
  have hlock' : ∀ l, l ≠ dp → u.owner l = none := by
    intro l hl
    rw [howner', update_of_ne hl, howner, hlock]
  have hfit : u.st.Fits ∅ m ↔ s.st.Fits {d} m := fits_of_ref hm hl.1 hs.toCoherent
  have htree := hd.tree
  apply (finishes_dirlink_found hmu.sane hau hl (by rwa [htree]) (by rwa [htree])
    (fun hno => hE _ fun h => hno (hfit.mpr h.2.1)) (fun hmd => hE _ fun h => h.2.2 hmd) hheld
    hlock' _).bind
  rintro _ v ⟨⟨hroom, hmd⟩, rfl, ⟨howner'', hlog''⟩, hmv, hdv⟩
  have hm' := hm.then_same hmv
  have hlt : refs s.st dp < addRef (refs s.st) dp 1 dp := by
    rw [addRef_self]
    omega
  apply (finishes_iunlockput hm'.sane (hmv.refers hl.1 hl.1.1) (by rw [howner'', hheld])
    (ha.not_drops hm' (hd.trans hdv) hle hlt)).bind
  rintro _ w ⟨⟨ho, hlg⟩, hmw, hdw⟩
  have hback : w.owner = s.owner := by
    rw [ho, howner'', howner', update_idem, howner, ← hlock dp, update_eq_self]
  have hm'' := hm'.then_put hmw fun j => by rw [addRef_neg]
  rw [addRef_neg] at hm''
  exact .ret ⟨⟨hfits, hfit.mp hroom, hmd⟩, by decide,
    ⟨hback, hlg.trans (hlog''.trans (hlog'.trans hlog))⟩, hm'', hd.trans (hdv.trans hdw)⟩

theorem finishes_setNlink (hs : Sane s.st) (hi : Loaded s.st ip x)
    (hlog : s.st.log.logWriteCheck = none) (f : ℤ → ℤ) :
    Finishes p E ((setNlink f ip).bind fun _ => iupdate ip) s fun _ t =>
      (t.owner = s.owner ∧ ∃ b, t.st.log = s.st.log.logWrite b) ∧ Moves (refs s.st) s.st t.st ∧
        Counted s.st t.st x (toShort (f (tree s.st x).nlink)) := by
  refine Finishes.does ?_ (does_setNlink tolerates_true hs hi)
  apply Finishes.bind_modify
  exact finishes_logged rfl hlog ⟨rfl, _, rfl⟩

theorem Tree.Walk.congr {T T' : Tree} {n0 n : ℕ} {path0 path : Str} (h : T.Walk n0 path0 n path)
    (hT : ∀ m, (T' m).type = (T m).type ∧ (T' m).len = (T m).len ∧ (T' m).ent = (T m).ent) :
    T'.Walk n0 path0 n path := by
  induction h with
  | start => exact .start
  | next h hskip hdir hfirst ih =>
    rename_i d k path name rest
    obtain ⟨h1, h2, h3⟩ := hT d
    rw [← h1] at hdir
    rw [← h3]
    refine ih.next hskip hdir ?_
    rw [Tree.FirstMatch, h2]
    simp only [Tree.Matches, h3]
    exact hfirst

theorem Fs.Exists.counted {t u : Fs} {r : Slot → ℤ} {n : ℕ} {v : ℤ} {par : Bool}
    (h : t.Exists p par new n last) (hcwd : ∀ i, (t.proc p).cwd = some i → 0 < refs t i)
    (hm : Moves r t u) (hr : ∀ j, refs t j ≤ r j) (hc : Counted t u x v) :
    u.Exists p par new n last := by
  have hT := Tree.setNlink_rest (tree t) x v
  rw [← hc.tree_eq] at hT
  obtain ⟨⟨y, hy, n0, hn0, hwalk⟩, hend⟩ := h
  refine ⟨⟨y, hy, n0, ?_, hwalk.congr fun m => ⟨(hT m).1, (hT m).2.1, (hT m).2.2.1⟩⟩, ?_⟩
  · rwa [startOf_of_moves hcwd hm hr]
  · unfold EndsAt at hend ⊢
    rwa [(hT n).1]

theorem lookup_counted {t u : Fs} {v : ℤ} (hc : Counted t u x v) (n : ℕ) (name : Str) :
    (tree u).lookup n name = (tree t).lookup n name := by
  have hT := Tree.setNlink_rest (tree t) x v n
  rw [← hc.tree_eq] at hT
  refine Option.ext fun m => ?_
  rw [Tree.lookup_eq_some, Tree.lookup_eq_some]
  simp only [Tree.FirstMatch, Tree.Matches, hT.2.1, hT.2.2.1]

theorem step_counted {t u : Fs} {v : ℤ} (hc : Counted t u x v) (n : ℕ) (name : Str) :
    (tree u).step n name = (tree t).step n name := by
  have hT := Tree.setNlink_rest (tree t) x v n
  rw [← hc.tree_eq] at hT
  rw [Tree.step, hT.1, lookup_counted hc, Tree.step]

/-- While the inode `x` is referenced, it takes no room of its own. -/
theorem linkReturns_counted {s t : Fs} {v : ℤ} (hs : Settled s)
    (hm : Moves (addRef (refs s) ip 1) s t) (hip : Refers t ip x) (hc : Counted s t x v) :
    t.LinkReturns ∅ p new d m ↔ s.LinkReturns {x} p new d m := by
  have hfit : ∀ H n, t.Fits H n ↔ s.Fits (insert x H) n := fun H n =>
    fits_of_ref hm hip hs.sane.toCoherent
  have hfit' : ∀ y n, t.Fits (insert y ∅) n ↔ s.Fits (insert y {x}) n := fun y n => by
    rw [hfit, Finset.insert_comm]
    rfl
  have hpath : t.FitsPath ∅ p true new ↔ s.FitsPath {x} p true new :=
    fitsPath_congr true (hfit ∅ _) hfit' (step_counted hc)
      (startOf_of_moves (fun i hi => hs.cwd_pos hi) hm le_addOne new)
  unfold Fs.LinkReturns
  rw [hfit', hpath]

/-- The second half of `sys_link`: the name is there, and the count goes down again. -/
theorem finishes_linkCounted {s : Fs} {t : Shared Fs Slot Pid} {b : ℕ} (hs : Settled s)
    (hm : Moves (addRef (refs s) ip 1) s t.st) (hip : Loaded t.st ip x)
    (hc : Counted s t.st x (toShort ((tree s x).nlink + 1)))
    (hlog : t.st.log = idleLog.enter.logWrite b) (hlock : ∀ i, t.owner i = none)
    (hnew : s.Exists p true new d last) (hlast : skipelem last = some (name, []))
    (hlook : (tree s).lookup d name = some m) (hE : ∀ e, ¬ s.LinkReturns {x} p new d m → E e) :
    Finishes p E (linkCounted p new ip) t fun r u =>
      s.LinkReturns {x} p new d m ∧ r = err ∧ u.owner = t.owner := by
  have hle : ∀ j, refs s j ≤ addRef (refs s) ip 1 j := le_addOne
  have hlt : refs s ip < addRef (refs s) ip 1 ip := by
    rw [addRef_self]
    omega
  have hcwd : ∀ i, (t.st.proc p).cwd = some i → 0 < refs t.st i := by
    intro i hi
    rw [hm.proc] at hi
    rw [hm.refs]
    exact lt_of_lt_of_le (hs.cwd_pos hi) (hle i)
  have hiff : t.st.LinkReturns ∅ p new d m ↔ s.LinkReturns {x} p new d m :=
    linkReturns_counted hs hm hip.1 hc
  apply (finishes_linkAt_found hm.sane (hs.anchored.counted hm hip hc) hcwd hlock
    (hnew.counted (fun i hi => hs.cwd_pos hi) hm hle hc) hlast (by rwa [lookup_counted hc]) hip.1
    fun e hno => hE e (mt hiff.mpr hno)).bind
  rintro _ u ⟨hreturns, rfl, ⟨howner, hlogu⟩, hmu, hdu⟩
  have hipu := hmu.loaded hip hip.1.1
  rw [if_neg Bool.false_ne_true]
  apply (finishes_ilock_loaded hmu.sane hipu.1 (by rw [howner, hlock])
    (hipu.copy hmu.sane).2).bind
  rintro _ v ⟨⟨howner', hlogv⟩, hmv, hipv, hdv⟩
  have hcheck : v.st.log.logWriteCheck = none := by
    rw [hlogv, hlogu, hlog]
    rfl
  apply (finishes_setNlink hmv.sane hipv hcheck _).bind2
  rintro _ w ⟨⟨howner'', b', hlogw⟩, hmw, hcw⟩
  have hm' := ((hm.then_same hmu).then_same hmv).then_same hmw
  have hd : SameDisk s w.st := hc.undo (hdu.trans hdv) hcw (hs.short x)
  have hheld : w.owner ip = some p := by rw [howner'', howner', update_self]
  apply (finishes_iunlockput hm'.sane (hmw.loaded hipv hipv.1.1).1 hheld
    (hs.anchored.not_drops hm' hd hle hlt)).bind
  rintro _ y ⟨⟨hownery, hlogy⟩, -⟩
  have hlogy' : y.st.log = (idleLog.enter.logWrite b).logWrite b' := by
    rw [hlogy, hlogw, hlogv, hlogu, hlog]
  have hback : y.owner = t.owner := by
    rw [hownery, howner'', howner', update_idem, howner, ← hlock ip, update_eq_self]
  apply (finishes_endOp (by rw [hlogy']; rfl) (by rw [hlogy']; rfl) (by rw [hlogy']; rfl)).bind
  rintro _ _ rfl
  exact .ret ⟨hiff.mp hreturns, rfl, hback⟩

section Existing

variable {s : Fs} {old rest : Str} (hs : Settled s) (hlog : s.log = idleLog)
  (hold : s.Exists p false old x rest) (hx0 : (tree s x).type ≠ 0) (hx : (tree s x).type ≠ T_DIR)
  (hnew : s.Exists p true new d last) (hlast : skipelem last = some (name, []))
  (hlook : (tree s).lookup d name = some m)
include hs hlog hold hx0 hx hnew hlast hlook

theorem finishes_link_found :
    Finishes p (fun _ => ¬ (s.FitsPath ∅ p false old ∧ s.LinkReturns {x} p new d m))
      (sysLink p (some old) (some new)) ⟨s, fun _ => none⟩ fun r t =>
        (s.FitsPath ∅ p false old ∧ s.LinkReturns {x} p new d m) ∧ r = err ∧
          t.owner = fun _ => none := by
  apply ((finishes_beginOp hlog).does (does_beginOp (E := fun _ => True) hs.sane)).bind
  rintro _ t ⟨rfl, hm, hd⟩
  have ha : Anchored { s with log := idleLog.enter } :=
    hs.anchored.of_moves hm (fun _ => le_rfl) fun _ h1 h2 => .inl ⟨h1, h2⟩
  have hfits := fitsPath_of_moves (H := ∅) (fun i hi => hs.cwd_pos (q := p) hi) hm hd false old
  apply (finishes_namei hm.sane ha (fun i hi => hs.cwd_pos hi) (fun hno h => hno (hfits.mpr h.1))
    hold fun _ => rfl).bind
  rintro _ u ⟨hroom, ⟨howner, hlogu⟩, ip, rfl, hip⟩
  have hmu : Moves (addRef (refs s) ip 1) s u.st := hm.then_add hip.moves fun _ => le_rfl
  have hdu : SameDisk s u.st := hd.trans hip.disk
  have halloc : (u.st.dinode x).type ≠ 0 := by
    rw [hdu.dinode]
    exact hx0
  apply (finishes_ilock_loaded hmu.sane hip.refers (by rw [howner]) halloc).bind
  rintro _ v ⟨⟨howner', hlogv⟩, hmv, hipv, hdv⟩
  have hdv' : SameDisk s v.st := hdu.trans hdv
  have htype : (v.st.inode ip).type ≠ T_DIR := by
    rw [hipv.type hmv.sane, hdv'.tree]
    exact hx
  apply Finishes.bind_read
  rw [if_neg htype]
  have hlogv' : v.st.log = idleLog.enter := hlogv.trans hlogu
  apply (finishes_setNlink hmv.sane hipv (by rw [hlogv']; rfl) _).bind2
  rintro _ w ⟨⟨howner'', b, hlogw⟩, hmw, hcw⟩
  rw [hdv'.tree] at hcw
  have hipw := hmw.loaded hipv hipv.1.1
  apply (finishes_iunlock (by rw [howner'', howner', update_self]) hipw.1.1).bind
  rintro _ _ rfl
  have hfree : update w.owner ip none = fun _ => none := by
    rw [howner'', howner', update_idem, howner]
    exact update_eq_self ip _
  rw [hfree]
  exact (finishes_linkCounted (t := ⟨w.st, fun _ => none⟩) hs ((hmu.then_same hmv).then_same hmw)
    hipw (hcw.after hdv') (by rw [hlogw, hlogv']) (fun _ => rfl) hnew hlast hlook
    fun _ hno h => hno h.2).mono fun _ _ h => ⟨⟨hfits.mp hroom, h.1⟩, h.2⟩

/-- `link` to a name that is there fails and changes nothing, just if the name does not stand for the
parent directory itself and there is room in the cache for the inodes on both paths. -/
theorem link_existing_name :
    (∃ t, (sysLink p (some old) (some new)).run p ⟨s, fun _ => none⟩ =
        .done err ⟨t, fun _ => none⟩ ∧ SameDisk s t ∧ Moves (refs s) s t) ↔
      s.FitsPath ∅ p false old ∧ s.FitsPath {x} p true new ∧ s.Fits {d, x} m ∧ m ≠ d := by
  have hrun := finishes_link_found hs hlog hold hx0 hx hnew hlast hlook
  constructor
  · rintro ⟨t, ht, -⟩
    exact (hrun.of_done ht).1
  · intro hok
    have hrun' : Finishes p (fun _ => False) _ _ _ :=
      hrun.conseq (fun _ h => h hok) fun _ _ => And.right
    obtain ⟨r, ⟨t, o⟩, hrun, ⟨rfl, rfl⟩, hans⟩ := (hrun'.does (does_sysLink (U := fun _ _ => False)
      tolerates_true hs (.inr trivial) (.inr trivial))).run
    rcases hans with ⟨-, hm, hd⟩ | ⟨h0, -⟩
    · exact ⟨t, hrun, hd, hm⟩
    · cases h0

end Existing

end Link

theorem created_settled : Settled created.st := by
  have hruns : Runs (fun _ _ _ => True) (started fun _ => none) created :=
    Runs.start.follow (l := [openF]) (by simp [openF, Action.Enabled]) (Option.some_get _).symm
  exact (hruns.dirs (boot_fresh fun _ => none).settled (boot_fresh fun _ => none).dirs).1

theorem created_shows : (created.st.log.size = LOGSIZE ∧ created.st.log.outstanding = 0 ∧
      created.st.log.committing = false ∧ created.st.log.lh = []) ∧
    (tree created.st ROOTINO).type = T_DIR ∧ 2 < (tree created.st ROOTINO).len ∧
    (∀ j < 3, ((tree created.st).Matches ROOTINO j [102] ↔ j = 2) ∧
      ((tree created.st).Matches ROOTINO j [46] ↔ j = 0)) ∧
    (tree created.st ((tree created.st ROOTINO).ent 2).inum).type = T_FILE ∧
    3 ≤ (vacant (refs created.st)).card ∧
    ((tree created.st ROOTINO).ent 2).inum ≠ ROOTINO := by decide +kernel

theorem created_log : created.st.log = idleLog := by
  have heta : ∀ l : Log, l.size = LOGSIZE ∧ l.outstanding = 0 ∧ l.committing = false ∧ l.lh = [] →
      l = idleLog := by
    rintro ⟨_, _, _, _⟩ ⟨rfl, rfl, rfl, rfl⟩
    rfl
  exact heta _ created_shows.1

theorem created_first {name : Str} {k : ℕ} (hk : k < 3)
    (h : ∀ j < 3, (tree created.st).Matches ROOTINO j name ↔ j = k) :
    (tree created.st).FirstMatch ROOTINO 0 (tree created.st ROOTINO).len name k := by
  have hlen := created_shows.2.2.1
  refine ⟨Nat.zero_le k, by omega, by omega, (h k hk).mpr rfl, fun j _ hj hm => ?_⟩
  have := (h j (by omega)).mp hm
  omega

theorem created_root : (tree created.st ROOTINO).type = T_DIR := created_shows.2.1

theorem created_f : (tree created.st).FirstMatch ROOTINO 0 (tree created.st ROOTINO).len [102] 2 :=
  created_first (by decide) fun j hj => (created_shows.2.2.2.1 j hj).1

theorem created_exists_f :
    created.st.Exists initproc false [slash, 102] ((tree created.st ROOTINO).ent 2).inum [] :=
  ⟨⟨_, rfl, ROOTINO, rfl, .next .start rfl created_root created_f⟩, rfl⟩

theorem created_file : (tree created.st ((tree created.st ROOTINO).ent 2).inum).type = T_FILE :=
  created_shows.2.2.2.2.1

theorem created_vacant : 3 ≤ (vacant (refs created.st)).card := created_shows.2.2.2.2.2.1

theorem created_exists_root {path name : Str} (hslash : path.head? = some slash)
    (hskip : skipelem path = some (name, [])) :
    created.st.Exists initproc true path ROOTINO path := by
  refine ⟨⟨_, rfl, ROOTINO, ?_, .start⟩, ⟨name, hskip⟩, created_root⟩
  rw [Fs.startOf, if_pos hslash, Option.mem_some]

/-- `link("/f", "/f")`, with more than three entries of the cache free. -/
theorem link_existing_name_f :
    ∃ t, (sysLink initproc (some [slash, 102]) (some [slash, 102])).run initproc
        ⟨created.st, fun _ => none⟩ = .done err ⟨t, fun _ => none⟩ ∧
      SameDisk created.st t ∧ Moves (refs created.st) created.st t := by
  have hone : (∅ : Finset ℕ).card + 1 < (vacant (refs created.st)).card :=
    Nat.lt_of_lt_of_le (by decide) created_vacant
  have htwo (x : ℕ) : ({x} : Finset ℕ).card + 1 < (vacant (refs created.st)).card :=
    Nat.lt_of_lt_of_le (by rw [Finset.card_singleton]; decide) created_vacant
  have hthree (d x : ℕ) : ({d, x} : Finset ℕ).card < (vacant (refs created.st)).card :=
    Nat.lt_of_le_of_lt Finset.card_le_two (Nat.lt_of_lt_of_le (by decide) created_vacant)
  exact (link_existing_name created_settled created_log created_exists_f
    (by rw [created_file]; decide) (by rw [created_file]; decide)
    (created_exists_root rfl (show skipelem [slash, 102] = some ([102], []) from rfl)) rfl
    (Tree.lookup_eq_some.mpr ⟨2, created_f, rfl⟩)).mpr ⟨fitsPath_of_vacant hone _ _ _,
      fitsPath_of_vacant (htwo _) _ _ _, fits_of_vacant (hthree _ _) _, created_shows.2.2.2.2.2.2⟩

/-- `link("/f", "/.")` waits for the lock of the root directory, which it holds. -/
theorem link_dot_waits : ¬ ∀ (s : Fs) (p : Pid) (old new rest last name : Str) (x d m : ℕ),
    Settled s → s.log = idleLog → s.Exists p false old x rest → (tree s x).type ≠ 0 →
    (tree s x).type ≠ T_DIR → s.Exists p true new d last → skipelem last = some (name, []) →
    (tree s).lookup d name = some m → 3 ≤ (vacant (refs s)).card →
    ∃ t, (sysLink p (some old) (some new)).run p ⟨s, fun _ => none⟩ =
      .done err ⟨t, fun _ => none⟩ := by
  intro h
  have hdot : (tree created.st).FirstMatch ROOTINO 0 (tree created.st ROOTINO).len [46] 0 :=
    created_first (by decide) fun j hj => (created_shows.2.2.2.1 j hj).2
  obtain ⟨t, ht⟩ := h created.st initproc [slash, 102] [slash, 46] [] [slash, 46] [46] _ ROOTINO _
    created_settled created_log created_exists_f (by rw [created_file]; decide)
    (by rw [created_file]; decide) (created_exists_root rfl rfl) rfl
    (Tree.lookup_eq_some.mpr ⟨0, hdot, rfl⟩) created_vacant
  have hwait : ((sysLink initproc (some [slash, 102]) (some [slash, 46])).run initproc
      ⟨created.st, fun _ => none⟩).result.isNone = true := by decide +kernel
  rw [ht] at hwait
  cases hwait

end Xv6
