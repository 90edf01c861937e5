import Xv6.Fs.Walk
import Xv6.Sysfile

namespace Xv6
open Lib Prog Function

section Ops

variable {P : Type} {p : P} {E : String → Prop} {s0 s : Fs} {r : Slot → ℤ} {i : Slot} {n : ℕ}

theorem does_beginOp (hs : Sane s) :
    Does p E beginOp s fun _ t => Moves (refs s) s t ∧ SameDisk s t := by
  refine .atomic ?_
  split_ifs
  · exact Outcome.sat_blocked _ _
  · exact Outcome.sat_blocked _ _
  · exact ⟨moves_congr hs rfl rfl rfl rfl rfl rfl rfl, rfl, rfl, rfl⟩

theorem does_endOp (hE : Tolerates E) (hs : Sane s) :
    Does p E endOp s fun _ t => Moves (refs s) s t ∧ SameDisk s t := by
  have hlog : ∀ l, Moves (refs s) s { s with log := l } ∧ SameDisk s { s with log := l } :=
    fun l => ⟨moves_congr hs rfl rfl rfl rfl rfl rfl rfl, rfl, rfl, rfl⟩
  refine .bind (Q := fun _ t => ∃ l, t = { s with log := l }) (.atomic ?_) ?_
  · cases hl : s.log.leave with
    | error m =>
      refine hE _ ?_ ?_
      · rintro rfl
        unfold Log.leave at hl
        split_ifs at hl
        exact absurd (Except.error.inj hl) (by decide)
      · rintro rfl
        unfold Log.leave at hl
        split_ifs at hl
        exact absurd (Except.error.inj hl) (by decide)
    | ok l => exact ⟨l, rfl⟩
  · rintro b _ ⟨l, rfl⟩
    refine .when (fun _ => ?_) fun _ => hlog l
    refine .bind (Q := fun _ t => ∃ l, t = { s with log := l }) (.modify ⟨_, rfl⟩) ?_
    rintro _ _ ⟨l', rfl⟩
    exact .modify (hlog _)

theorem does_endOp_ret {α : Type} (hE : Tolerates E) {a : α} (hm : Moves r s0 s) :
    Does p E (do endOp; return a) s fun b t => b = a ∧ Moves r s0 t ∧ SameDisk s t := by
  refine (does_endOp hE hm.sane).bind fun _ t ht => .ret ⟨rfl, hm.then_same ht.1, ht.2⟩

theorem does_isdiremptyFrom (hE : Tolerates E) (hs : Sane s) (hi : Loaded s i n)
    (hdir : (tree s n).type = T_DIR) (m : ℕ) {off k : ℕ} (hoff : off = k * DIRENT) :
    Does p E (isdiremptyFrom i m off) s fun b t => t = s ∧
      (b = true → ∀ j, k ≤ j → j < k + m → ((tree s n).ent j).inum = 0) := by
  induction m generalizing off k with
  | zero => exact .ret ⟨rfl, fun _ j h1 h2 => by omega⟩
  | succ m ih =>
    refine (does_readDirent hs hi hdir (.inl (hE _ (by decide) (by decide))) hoff).bind ?_
    rintro de t ⟨rfl, -, rfl⟩
    by_cases hz : ((tree t n).ent k).inum = 0
    · simp only [hz, ne_eq, not_true, if_false]
      refine (ih (k := k + 1) (by rw [hoff, Nat.add_mul, Nat.one_mul])).mono ?_
      rintro b u ⟨rfl, hb⟩
      refine ⟨rfl, fun h j h1 h2 => ?_⟩
      by_cases hj : j = k
      · rw [hj, hz]
      · exact hb h j (by omega) (by omega)
    · simp only [ne_eq, hz, not_false_eq_true, if_true]
      exact .ret ⟨rfl, fun h => by cases h⟩

def Tree.Empty (T : Tree) (n : ℕ) : Prop :=
  ∀ j, 2 ≤ j → j < (T n).len → ((T n).ent j).inum = 0

theorem does_isBusy (hE : Tolerates E) (hs : Sane s) (hi : Loaded s i n) :
    Does p E (isBusy i) s fun b t => t = s ∧
      (b = false → (tree s n).type = T_DIR → (tree s).Empty n) := by
  obtain ⟨hcopy, -⟩ := hi.copy hs
  have hsize : (s.inode i).size = (s.dinode n).size := congrArg Dinode.size hcopy
  refine .bind_read ?_
  simp only [hi.type hs]
  by_cases hdir : (tree s n).type = T_DIR
  · rw [if_pos hdir]
    refine .bind (Q := fun b t => t = s ∧ (b = true → (tree s).Empty n)) (.bind_read ?_) ?_
    · simp only [hsize]
      have hlen := len_le_numEntries hdir
      refine (does_isdiremptyFrom hE hs hi hdir _ rfl).mono ?_
      rintro b t ⟨rfl, hb⟩
      exact ⟨rfl, fun h j h1 h2 => hb h j h1 (by omega)⟩
    · rintro b t ⟨rfl, hb⟩
      refine .ret ⟨rfl, fun h _ => hb ?_⟩
      simpa using h
  · rw [if_neg hdir]
    exact .ret ⟨rfl, fun _ h => absurd h hdir⟩

structure Counted (s t : Fs) (n : ℕ) (v : ℤ) : Prop where
  dinode : t.dinode = update s.dinode n { s.dinode n with nlink := v }
  block : t.block = s.block
  bitmap : t.bitmap = s.bitmap

theorem Counted.tree_eq {t : Fs} {v : ℤ} (h : Counted s t n v) : tree t = (tree s).setNlink n v :=
  tree_relabel h.dinode h.block rfl rfl rfl rfl

theorem Counted.after {s0 t : Fs} {v : ℤ} (h : Counted s t n v) (h0 : SameDisk s0 s) :
    Counted s0 t n v := by
  refine ⟨?_, h.block.trans h0.block, h.bitmap.trans h0.bitmap⟩
  rw [h.dinode, h0.dinode]

theorem Counted.undo {t u v : Fs} (h : Counted s t n (toShort ((tree s n).nlink + 1)))
    (hu : SameDisk t u) (h' : Counted u v n (toShort ((tree u n).nlink - 1)))
    (hs : toShort (tree s n).nlink = (tree s n).nlink) : SameDisk s v := by
  have hd : u.dinode = update s.dinode n
      { s.dinode n with nlink := toShort ((tree s n).nlink + 1) } := hu.dinode.trans h.dinode
  have hn : (tree u n).nlink = toShort ((tree s n).nlink + 1) := by
    rw [hu.tree, h.tree_eq, Tree.setNlink_self]
  have hback : toShort (toShort ((tree s n).nlink + 1) - 1) = (s.dinode n).nlink := by
    refine Eq.trans ?_ hs
    unfold toShort
    rw [Int.bmod_sub_bmod, add_sub_cancel_right]
  refine ⟨?_, h'.block.trans (hu.block.trans h.block), h'.bitmap.trans (hu.bitmap.trans h.bitmap)⟩
  rw [h'.dinode, hn, hback, hd, update_self, update_idem, update_eq_self]

theorem does_setNlink (hE : Tolerates E) (hs : Sane s) (hi : Loaded s i n) {f : ℤ → ℤ} :
    Does p E ((setNlink f i).bind fun _ => iupdate i) s fun _ t => Moves (refs s) s t ∧
      Counted s t n (toShort (f (tree s n).nlink)) := by
  obtain ⟨hcopy, -⟩ := hi.copy hs
  refine (does_modify_iupdate hE hs hi fun ip => ⟨_, _, _, rfl⟩).mono ?_
  rintro _ t ⟨hm, hd, hb, hbits⟩
  refine ⟨hm, ?_, hb, hbits⟩
  rw [hd]
  congr 1
  simp only [hcopy]
  rfl

/-- After a reference to `n` was given back: without links the inode is freed, or it has a valid
cache entry that was referenced in `s0`. -/
def Dropped (s₀ t : Fs) (n : ℕ) (T T' : Tree) : Prop :=
  (T n).nlink = 0 ∧ (T n).type ≠ 0 ∧ T' = T.free n ∨
    ((T n).nlink = 0 → ∃ j, 0 < refs s₀ j ∧ Loaded t j n) ∧ T' = T

theorem Dropped.of_ne {t : Fs} {T T' : Tree} {m : ℕ} (h : Dropped s0 t n T T') (hm : m ≠ n) :
    T' m = T m := by
  rcases h with ⟨-, -, rfl⟩ | ⟨-, rfl⟩
  · exact Tree.free_of_ne hm
  · rfl

theorem Dropped.anchored {t : Fs} {T T' : Tree} (h : Dropped s0 t n T T') (ht : (T' n).type ≠ 0)
    (hnl : (T' n).nlink = 0) : ∃ j, Loaded t j n := by
  rcases h with ⟨-, -, rfl⟩ | ⟨hl, rfl⟩
  · simp at ht
  · obtain ⟨j, -, hj⟩ := hl hnl
    exact ⟨j, hj⟩

section

variable (hE : Tolerates E) (hm : Moves r s0 s) (hle : ∀ j, refs s0 j ≤ addRef r i (-1) j)
  (hl : Loaded s i n)
include hE hm hle hl

/-- Give back a reference that was taken after `s0` to an inode with a valid entry. -/
theorem does_iput_loaded :
    Does p E (iput i) s fun _ t => Moves (addRef r i (-1)) s0 t ∧ Persist s t ∧
      (r i = refs s0 i + 1 →
        (tree s n).nlink = 0 ∧ (tree s n).type ≠ 0 ∧ tree t = (tree s).free n ∨
        ((tree s n).nlink = 0 → 0 < refs s0 i) ∧ tree t = tree s) := by
  obtain ⟨hcopy, -⟩ := hl.copy hm.sane
  refine (does_iput hE hm.sane hl.1).mono ?_
  rintro _ t ⟨hm', hdisk⟩
  rw [hm.refs] at hm'
  have hle' : ∀ j, refs s0 j ≤ r j := by
    intro j
    have := hle j
    by_cases hji : j = i
    · subst hji
      rw [addRef_self] at this
      omega
    · rwa [addRef_of_ne _ _ hji] at this
  have hri : refs s i = r i := congrFun hm.refs i
  refine ⟨hm.trans hm' fun j hj _ => lt_of_lt_of_le hj (hle' j), hm'.persist, fun hr => ?_⟩
  rcases hdisk with ⟨-, hnl, htype, hf⟩ | ⟨hd, hsame⟩
  · exact .inl ⟨hnl, htype, hf.tree⟩
  · refine .inr ⟨fun hnl => ?_, hsame.tree⟩
    have hne : refs s i ≠ 1 := by
      intro h1
      refine hd ⟨h1, hl.2, ?_⟩
      rw [congrArg Dinode.nlink hcopy]
      exact hnl
    have hpos := hl.1.1
    omega

theorem does_iunlockput_loaded :
    Does p E (iunlockput i) s fun _ t => Moves (addRef r i (-1)) s0 t ∧ Persist s t ∧
      (r i = refs s0 i + 1 →
        (tree s n).nlink = 0 ∧ (tree s n).type ≠ 0 ∧ tree t = (tree s).free n ∨
        ((tree s n).nlink = 0 → 0 < refs s0 i) ∧ tree t = tree s) := by
  refine (does_iunlock hE).bind ?_
  rintro _ t rfl
  exact does_iput_loaded hE hm hle hl

end

end Ops

def Dirent.cleared : Dirent := .decode (List.replicate DIRENT 0)

/-- The tree after the entry is cleared and, for a directory, the link of `..` is counted down. -/
def Tree.clear (T : Tree) (d k x : ℕ) : Tree :=
  if (T.setEnt d k .cleared x).type = T_DIR then
    (T.setEnt d k .cleared).setNlink d (toShort ((T.setEnt d k .cleared d).nlink - 1))
  else T.setEnt d k .cleared

/-- What `unlink` has checked before it changes anything: entry `k` of `d` has the name, which is
neither `.` nor `..`, and names `x`, which is no directory with entries. -/
structure Unlinkable (T : Tree) (d k x : ℕ) (name : Str) : Prop where
  dir : (T d).type = T_DIR
  first : T.FirstMatch d 0 (T d).len name k
  inum : ((T d).ent k).inum = x
  ne_dot : namecmpEq name dot = false
  ne_dotdot : namecmpEq name dotdot = false
  nlink : 1 ≤ (T x).nlink
  empty : (T x).type = T_DIR → T.Empty x

section Unlink

variable {p : Pid} {E : String → Prop} {s0 s : Fs} {I : Fs → Prop} {G : ℕ → Str → Prop}
  {dp ip : Slot} {d k x : ℕ} {name rest : Str}

def Unlinked (s₀ : Fs) (I : Fs → Prop) (G : ℕ → Str → Prop) (r : ℤ) (t : Fs) : Prop :=
  Moves (refs s₀) s₀ t ∧ (r = err ∧ I t ∨
    r = 0 ∧ ∃ u d k x name rest, I u ∧ G d rest ∧ skipelem rest = some (name, []) ∧
      Unlinkable (tree u) d k x name ∧ (x ≠ d → ∃ T',
      Dropped s₀ t d ((tree u).clear d k x) T' ∧
      Dropped s₀ t x (T'.setNlink x (toShort ((T' x).nlink - 1))) (tree t)))

section

variable (hE : Tolerates E)
include hE

theorem does_unlinkBad (hcl : Closed s0 I) (hs0 : Sane s0)
    (hm : Moves (addRef (refs s0) dp 1) s0 s) (hI : I s) :
    Does p E (unlinkBad dp) s (Unlinked s0 I G) := by
  refine (does_iunlockput_in hE hcl hs0 hm hI (fun j => le_of_eq (congrFun (addRef_neg _ _) j).symm) rfl).bind ?_
  rintro _ t ⟨hmt, -, hIt⟩
  rw [addRef_neg] at hmt
  refine (does_endOp_ret hE hmt).mono ?_
  rintro _ u ⟨rfl, hmu, hdu⟩
  exact ⟨hmu, .inl ⟨rfl, hcl.same t u hdu hIt⟩⟩

theorem does_unlinkEntry (hs0 : Sane s0) (hm : Moves (addRef (addRef (refs s0) dp 1) ip 1) s0 s)
    (hdp : Loaded s dp d) (hip : Loaded s ip x) (hun : Unlinkable (tree s) d k x name) (hI : I s)
    (hG : G d rest) (hlast : skipelem rest = some (name, [])) :
    Does p E (unlinkEntry dp ip (k * DIRENT)) s (Unlinked s0 I G) := by
  refine (does_writeEnt hE hm.sane hdp hun.dir (List.length_replicate ..) rfl).bind ?_
  rintro r t ⟨hmt, ht, -⟩
  by_cases hr : r = DIRENT
  · obtain ⟨-, htree⟩ := ht hr
    simp only [hr, ne_eq, not_true, if_false]
    have hm1 := hm.then_same hmt
    have hdp1 : Loaded t dp d := hmt.loaded hdp hdp.1.1
    have hip1 : Loaded t ip x := hmt.loaded hip hip.1.1
    refine .bind_read ?_
    simp only [hip1.type hmt.sane]
    -- Count the link of `..` down.
    refine .bind (Q := fun _ u => Moves (addRef (addRef (refs s0) dp 1) ip 1) s0 u ∧
      Loaded u dp d ∧ Loaded u ip x ∧ tree u = (tree s).clear d k x) (.when (fun hdir => ?_)
      fun hdir => ?_) ?_
    · refine (does_setNlink hE hmt.sane hdp1).mono ?_
      rintro _ u ⟨hmu, hu⟩
      refine ⟨hm1.then_same hmu, hmu.loaded hdp1 hdp1.1.1, hmu.loaded hip1 hip1.1.1, ?_⟩
      rw [hu.tree_eq, htree, Tree.clear, if_pos]
      · rfl
      · rwa [htree] at hdir
    · refine ⟨hm1, hdp1, hip1, ?_⟩
      rw [htree, Tree.clear, if_neg]
      · rfl
      · rwa [htree] at hdir
    · rintro _ u ⟨hmu, hdpu, hipu, hu⟩
      refine (does_iunlockput_loaded hE hmu (fun j => ?_) hdpu).bind ?_
      · rw [addRef_swap]
        exact le_addOne _
      · rintro _ v ⟨hmv, hper, hdropd⟩
        rw [addRef_swap] at hmv
        have h0 : 0 ≤ refs s0 ip := hs0.nonneg ip
        have hipv : Loaded v ip x := by
          refine hper.loaded hipu ?_
          rw [hmv.refs, addRef_self]
          omega
        refine (does_setNlink hE hmv.sane hipv).bind2 ?_
        rintro _ w ⟨hmw, hw⟩
        have hmw' := hmv.then_same hmw
        have hipw : Loaded w ip x := hmw.loaded hipv hipv.1.1
        refine (does_iunlockput_loaded hE hmw' (fun j => ?_) hipw).bind ?_
        · rw [addRef_neg]
        · rintro _ y ⟨hmy, hpery, hdropx⟩
          rw [addRef_neg] at hmy
          refine (does_endOp hE hmy.sane).bind fun _ z hz => .ret ?_
          have hmz := hmy.then_same hz.1
          have hkeep : ∀ {j m}, Loaded w j m → 0 < refs s0 j → Loaded z j m := by
            intro j m hl hj
            have hy := hpery.loaded hl (by rwa [hmy.refs])
            exact hz.1.loaded hy hy.1.1
          refine ⟨hmz, .inr ⟨rfl, s, d, k, x, name, rest, hI, hG, hlast, hun,
            fun hne => ⟨tree v, ?_, ?_⟩⟩⟩
          · have hslot : dp ≠ ip := by
              rintro rfl
              exact hne (hipu.1.2.symm.trans hdpu.1.2)
            have hd := hdropd (by rw [addRef_of_ne _ _ hslot, addRef_self])
            rw [hu] at hd
            refine hd.imp_right fun h => ⟨fun hnl => ⟨dp, h.1 hnl, ?_⟩, h.2⟩
            have hpos := h.1 hnl
            have hdpv : Loaded v dp d := hper.loaded hdpu (by
              rw [hmv.refs, addRef_of_ne _ _ hslot]
              exact hpos)
            exact hkeep (hmw.loaded hdpv hdpv.1.1) hpos
          · have hx := hdropx (addRef_self _ _ _)
            rw [hw.tree_eq, ← hz.2.tree] at hx
            exact hx.imp_right fun h => ⟨fun hnl => ⟨ip, h.1 hnl, hkeep hipw (h.1 hnl)⟩, h.2⟩
  · simp only [ne_eq, hr, not_false_eq_true, if_true]
    exact .panic (hE _ (by decide) (by decide))

theorem does_unlinkFound (hcl : Closed s0 I) (hs0 : Sane s0)
    (hm : Moves (addRef (addRef (refs s0) dp 1) ip 1) s0 s) (hdp : Loaded s dp d)
    (hip : Refers s ip x) (hdir : (tree s d).type = T_DIR)
    (hfirst : (tree s).FirstMatch d 0 (tree s d).len name k) (hx : ((tree s d).ent k).inum = x)
    (hdot : ¬ (namecmpEq name dot = true ∨ namecmpEq name dotdot = true))
    (hno : (tree s x).type ≠ 0 ∨ E noType) (hI : I s) (hG : G d rest)
    (hlast : skipelem rest = some (name, [])) :
    Does p E (unlinkFound dp ip (k * DIRENT)) s (Unlinked s0 I G) := by
  refine (does_ilock hE hm.sane hip.2 hno).bind ?_
  rintro _ t ⟨hmt, hipt, hdt, -⟩
  have hm1 := hm.then_same hmt
  rw [← hdt.tree] at hdir hfirst hx
  have hI := hcl.same s t hdt hI
  have hnl : (t.inode ip).nlink = (tree t x).nlink := congrArg Dinode.nlink (hipt.copy hmt.sane).1
  refine .bind_read ?_
  simp only [hnl]
  by_cases hlow : (tree t x).nlink < 1
  · rw [if_pos hlow]
    exact .panic (hE _ (by decide) (by decide))
  · rw [if_neg hlow]
    refine (does_isBusy hE hmt.sane hipt).bind ?_
    rintro busy u ⟨rfl, hbusy⟩
    cases busy with
    | true =>
      simp only [if_true]
      refine (does_iunlockput_in hE hcl hs0 hm1 hI (fun j => ?_) rfl).bind ?_
      · rw [addRef_neg]
        exact le_addOne _
      · rintro _ v ⟨hmv, -, hIv⟩
        rw [addRef_neg] at hmv
        exact does_unlinkBad hE hcl hs0 hmv hIv
    | false =>
      simp only [Bool.false_eq_true, if_false]
      simp only [not_or, Bool.not_eq_true] at hdot
      exact does_unlinkEntry hE hs0 hm1 (hmt.loaded hdp hdp.1.1) hipt
        ⟨hdir, hfirst, hx, hdot.1, hdot.2, by omega, hbusy rfl⟩ hI hG hlast

theorem does_unlinkIn (hcl : Closed s0 I) (hs0 : Sane s0) (hG : Route E I G)
    (hm : Moves (addRef (refs s0) dp 1) s0 s) (hdp : Refers s dp d) (hGd : G d rest)
    (hlast : skipelem rest = some (name, [])) (hdir : (tree s d).type = T_DIR) (hI : I s) :
    Does p E (unlinkIn dp name) s (Unlinked s0 I G) := by
  have halloc : (tree s d).type ≠ 0 := by
    rw [hdir]
    decide
  refine (does_ilock hE hm.sane hdp.2 (.inl halloc)).bind ?_
  rintro _ t ⟨hmt, hdpt, hdt, -⟩
  have hm1 := hm.then_same hmt
  have hI := hcl.same s t hdt hI
  by_cases hdot : namecmpEq name dot = true ∨ namecmpEq name dotdot = true
  · rw [if_pos hdot]
    exact does_unlinkBad hE hcl hs0 hm1 hI
  · rw [if_neg hdot]
    refine (does_dirlookup hE hE.scannable hmt.sane hdpt name).bind ?_
    rintro r u ⟨hdir', hr⟩
    match r with
    | none =>
      obtain ⟨rfl, -⟩ := hr
      exact does_unlinkBad hE hcl hs0 hm1 hI
    | some (ip, off) =>
      obtain ⟨hmu, hdu, k, rfl, hfirst, hip⟩ := hr
      have hGx := hG.next _ d k rest name [] hI hGd hlast hdir' hfirst
      rw [← hdu.tree] at hdir' hfirst hip hGx
      have hI := hcl.same t u hdu hI
      exact does_unlinkFound hE hcl hs0 (hm1.then_add hmu le_addOne)
        (hmu.loaded hdpt (lt_of_lt_of_le hdpt.1.1 (le_addOne _))) hip hdir' hfirst
        rfl hdot (hG.alloc.imp_left fun h => h _ _ _ hI hGx) hI hGd hlast

theorem does_sysUnlink (hcl : Closed s I) (hs : Sane s) (hG : Route E I G)
    (hI : I s) {path : Option Str} (hst : ∀ x ∈ path, StartsIn s p x G) :
    Does p E (sysUnlink p path) s (Unlinked s I G) := by
  cases path with
  | none => exact .ret ⟨.refl hs, .inl ⟨rfl, hI⟩⟩
  | some path =>
    refine (does_beginOp hs).bind ?_
    rintro _ t ⟨hmt, hdt⟩
    have hI := hcl.same s t hdt hI
    refine (does_namex hE hcl hs hG hmt hI ((hst path rfl).of_moves hmt fun _ => le_rfl)
      true).bind ?_
    rintro r u ⟨hIu, hr⟩
    match r with
    | none =>
      refine (does_endOp_ret hE hr).mono ?_
      rintro _ v ⟨rfl, hmv, hdv⟩
      exact ⟨hmv, .inl ⟨rfl, hcl.same u v hdv hIu⟩⟩
    | some (dp, name) =>
      obtain ⟨hm, d, rest, hdp, hGd, hlast, hdir⟩ := hr
      exact does_unlinkIn hE hcl hs hG hm hdp hGd hlast hdir hIu

end

end Unlink

end Xv6
