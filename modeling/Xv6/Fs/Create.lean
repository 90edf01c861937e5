import Xv6.Fs.Change

namespace Xv6
open Lib Prog Function

/-- An inode without links that is not free has a valid cache entry with a reference. -/
def Anchored (s : Fs) : Prop :=
  ∀ n, (tree s n).type ≠ 0 → (tree s n).nlink = 0 → ∃ i, Loaded s i n

variable {s s0 : Fs} {p : Pid} {E : String → Prop} {G : ℕ → Str → Prop} {ip : Slot} {x : ℕ}

theorem Anchored.closed_of {t : Fs} (h : Anchored s)
    (ht : ∀ m, (tree t m).type = (tree s m).type ∧ (tree t m).nlink = (tree s m).nlink) :
    Closed s (SameDisk t) where
  same _ _ hd hI := hI.trans hd
  free u _ m hI htype hnl hno _ := by
    rw [hI.tree, (ht m).1] at htype
    rw [hI.tree, (ht m).2] at hnl
    obtain ⟨i, hi⟩ := h m htype hnl
    exact absurd hi.1.2 (hno i hi.1.1)

theorem Anchored.closed (h : Anchored s) : Closed s (SameDisk s) :=
  h.closed_of fun _ => ⟨rfl, rfl⟩

theorem Anchored.of_moves {r : Slot → ℤ} {t : Fs} (h : Anchored s) (hm : Moves r s t)
    (hr : ∀ j, refs s j ≤ r j)
    (ht : ∀ n, (tree t n).type ≠ 0 → (tree t n).nlink = 0 → (tree s n).type ≠ 0 ∧ (tree s n).nlink = 0 ∨ ∃ i, Loaded t i n) :
    Anchored t := by
  intro n htype hnl
  rcases ht n htype hnl with ⟨h1, h2⟩ | h'
  · obtain ⟨i, hi⟩ := h n h1 h2
    exact ⟨i, hm.loaded hi (lt_of_lt_of_le hi.1.1 (hr i))⟩
  · exact h'

section Create

variable {dp i : Slot} {d n : ℕ} {type major minor : ℤ}

theorem does_dirlink_new (hE : Tolerates E) (hs : Sane s) (hi : Loaded s i n) (name : Str)
    (inum : ℕ) (hnew : ∀ j, j < (tree s n).len → ¬ (tree s).Matches n j name) :
    Does p E (dirlink i name inum) s fun r t => Moves (refs s) s t ∧ r = 0 ∧
      ∃ k, (tree s).Vacant n k name ∧
        tree t = (tree s).setEnt n k ⟨inum % 65536, strncpy name⟩ := by
  refine (does_dirlink hE hE.scannable (hE _ (by decide) (by decide)) (closed_true s) hs trivial hi name inum).mono ?_
  rintro r t ⟨hm, hdir, ⟨-, -, j, hj, hmatch⟩ | ⟨hr, -, k, hle, hfree, htree⟩⟩
  · exact absurd hmatch (hnew j hj)
  · exact ⟨hm, hr, k, ⟨hdir, hle, hfree, hnew⟩, htree⟩

theorem dotdot_ne_dot : namecmpEq dotdot (strncpy dot) = false := by decide

theorem does_createDots (hE : Tolerates E) (hs : Sane s) (hdp : Loaded s dp d)
    (hip : Loaded s ip x) (hne : x ≠ d) (hlen : (tree s x).len = 0) (hx : x % 65536 ≠ 0) :
    Does p E (createDots dp ip) s fun _ t =>
      Moves (refs s) s t ∧ tree t = (tree s).addDots d x := by
  unfold createDots
  refine (does_setNlink hE hs hdp).bind2 ?_
  rintro _ t ⟨hmt, hct⟩
  have ht := hct.tree_eq
  have hipt := hmt.loaded hip hip.1.1
  have hlent : (tree t x).len = 0 := by rw [ht, Tree.setNlink_of_ne hne, hlen]
  refine .bind_read ?_
  have hinum : (t.inode ip).inum = x := hipt.1.2
  simp only [hinum]
  refine (does_dirlink_new hE hmt.sane hipt dot x fun j hj => by omega).bind ?_
  rintro _ u ⟨hmu, rfl, k, hk, hu⟩
  have hk0 : k = 0 := by
    have := hk.le
    omega
  subst hk0
  simp only [show ¬ (0 : ℤ) < 0 by decide, if_false]
  have hdpu : Loaded u dp d :=
    hmu.loaded (hmt.loaded hdp hdp.1.1) (hmt.loaded hdp hdp.1.1).1.1
  have hipu := hmu.loaded hipt hipt.1.1
  refine .bind_read ?_
  have hdnum : (u.inode dp).inum = d := hdpu.1.2
  simp only [hdnum]
  have hux : tree u x = { tree t x with
      len := 1
      ent := update (tree t x).ent 0 ⟨x % 65536, strncpy dot⟩
      rest := 0 } := by
    rw [hu, Tree.setEnt_self, Node.setEnt, hlent]
    rfl
  refine (does_dirlink_new hE hmu.sane hipu dotdot d ?_).bind ?_
  · intro j hj hmatch
    rw [hux] at hj
    obtain rfl : j = 0 := by
      simp only at hj
      omega
    have hname := hmatch.2
    rw [hux] at hname
    simp only [update_self, dotdot_ne_dot] at hname
    cases hname
  · rintro _ v ⟨hmv, rfl, k, hk, hv⟩
    -- The entry `.` is in use, so `..` goes behind it.
    have hk1 : k = 1 := by
      have hle := hk.le
      have hfree := hk.free
      rw [hux] at hle hfree
      simp only at hle hfree
      by_contra hk1
      obtain rfl : k = 0 := by omega
      exact hx (by simpa using hfree (by decide))
    subst hk1
    simp only [show ¬ (0 : ℤ) < 0 by decide, if_false]
    refine .ret ⟨(hmt.then_same hmu).then_same hmv, ?_⟩
    rw [hv, hu, ht]
    rfl

theorem does_ialloc_labelled (hE : Tolerates E) (hs : Sane s) (htype : type ≠ 0) {α : Type}
    {k : Slot → FsM α} {Q : α → Fs → Prop}
    (hQ : ∀ ip t x, Moves (addRef (refs s) ip 1) s t → Loaded t ip x → (tree s x).type = 0 → x ≠ 0 → x < s.sb.ninodes → tree t = ((tree s).alloc x type).setNlink x 1 → Does p E (k ip) t Q) :
    Does p E (do
      let ip ← ialloc ROOTDEV type
      ilock ip
      modifyInode ip fun x => { x with major := major, minor := minor, nlink := 1 }
      iupdate ip
      k ip) s Q := by
  refine (does_ialloc hE hs).bind ?_
  rintro ip t ⟨hmt, x, hip, h1, hlt, ha⟩
  have hx : (t.dinode x).type = type := by
    rw [ha.dinode, update_self]
    rfl
  refine (does_ilock hE hmt.sane hip.2 (.inl (hx.trans_ne htype))).bind ?_
  rintro _ u ⟨hmu, hl, hd, -⟩
  have hmu' : Moves (addRef (refs s) ip 1) s u := hmt.then_same hmu
  obtain ⟨hcopy, -⟩ := hl.copy hmu.sane
  have hty : (u.inode ip).type = (u.dinode x).type := congrArg Dinode.type hcopy
  have hsize : (u.inode ip).size = (u.dinode x).size := congrArg Dinode.size hcopy
  have haddrs : (u.inode ip).addrs = (u.dinode x).addrs := congrArg Dinode.addrs hcopy
  refine (does_modify_iupdate hE hmu.sane hl fun ip => ⟨_, _, _, rfl⟩).bind2 ?_
  rintro _ v ⟨hmv, hdv, hbv, -⟩
  refine hQ ip v x (hmu'.then_same hmv) (hmv.loaded hl hl.1.1) ha.free (by omega) hlt ?_
  rw [tree_relabel hdv hbv hty hsize haddrs rfl, hd.tree, ha.tree]

def Created (s₀ t : Fs) (T : Tree) (d : ℕ) (name : Str) (type : ℤ) (x : ℕ) : Prop :=
  ∃ k, T.Vacant d k name ∧ (T x).type = 0 ∧ x ≠ 0 ∧ x < s₀.sb.ninodes ∧
    Dropped s₀ t d (T.create d k x name type) (tree t)

theorem does_createAt (hE : Tolerates E) (hm : Moves (addRef (refs s0) dp 1) s0 s)
    (hdp : Loaded s dp d) (hdir : (tree s d).type = T_DIR) {name : Str}
    (hnew : ∀ j, j < (tree s d).len → ¬ (tree s).Matches d j name) (htype : type ≠ 0)
    (hmax : s.sb.ninodes ≤ 65536) : Does p E (createAt dp name type major minor) s fun ip t =>
      Moves (addRef (refs s0) ip 1) s0 t ∧ ∃ x, Loaded t ip x ∧ (tree t x).type = type ∧
        Created s0 t (tree s) d name type x := by
  refine .bind_read ?_
  have hdev : (s.inode dp).dev = ROOTDEV := hm.sane.dev dp hdp.1.1
  simp only [hdev]
  refine does_ialloc_labelled hE hm.sane htype fun ip t x hmt hip hfree hx0 hxN ht => ?_
  have hne : x ≠ d := by
    rintro rfl
    rw [hdir] at hfree
    exact absurd hfree (by decide)
  have hm1 := hm.then_add hmt le_addOne
  have hdp1 : Loaded t dp d := hmt.loaded hdp
    (lt_of_lt_of_le hdp.1.1 (le_addOne _))
  -- The entries `.` and `..` of a directory.
  refine .bind (Q := fun _ u => Moves (refs t) t u ∧ tree u = (tree s).newInode d x type)
    (.when (fun hd => ?_) fun hd => ?_) ?_
  · refine (does_createDots hE hmt.sane hdp1 hip hne ?_ ?_).mono ?_
    · rw [ht]
      simp
    · rwa [Nat.mod_eq_of_lt (lt_of_lt_of_le hxN hmax)]
    · rintro _ u ⟨hmu, hu⟩
      refine ⟨hmu, ?_⟩
      rw [hu, ht, Tree.newInode, if_pos hd]
  · refine ⟨.refl hmt.sane, ?_⟩
    rw [ht, Tree.newInode, if_neg hd]
  · rintro _ u ⟨hmu, hu⟩
    have hipu := hmu.loaded hip hip.1.1
    have hdpu := hmu.loaded hdp1 hdp1.1.1
    have hm2 := hm1.then_same hmu
    refine .bind_read ?_
    have hinum : (u.inode ip).inum = x := hipu.1.2
    simp only [hinum]
    obtain ⟨h1, h2, h3, -⟩ := Tree.newInode_dir (tree s) hne type
    rw [← hu] at h1 h2 h3
    refine (does_dirlink_new hE hmu.sane hdpu name x fun j hj hmatch => ?_).bind ?_
    · refine hnew j (h2 ▸ hj) ?_
      rwa [Tree.Matches, ← h3]
    · rintro _ v ⟨hmv, rfl, k, hk, hv⟩
      simp only [show ¬ (0 : ℤ) < 0 by decide, if_false]
      have hipv := hmv.loaded hipu hipu.1.1
      have hdpv := hmv.loaded hdpu hdpu.1.1
      have hm3 := hm2.then_same hmv
      have hslot : dp ≠ ip := by
        rintro rfl
        exact hne (hipv.1.2.symm.trans hdpv.1.2)
      refine (does_iunlockput_loaded hE hm3 (fun j => ?_) hdpv).bind ?_
      · rw [addRef_swap]
        exact le_addOne _
      · rintro _ w ⟨hmw, hper, hdrop⟩
        rw [addRef_swap] at hmw
        have hipw : Loaded w ip x := by
          refine hper.loaded hipv ?_
          rw [hmw.refs, addRef_self]
          have := hipv.1.1
          rw [hm3.refs, addRef_self, addRef_of_ne _ _ hslot.symm] at this
          exact this
        have hd := hdrop (by rw [addRef_of_ne _ _ hslot, addRef_self])
        rw [hv, hu] at hd
        have hdropped : Dropped s0 w d ((tree s).create d k x name type) (tree w) := by
          rw [Tree.create]
          refine hd.imp_right fun h => ⟨fun hnl => ⟨dp, h.1 hnl, ?_⟩, h.2⟩
          exact hper.loaded hdpv (lt_of_lt_of_le (h.1 hnl) (by
            rw [hmw.refs]
            exact le_addOne _))
        refine .ret ⟨hmw, x, hipw, ?_, k, hk.congr h1 h2 h3, hfree, hx0, hm.sb ▸ hxN, hdropped⟩
        rw [hdropped.of_ne hne, Tree.create_new hne]

/-- What `create` returns, with the inode locked: an inode that was there, or a new one. -/
def CreateResult (s₀ : Fs) (G : ℕ → Str → Prop) (type : ℤ) (r : Option Slot) (t : Fs) : Prop :=
  match r with
  | none => Moves (refs s₀) s₀ t ∧ SameDisk s₀ t
  | some ip => Moves (addRef (refs s₀) ip 1) s₀ t ∧ ∃ x, Loaded t ip x ∧ (tree t x).type = type ∧
      (SameDisk s₀ t ∨ ∃ d name rest, G d rest ∧ skipelem rest = some (name, []) ∧
        Created s₀ t (tree s₀) d name type x)

theorem does_create (hE : Tolerates E) (hs0 : Sane s0) (ha : Anchored s0)
    (hG : Route E (SameDisk s0) G) (hm : Moves (refs s0) s0 s) (ht : SameDisk s0 s) {path : Str}
    (hst : StartsIn s p path G) (htype : type ≠ 0) (hmax : s0.sb.ninodes ≤ 65536) :
    Does p E (create p path type major minor) s (CreateResult s0 G type) := by
  refine (does_namex hE ha.closed hs0 hG hm ht hst true).bind ?_
  rintro r t ⟨hIt, hr⟩
  match r with
  | none => exact .ret ⟨hr, hIt⟩
  | some (dp, name) =>
    obtain ⟨hmt, d, rest, hdp, hGd, hlast, hdir⟩ := hr
    have halloc : (tree t d).type ≠ 0 := by
      rw [hdir]
      decide
    refine (does_ilock hE hmt.sane hdp.2 (.inl halloc)).bind ?_
    rintro _ u ⟨hmu, hdpu, hdu, -⟩
    have hm1 := hmt.then_same hmu
    have hu : SameDisk s0 u := hIt.trans hdu
    refine (does_dirlookup hE hE.scannable hmu.sane hdpu name).bind ?_
    rintro r v ⟨hdiru, hr⟩
    match r with
    | none =>
      obtain ⟨rfl, hnone⟩ := hr
      simp only
      refine (does_createAt hE hm1 hdpu hdiru hnone htype (by rwa [hm1.sb])).bind ?_
      rintro ip w ⟨hmw, x, hip, hx, hc⟩
      rw [hu.tree] at hc
      exact .ret ⟨hmw, x, hip, hx, .inr ⟨d, name, rest, hGd, hlast, hc⟩⟩
    | some (ip, off) =>
      obtain ⟨hmv, hdv, k, -, hfirst, hip⟩ := hr
      simp only
      have hm2 := hm1.then_add hmv le_addOne
      have hv : SameDisk s0 v := hu.trans hdv
      have hdpv : Loaded v dp d := hmv.loaded hdpu
        (lt_of_lt_of_le hdpu.1.1 (le_addOne _))
      refine (does_iunlockput_in hE ha.closed hs0 hm2 hv (fun j => ?_) hdpv.1.2).bind ?_
      · rw [addRef_swap]
        exact le_addOne _
      · rintro _ w ⟨hmw, hper, hw⟩
        rw [addRef_swap] at hmw
        have hipw : Refers w ip ((tree u d).ent k).inum := by
          refine hper.refers hip ?_
          have h0 : 0 ≤ refs s0 ip := hs0.nonneg ip
          rw [hmw.refs, addRef_self]
          omega
        have hGx := hG.next _ d k rest name [] hu hGd hlast hdiru hfirst
        refine (does_ilock hE hmw.sane hipw.2 (hG.alloc.imp_left fun h => ?_)).bind ?_
        · exact h w _ _ hw hGx
        · rintro _ y ⟨hmy, hipy, hdy, -⟩
          have hm4 := hmw.then_same hmy
          have hy : SameDisk s0 y := hw.trans hdy
          refine .bind_read ?_
          split_ifs with hfile
          · have hfound : (y.inode ip).type = T_FILE := hfile.2
            refine .ret ⟨hm4, _, hipy, ?_, .inl hy⟩
            rw [← hipy.type hmy.sane, hfound, hfile.1]
          · refine (does_iunlockput_in hE ha.closed hs0 hm4 hy
              (fun j => by rw [addRef_neg]) rfl).bind ?_
            rintro _ z ⟨hmz, -, hz⟩
            rw [addRef_neg] at hmz
            exact .ret ⟨hmz, hz⟩

end Create

section Link

theorem does_linkAt (hE : Tolerates E) (hs : Sane s) (ha : Anchored s)
    (hG : Route E (SameDisk s) G) {path : Str} (hst : StartsIn s p path G) (hip : Refers s ip x) :
    Does p E (linkAt p path ip) s fun ok t => Moves (refs s) s t ∧
      (ok = false ∧ SameDisk s t ∨ ok = true ∧ ∃ d k name rest, G d rest ∧
        skipelem rest = some (name, []) ∧ (tree s).Vacant d k name ∧
        tree t = (tree s).setEnt d k ⟨x % 65536, strncpy name⟩) := by
  refine (does_namex hE ha.closed hs hG (.refl hs) (.refl s) hst true).bind ?_
  rintro r t ⟨hIt, hr⟩
  match r with
  | none => exact .ret ⟨hr, .inl ⟨rfl, hIt⟩⟩
  | some (dp, name) =>
    obtain ⟨hmt, d, rest, hdp, hGd, hlast, hdir⟩ := hr
    have halloc : (tree t d).type ≠ 0 := by
      rw [hdir]
      decide
    have hle : ∀ j, refs s j ≤ addRef (addRef (refs s) dp 1) dp (-1) j := by
      intro j
      rw [addRef_neg]
    refine (does_ilock hE hmt.sane hdp.2 (.inl halloc)).bind ?_
    rintro _ u ⟨hmu, hdpu, hdu, -⟩
    have hm1 := hmt.then_same hmu
    have hu : SameDisk s u := hIt.trans hdu
    have hipu : Refers u ip x :=
      hm1.refers hip (lt_of_lt_of_le hip.1 (le_addOne _))
    refine .bind_read (.bind_read ?_)
    have hdev : (u.inode dp).dev = (u.inode ip).dev := by
      rw [hm1.sane.dev dp hdpu.1.1, hm1.sane.dev ip hipu.1]
    simp only [hdev, ne_eq, not_true, if_false]
    refine .bind_read ?_
    have hinum : (u.inode ip).inum = x := hipu.2
    simp only [hinum]
    have hau : Anchored u := by
      refine ha.of_moves hm1 le_addOne fun n h1 h2 => .inl ?_
      rw [hu.tree] at h1 h2
      exact ⟨h1, h2⟩
    refine (does_dirlink hE hE.scannable (hE _ (by decide) (by decide)) hau.closed hmu.sane (.refl u) hdpu name x).bind ?_
    rintro r v ⟨hmv, hdiru, hv⟩
    have hm2 := hm1.then_same hmv
    rcases hv with ⟨rfl, hv, -⟩ | ⟨rfl, hnew, k, hle', hfree, hv⟩
    · refine (does_iunlockput_in hE ha.closed hs hm2 (hu.trans hv) hle rfl).bind ?_
      rintro _ w ⟨hmw, -, hw⟩
      rw [addRef_neg] at hmw
      exact .ret ⟨hmw, .inl ⟨by decide, hw⟩⟩
    · rw [hu.tree] at hv hdiru hnew hle' hfree
      have hcl : Closed s (SameDisk v) := by
        refine ha.closed_of fun m => ?_
        rw [hv]
        exact Tree.setEnt_rest _ _ _ _ _
      refine (does_iunlockput_in hE hcl hs hm2 (.refl v) hle rfl).bind ?_
      rintro _ w ⟨hmw, -, hw⟩
      rw [addRef_neg] at hmw
      exact .ret ⟨hmw, .inr ⟨by decide, d, k, name, rest, hGd, hlast,
        ⟨hdiru, hle', hfree, hnew⟩, hw.tree.trans hv⟩⟩

end Link

end Xv6
