import Xv6.Fs.BalanceCalls
import Xv6.Fs.Create

namespace Xv6
open Lib Prog Function

/-- An open file has a valid inode, which is not a directory if the file is writable. -/
def FileOk (s : Fs) (x : File) : Prop :=
  0 < x.ref ∧ ∃ n, Loaded s x.ip n ∧ (x.writable = true → (tree s n).type ≠ T_DIR)

/-- A state between two calls. -/
structure Settled (s : Fs) : Prop where
  sane : Sane s
  anchored : Anchored s
  ninodes : s.sb.ninodes ≤ 65536
  short : (tree s).Short
  balanced : Balance.Balanced (refs s) s.file s.proc
  free : Balance.FreeFiles s.file
  files : ∀ f, (s.file f).type = .fdInode → FileOk s (s.file f)

theorem Settled.cwd_pos {s : Fs} (h : Settled s) {q : Pid} {i : Slot}
    (hi : (s.proc q).cwd = some i) : 0 < refs s i := by
  have h1 := count_nonneg (Balance.opensInode i) s.file
  have h2 : 0 < count (Balance.isCwd i) s.proc := count_pos (i := q) (by simp [Balance.isCwd, hi])
  have h3 := h.balanced i
  omega

variable {E : String → Prop} {s t u : Fs} {path : Option Str} {U : ℕ → Str → Prop} {r : Slot → ℤ}
  {ip : Slot}

section Walked

variable {p : Pid} {x : Str}

theorem Settled.startsIn {r : Slot → ℤ} (hs : Settled s) (hx : x ∈ path) (hm : Moves r s t)
    (hr : ∀ j, refs s j ≤ r j) : StartsIn t p x (s.walks p path) :=
  (startsIn_walks (fun _ hi => hs.cwd_pos hi) x hx).of_moves hm hr

theorem Settled.does_namei (hs : Settled s) (hE : Tolerates E) (hno : s.Passable p E (some x))
    (hm : Moves (refs s) s t) (hd : SameDisk s t) :
    Does p E (namei p x) t fun r u => SameDisk s u ∧ match r with
      | none => Moves (refs s) s u
      | some j => Moves (addRef (refs s) j 1) s u ∧
          ∃ m rest, Refers u j m ∧ s.walks p (some x) m rest :=
  Xv6.does_namei hE hs.anchored.closed hs.sane (route_walks hno) hm hd
    (hs.startsIn rfl hm fun _ => le_rfl)

theorem does_ilock_walked {ip : Slot} {n : ℕ} {rest : Str} (hE : Tolerates E)
    (hno : s.Passable p E path) (hm : Moves (addRef (refs s) ip 1) s t) (hd : SameDisk s t)
    (hip : Refers t ip n) (hW : s.walks p path n rest) :
    Does p E (ilock ip) t fun _ u => Moves (addRef (refs s) ip 1) s u ∧ Loaded u ip n ∧
      SameDisk s u ∧ (tree s n).type ≠ 0 := by
  have hn : (t.dinode n).type ≠ 0 ∨ E noType := by
    refine hno.imp_left fun h => ?_
    have := h n rest hW
    rwa [← hd.tree] at this
  refine (does_ilock hE hm.sane hip.2 hn).mono ?_
  rintro _ u ⟨hmu, hipu, hdu, hx⟩
  exact ⟨hm.then_same hmu, hipu, hd.trans hdu, hd.tree ▸ hx⟩

end Walked

theorem file_pos {s : Fs} (h : Balance.Balanced (refs s) s.file s.proc) {f : Fin NFILE}
    (hr : 0 < (s.file f).ref) (ht : (s.file f).type = .fdInode) : 0 < refs s (s.file f).ip := by
  have h1 : 0 < count (Balance.opensInode (s.file f).ip) s.file :=
    count_pos (i := f) (by simp [Balance.opensInode, hr, ht])
  have h2 := count_nonneg (Balance.isCwd (s.file f).ip) s.proc
  have h3 := h (s.file f).ip
  omega

/-- References are given up, and inodes without links are freed with the last one. -/
structure Closes (s t : Fs) : Prop where
  sane : Sane t
  sb : t.sb = s.sb
  persist : Persist s t
  anchored : Anchored t
  frees : (tree s).Frees (tree t)
  refs_le : ∀ j, refs t j ≤ refs s j

structure SameCore (s t : Fs) : Prop where
  sb : t.sb = s.sb
  dinode : t.dinode = s.dinode
  bitmap : t.bitmap = s.bitmap
  block : t.block = s.block
  inode : t.inode = s.inode

section Closes

variable {P : Type} {p : P} {i : Slot} {n : ℕ}

theorem Persist.trans (h : Persist s t) (h' : Persist t u)
    (hr : ∀ j, 0 < refs s j → 0 < refs u j → 0 < refs t j) : Persist s u := by
  intro j hj hj'
  obtain ⟨h1, h2⟩ := h j hj (hr j hj hj')
  obtain ⟨h3, h4⟩ := h' j (hr j hj hj') hj'
  exact ⟨h3.trans h1, fun hv => h4 (h2 hv)⟩

theorem Closes.trans (h : Closes s t) (h' : Closes t u) : Closes s u where
  sane := h'.sane
  sb := h'.sb.trans h.sb
  persist := h.persist.trans h'.persist fun j _ hj => lt_of_lt_of_le hj (h'.refs_le j)
  anchored := h'.anchored
  frees := h.frees.trans h'.frees
  refs_le j := (h'.refs_le j).trans (h.refs_le j)

theorem closes_of_same (ha : Anchored s) (hm : Moves (refs s) s t) (hd : SameDisk s t) :
    Closes s t where
  sane := hm.sane
  sb := hm.sb
  persist := hm.persist
  anchored := by
    refine ha.of_moves hm (fun _ => le_rfl) fun n h1 h2 => .inl ?_
    rw [hd.tree] at h1 h2
    exact ⟨h1, h2⟩
  frees := hd.tree ▸ .refl
  refs_le j := le_of_eq (congrFun hm.refs j)

theorem SameCore.closes (h : SameCore s t) (hs : Sane s) (ha : Anchored s) : Closes s t := by
  have hm : Moves (refs s) s { t with proc := s.proc, file := s.file } :=
    moves_congr hs h.sb h.dinode h.bitmap h.block h.inode rfl rfl
  have hc := closes_of_same ha hm ⟨h.dinode, h.block, h.bitmap⟩
  exact ⟨⟨hm.sane.toWellFormed.congr rfl rfl rfl rfl,
    hm.sane.nonneg, hm.sane.dev, hm.sane.uniq, hm.sane.copy⟩, h.sb, hc.persist, hc.anchored,
    hc.frees, hc.refs_le⟩

theorem does_iput_closes (hE : Tolerates E) (hs : Sane s) (ha : Anchored s) (hi : Refers s i n) :
    Does p E (iput i) s fun _ t => Closes s t ∧ refs t = addRef (refs s) i (-1) ∧
      t.proc = s.proc ∧ t.file = s.file := by
  refine (does_iput hE hs hi).mono ?_
  rintro _ t ⟨hm, hdisk⟩
  have hle : ∀ j, refs t j ≤ refs s j := by
    intro j
    rw [hm.refs]
    by_cases hj : j = i
    · subst hj
      rw [addRef_self]
      omega
    · rw [addRef_of_ne _ _ hj]
  refine ⟨?_, hm.refs, hm.proc, hm.file⟩
  -- The entry of another inode keeps its references.
  have hother : ∀ {j m}, Loaded s j m → m ≠ n → Loaded t j m := by
    intro j m hl hne
    refine hm.loaded hl ?_
    have hji : j ≠ i := by
      rintro rfl
      exact hne (hl.1.2.symm.trans hi.2)
    rw [addRef_of_ne _ _ hji]
    exact hl.1.1
  rcases hdisk with ⟨-, hnl, htype, hf⟩ | ⟨hd, hsame⟩
  · refine ⟨hm.sane, hm.sb, hm.persist, fun m h1 h2 => ?_, hf.tree ▸ .free .refl hnl htype, hle⟩
    rw [hf.tree] at h1 h2
    have hne : m ≠ n := by
      rintro rfl
      simp at h1
    rw [Tree.free_of_ne hne] at h1 h2
    obtain ⟨j, hj⟩ := ha m h1 h2
    exact ⟨j, hother hj hne⟩
  · refine ⟨hm.sane, hm.sb, hm.persist, fun m h1 h2 => ?_, hsame.tree ▸ .refl, hle⟩
    rw [hsame.tree] at h1 h2
    obtain ⟨j, hj⟩ := ha m h1 h2
    by_cases hne : m = n
    · -- This was not the last reference, or the inode would have been freed.
      subst hne
      obtain rfl : j = i := hs.uniq j i hj.1.1 hi.1 (hj.1.2.trans hi.2.symm)
      have hnl : (s.inode j).nlink = 0 := (congrArg Dinode.nlink (hj.copy hs).1).trans h2
      have hr : refs s j ≠ 1 := fun h => hd ⟨h, hj.2, hnl⟩
      have hpos := hj.1.1
      refine ⟨j, hm.loaded hj ?_⟩
      rw [addRef_self]
      omega
    · exact ⟨j, hother hj hne⟩

end Closes

/-- What a call leads to that enters names as in `P` and removes names as in `U`. -/
structure Ended (P U : ℕ → Str → Prop) (s t : Fs) : Prop where
  sane : Sane t
  sb : t.sb = s.sb
  persist : Persist s t
  anchored : Anchored t
  effect : Effect s.sb.ninodes P U (tree s) (tree t)

section Ended

variable {P W : ℕ → Str → Prop}

theorem Ended.then_closes (h : Ended P U s t) (h' : Closes t u) : Ended P U s u where
  sane := h'.sane
  sb := h'.sb.trans h.sb
  persist := h.persist.trans h'.persist fun j _ hj => lt_of_lt_of_le hj (h'.refs_le j)
  anchored := h'.anchored
  effect := h.effect.free h'.frees

theorem Closes.ends (h : Closes s t) : Ended P U s t :=
  ⟨h.sane, h.sb, h.persist, h.anchored, .same h.frees⟩

theorem ends_of_moves (ha : Anchored s) (hm : Moves r s t) (hr : ∀ j, refs s j ≤ r j)
    (hd : SameDisk s t) : Ended P U s t where
  sane := hm.sane
  sb := hm.sb
  persist := hm.persist
  anchored := by
    refine ha.of_moves hm hr fun n h1 h2 => .inl ?_
    rw [hd.tree] at h1 h2
    exact ⟨h1, h2⟩
  effect := hd.tree ▸ .same .refl

theorem CreateResult.ends {type : ℤ} (h : CreateResult s W type (some ip) t) (hs : Settled s)
    (htype : type ≠ 0) (hP : ∀ d name rest, W d rest → skipelem rest = some (name, []) →
      (tree s d).type = T_DIR → P d name) : Ended P U s t := by
  obtain ⟨hm, x, hip, -, ht | ⟨d, name, rest, hW, hlast, k, hv, hx, hx0, hxN, hdrop⟩⟩ := h
  · exact ends_of_moves hs.anchored hm le_addOne ht
  · refine ⟨hm.sane, hm.sb, hm.persist, ?_,
      ⟨_, .create d k x name type (hP d name rest hW hlast hv.dir) hv hx hx0 hxN htype, hdrop.frees⟩⟩
    refine hs.anchored.of_moves hm le_addOne fun n h1 h2 => ?_
    by_cases hnx : n = x
    · exact .inr ⟨ip, hnx ▸ hip⟩
    · by_cases hnd : n = d
      · subst hnd
        exact .inr (hdrop.anchored h1 h2)
      · rw [hdrop.of_ne hnd, Tree.create_of_ne hnx hnd] at h1 h2
        exact .inl ⟨h1, h2⟩

theorem Unlinked.ends {x : ℤ} (h : Unlinked s (SameDisk s) W x t) (hs : Settled s)
    (hne : ∀ d k x name, Unlinkable (tree s) d k x name → x ≠ d)
    (hU : ∀ d name rest, W d rest → skipelem rest = some (name, []) →
      (tree s d).type = T_DIR → U d name) : Ended P U s t := by
  obtain ⟨hm, ⟨-, ht⟩ | ⟨-, u, d, k, x, name, rest, hdu, hW, hlast, hu, hdrop⟩⟩ := h
  · exact ends_of_moves hs.anchored hm (fun _ => le_rfl) ht
  · rw [hdu.tree] at hu hdrop
    have hxd := hne d k x name hu
    obtain ⟨T', hd, hx⟩ := hdrop hxd
    have hx' : (T' x).nlink = (tree s x).nlink := by rw [hd.of_ne hxd, Tree.clear_of_ne hxd]
    rw [hx'] at hx
    have hfrees : ((tree s).unlink d k x).Frees
        (T'.setNlink x (toShort ((tree s x).nlink - 1))) := by
      rcases hd with ⟨hnl, htype, rfl⟩ | ⟨-, rfl⟩
      · -- Freeing the directory and counting down the link of `x` commute.
        have hsame : (tree s).unlink d k x d = (tree s).clear d k x d := by
          rw [Tree.unlink, Tree.setNlink_of_ne hxd.symm]
        have hcomm : (((tree s).clear d k x).free d).setNlink x
            (toShort ((tree s x).nlink - 1)) = ((tree s).unlink d k x).free d := by
          simp only [Tree.unlink, Tree.free, Tree.setNlink]
          rw [update_comm hxd, update_of_ne hxd, update_of_ne hxd.symm]
        rw [hcomm]
        exact .free .refl (by rw [hsame]; exact hnl) (by rw [hsame]; exact htype)
      · exact .refl
    refine ⟨hm.sane, hm.sb, hm.persist, ?_,
      ⟨_, .unlink d k x name (hU d name rest hW hlast hu.dir) hu hxd, hfrees.trans hx.frees⟩⟩
    refine hs.anchored.of_moves hm (fun _ => le_rfl) fun n h1 h2 => ?_
    by_cases hnx : n = x
    · subst hnx
      exact .inr (hx.anchored h1 h2)
    · rw [hx.of_ne hnx, Tree.setNlink_of_ne hnx] at h1 h2
      by_cases hnd : n = d
      · subst hnd
        exact .inr (hd.anchored h1 h2)
      · rw [hd.of_ne hnd, Tree.clear_of_ne hnd] at h1 h2
        exact .inl ⟨h1, h2⟩

end Ended

def Fs.cwd (s : Fs) (q : Pid) : Option Slot := (s.proc q).cwd

/-- The file `x` has become `y`, which is open for the same inode. -/
def File.Kept (x y : File) : Prop :=
  x.type = .fdInode ∧ y.ip = x.ip ∧ y.writable = x.writable ∧ (0 < x.ref → 0 < y.ref)

def KeepsFiles (s t : Fs) : Prop :=
  ∀ f, (t.file f).type = .fdInode → (s.file f).Kept (t.file f)

/-- What a call leads to that opens nothing and keeps the current directories. -/
structure Done (P U : ℕ → Str → Prop) (s t : Fs) : Prop extends Ended P U s t where
  cwd : t.cwd = s.cwd
  files : KeepsFiles s t

/-- A call on names fails and changes nothing, or it is done. -/
def Answers (P U : ℕ → Str → Prop) (s : Fs) (r : ℤ) (t : Fs) : Prop :=
  r = err ∧ Moves (refs s) s t ∧ SameDisk s t ∨ r = 0 ∧ Done P U s t

section Names

variable {p : Pid} {P : ℕ → Str → Prop}

theorem cwd_of_proc (h : t.proc = s.proc) : t.cwd = s.cwd := by
  funext q
  rw [Fs.cwd, h, Fs.cwd]

theorem KeepsFiles.refl (s : Fs) : KeepsFiles s s := fun _ h => ⟨h, rfl, rfl, id⟩

theorem KeepsFiles.of_eq (h : t.file = s.file) : KeepsFiles s t := by
  intro f hf
  rw [h] at hf ⊢
  exact KeepsFiles.refl s f hf

theorem KeepsFiles.trans (h : KeepsFiles s t) (h' : KeepsFiles t u) : KeepsFiles s u := by
  intro f hf
  obtain ⟨h1, h2, h3, h4⟩ := h' f hf
  obtain ⟨k1, k2, k3, k4⟩ := h f h1
  exact ⟨k1, h2.trans k2, h3.trans k3, fun hr => h4 (k4 hr)⟩

/-- Open files of a state that follows a settled one, if they were open or are new. -/
theorem Settled.after (hs : Settled s) (h : Ended P U s t)
    (hb : Balance.Balanced (refs t) t.file t.proc) (hf : Balance.FreeFiles t.file)
    (hfiles : ∀ f, (t.file f).type = .fdInode →
      (s.file f).Kept (t.file f) ∨ FileOk t (t.file f)) : Settled t := by
  refine ⟨h.sane, h.anchored, h.sb ▸ hs.ninodes, h.effect.short hs.short, hb, hf, fun f htype => ?_⟩
  rcases hfiles f htype with ⟨h1, h2, h3, h4⟩ | hok
  · obtain ⟨hpos, n, hl, hdir⟩ := hs.files f h1
    have hl' : Loaded t (t.file f).ip n := by
      have hr := file_pos hb (h4 hpos) htype
      rw [h2] at hr ⊢
      exact h.persist.loaded hl hr
    refine ⟨h4 hpos, n, hl', fun hw => ?_⟩
    rw [h.effect.type (hl.copy hs.sane).2 (hl'.copy h.sane).2]
    exact hdir (h3 ▸ hw)
  · exact hok

theorem done_of_moves (ha : Anchored s) (hm : Moves r s t) (hr : ∀ j, refs s j ≤ r j)
    (hd : SameDisk s t) : Done P U s t :=
  ⟨ends_of_moves ha hm hr hd, cwd_of_proc hm.proc, .of_eq hm.file⟩

theorem Done.then_closes (h : Done P U s t) (h' : Closes t u) (hp : u.proc = t.proc)
    (hf : u.file = t.file) : Done P U s u :=
  ⟨h.toEnded.then_closes h', (cwd_of_proc hp).trans h.cwd, h.files.trans (.of_eq hf)⟩

theorem Answers.done {x : ℤ} (h : Answers P U s x t) (ha : Anchored s) : Done P U s t := by
  rcases h with ⟨-, hm, hd⟩ | ⟨-, h⟩
  · exact done_of_moves ha hm (fun _ => le_rfl) hd
  · exact h

section

variable (hE : Tolerates E)
include hE

theorem does_endOp_done (h : Done P U s t) :
    Does p E (do endOp; return 0) t (Answers P U s) := by
  refine (does_endOp hE h.sane).bind fun _ u hu => .ret (.inr ⟨rfl, ?_⟩)
  exact h.then_closes (closes_of_same h.anchored hu.1 hu.2) hu.1.proc hu.1.file

theorem does_endOp_err (hm : Moves (refs s) s t) (hd : SameDisk s t) :
    Does p E (do endOp; return err) t fun x u => x = err ∧ Moves (refs s) s u ∧ SameDisk s u :=
  (does_endOp hE hm.sane).bind fun _ _ hu => .ret ⟨rfl, hm.then_same hu.1, hd.trans hu.2⟩

theorem does_put_err (hs : Settled s) {n : ℕ}
    (hm : Moves (addRef (refs s) ip 1) s t) (hd : SameDisk s t) (hip : Refers t ip n) :
    Does p E (do iunlockput ip; endOp; return err) t fun x u =>
      x = err ∧ Moves (refs s) s u ∧ SameDisk s u := by
  have hle : ∀ j, refs s j ≤ addRef (addRef (refs s) ip 1) ip (-1) j := by simp
  refine (does_iunlockput_in hE hs.anchored.closed hs.sane hm hd hle hip.2).bind ?_
  rintro _ u ⟨hmu, -, hdu⟩
  rw [addRef_neg] at hmu
  exact does_endOp_err hE hmu hdu

theorem does_put_done {n : ℕ} (h : Done P U s t) (hip : Refers t ip n) :
    Does p E (do iunlockput ip; endOp; return 0) t (Answers P U s) := by
  refine Does.bind (Q := fun _ u => Done P U s u) ?_ fun _ u hu => does_endOp_done hE hu
  refine (does_iunlock hE).bind ?_
  rintro _ _ rfl
  refine (does_iput_closes hE h.sane h.anchored hip).mono ?_
  rintro _ u ⟨hc, -, hp, hf⟩
  exact h.then_closes hc hp hf

theorem does_makeNode (hs : Settled s) (hno : s.Passable p E path)
    {type major minor : ℤ} (htype : type ≠ 0) :
    Does p E (makeNode p path type major minor) s (Answers (s.parent p path) U s) := by
  refine (does_beginOp hs.sane).bind ?_
  rintro _ t ⟨hmt, hdt⟩
  refine .bind (Q := CreateResult s (s.walks p path) type) ?_ ?_
  · cases path with
    | none => exact .ret ⟨hmt, hdt⟩
    | some x =>
      exact does_create hE hs.sane hs.anchored (route_walks hno) hmt hdt
        (hs.startsIn rfl hmt fun _ => le_rfl) htype hs.ninodes
  · intro r u hu
    cases r with
    | none => exact (does_endOp_err hE hu.1 hu.2).mono fun _ _ h => .inl h
    | some ip =>
      have hend : Ended (s.parent p path) U s u :=
        hu.ends hs htype fun d name rest hW hlast hdir => ⟨rest, hW, hlast, hdir⟩
      obtain ⟨hmu, x, hip, -⟩ := hu
      exact does_put_done hE ⟨hend, cwd_of_proc hmu.proc, .of_eq hmu.file⟩ hip.1

theorem does_unlink (hs : Settled s) (hno : s.Passable p E path)
    (hne : ∀ d k x name, Unlinkable (tree s) d k x name → x ≠ d) :
    Does p E (sysUnlink p path) s (Answers P (s.parent p path) s) := by
  refine (does_sysUnlink hE hs.anchored.closed hs.sane (route_walks hno) (.refl s)
    (startsIn_walks fun i hi => hs.cwd_pos hi)).mono ?_
  intro r t ht
  have hend : Ended P (s.parent p path) s t :=
    ht.ends hs hne fun d name rest hW hlast hdir => ⟨rest, hW, hlast, hdir⟩
  obtain ⟨hm, ⟨rfl, hd⟩ | ⟨rfl, -⟩⟩ := ht
  · exact .inl ⟨rfl, hm, hd⟩
  · exact .inr ⟨rfl, hend, cwd_of_proc hm.proc, .of_eq hm.file⟩

end

theorem Anchored.counted (ha : Anchored s) {x : ℕ} {v : ℤ} (hm : Moves (addRef (refs s) ip 1) s t)
    (hip : Loaded t ip x) (hc : Counted s t x v) : Anchored t := by
  refine ha.of_moves hm le_addOne fun n h1 h2 => ?_
  by_cases hn : n = x
  · exact .inr ⟨ip, hn ▸ hip⟩
  · rw [hc.tree_eq, Tree.setNlink_of_ne hn] at h1 h2
    exact .inl ⟨h1, h2⟩

theorem does_linkCounted (hE : Tolerates E) (hs : Settled s) {new : Str}
    (hno : s.Passable p E (some new)) {x : ℕ} (hm : Moves (addRef (refs s) ip 1) s t)
    (hip : Loaded t ip x) (hx : (tree s x).type ≠ T_DIR) (hx0 : (tree s x).type ≠ 0)
    (hc : Counted s t x (toShort ((tree s x).nlink + 1))) :
    Does p E (linkCounted p new ip) t (Answers (s.parent p (some new)) U s) := by
  have ht := hc.tree_eq
  have hle : ∀ j, refs s j ≤ addRef (refs s) ip 1 j := le_addOne
  have hrest := Tree.setNlink_rest (tree s) x (toShort ((tree s x).nlink + 1))
  have hat : Anchored t := hs.anchored.counted hm hip hc
  have hroute : Route E (SameDisk t) (s.walks p (some new)) := by
    refine (route_walks hno).congr fun u hu => ⟨s, .refl s, fun n => ?_⟩
    rw [hu.tree, ht]
    obtain ⟨h1, h2, h3, -⟩ := hrest n
    exact ⟨h1, h2, h3⟩
  refine (does_linkAt hE hm.sane hat hroute (hs.startsIn rfl hm hle) hip.1).bind ?_
  rintro ok u ⟨hmu, ⟨rfl, hu⟩ | ⟨rfl, d, k, name, rest, hW, hlast, hv, hu⟩⟩
  · have hipu := hmu.loaded hip hip.1.1
    simp only [Bool.false_eq_true, if_false]
    refine (does_ilock hE hmu.sane hipu.1.2 (.inl (hipu.copy hmu.sane).2)).bind ?_
    rintro _ v ⟨hmv, hipv, hdv, -⟩
    refine (does_setNlink hE hmv.sane hipv).bind2 ?_
    rintro _ w ⟨hmw, hcw⟩
    have hm1 := ((hm.then_same hmu).then_same hmv).then_same hmw
    exact (does_put_err hE hs hm1 (hc.undo (hu.trans hdv) hcw (hs.short x))
      (hmw.loaded hipv hipv.1.1).1).mono fun _ _ h => .inl h
  · have hipu := hmu.loaded hip hip.1.1
    have hm1 := hm.then_same hmu
    simp only [if_true]
    have htree : tree u = (tree s).link d k x name := by rw [hu, ht, Tree.link]
    have hv' : (tree s).Vacant d k name := by
      rw [ht] at hv
      obtain ⟨h1, h2, h3, -⟩ := hrest d
      exact hv.congr h1 h2 h3
    have hau : Anchored u := by
      refine hs.anchored.of_moves hm1 hle fun n h1 h2 => ?_
      by_cases hn : n = x
      · exact .inr ⟨ip, hn ▸ hipu⟩
      · obtain ⟨e1, e2⟩ := Tree.setEnt_rest (tree t) d k ⟨x % 65536, strncpy name⟩ n
        rw [hu, e1, ht, Tree.setNlink_of_ne hn] at h1
        rw [hu, e2, ht, Tree.setNlink_of_ne hn] at h2
        exact .inl ⟨h1, h2⟩
    have hend : Done (s.parent p (some new)) U s u :=
      ⟨⟨hm1.sane, hm1.sb, hm1.persist, hau, _,
        .link d k x name ⟨rest, hW, hlast, hv'.dir⟩ hv' hx hx0, htree ▸ .refl⟩,
        cwd_of_proc hm1.proc, .of_eq hm1.file⟩
    refine (does_iput_closes hE hm1.sane hau hipu.1).bind ?_
    rintro _ v ⟨hcl, -, hp, hf⟩
    exact does_endOp_done hE (hend.then_closes hcl hp hf)

theorem does_sysLink (hE : Tolerates E) (hs : Settled s) {old new : Option Str}
    (hold : s.Passable p E old) (hnew : s.Passable p E new) :
    Does p E (sysLink p old new) s (Answers (s.parent p new) U s) := by
  unfold sysLink
  split
  · rename_i old new
    refine (does_beginOp hs.sane).bind ?_
    rintro _ t ⟨hmt, hdt⟩
    refine (hs.does_namei hE hold hmt hdt).bind ?_
    rintro r u ⟨hu, hr⟩
    cases r with
    | none => exact (does_endOp_err hE hr hu).mono fun _ _ h => .inl h
    | some ip =>
      obtain ⟨hmu, x, rest, hip, hW⟩ := hr
      refine (does_ilock_walked hE hold hmu hu hip hW).bind ?_
      rintro _ v ⟨hmv, hipv, hv, hx0⟩
      refine .bind_read ?_
      simp only [hipv.type hmv.sane, hv.tree]
      split_ifs with hdir
      · exact (does_put_err hE hs hmv hv hipv.1).mono fun _ _ h => .inl h
      · refine (does_setNlink hE hmv.sane hipv).bind2 ?_
        rintro _ w ⟨hmw, hcw⟩
        refine (does_iunlock hE).bind ?_
        rintro _ _ rfl
        rw [hv.tree] at hcw
        exact does_linkCounted hE hs hnew (hmv.then_same hmw) (hmw.loaded hipv hipv.1.1) hdir hx0
          (hcw.after hv)
  · exact .ret (.inl ⟨rfl, .refl hs.sane, .refl s⟩)

end Names

end Xv6
