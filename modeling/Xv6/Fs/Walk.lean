import Xv6.Fs.Tree

namespace Xv6
open Lib Prog

variable {E : String → Prop} {s s0 : Fs} {i : Slot} {n : ℕ} {I : Fs → Prop}

section Entries

variable {P : Type} {p : P} {off k : ℕ}

theorem does_readDirent (hs : Sane s) (hi : Loaded s i n)
    (hdir : (tree s n).type = T_DIR) {msg : String} (hmsg : E msg ∨ k < (tree s n).len)
    (hoff : off = k * DIRENT) : Does p E (readDirent msg i off) s fun de t =>
      t = s ∧ k < (tree s n).len ∧ de = (tree s n).ent k := by
  have hdir' : (s.dinode n).type = T_DIR := hdir
  refine (does_readi_file hs hi off DIRENT (by rw [hdir']; decide)).bind ?_
  rintro r t ⟨rfl, hsome, hl⟩
  have hlen' : (tree t n).len = (t.dinode n).size / DIRENT := by simp only [tree, node, hdir', if_true]
  -- An entry below the end is read in full: its offset does not wrap around.
  have hread : k < (tree t n).len → r.map List.length = some DIRENT := by
    intro hk
    have hfull := (hs.full n (hi.copy hs).2).le
    have hsz : (t.dinode n).size ≤ nblk (t.dinode n).size * BSIZE := nblk_le.mp le_rfl
    rw [hlen'] at hk
    have hin : off + DIRENT ≤ (t.dinode n).size := by
      rw [hoff]
      unfold DIRENT at hk ⊢
      omega
    have hmax : off + DIRENT < 2 ^ 32 := by
      unfold MAXFILE NDIRECT NINDIRECT BSIZE at *
      omega
    have hr := hsome (by omega) (by rw [uadd, Nat.mod_eq_of_lt hmax]; omega)
    obtain ⟨l, rfl⟩ := Option.isSome_iff_exists.mp hr
    simp only [Option.map_some, (hl l rfl).2.1 hin]
  cases r with
  | none => exact .panic (hmsg.resolve_right fun hk => by cases hread hk)
  | some l =>
    obtain ⟨h1, -, h2⟩ := hl l rfl
    by_cases hlen : l.length = DIRENT
    · simp only [hlen, ne_eq, not_true, if_false]
      have hk : k < (t.dinode n).size / DIRENT := by
        rw [hlen, hoff] at h1
        unfold DIRENT at h1 ⊢
        omega
      refine .ret ⟨rfl, by rwa [hlen'], ?_⟩
      simp only [tree, node, hdir', hk, and_self, if_true, direntAt]
      rw [h2, hlen, hoff]
    · simp only [ne_eq, hlen, not_false_eq_true, if_true]
      exact .panic (hmsg.resolve_right fun hk => hlen (Option.some.inj (hread hk)))

/-- Which of the entries `a, ..., b - 1` is the first with the name. -/
def Tree.FirstMatch (T : Tree) (d a b : ℕ) (name : Str) (k : ℕ) : Prop :=
  a ≤ k ∧ k < b ∧ k < (T d).len ∧ T.Matches d k name ∧ ∀ j, a ≤ j → j < k → ¬ T.Matches d j name

theorem does_dirlookupFrom (hE : Exhausts E) (hs : Sane s) (hi : Loaded s i n)
    (hdir : (tree s n).type = T_DIR) (name : Str) (m : ℕ) (hoff : off = k * DIRENT)
    (hmsg : E "dirlookup read" ∨ k + m ≤ (tree s n).len) :
    Does p E (dirlookupFrom i name m off) s fun r t => match r with
      | none => t = s ∧ ∀ j, k ≤ j → j < k + m → j < (tree s n).len ∧ ¬ (tree s).Matches n j name
      | some (ip, off) => Moves (addRef (refs s) ip 1) s t ∧ SameDisk s t ∧
          ∃ j, off = j * DIRENT ∧ (tree s).FirstMatch n k (k + m) name j ∧
            Refers t ip ((tree s n).ent j).inum := by
  induction m generalizing off k with
  | zero => exact .ret ⟨rfl, fun j h1 h2 => by omega⟩
  | succ m ih =>
    refine (does_readDirent hs hi hdir (hmsg.imp_right fun h => by omega) hoff).bind ?_
    rintro de t ⟨rfl, hk, rfl⟩
    by_cases hmatch : ((tree t n).ent k).inum ≠ 0 ∧ namecmpEq name ((tree t n).ent k).name
    · rw [if_pos hmatch]
      refine .bind_read ?_
      have hdev : (t.inode i).dev = ROOTDEV := hs.dev i hi.1.1
      simp only [hdev]
      refine (does_iget hE hs _).bind ?_
      rintro ip u ⟨hm, hr, hd⟩
      exact .ret ⟨hm, hd, k, hoff, ⟨le_rfl, by omega, hk, hmatch, fun j h1 h2 => by omega⟩, hr⟩
    · rw [if_neg hmatch]
      refine (ih (k := k + 1) (by rw [hoff, Nat.add_mul, Nat.one_mul])
        (hmsg.imp_right fun h => by omega)).mono ?_
      rintro r u hu
      cases r with
      | none =>
        obtain ⟨rfl, hall⟩ := hu
        refine ⟨rfl, fun j h1 h2 => ?_⟩
        by_cases hj : j = k
        · rw [hj]
          exact ⟨hk, hmatch⟩
        · exact hall j (by omega) (by omega)
      | some e =>
        obtain ⟨hm, hd, j, hj, ⟨h1, h2, h3, h4, h5⟩, hr⟩ := hu
        refine ⟨hm, hd, j, hj, ⟨by omega, by omega, h3, h4, fun l hl hlt => ?_⟩, hr⟩
        by_cases hlk : l = k
        · rw [hlk]
          exact hmatch
        · exact h5 l (by omega) hlt

theorem len_le_numEntries (hdir : (tree s n).type = T_DIR) :
    (tree s n).len ≤ numEntries (s.dinode n).size := by
  have hdir' : (s.dinode n).type = T_DIR := hdir
  simp only [tree, node, hdir', if_true, numEntries, DIRENT]
  omega

/-- All entries of the directory can be read, or the panics for it are allowed. -/
def Scannable (E : String → Prop) (T : Tree) (d : ℕ) : Prop :=
  (∀ m ∈ ["dirlookup not DIR", "dirlookup read", "dirlink read"], E m) ∨
    (T d).type = T_DIR ∧ (T d).rest = 0

theorem Tolerates.scannable {T : Tree} {d : ℕ} (hE : Tolerates E) : Scannable E T d := by
  refine .inl fun m hm => hE m ?_ ?_
  · rintro rfl
    exact absurd hm (by decide)
  · rintro rfl
    exact absurd hm (by decide)

theorem numEntries_eq_len (hdir : (tree s n).type = T_DIR) (hrest : (tree s n).rest = 0) :
    numEntries (s.dinode n).size = (tree s n).len := by
  have hdir' : (s.dinode n).type = T_DIR := hdir
  simp only [tree, node, hdir', if_true, numEntries, DIRENT] at hrest ⊢
  omega

theorem does_dirlookup (hE : Exhausts E) (hscan : Scannable E (tree s) n) (hs : Sane s) (hi : Loaded s i n) (name : Str) :
    Does p E (dirlookup i name) s fun r t => (tree s n).type = T_DIR ∧ match r with
      | none => t = s ∧ ∀ j, j < (tree s n).len → ¬ (tree s).Matches n j name
      | some (ip, off) => Moves (addRef (refs s) ip 1) s t ∧ SameDisk s t ∧
          ∃ j, off = j * DIRENT ∧ (tree s).FirstMatch n 0 (tree s n).len name j ∧
            Refers t ip ((tree s n).ent j).inum := by
  obtain ⟨hcopy, -⟩ := hi.copy hs
  have htype : (s.inode i).type = (s.dinode n).type := congrArg Dinode.type hcopy
  have hsize : (s.inode i).size = (s.dinode n).size := congrArg Dinode.size hcopy
  refine .bind_read ?_
  simp only [id, htype, hsize]
  by_cases hdir : (s.dinode n).type = T_DIR
  · simp only [ne_eq, hdir, not_true, if_false]
    have hlen := len_le_numEntries (s := s) hdir
    refine (does_dirlookupFrom hE hs hi hdir name _ (Nat.zero_mul _).symm ?_).mono ?_
    · refine hscan.imp (fun h => h _ (by decide)) fun h => ?_
      rw [numEntries_eq_len hdir h.2, Nat.zero_add]
    rintro r t h
    refine ⟨hdir, ?_⟩
    cases r with
    | none => exact ⟨h.1, fun j hj => (h.2 j (by omega) (by omega)).2⟩
    | some e =>
      obtain ⟨hm, hd, j, hj, ⟨h1, h2, h3, h4, h5⟩, hr⟩ := h
      exact ⟨hm, hd, j, hj, ⟨h1, h3, h3, h4, h5⟩, hr⟩
  · simp only [ne_eq, hdir, not_false_eq_true, if_true]
    exact .panic (hscan.elim (fun h => h _ (by decide)) fun h => absurd h.1 hdir)

theorem does_emptyFrom (hs : Sane s) (hi : Loaded s i n)
    (hdir : (tree s n).type = T_DIR) (m : ℕ) (hoff : off = k * DIRENT)
    (hmsg : E "dirlink read" ∨ k + m ≤ (tree s n).len) :
    Does p E (emptyFrom i m off) s fun off' t => t = s ∧ ∃ j, off' = j * DIRENT ∧
      (j < (tree s n).len → j = k + m ∨ ((tree s n).ent j).inum = 0) ∧ k ≤ j := by
  induction m generalizing off k with
  | zero => exact .ret ⟨rfl, k, hoff, fun _ => .inl rfl, le_rfl⟩
  | succ m ih =>
    refine (does_readDirent hs hi hdir (hmsg.imp_right fun h => by omega) hoff).bind ?_
    rintro de t ⟨rfl, hk, rfl⟩
    by_cases hz : ((tree t n).ent k).inum = 0
    · rw [if_pos hz]
      exact .ret ⟨rfl, k, hoff, fun _ => .inr hz, le_rfl⟩
    · rw [if_neg hz]
      refine (ih (k := k + 1) (by rw [hoff, Nat.add_mul, Nat.one_mul])
        (hmsg.imp_right fun h => by omega)).mono ?_
      rintro off' u ⟨rfl, j, h1, h2, h3⟩
      exact ⟨rfl, j, h1, fun hj => (h2 hj).imp_left fun h => by omega, by omega⟩

end Entries

/-- A property of the disk that is kept when inodes are freed that had no links and no reference
in `s0`. -/
structure Closed (s₀ : Fs) (I : Fs → Prop) : Prop where
  same : ∀ s t, SameDisk s t → I s → I t
  free : ∀ s t m, I s → (tree s m).type ≠ 0 → (tree s m).nlink = 0 →
    (∀ j, 0 < refs s₀ j → (s₀.inode j).inum ≠ m) → Freed s t m → I t

theorem closed_true (s0 : Fs) : Closed s0 fun _ => True :=
  ⟨fun _ _ _ _ => trivial, fun _ _ _ _ _ _ _ _ => trivial⟩

section Put

variable {P : Type} {p : P} {r : Slot → ℤ} {t : Fs}

section

variable (h : Moves r s0 s)
include h

theorem Moves.then_same (h' : Moves (Xv6.refs s) s t) : Moves r s0 t := by
  rw [h.refs] at h'
  exact h.trans h' fun _ _ hj => hj

theorem Moves.then_add (h' : Moves (addRef (Xv6.refs s) i 1) s t)
    (hle : ∀ j, Xv6.refs s0 j ≤ r j) : Moves (addRef r i 1) s0 t := by
  rw [h.refs] at h'
  exact h.trans h' fun j hj _ => lt_of_lt_of_le hj (hle j)

theorem Moves.then_put (h' : Moves (addRef (Xv6.refs s) i (-1)) s t)
    (hle : ∀ j, Xv6.refs s0 j ≤ addRef r i (-1) j) : Moves (addRef r i (-1)) s0 t := by
  rw [h.refs] at h'
  refine h.trans h' fun j hj _ => ?_
  have := hle j
  by_cases hji : j = i
  · subst hji
    rw [addRef_self] at this
    omega
  · rw [addRef_of_ne _ _ hji] at this
    omega

end

theorem does_iput_in (hE : Exhausts E) (hcl : Closed s0 I) (hs0 : Sane s0) (hm : Moves r s0 s)
    (hI : I s) (hle : ∀ j, refs s0 j ≤ addRef r i (-1) j) (hinum : (s.inode i).inum = n) :
    Does p E (iput i) s fun _ t =>
      Moves (addRef r i (-1)) s0 t ∧ Persist s t ∧ I t := by
  have hri : refs s0 i ≤ r i + -1 := by
    have := hle i
    rwa [addRef_self] at this
  have h0 : 0 ≤ refs s0 i := hs0.nonneg i
  have hpos : 0 < refs s i := by
    rw [hm.refs]
    omega
  refine (does_iput hE hm.sane ⟨hpos, hinum⟩).mono ?_
  rintro _ t ⟨hm', hdisk⟩
  refine ⟨hm.then_put hm' hle, hm'.persist, ?_⟩
  · rcases hdisk with ⟨hd, hnl, htype, hf⟩ | ⟨-, hsame⟩
    · refine hcl.free s t n hI htype hnl (fun j hj he => ?_) hf
      -- An entry with this inode that had a reference before is the entry that is dropped now.
      have hrj : 0 < r j := by
        have := hle j
        by_cases hji : j = i
        · subst hji
          omega
        · rw [addRef_of_ne _ _ hji] at this
          omega
      have hrj' : 0 < refs s j := by rwa [hm.refs]
      have hj' := (hm.persist j hj hrj').1
      have hji : j = i := hm.sane.uniq j i hrj' hpos (by rw [hj', he, hinum])
      subst hji
      have h1 : refs s j = 1 := hd.1
      rw [hm.refs] at h1
      omega
    · exact hcl.same s t hsame hI

theorem does_iunlockput_in (hE : Tolerates E) (hcl : Closed s0 I) (hs0 : Sane s0)
    (hm : Moves r s0 s) (hI : I s) (hle : ∀ j, refs s0 j ≤ addRef r i (-1) j)
    (hinum : (s.inode i).inum = n) :
    Does p E (iunlockput i) s fun _ t =>
      Moves (addRef r i (-1)) s0 t ∧ Persist s t ∧ I t := by
  refine (does_iunlock hE).bind ?_
  rintro _ t rfl
  exact does_iput_in hE hcl hs0 hm hI hle hinum

end Put

section Namex

variable {p : Pid} {G : ℕ → Str → Prop} {ip : Slot} {path : Str}

/-- The walk meets inodes in `G` only, each with the rest of the path that is left there: `G` is
closed under looking up the next element. -/
structure Route (E : String → Prop) (I : Fs → Prop) (G : ℕ → Str → Prop) : Prop where
  next : ∀ s d k path name rest, I s → G d path → skipelem path = some (name, rest) →
    (tree s d).type = T_DIR → (tree s).FirstMatch d 0 (tree s d).len name k →
    G ((tree s d).ent k).inum rest
  alloc : (∀ s m path, I s → G m path → (tree s m).type ≠ 0) ∨ E noType

/-- What `namex` returns: nothing, or an inode with one more reference.  The inode that
`nameiparent` returns is a directory, with the last element of the path left. -/
def Found (s₀ : Fs) (I : Fs → Prop) (G : ℕ → Str → Prop) (nameiparent : Bool)
    (r : Option (Slot × Str)) (t : Fs) : Prop :=
  I t ∧ match r with
    | none => Moves (refs s₀) s₀ t
    | some (j, name) => Moves (addRef (refs s₀) j 1) s₀ t ∧ ∃ m rest, Refers t j m ∧ G m rest ∧
        if nameiparent then skipelem rest = some (name, []) ∧ (tree t m).type = T_DIR
        else skipelem rest = none

theorem Loaded.type (hs : Sane s) (hi : Loaded s ip n) : (s.inode ip).type = (tree s n).type :=
  congrArg Dinode.type (hi.copy hs).1

theorem does_namexFrom (hE : Tolerates E) (hcl : Closed s0 I) (hs0 : Sane s0) (hG : Route E I G)
    (par : Bool) (k : ℕ) (path name : Str) (hk : path.length < k)
    (hm : Moves (addRef (refs s0) ip 1) s0 s) (hip : Refers s ip n) (hn : G n path)
    (hI : I s) : Does p E (namexFrom par k ip path name) s (Found s0 I G par) := by
  induction k generalizing s ip n path name with
  | zero => omega
  | succ k ih =>
    have hle : ∀ j, refs s0 j ≤ addRef (addRef (refs s0) ip 1) ip (-1) j :=
      fun j => le_of_eq (congrFun (addRef_neg _ _) j).symm
    rw [namexFrom]
    cases hskip : skipelem path with
    | none =>
      simp only
      cases par with
      | true =>
        simp only [if_true]
        refine (does_iput_in hE hcl hs0 hm hI hle hip.2).bind fun _ t ht => .ret ⟨ht.2.2, ?_⟩
        rw [addRef_neg] at ht
        exact ht.1
      | false =>
        simp only [Bool.false_eq_true, if_false]
        exact .ret ⟨hI, hm, n, path, hip, hn, by simp [hskip]⟩
    | some elem =>
      obtain ⟨name', path'⟩ := elem
      have hlen := skipelem_length hskip
      simp only
      have hn' : (s.dinode n).type ≠ 0 ∨ E noType := hG.alloc.imp_left fun h => h _ n path hI hn
      refine (does_ilock hE hm.sane hip.2 hn').bind ?_
      rintro _ t ⟨hmt, hl, hd, -⟩
      have hm1 := hm.then_same hmt
      have hI1 : I t := hcl.same s t hd hI
      have hinum : (t.inode ip).inum = n := hl.1.2
      -- The three places where the walk ends without a result.
      have hfail : ∀ u, Moves (addRef (refs s0) ip 1) s0 u → I u → (u.inode ip).inum = n →
          Does p E (do iunlockput ip; return none) u (Found s0 I G par) := by
        intro u hmu hIu hnu
        refine (does_iunlockput_in hE hcl hs0 hmu hIu hle hnu).bind fun _ v hv => .ret ⟨hv.2.2, ?_⟩
        rw [addRef_neg] at hv
        exact hv.1
      refine .bind_read ?_
      by_cases hdir : (tree t n).type = T_DIR
      · have htd : ¬ (t.inode ip).type ≠ T_DIR := by
          rw [hl.type hmt.sane, hdir]
          simp
        rw [if_neg htd]
        by_cases hpar : par = true ∧ path' = []
        · rw [if_pos hpar]
          obtain ⟨rfl, rfl⟩ := hpar
          refine (does_iunlock hE).bind ?_
          rintro _ u rfl
          exact .ret ⟨hI1, hm1, n, path, hl.1, hn, hskip, hdir⟩
        · rw [if_neg hpar]
          refine (does_dirlookup hE hE.scannable hmt.sane hl name').bind ?_
          rintro r u ⟨-, hr⟩
          cases r with
          | none =>
            obtain ⟨rfl, -⟩ := hr
            exact hfail u hm1 hI1 hinum
          | some e =>
            obtain ⟨next, off⟩ := e
            obtain ⟨hmu, hdu, j, -, hfirst, hnext⟩ := hr
            simp only
            have hm2 := hm1.then_add hmu le_addOne
            have hI2 : I u := hcl.same t u hdu hI1
            have hle2 : ∀ j, refs s0 j ≤
                addRef (addRef (addRef (refs s0) ip 1) next 1) ip (-1) j := by
              rw [addRef_swap]
              exact le_addOne
            have hiu : Refers u ip n := hmu.refers hl.1
              (lt_of_lt_of_le hl.1.1 (le_addOne _))
            refine (does_iunlockput_in hE hcl hs0 hm2 hI2 hle2 hiu.2).bind ?_
            rintro _ v ⟨hmv, hper, hIv⟩
            rw [addRef_swap] at hmv
            -- The entry for `next` is still referenced, by the reference just taken.
            have hnv : Refers v next ((tree t n).ent j).inum := by
              refine hper.refers hnext ?_
              have h0 : 0 ≤ refs s0 next := hs0.nonneg next
              rw [hmv.refs, addRef_self]
              omega
            exact ih path' name' (by omega) hmv hnv
              (hG.next _ n j path name' path' hI1 hn hskip hdir hfirst) hIv
      · have htd : (t.inode ip).type ≠ T_DIR := by
          rwa [hl.type hmt.sane]
        rw [if_pos htd]
        exact hfail t hm1 hI1 hinum

/-- The walk along the path starts in `G`: at the root, or at the process's current directory,
which is referenced. -/
def StartsIn (s : Fs) (p : Pid) (path : Str) (G : ℕ → Str → Prop) : Prop :=
  if path.head? = some slash then G ROOTINO path
  else ∀ i, (s.proc p).cwd = some i → ∃ n, Refers s i n ∧ G n path

theorem StartsIn.of_moves {r : Slot → ℤ} (h : StartsIn s0 p path G) (hm : Moves r s0 s)
    (hr : ∀ j, refs s0 j ≤ r j) : StartsIn s p path G := by
  unfold StartsIn at h ⊢
  split_ifs at h ⊢ with hslash
  · exact h
  · intro i hi
    rw [hm.proc] at hi
    obtain ⟨n, hi', hn⟩ := h i hi
    exact ⟨n, hm.refers hi' (lt_of_lt_of_le hi'.1 (hr i)), hn⟩

theorem does_namexStart (hE : Tolerates E) (hs : Sane s) (hst : StartsIn s p path G) :
    Does p E (namexStart p path) s fun ip t =>
      Moves (addRef (refs s) ip 1) s t ∧ SameDisk s t ∧ ∃ n, Refers t ip n ∧ G n path := by
  unfold namexStart
  unfold StartsIn at hst
  by_cases hslash : path.head? = some slash
  · rw [if_pos hslash] at hst ⊢
    refine (does_iget hE hs ROOTINO).mono ?_
    rintro ip t ⟨hm, hr, hd⟩
    exact ⟨hm, hd, ROOTINO, hr, hst⟩
  · rw [if_neg hslash] at hst ⊢
    refine .bind_read ?_
    cases hcwd : (s.proc p).cwd with
    | none => exact .panic (hE _ (by decide) (by decide))
    | some i =>
      obtain ⟨n, hi, hn⟩ := hst i hcwd
      refine (does_idup hs hi).mono ?_
      rintro _ t ⟨rfl, hm, hr, hd⟩
      exact ⟨hm, hd, n, hr, hn⟩

section

variable (hE : Tolerates E) (hcl : Closed s0 I) (hs0 : Sane s0) (hG : Route E I G)
  (hm : Moves (refs s0) s0 s) (hI : I s) (hst : StartsIn s p path G)
include hE hcl hs0 hG hm hI hst

theorem does_namex (par : Bool) :
    Does p E (namex p path par) s (Found s0 I G par) := by
  refine (does_namexStart hE hm.sane hst).bind ?_
  rintro ip t ⟨hmt, hd, n, hr, hn⟩
  exact does_namexFrom hE hcl hs0 hG par _ _ _ (by omega)
    (hm.then_add hmt fun _ => le_rfl) hr hn (hcl.same s t hd hI)

theorem does_namei :
    Does p E (namei p path) s fun r t => I t ∧ match r with
      | none => Moves (refs s0) s0 t
      | some j => Moves (addRef (refs s0) j 1) s0 t ∧ ∃ m rest, Refers t j m ∧ G m rest := by
  refine (does_namex hE hcl hs0 hG hm hI hst false).bind ?_
  rintro r t ⟨hIt, hr⟩
  match r with
  | none => exact .ret ⟨hIt, hr⟩
  | some (j, _) =>
    obtain ⟨hm, m, rest, hj, hGm, -⟩ := hr
    exact .ret ⟨hIt, hm, m, rest, hj, hGm⟩

end

end Namex

/-- From `n0` with the path `path0` the walk comes to an inode with a rest of the path. -/
inductive Tree.Walk (T : Tree) (n₀ : ℕ) (path₀ : Str) : ℕ → Str → Prop
  | start : T.Walk n₀ path₀ n₀ path₀
  | next {d k : ℕ} {path name rest : Str} (h : T.Walk n₀ path₀ d path)
      (hskip : skipelem path = some (name, rest)) (hdir : (T d).type = T_DIR)
      (hfirst : T.FirstMatch d 0 (T d).len name k) : T.Walk n₀ path₀ ((T d).ent k).inum rest

def Fs.startOf (s : Fs) (p : Pid) (path : Str) : Option ℕ :=
  if path.head? = some slash then some ROOTINO
  else (s.proc p).cwd.map fun i => (s.inode i).inum

def Fs.walks (s : Fs) (p : Pid) (path : Option Str) (n : ℕ) (rest : Str) : Prop :=
  ∃ x ∈ path, ∃ n₀ ∈ s.startOf p x, (tree s).Walk n₀ x n rest

def Fs.parent (s : Fs) (p : Pid) (path : Option Str) (d : ℕ) (name : Str) : Prop :=
  ∃ rest, s.walks p path d rest ∧ skipelem rest = some (name, []) ∧ (tree s d).type = T_DIR

/-- Every inode that the walk meets is allocated, or the panic of `ilock` is tolerated. -/
def Fs.Passable (s : Fs) (p : Pid) (E : String → Prop) (path : Option Str) : Prop :=
  (∀ n rest, s.walks p path n rest → (tree s n).type ≠ 0) ∨ E noType

section WalkIn

variable {p : Pid} {path : Option Str}

theorem route_walks (h : s.Passable p E path) : Route E (SameDisk s) (s.walks p path) where
  next := by
    rintro t d k _ name rest ht ⟨x, hx, n0, hn0, hd⟩ hskip hdir hfirst
    rw [ht.tree] at hdir hfirst ⊢
    exact ⟨x, hx, n0, hn0, .next hd hskip hdir hfirst⟩
  alloc := h.imp_left fun h t m rest ht hm => by
    rw [ht.tree]
    exact h m rest hm

theorem startsIn_walks (hcwd : ∀ i, (s.proc p).cwd = some i → 0 < refs s i) (x : Str)
    (hx : x ∈ path) : StartsIn s p x (s.walks p path) := by
  unfold StartsIn
  split_ifs with hslash
  · refine ⟨x, hx, ROOTINO, ?_, .start⟩
    rw [Fs.startOf, if_pos hslash, Option.mem_some]
  · intro i hi
    refine ⟨(s.inode i).inum, ⟨hcwd i hi, rfl⟩, x, hx, _, ?_, .start⟩
    rw [Fs.startOf, if_neg hslash, hi, Option.map_some, Option.mem_some]

theorem Route.congr {I I' : Fs → Prop} {G : ℕ → Str → Prop} (h : Route E I G)
    (hI : ∀ t, I' t → ∃ u, I u ∧ ∀ n, (tree t n).type = (tree u n).type ∧
      (tree t n).len = (tree u n).len ∧ (tree t n).ent = (tree u n).ent) : Route E I' G where
  next := by
    intro t d k path name rest ht hd hskip hdir hfirst
    obtain ⟨u, hu, hsame⟩ := hI t ht
    obtain ⟨h1, h2, h3⟩ := hsame d
    rw [Tree.FirstMatch, h2] at hfirst
    simp only [Tree.Matches, h3] at hfirst
    rw [h3]
    exact h.next u d k path name rest hu hd hskip (h1 ▸ hdir) hfirst
  alloc := h.alloc.imp_left fun h t m path ht hm => by
    obtain ⟨u, hu, hsame⟩ := hI t ht
    rw [(hsame m).1]
    exact h u m path hu hm

end WalkIn

section Dirlink

variable {P : Type} {p : P}

theorem decode_encode (inum : ℕ) (name : List UInt8) :
    Dirent.decode (Dirent.encode ⟨inum, name⟩) = ⟨inum % 65536, name⟩ := by
  simp only [Dirent.decode, Dirent.encode, num16_le16]
  simp [le16]

theorem strncpy_length (name : Str) : (strncpy name).length = DIRSIZ := by
  simp only [strncpy, List.length_append, List.length_replicate, List.length_take]
  omega

theorem does_writeEnt (hE : Exhausts E) (hs : Sane s) (hi : Loaded s i n)
    (hdir : (tree s n).type = T_DIR) {src : List UInt8} (hlen : src.length = DIRENT) {off k : ℕ}
    (hoff : off = k * DIRENT) :
    Does p E (writei i src off) s fun r t => Moves (refs s) s t ∧
      (r = DIRENT → k ≤ (tree s n).len ∧ tree t = (tree s).setEnt n k (.decode src)) ∧
      (k < (tree s n).len → r = DIRENT) := by
  have hdir' : (s.dinode n).type = T_DIR := hdir
  refine (does_writei_file hE hs hi src off (by rw [hdir']; decide)).mono ?_
  rintro r t ⟨hm, h⟩
  refine ⟨hm, fun hr => ?_, fun hk => ?_⟩
  rotate_left
  · rcases h with ⟨-, -, hlarge⟩ | ⟨hr, -⟩
    · -- An entry below the end lies within the largest file.
      have hfull := (hs.full n (hi.copy hs).2).le
      have hsz : (s.dinode n).size ≤ nblk (s.dinode n).size * BSIZE := nblk_le.mp le_rfl
      simp only [tree, node, hdir', if_true] at hk
      rw [hlen, hoff] at hlarge
      unfold MAXFILE NDIRECT NINDIRECT BSIZE DIRENT at *
      omega
    · rw [hr, hlen]
  rcases h with ⟨-, hr', -⟩ | ⟨-, hle, hw⟩
  · rw [hr'] at hr
    exact absurd hr (by decide)
  · subst hoff
    refine ⟨?_, hw.tree hlen hdir' hle⟩
    simp only [tree, node, hdir', if_true]
    unfold DIRENT at hle ⊢
    omega

/-- `dirlink` fails if the name is there, and enters it in a free place or at the end if not. -/
theorem does_dirlink (hE : Exhausts E) (hscan : Scannable E (tree s) n) (hlarge : E "dirlink")
    (hcl : Closed s I) (hs : Sane s) (hI : I s) (hi : Loaded s i n) (name : Str) (inum : ℕ) :
    Does p E (dirlink i name inum) s fun r t => Moves (refs s) s t ∧ (tree s n).type = T_DIR ∧
      (r = -1 ∧ I t ∧ (∃ j, j < (tree s n).len ∧ (tree s).Matches n j name) ∨
        r = 0 ∧ (∀ j, j < (tree s n).len → ¬ (tree s).Matches n j name) ∧
        ∃ k, k ≤ (tree s n).len ∧ (k < (tree s n).len → ((tree s n).ent k).inum = 0) ∧
          tree t = (tree s).setEnt n k ⟨inum % 65536, strncpy name⟩) := by
  obtain ⟨hcopy, -⟩ := hi.copy hs
  have hsize : (s.inode i).size = (s.dinode n).size := congrArg Dinode.size hcopy
  refine (does_dirlookup hE hscan hs hi name).bind ?_
  rintro r t ⟨hdir, hr⟩
  match r with
  | some (ip, off) =>
    obtain ⟨hm, hd, j, -, ⟨-, -, hj, hmatch, -⟩, hip⟩ := hr
    refine (does_iput_in hE hcl hs hm (hcl.same s t hd hI)
      (fun j => le_of_eq (congrFun (addRef_neg _ _) j).symm) hip.2).bind ?_
    rintro _ u ⟨hmu, -, hIu⟩
    rw [addRef_neg] at hmu
    exact .ret ⟨hmu, hdir, .inl ⟨rfl, hIu, j, hj, hmatch⟩⟩
  | none =>
    have hmsg : E "dirlink read" ∨ 0 + numEntries (s.dinode n).size ≤ (tree s n).len := by
      refine hscan.imp (fun h => h _ (by decide)) fun h => ?_
      rw [numEntries_eq_len hdir h.2, Nat.zero_add]
    obtain ⟨rfl, hnone⟩ := hr
    refine .bind_read ?_
    simp only [hsize]
    have hlen := len_le_numEntries hdir
    refine (does_emptyFrom hs hi hdir _ (Nat.zero_mul _).symm hmsg).bind ?_
    rintro off u ⟨rfl, k, hoff, hk, -⟩
    have henc : (Dirent.encode ⟨inum, strncpy name⟩).length = DIRENT := by
      rw [Dirent.encode, List.length_append, le16_length, strncpy_length]
      rfl
    refine (does_writeEnt hE hs hi hdir henc hoff).bind ?_
    rintro r v ⟨hm, hv, -⟩
    by_cases hr : r = DIRENT
    · simp only [hr, ne_eq, not_true, if_false]
      obtain ⟨hle, htree⟩ := hv hr
      rw [decode_encode] at htree
      refine .ret ⟨hm, hdir, .inr ⟨rfl, hnone, k, hle, fun hlt => ?_, htree⟩⟩
      exact (hk hlt).resolve_left fun h => by omega
    · simp only [ne_eq, hr, not_false_eq_true, if_true]
      exact .panic hlarge

end Dirlink

end Xv6
