import Xv6.Fs.Runs
import Xv6.Fs.Names
import Xv6.Fs.Blocks

namespace Xv6
open Lib Prog Function

/-- The inode `n` is in order: its number is between 0 and `N` if it is allocated and, if it is a
directory, it is a finite map and has no entry for itself behind `..`. -/
structure Node.Ordered (N : ℕ) (x : Node) (n : ℕ) : Prop where
  bound : x.type ≠ 0 → 0 < n ∧ n < N
  isDir : x.type = T_DIR → x.IsDir n
  ne : ∀ k, x.type = T_DIR → 2 ≤ k → x.Live k → (x.ent k).inum ≠ n

namespace Node.Ordered

variable {N k d : ℕ} {e : Dirent} {s : Fs}

variable {n : ℕ} {x y : Node}

theorem free (h : x.type = 0) : x.Ordered N n where
  bound h' := absurd h h'
  isDir h' := absurd (h.symm.trans h') (by decide)
  ne k h' := absurd (h.symm.trans h') (by decide)

theorem congr (h : x.Ordered N n) (h1 : y.type = x.type) (h2 : y.len = x.len)
    (h3 : y.ent = x.ent) (h4 : y.rest = x.rest) : y.Ordered N n := by
  obtain ⟨type, nlink, len, ent, rest⟩ := y
  obtain ⟨type', nlink', len', ent', rest'⟩ := x
  simp only at h1 h2 h3 h4
  subst h1 h2 h3 h4
  exact ⟨h.bound, fun hd => ⟨(h.isDir hd).rest, (h.isDir hd).len, (h.isDir hd).dot,
    (h.isDir hd).dotdot, (h.isDir hd).uniq⟩, h.ne⟩

theorem pos (h : x.Ordered N n) (hd : x.type = T_DIR) : 0 < n ∧ n < N :=
  h.bound (by rw [hd]; decide)

theorem setEnt (h : x.Ordered N n) (h2 : 2 ≤ k) (hk : k ≤ x.len)
    (hnew : e.inum ≠ 0 → ∀ j, x.Live j → nameOf (x.ent j).name ≠ nameOf e.name)
    (he : e.inum ≠ n) : (x.setEnt k e).Ordered N n where
  bound := h.bound
  isDir hd := (h.isDir hd).setEnt h2 hk hnew
  ne j hd h2' hj := by
    by_cases hjk : j = k
    · subst hjk
      rwa [setEnt_ent_self]
    · rw [setEnt_ent_of_ne hjk]
      exact h.ne j hd h2' ((setEnt_live_of_ne hk hjk).mp hj)

end Node.Ordered

namespace Tree

def Dirs (N : ℕ) (T : Tree) : Prop := ∀ n, (T n).Ordered N n

section Dirs

variable {N k d x : ℕ} {e : Dirent} {T T' : Tree} {name : Str}

theorem Dirs.frees (h : T.Dirs N) (hf : T.Frees T') : T'.Dirs N := by
  intro n
  rcases hf.eq_or_free n with he | h0
  · rw [he]
    exact h n
  · exact .free h0

theorem Dirs.setNlink (h : T.Dirs N) (n : ℕ) (v : ℤ) : (T.setNlink n v).Dirs N := by
  intro m
  obtain ⟨h1, h2, h3, h4⟩ := setNlink_rest T n v m
  exact (h m).congr h1 h2 h3 h4

theorem Dirs.setEnt (h : T.Dirs N) (h2 : 2 ≤ k) (hk : k ≤ (T d).len)
    (hnew : e.inum ≠ 0 → ∀ j, (T d).Live j → nameOf ((T d).ent j).name ≠ nameOf e.name)
    (he : e.inum ≠ d) : (T.setEnt d k e).Dirs N := by
  intro m
  by_cases hm : m = d
  · subst hm
    rw [setEnt_self]
    exact (h m).setEnt h2 hk hnew he
  · rw [setEnt_of_ne hm]
    exact h m

theorem Dirs.vacant_ge (h : T.Dirs N) (hv : T.Vacant d k name) : 2 ≤ k := by
  have hd := (h d).isDir hv.dir
  have hlen := hd.len
  have hpos := ((h d).pos hv.dir).1
  by_contra hlt
  have hfree := hv.free (by omega)
  obtain rfl | rfl : k = 0 ∨ k = 1 := by omega
  · rw [hd.dot.1] at hfree
    omega
  · exact hd.dotdot.1 hfree

theorem Vacant.new_name (hv : T.Vacant d k name) (j : ℕ) (hj : (T d).Live j) :
    nameOf ((T d).ent j).name ≠ nameOf (strncpy name) := by
  rw [nameOf_strncpy]
  intro he
  exact hv.new j hj.1 ⟨hj.2, (namecmpEq_iff _ _).mpr he.symm⟩

theorem Dirs.enter (h : T.Dirs N) (hv : T.Vacant d k name) (hx : x % 65536 ≠ d) :
    (T.setEnt d k ⟨x % 65536, strncpy name⟩).Dirs N :=
  h.setEnt (h.vacant_ge hv) hv.le (fun _ => hv.new_name) hx

theorem nameOf_dot : nameOf (strncpy dot) = dot := by decide

theorem nameOf_dotdot : nameOf (strncpy dotdot) = dotdot := by decide

theorem ordered_new (hx : 0 < x ∧ x < N) (hd : 0 < d ∧ d < N) (hN : N ≤ 65536) {nlink : ℤ} :
    Node.Ordered N ⟨T_DIR, nlink, 2, update (update (fun _ => .none) 0
      ⟨x % 65536, strncpy dot⟩) 1 ⟨d % 65536, strncpy dotdot⟩, 0⟩ x := by
  refine ⟨fun _ => hx, fun _ => ⟨rfl, le_rfl, ⟨?_, nameOf_dot⟩, ⟨?_, nameOf_dotdot⟩,
    fun i j hi hj he => ?_⟩, fun k _ hk hl => absurd hl.1 (Nat.not_lt.mpr hk)⟩
  · exact Nat.mod_eq_of_lt (by omega)
  · simp only [update_self]
    rw [Nat.mod_eq_of_lt (by omega)]
    omega
  · have hi2 : i < 2 := hi.1
    have hj2 : j < 2 := hj.1
    have hdd : nameOf (strncpy dot) ≠ nameOf (strncpy dotdot) := by decide
    obtain rfl | rfl : i = 0 ∨ i = 1 := by omega
    · obtain rfl | rfl : j = 0 ∨ j = 1 := by omega
      · rfl
      · exact absurd he hdd
    · obtain rfl | rfl : j = 0 ∨ j = 1 := by omega
      · exact absurd he.symm hdd
      · rfl

theorem Dirs.newInode (h : T.Dirs N) (hN : N ≤ 65536) (hd : (T d).type = T_DIR) (hne : x ≠ d)
    (hx0 : x ≠ 0) (hxN : x < N) (type : ℤ) : (T.newInode d x type).Dirs N := by
  intro m
  by_cases hmx : m = x
  · subst hmx
    by_cases ht : type = T_DIR
    · subst ht
      rw [newInode_self_dir hne]
      exact ordered_new (by omega) ((h d).pos hd) hN
    · have hm : (T.newInode d m type m).type ≠ T_DIR := by rwa [newInode_type hne]
      exact ⟨fun _ => by omega, fun h => absurd h hm, fun k h => absurd h hm⟩
  · by_cases hmd : m = d
    · subst hmd
      obtain ⟨h1, h2, h3, h4⟩ := T.newInode_dir hne type
      exact (h m).congr h1 h2 h3 h4
    · rw [newInode_of_ne hmx hmd]
      exact h m

section

variable (h : T.Dirs N) (hu : Unlinkable T d k x name)
include h hu

theorem Dirs.unlinkable_ge : 2 ≤ k := by
  have hd := (h d).isDir hu.dir
  have hname := (namecmpEq_iff _ _).mp hu.first.2.2.2.1.2
  by_contra hlt
  obtain rfl | rfl : k = 0 ∨ k = 1 := by omega
  · rw [hd.dot.2] at hname
    have := (namecmpEq_iff name dot).mpr hname
    rw [hu.ne_dot] at this
    cases this
  · rw [hd.dotdot.2] at hname
    have := (namecmpEq_iff name dotdot).mpr hname
    rw [hu.ne_dotdot] at this
    cases this

theorem Dirs.unlinkable_ne : x ≠ d := by
  rw [← hu.inum]
  exact (h d).ne k hu.dir (h.unlinkable_ge hu) ⟨hu.first.2.2.1, hu.first.2.2.2.1.1⟩

theorem Dirs.clear : (T.clear d k x).Dirs N := by
  have hpos := ((h d).pos hu.dir).1
  have hset : (T.setEnt d k .cleared).Dirs N := by
    refine h.setEnt (h.unlinkable_ge hu) (le_of_lt hu.first.2.2.1) (fun h0 => absurd ?_ h0) ?_
    · decide
    · show Dirent.cleared.inum ≠ d
      have : Dirent.cleared.inum = 0 := by decide
      omega
  unfold Tree.clear
  split_ifs
  · exact hset.setNlink _ _
  · exact hset

end

end Dirs

end Tree

theorem Effect.dirs {N : ℕ} {P U : ℕ → Str → Prop} {T T' : Tree} (h : Effect N P U T T')
    (hN : N ≤ 65536) (hT : T.Dirs N) : T'.Dirs N := by
  obtain ⟨T1, hc, hf⟩ := h
  refine Tree.Dirs.frees ?_ hf
  cases hc with
  | same => exact hT
  | create d k x name type hP hv hx hx0 hxN ht =>
    have hne : x ≠ d := by
      rintro rfl
      rw [hv.dir] at hx
      exact absurd hx (by decide)
    obtain ⟨h1, h2, h3, -⟩ := T.newInode_dir hne type
    have hv' : (T.newInode d x type).Vacant d k name := hv.congr h1.symm h2.symm h3.symm
    refine (hT.newInode hN hv.dir hne hx0 hxN type).enter hv' ?_
    rwa [Nat.mod_eq_of_lt (by omega)]
  | link d k x name hP hv hx hx0 =>
    have hxN := (hT x).bound hx0
    obtain ⟨h1, h2, h3, -⟩ := Tree.setNlink_rest T x (toShort ((T x).nlink + 1)) d
    have hv' : (T.setNlink x (toShort ((T x).nlink + 1))).Vacant d k name :=
      hv.congr h1.symm h2.symm h3.symm
    refine (hT.setNlink x _).enter hv' ?_
    rw [Nat.mod_eq_of_lt (by omega)]
    rintro rfl
    exact hx hv.dir
  | unlink d k x name hU hu hne => exact (hT.clear hu).setNlink x _

/-- A file system as `mkfs` writes it, with all files in the root directory, each under one name,
and the kernel before the first call. -/
structure Fresh (s : Fs) : Prop where
  sb : s.sb = mkfsSb
  disk : WellFormed s
  cache : Coherent s
  root : (tree s ROOTINO).type = T_DIR ∧ (tree s ROOTINO).nlink = 1
  isDir : (tree s ROOTINO).IsDir ROOTINO
  dotdot : ((tree s ROOTINO).ent 1).inum = ROOTINO
  free : ∀ n, (tree s n).type = 0 → (tree s n).nlink = 0
  file : ∀ n, n ≠ ROOTINO → (tree s n).type ≠ 0 → (tree s n).type ≠ T_DIR ∧
    (tree s n).nlink = 1 ∧ 0 < n ∧ n < NINODES ∧
    ∃ k, 2 ≤ k ∧ (tree s ROOTINO).Live k ∧ ((tree s ROOTINO).ent k).inum = n
  named : ∀ k, 2 ≤ k → (tree s ROOTINO).Live k → ((tree s ROOTINO).ent k).inum ≠ ROOTINO ∧
    (tree s ((tree s ROOTINO).ent k).inum).type ≠ 0
  once : ∀ j k, 2 ≤ j → 2 ≤ k → (tree s ROOTINO).Live j → (tree s ROOTINO).Live k →
    ((tree s ROOTINO).ent j).inum = ((tree s ROOTINO).ent k).inum → j = k
  closed : ∀ f, (s.file f).ref = 0 ∧ (s.file f).type = .fdNone
  cwd : ∀ q i, (s.proc q).cwd = some i → (s.inode i).inum = ROOTINO
  balanced : Balance.Balanced (refs s) s.file s.proc

namespace Fresh

theorem nlink (h : Fresh s) (n : ℕ) : (tree s n).nlink = 0 ∧ (tree s n).type = 0 ∨
    (tree s n).nlink = 1 ∧ (tree s n).type ≠ 0 := by
  by_cases h0 : (tree s n).type = 0
  · exact .inl ⟨h.free n h0, h0⟩
  · by_cases hn : n = ROOTINO
    · subst hn
      exact .inr ⟨h.root.2, h0⟩
    · exact .inr ⟨(h.file n hn h0).2.1, h0⟩

theorem settled (h : Fresh s) : Settled s where
  sane := ⟨h.disk, h.cache⟩
  anchored n ht hnl := by
    rcases h.nlink n with h' | h'
    · exact absurd h'.2 ht
    · omega
  ninodes := by
    rw [h.sb]
    decide
  short n := by
    rcases h.nlink n with h' | h'
    · rw [h'.1]
      rfl
    · rw [h'.1]
      rfl
  balanced := h.balanced
  free f _ := (h.closed f).2
  files f hf := by
    rw [(h.closed f).2] at hf
    cases hf

theorem dirs (h : Fresh s) : (tree s).Dirs s.sb.ninodes := by
  have hN : s.sb.ninodes = NINODES := by rw [h.sb]; rfl
  intro n
  by_cases hn : n = ROOTINO
  · subst hn
    refine ⟨fun _ => ?_, fun _ => h.isDir, fun k _ h2 hk => (h.named k h2 hk).1⟩
    rw [hN]
    decide
  · by_cases h0 : (tree s n).type = 0
    · exact .free h0
    · obtain ⟨h1, -, h3, h4, -⟩ := h.file n hn h0
      exact ⟨fun _ => ⟨h3, hN ▸ h4⟩, fun hd => absurd hd h1, fun k hd => absurd hd h1⟩

end Fresh

theorem Runs.dirs {C : Fs → Pid → Action → Prop} {s t : Shared Fs Slot Pid} (h : Runs C s t)
    (hs : Settled s.st) (hd : (tree s.st).Dirs s.st.sb.ninodes) :
    Settled t.st ∧ (tree t.st).Dirs t.st.sb.ninodes := by
  induction h with
  | start => exact ⟨hs, hd⟩
  | @call t u p a r _ hen _ hrun ih =>
    obtain ⟨ht, hdt⟩ := ih
    have hact := (does_action (p := p) (E := fun _ => True) (fun _ _ _ => trivial) ht a hen
      (fun _ _ => .inr trivial) fun d k x name hu => hdt.unlinkable_ne hu).run hrun
    refine ⟨hact.settled, ?_⟩
    rw [hact.sb]
    exact hact.effect.dirs ht.ninodes hdt

theorem boot_tree (env : ℕ → Option (List UInt8)) :
    tree (boot env) = tree (boot fun _ => none) := rfl

theorem boot_root : (tree (boot fun _ => none) ROOTINO).type = T_DIR ∧
    (tree (boot fun _ => none) ROOTINO).nlink = 1 ∧ (tree (boot fun _ => none) ROOTINO).len = 32 ∧
    (tree (boot fun _ => none) ROOTINO).rest = 0 := by
  decide +kernel

theorem boot_ent : ∀ k < 32, ((tree (boot fun _ => none) ROOTINO).ent k).inum =
    if k < 2 then ROOTINO else 0 := by
  decide +kernel

theorem boot_live {k : ℕ} (hk : (tree (boot fun _ => none) ROOTINO).Live k) : k < 2 := by
  have hent := boot_ent k (by rw [← boot_root.2.2.1]; exact hk.1)
  by_contra h2
  rw [if_neg h2] at hent
  exact hk.2 hent

theorem boot_isDir : (tree (boot fun _ => none) ROOTINO).IsDir ROOTINO := by
  obtain ⟨-, -, hlen, hrest⟩ := boot_root
  have hdot : nameOf ((tree (boot fun _ => none) ROOTINO).ent 0).name = dot := by decide +kernel
  have hdotdot : nameOf ((tree (boot fun _ => none) ROOTINO).ent 1).name = dotdot := by
    decide +kernel
  have hne : dot ≠ dotdot := by decide
  refine ⟨hrest, by rw [hlen]; decide, ⟨boot_ent 0 (by decide), hdot⟩, ⟨?_, hdotdot⟩,
    fun i j hi hj he => ?_⟩
  · rw [boot_ent 1 (by decide)]
    decide
  · have hi2 := boot_live hi
    have hj2 := boot_live hj
    obtain rfl | rfl : i = 0 ∨ i = 1 := by omega
    · obtain rfl | rfl : j = 0 ∨ j = 1 := by omega
      · rfl
      · exact absurd (hdot.symm.trans (he.trans hdotdot)) hne
    · obtain rfl | rfl : j = 0 ∨ j = 1 := by omega
      · exact absurd (hdot.symm.trans (he.symm.trans hdotdot)) hne
      · rfl

theorem boot_fresh (env : ℕ → Option (List UInt8)) : Fresh (boot env) where
  sb := rfl
  disk := Blocks.boot_wellFormed env
  cache := Blocks.boot_coherent env
  root := ⟨boot_root.1, boot_root.2.1⟩
  isDir := boot_isDir
  dotdot := boot_ent 1 (by decide)
  free n h := by
    have hn : n ≠ ROOTINO := by
      rintro rfl
      rw [boot_tree, boot_root.1] at h
      exact absurd h (by decide)
    simp [tree, node, boot, hn, Dinode.fresh]
  file n hn h := absurd (Blocks.boot_type env h) hn
  named k h2 hk := absurd (boot_live hk) (by omega)
  once j k h2 _ hj := absurd (boot_live hj) (by omega)
  closed f := ⟨rfl, rfl⟩
  cwd q i hi := by
    by_cases hq : q = initproc
    · subst hq
      simp only [boot, update_self, Option.some.injEq] at hi
      subst hi
      rfl
    · simp only [boot, update_of_ne hq] at hi
      cases hi
  balanced := Balance.boot_balanced env

def mkdirD : Action := .mkdir (some [slash, 100])

def afterMkdirD : Shared Fs Slot Pid :=
  (((mkdirD.prog initproc).run initproc (started fun _ => none)).result.get (by decide +kernel)).2

end Xv6
