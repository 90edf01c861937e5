import Xv6.Fs.Create
import Xv6.Fs.Room
import Xv6.Fs.Writei

namespace Xv6
open Lib Prog Function

variable {i : Slot} {E : Option String → Prop} {n : ℕ} {name : Str}

section Prompt

theorem logged_ne_blocked {α : Type} {b : ℕ} {a : α} {s t : Fs} :
    logged b a s t ≠ .blocked := by
  unfold logged
  split <;> nofun

theorem prompt_ballocFrom (k b : ℕ) : (ballocFrom k b).Prompt := by
  induction k generalizing b with
  | zero => exact .panic _
  | succ k ih =>
    refine Prompt.bind (.atomic fun s => ?_) fun r => ?_
    · split
      · exact logged_ne_blocked
      · nofun
    · cases r with
      | none => exact ih _
      | some c => exact .bind (.atomic fun _ => logged_ne_blocked) fun _ => trivial

theorem prompt_balloc : balloc.Prompt := .bind (.read _) fun _ => prompt_ballocFrom _ _

theorem prompt_bmap (i : Slot) (bn : ℕ) : (bmap i bn).Prompt := by
  have haddr : ∀ k, (addrOrAlloc i k).Prompt := by
    intro k
    refine Prompt.bind (.read _) fun _ => .ite ?_ trivial
    exact .bind prompt_balloc fun _ => .bind (.modify _) fun _ => trivial
  refine .ite (haddr bn) (.ite ?_ (.panic _))
  refine Prompt.bind (haddr _) fun _ => .bind (.read _) fun _ => .ite ?_ trivial
  exact .bind prompt_balloc fun _ => .bind (.atomic fun _ => logged_ne_blocked) fun _ => trivial

theorem prompt_writeLoop (i : Slot) (k off : ℕ) (src : List UInt8) :
    (writeLoop i k off src).Prompt := by
  induction k generalizing off src with
  | zero => trivial
  | succ k ih =>
    refine Prompt.ite trivial (.bind (prompt_bmap ..) fun _ => ?_)
    exact .bind (.atomic fun _ => logged_ne_blocked) fun _ => ih _ _

theorem prompt_readLoop (i : Slot) (k off n : ℕ) : (readLoop i k off n).Prompt := by
  induction k generalizing off n with
  | zero => trivial
  | succ k ih =>
    refine Prompt.ite trivial (.bind (prompt_bmap ..) fun _ => .bind (.read _) fun _ => ?_)
    exact .bind (ih _ _) fun _ => trivial

section

variable {P : Type} {p : P} {s : Shared Fs Slot P} (hdev : (s.st.inode i).type ≠ T_DEV)
include hdev

theorem finishes_readi (off n : ℕ) : Finishes p (fun e => e ≠ none) (readi i off n) s
    fun _ t => t.owner = s.owner := by
  apply Finishes.bind_read
  rw [if_neg (by exact hdev)]
  refine Prompt.finishes (.ite trivial ?_)
  exact .bind (prompt_readLoop ..) fun _ => trivial

theorem finishes_writei (src : List UInt8) (off : ℕ) :
    Finishes p (fun e => e ≠ none) (writei i src off) s fun _ t => t.owner = s.owner := by
  apply Finishes.bind_read
  rw [if_neg (by exact hdev)]
  refine Prompt.finishes (.ite trivial (.ite trivial ?_))
  refine .bind (prompt_writeLoop ..) fun _ => .bind (.read _) fun _ => .bind ?_ fun _ => trivial
  exact .ite (.bind (.modify _) fun _ => .atomic fun _ => logged_ne_blocked) trivial

end

end Prompt

def Fs.load (s : Fs) (i : Slot) : Fs :=
  if (s.inode i).valid then s
  else s.setInode i { s.inode i with toDinode := s.dinode (s.inode i).inum, valid := true }

variable {r : Slot → ℤ}

theorem Fs.load_of_valid {s : Fs} (h : (s.inode i).valid = true) : s.load i = s := if_pos h

theorem Fs.load_withLog (s : Fs) (i : Slot) (l : Log) :
    ({ s with log := l } : Fs).load i = { s.load i with log := l } := by
  unfold Fs.load
  by_cases hv : (s.inode i).valid = true
  · rw [if_pos hv, if_pos hv]
  · rw [if_neg hv, if_neg hv]
    rfl

theorem Fs.load_file (s : Fs) (i : Slot) : (s.load i).file = s.file := by
  unfold Fs.load
  split_ifs <;> rfl

theorem Fs.load_ref (s : Fs) (i : Slot) : ((s.load i).inode i).ref = (s.inode i).ref := by
  unfold Fs.load
  split_ifs <;> simp

theorem Fs.load_valid (s : Fs) (i : Slot) : ((s.load i).inode i).valid = true := by
  unfold Fs.load
  split_ifs with hv
  · exact hv
  · simp

def idleLog : Log := ⟨LOGSIZE, 0, false, []⟩

section Brackets

variable {P : Type} {p : P} {s : Shared Fs Slot P}

theorem finishes_beginOp (h : s.st.log = idleLog) :
    Finishes p E beginOp s fun _ t => t = ⟨{ s.st with log := idleLog.enter }, s.owner⟩ := by
  refine .atomic (a := ()) (t := { s.st with log := idleLog.enter }) ?_ rfl
  rw [h]
  rfl

theorem finishes_ilock (hlock : s.owner i = none) (href : 1 ≤ (s.st.inode i).ref)
    (ht : ((s.st.load i).inode i).type ≠ 0) :
    Finishes p E (ilock i) s fun _ t =>
      t = ⟨s.st.load i, update s.owner i (some p)⟩ := by
  apply Finishes.bind_read
  rw [if_neg (Int.not_lt.mpr href)]
  apply Finishes.acquire hlock
  refine .atomic (a := ()) (t := s.st.load i) ?_ rfl
  unfold Fs.load at ht ⊢
  by_cases hv : (s.st.inode i).valid = true
  · rw [if_pos hv, if_pos hv]
  · rw [if_neg hv, Fs.setInode_inode, update_self] at ht
    rw [if_neg hv, if_neg hv, if_neg ht]

theorem finishes_iunlock (hlock : s.owner i = some p) (href : 1 ≤ (s.st.inode i).ref) :
    Finishes p E (iunlock i) s fun _ t => t = ⟨s.st, update s.owner i none⟩ := by
  apply Finishes.held
  apply Finishes.bind_read
  rw [hlock, if_neg]
  · exact .release (.ret rfl)
  · rintro (h | h)
    · cases h
    · exact Int.not_lt.mpr href h

theorem finishes_logged {α : Type} {f : Fs → Outcome Fs α} {a : α} {b : ℕ} {t : Fs}
    {Q : α → Shared Fs Slot P → Prop} (hf : f s.st = logged b a s.st t)
    (hlog : s.st.log.logWriteCheck = none)
    (h : Q a ⟨{ t with log := s.st.log.logWrite b }, s.owner⟩) :
    Finishes p E (Prog.atomic f) s Q := by
  refine .atomic ?_ h
  rw [hf, logged, hlog]

theorem finishes_endOp (hout : s.st.log.outstanding = 1) (hcom : s.st.log.committing = false)
    (hsize : s.st.log.size = LOGSIZE) :
    Finishes p E endOp s fun _ t => t = ⟨{ s.st with log := idleLog }, s.owner⟩ := by
  have hleave : s.st.log.leave = .ok ⟨LOGSIZE, 0, true, s.st.log.lh⟩ := by
    rw [Log.leave, hcom, hout, hsize]
    rfl
  refine Finishes.bind (Q := fun c t => c = true ∧
    t = ⟨{ s.st with log := ⟨LOGSIZE, 0, true, s.st.log.lh⟩ }, s.owner⟩) ?_ ?_
  · exact .atomic (by rw [hleave]) ⟨rfl, rfl⟩
  · rintro _ _ ⟨rfl, rfl⟩
    exact .bind_modify (.modify rfl)

end Brackets

theorem tolerates_true : Tolerates fun _ => True := fun _ _ _ => trivial

def Stays {P : Type} (s t : Shared Fs Slot P) : Prop := t.owner = s.owner ∧ t.st.log = s.st.log

theorem Stays.trans {P : Type} {s t u : Shared Fs Slot P} (h : Stays s t) (h' : Stays t u) :
    Stays s u := ⟨h'.1.trans h.1, h'.2.trans h.2⟩

section Cache

variable {P : Type} {p : P} {s : Shared Fs Slot P}

/-- `iget` panics just if it needs a free entry and there is none. -/
theorem finishes_iget (hs : Sane s.st) {n : ℕ}
    (hfull : ¬ s.st.Fits ∅ n → E (some "iget: no inodes")) :
    Finishes p E (iget ROOTDEV n) s fun i t => s.st.Fits ∅ n ∧ Stays s t ∧
      Moves (addRef (refs s.st) i 1) s.st t.st ∧ Refers t.st i n ∧ SameDisk s.st t.st := by
  rw [fits_empty] at hfull ⊢
  refine (Finishes.does (Q := fun _ t => (s.st.Cached n ∨ 0 < (vacant (refs s.st)).card) ∧
    Stays s t) ?_ (does_iget tolerates_true.exhausts hs n)).mono fun _ _ h =>
      ⟨h.1.1, h.1.2, h.2⟩
  cases hfind : (List.finRange NINODE).find? fun i => (s.st.inode i).caches ROOTDEV n with
  | some i =>
    have hc := List.find?_some hfind
    simp only [Inode.caches, decide_eq_true_eq] at hc
    refine .atomic (a := i) (t := s.st.setInode i
      { s.st.inode i with ref := (s.st.inode i).ref + 1 }) ?_ ⟨.inl ⟨i, hc.1, hc.2.2⟩, rfl, rfl⟩
    rw [hfind]
  | none =>
    cases hzero : (List.finRange NINODE).find? fun i => decide ((s.st.inode i).ref = 0) with
    | some i =>
      have hz := List.find?_some hzero
      rw [decide_eq_true_eq] at hz
      refine .atomic (a := i) (t := s.st.setInode i
        { s.st.inode i with dev := ROOTDEV, inum := n, ref := 1, valid := false }) ?_
        ⟨.inr (Finset.card_pos.mpr ⟨i, mem_vacant.mpr hz⟩), rfl, rfl⟩
      simp only [hfind, hzero]
    | none =>
      refine .atomic_panic (by simp only [hfind, hzero]) (hfull ?_)
      rintro (⟨i, hi, hin⟩ | hfree)
      · have hne := List.find?_eq_none.mp hfind i (List.mem_finRange i)
        exact hne (decide_eq_true ⟨hi, hs.dev i hi, hin⟩)
      · obtain ⟨i, hi⟩ := Finset.card_pos.mp hfree
        have hne := List.find?_eq_none.mp hzero i (List.mem_finRange i)
        exact hne (decide_eq_true (mem_vacant.mp hi))

theorem finishes_iput (hs : Sane s.st) (hi : Refers s.st i n) (hlock : s.owner i = none)
    (hd : ¬ Drops s.st i) :
    Finishes p E (iput i) s fun _ t => Stays s t ∧
      Moves (addRef (refs s.st) i (-1)) s.st t.st ∧ SameDisk s.st t.st := by
  have hback : update (update s.owner i (some p)) i none = s.owner := by
    rw [update_idem, ← hlock, update_eq_self]
  have hrun : Finishes p E (iput i) s fun _ t => Stays s t := by
    apply Finishes.acquire hlock
    apply Finishes.bind_read
    refine Finishes.bind (Q := fun _ t => t = ⟨s.st, update s.owner i (some p)⟩) ?_ ?_
    · refine .when (fun hc => ?_) fun _ => rfl
      simp only [Bool.and_eq_true, decide_eq_true_eq] at hc
      apply Finishes.bind_read
      exact .when (fun h1 => absurd ⟨h1, hc⟩ hd) fun _ => rfl
    · rintro _ _ rfl
      exact .release (.modify ⟨hback, rfl⟩)
  refine (hrun.does (does_iput tolerates_true.exhausts hs hi)).mono ?_
  rintro _ t ⟨hstay, hm, h⟩
  exact ⟨hstay, hm, (h.resolve_left fun h => hd h.1).2⟩

theorem finishes_iunlockput (hs : Sane s.st) (hi : Refers s.st i n) (hlock : s.owner i = some p)
    (hd : ¬ Drops s.st i) :
    Finishes p E (iunlockput i) s fun _ t =>
      (t.owner = update s.owner i none ∧ t.st.log = s.st.log) ∧
      Moves (addRef (refs s.st) i (-1)) s.st t.st ∧ SameDisk s.st t.st := by
  apply (finishes_iunlock hlock hi.1).bind
  rintro _ _ rfl
  exact finishes_iput (s := ⟨s.st, update s.owner i none⟩) hs hi
    (update_self ..) hd

theorem finishes_ilock_loaded (hs : Sane s.st) (hi : Refers s.st i n) (hlock : s.owner i = none)
    (ht : (s.st.dinode n).type ≠ 0) :
    Finishes p E (ilock i) s fun _ t =>
      (t.owner = update s.owner i (some p) ∧ t.st.log = s.st.log) ∧
        Moves (refs s.st) s.st t.st ∧ Loaded t.st i n ∧ SameDisk s.st t.st := by
  have htype : ((s.st.load i).inode i).type ≠ 0 := by
    unfold Fs.load
    split_ifs with hv
    · have hcopy := hs.copy i hi.1 hv
      rw [hcopy.1]
      exact hcopy.2
    · simp only [Fs.setInode_inode, update_self, hi.2]
      exact ht
  have hlog : (s.st.load i).log = s.st.log := by
    unfold Fs.load
    split_ifs <;> rfl
  refine ((finishes_ilock hlock hi.1 htype).does
    (does_ilock tolerates_true hs hi.2 (.inl ht))).mono ?_
  rintro _ t ⟨rfl, hm, hl, hd, -⟩
  exact ⟨⟨rfl, hlog⟩, hm, hl, hd⟩

end Cache

section Directories

variable {P : Type} {p : P} {s : Shared Fs Slot P} {k : ℕ}

theorem finishes_readDirent (hs : Sane s.st) (hi : Loaded s.st i n)
    (hdir : (tree s.st n).type = T_DIR) (hk : k < (tree s.st n).len) (msg : String) :
    Finishes p E (readDirent msg i (k * DIRENT)) s fun de t => t = s ∧ de = (tree s.st n).ent k := by
  obtain ⟨hcopy, halloc⟩ := hi.copy hs
  have hdir' : (s.st.dinode n).type = T_DIR := hdir
  have htype : (s.st.inode i).type = T_DIR := (congrArg Dinode.type hcopy).trans hdir'
  have hsize : (s.st.inode i).size = (s.st.dinode n).size := congrArg Dinode.size hcopy
  have hdev : (s.st.inode i).type ≠ T_DEV := by
    rw [htype]
    decide
  have hD : DIRENT = 16 := rfl
  have hin : k * DIRENT + DIRENT ≤ (s.st.inode i).size := by
    simp only [tree, node, hdir', if_true, hD] at hk
    rw [hsize, hD]
    omega
  have hmax : (s.st.inode i).size ≤ 71680 := by
    rw [hsize]
    exact nblk_le.mp (hs.full n halloc).le
  have hsound : Sound s.st i := hs.toWellFormed.sound (by rw [hi.1.2]; exact hcopy)
  have hrun : Finishes p E (readDirent msg i (k * DIRENT)) s fun _ t => t = s := by
    have hread : Halts p (fun _ _ => False) (readi i (k * DIRENT) DIRENT) s.st fun r t =>
        r = some (((contents s.st.block (s.st.inode i).toDinode).drop (k * DIRENT)).take DIRENT) ∧
          t = s.st :=
      halts_readi_done hsound (by rw [htype]; decide) hdev (by omega) (by omega) (by omega)
    obtain ⟨r, t, hrun, hr, ht⟩ := hread.run s.owner
    have hst : t = s := by
      cases t
      cases s
      exact congrArg₂ Shared.mk ht ((finishes_readi hdev _ _).of_done hrun)
    refine Finishes.bind (Q := fun r' t' => r = r' ∧ t' = s) (.of_run hrun ⟨rfl, hst⟩) ?_
    rintro _ _ ⟨rfl, rfl⟩
    rw [hr]
    simp only [List.length_take, List.length_drop, contents_length]
    rw [if_neg (by omega)]
    exact .ret rfl
  refine (hrun.does (does_readDirent (E := fun _ => True) hs hi hdir (.inl trivial) rfl)).mono ?_
  rintro de t ⟨rfl, -, -, hde⟩
  exact ⟨rfl, hde⟩

theorem Tree.FirstMatch.unique {T : Tree} {d a b j : ℕ} (hj : T.FirstMatch d a b name j)
    (hk : T.FirstMatch d a b name k) : j = k := by
  rcases Nat.lt_trichotomy j k with h | h | h
  · exact absurd hj.2.2.2.1 (hk.2.2.2.2 j hj.1 h)
  · exact h
  · exact absurd hk.2.2.2.1 (hj.2.2.2.2 k hk.1 h)

section

variable (hs : Sane s.st) (hi : Loaded s.st i n) (hdir : (tree s.st n).type = T_DIR)
include hs hi hdir

theorem finishes_dirlookupFrom {m : ℕ}
    (hfull : ∀ j, (tree s.st).FirstMatch n k (k + m) name j →
      ¬ s.st.Fits ∅ ((tree s.st n).ent j).inum → E (some "iget: no inodes"))
    (hm : k + m ≤ (tree s.st n).len ∨ ∃ j, (tree s.st).FirstMatch n k (k + m) name j) :
    Finishes p E (dirlookupFrom i name m (k * DIRENT)) s fun _ t => Stays s t ∧
      ∀ j, (tree s.st).FirstMatch n k (k + m) name j →
        s.st.Fits ∅ ((tree s.st n).ent j).inum := by
  induction m generalizing k with
  | zero => exact .ret ⟨⟨rfl, rfl⟩, fun j hj => by have := hj.1; have := hj.2.1; omega⟩
  | succ m ih =>
    have hk : k < (tree s.st n).len := by
      rcases hm with hm | ⟨j, hkj, -, hlen, -⟩
      · omega
      · omega
    apply (finishes_readDirent hs hi hdir hk _).bind
    rintro de t ⟨ht, rfl⟩
    rw [ht]
    apply Finishes.ite
    · intro hmatch
      have hfirst : (tree s.st).FirstMatch n k (k + (m + 1)) name k :=
        ⟨le_rfl, by omega, hk, hmatch, fun l h1 h2 => absurd h1 (Nat.not_le.mpr h2)⟩
      apply Finishes.bind_read
      have hdev : (s.st.inode i).dev = ROOTDEV := hs.dev i hi.1.1
      simp only [hdev]
      apply (finishes_iget hs (hfull k hfirst)).bind
      rintro ip u ⟨hfit, hstay, -⟩
      refine .ret ⟨hstay, fun j hj => ?_⟩
      rwa [hj.unique hfirst]
    · intro hno
      have hnext : k * DIRENT + DIRENT = (k + 1) * DIRENT := (Nat.succ_mul k DIRENT).symm
      -- The first match is behind this entry.
      have hiff : ∀ j, (tree s.st).FirstMatch n (k + 1) (k + 1 + m) name j ↔
          (tree s.st).FirstMatch n k (k + (m + 1)) name j := by
        intro j
        constructor
        · rintro ⟨h1, h2, h3, h4, h5⟩
          refine ⟨by omega, by omega, h3, h4, fun l hl hlj => ?_⟩
          by_cases hlk : l = k
          · rw [hlk]
            exact hno
          · exact h5 l (by omega) hlj
        · rintro ⟨h1, h2, h3, h4, h5⟩
          have hne : j ≠ k := by
            rintro rfl
            exact hno h4
          exact ⟨by omega, by omega, h3, h4, fun l hl => h5 l (by omega)⟩
      rw [hnext]
      refine (ih (fun j hj => hfull j ((hiff j).mp hj)) ?_).mono fun _ t h =>
        ⟨h.1, fun j hj => h.2 j ((hiff j).mpr hj)⟩
      rcases hm with hm | ⟨j, hj⟩
      · left
        omega
      · exact .inr ⟨j, (hiff j).mpr hj⟩

variable (hfull : ∀ m, (tree s.st).lookup n name = some m → ¬ s.st.Fits ∅ m →
    E (some "iget: no inodes"))
  (hrest : (tree s.st n).rest = 0 ∨ ((tree s.st).lookup n name).isSome)
include hfull hrest

theorem finishes_dirlookup_stays : Finishes p E (dirlookup i name) s fun _ t => Stays s t ∧
    ∀ m, (tree s.st).lookup n name = some m → s.st.Fits ∅ m := by
  obtain ⟨hcopy, -⟩ := hi.copy hs
  have htype : (s.st.inode i).type = T_DIR := (congrArg Dinode.type hcopy).trans hdir
  have hsize : (s.st.inode i).size = (s.st.dinode n).size := congrArg Dinode.size hcopy
  have hlen := len_le_numEntries (s := s.st) hdir
  apply Finishes.bind_read
  simp only [id, htype, ne_eq, not_true, if_false, hsize]
  have hiff : ∀ j, (tree s.st).FirstMatch n 0 (0 + numEntries (s.st.dinode n).size) name j ↔
      (tree s.st).FirstMatch n 0 (tree s.st n).len name j := fun j =>
    ⟨fun h => ⟨h.1, h.2.2.1, h.2.2⟩, fun h => ⟨h.1, by have := h.2.1; omega, h.2.2⟩⟩
  have hm : 0 + numEntries (s.st.dinode n).size ≤ (tree s.st n).len ∨
      ∃ j, (tree s.st).FirstMatch n 0 (0 + numEntries (s.st.dinode n).size) name j := by
    rcases hrest with hrest | hsome
    · rw [numEntries_eq_len hdir hrest, Nat.zero_add]
      exact .inl le_rfl
    · obtain ⟨m, hm⟩ := Option.isSome_iff_exists.mp hsome
      obtain ⟨j, hj, -⟩ := Tree.lookup_eq_some.mp hm
      exact .inr ⟨j, (hiff j).mpr hj⟩
  have hfrom := finishes_dirlookupFrom (p := p) hs hi hdir
    (fun j hj => hfull _ (Tree.lookup_eq_some.mpr ⟨j, (hiff j).mp hj, rfl⟩)) hm
  rw [Nat.zero_mul] at hfrom
  refine hfrom.mono fun _ t h => ⟨h.1, fun m hm => ?_⟩
  obtain ⟨j, hj, rfl⟩ := Tree.lookup_eq_some.mp hm
  exact h.2 j ((hiff j).mpr hj)

theorem finishes_dirlookup : Finishes p E (dirlookup i name) s fun r t => Stays s t ∧
    match (tree s.st).lookup n name with
    | none => r = none ∧ t.st = s.st
    | some m => s.st.Fits ∅ m ∧ ∃ ip off, r = some (ip, off) ∧
        Moves (addRef (refs s.st) ip 1) s.st t.st ∧ SameDisk s.st t.st ∧ Refers t.st ip m := by
  refine ((finishes_dirlookup_stays hs hi hdir hfull hrest).does
    (does_dirlookup tolerates_true.exhausts (.inl fun _ _ => trivial) hs hi name)).mono ?_
  rintro r t ⟨⟨hstay, hfit⟩, -, hr⟩
  refine ⟨hstay, ?_⟩
  cases r with
  | none =>
    rw [Tree.lookup_eq_none.mpr hr.2]
    exact ⟨rfl, hr.1⟩
  | some x =>
    obtain ⟨hm, hd, j, -, hj, hip⟩ := hr
    have hlook := Tree.lookup_eq_some.mpr ⟨j, hj, rfl⟩
    rw [hlook]
    exact ⟨hfit _ hlook, x.1, x.2, rfl, hm, hd, hip⟩

end

end Directories

theorem Tree.Walk.head {T : Tree} {m n : ℕ} {path last : Str} (h : T.Walk m path n last) :
    m = n ∧ path = last ∨ ∃ name rest k, skipelem path = some (name, rest) ∧ (T m).type = T_DIR ∧
      T.FirstMatch m 0 (T m).len name k ∧ T.Walk ((T m).ent k).inum rest n last := by
  induction h with
  | start => exact .inl ⟨rfl, rfl⟩
  | next h hskip hdir hfirst ih =>
    rcases ih with ⟨rfl, rfl⟩ | ⟨name, rest, k, hskip', hdir', hfirst', hwalk⟩
    · exact .inr ⟨_, _, _, hskip, hdir, hfirst, .start⟩
    · exact .inr ⟨name, rest, k, hskip', hdir', hfirst', hwalk.next hskip hdir hfirst⟩

structure Reached (s₀ : Fs) (n : ℕ) (j : Slot) (t : Fs) : Prop where
  moves : Moves (addRef (refs s₀) j 1) s₀ t
  disk : SameDisk s₀ t
  refers : Refers t j n

theorem Anchored.not_drops {s0 s : Fs} (ha : Anchored s0) (hm : Moves r s0 s) (hd : SameDisk s0 s)
    (hle : ∀ j, refs s0 j ≤ r j) (hi : refs s0 i < r i) : ¬ Drops s i := by
  rintro ⟨href, hvalid, hnl⟩
  have hpos : 0 < (s.inode i).ref := by omega
  obtain ⟨hcopy, htype⟩ := hm.sane.copy i hpos hvalid
  rw [hcopy, hd.dinode] at hnl
  rw [hd.dinode] at htype
  obtain ⟨j, hj⟩ := ha _ htype hnl
  have hj' : 0 < r j := lt_of_lt_of_le hj.1.1 (hle j)
  have hrj := hm.refers hj.1 hj'
  obtain rfl : j = i := hm.sane.uniq j i hrj.1 hpos hrj.2
  have hri : r j = 1 := by
    rw [← hm.refs]
    exact href
  have := hj.1.1
  omega

section Namex

variable {p : Pid} {s0 : Fs} {s : Shared Fs Slot Pid} {ip : Slot} {m : ℕ} {T : Tree} {par : Bool}
  {last path : Str}

/-- Where a walk ends: with no element left, or at a directory with one. -/
def EndsAt (T : Tree) (par : Bool) (n : ℕ) (last : Str) : Prop :=
  if par then (∃ name, skipelem last = some (name, [])) ∧ (T n).type = T_DIR
  else skipelem last = none

/-- What `namex` leads to when the path is there. -/
def Arrives (s₀ : Fs) (par : Bool) (n : ℕ) (last : Str) (s : Shared Fs Slot Pid)
    (r : Option (Slot × Str)) (t : Shared Fs Slot Pid) : Prop :=
  Stays s t ∧ ∃ j name, r = some (j, name) ∧ Reached s₀ n j t.st ∧
    (par = true → skipelem last = some (name, []))

theorem EndsAt.of_skipelem {rest : Str} (h : EndsAt T par n last)
    (hskip : skipelem last = some (name, rest)) :
    (par = true ∧ rest = []) ∧ (T n).type = T_DIR := by
  cases par with
  | false =>
    have h : skipelem last = none := h
    rw [h] at hskip
    cases hskip
  | true =>
    obtain ⟨⟨_, h⟩, hdir⟩ := h
    rw [h] at hskip
    cases hskip
    exact ⟨⟨rfl, rfl⟩, hdir⟩

theorem Tree.Walk.eq_of_last (h : T.Walk m path n last) (hend : EndsAt T true n last)
    (hskip : skipelem path = some (name, [])) : m = n ∧ path = last := by
  rcases h.head with h | ⟨_, _, _, hskip', -, -, hwalk⟩
  · exact h
  · rw [hskip] at hskip'
    cases hskip'
    have hnil : skipelem [] = none := rfl
    rcases hwalk.head with ⟨-, rfl⟩ | ⟨_, _, _, hskip', -⟩
    · obtain ⟨⟨_, hsome⟩, -⟩ := hend
      rw [hnil] at hsome
      cases hsome
    · rw [hnil] at hskip'
      cases hskip'

theorem Tree.Walk.next_of {rest : Str} (h : T.Walk m path n last) (hend : EndsAt T par n last)
    (hskip : skipelem path = some (name, rest)) (hpar : ¬ (par = true ∧ rest = [])) :
    ∃ k, T.FirstMatch m 0 (T m).len name k ∧ T.Walk ((T m).ent k).inum rest n last := by
  rcases h.head with ⟨rfl, rfl⟩ | ⟨_, _, k, hskip', -, hfirst, hwalk⟩
  · exact absurd (hend.of_skipelem hskip).1 hpar
  · rw [hskip] at hskip'
    cases hskip'
    exact ⟨k, hfirst, hwalk⟩

/-- What `namex` leads to on a tree that stays as it is: `x` is what the tree has there. -/
def Resolves (s₀ : Fs) (x : Option (ℕ × Str)) (s : Shared Fs Slot Pid) (r : Option (Slot × Str))
    (t : Shared Fs Slot Pid) : Prop :=
  Stays s t ∧ match x with
    | none => r = none ∧ Moves (refs s₀) s₀ t.st ∧ SameDisk s₀ t.st
    | some (n, name) => ∃ j, r = some (j, name) ∧ Reached s₀ n j t.st

theorem finishes_drop (ha : Anchored s0) (hip : Reached s0 m ip s.st)
    (hheld : s.owner ip = some p) :
    Finishes p E (do iunlockput ip; return none : FsM (Option (Slot × Str))) s fun r t =>
      (t.owner = update s.owner ip none ∧ t.st.log = s.st.log) ∧ r = none ∧
        Moves (refs s0) s0 t.st ∧ SameDisk s0 t.st := by
  have hlt : refs s0 ip < addRef (refs s0) ip 1 ip := by
    rw [addRef_self]
    omega
  apply (finishes_iunlockput hip.moves.sane hip.refers hheld
    (ha.not_drops hip.moves hip.disk le_addOne hlt)).bind
  rintro _ t ⟨hstay, hmt, hd⟩
  have hback := hip.moves.then_put hmt (fun j => by rw [addRef_neg])
  rw [addRef_neg] at hback
  exact .ret ⟨hstay, rfl, hback, hip.disk.trans hd⟩

/-- The walk takes the next inode and gives the directory back. -/
theorem finishes_advance {t u : Shared Fs Slot Pid} {next : Slot} (hs0 : Sane s0) (ha : Anchored s0)
    (hip : Reached s0 m ip t.st) (hm : Moves (addRef (refs t.st) next 1) t.st u.st)
    (hd : SameDisk t.st u.st) (hnext : Refers u.st next n) (hheld : u.owner ip = some p) :
    Finishes p E (iunlockput ip) u fun _ v =>
      (v.owner = update u.owner ip none ∧ v.st.log = u.st.log) ∧ Reached s0 n next v.st := by
  have hlt : refs s0 ip < addRef (refs s0) ip 1 ip := by
    rw [addRef_self]
    omega
  have hmu : Moves (addRef (addRef (refs s0) ip 1) next 1) s0 u.st := hip.moves.then_add hm le_addOne
  have hdu : SameDisk s0 u.st := hip.disk.trans hd
  have hipu : Refers u.st ip m :=
    hm.refers hip.refers (lt_of_lt_of_le hip.refers.1 (le_addOne _))
  refine (finishes_iunlockput hm.sane hipu hheld (ha.not_drops hmu hdu
    (fun j => (le_addOne _).trans (le_addOne _)) (lt_of_lt_of_le hlt (le_addOne _)))).mono ?_
  rintro _ v ⟨hstay, hmv, hdv⟩
  have hm' := hmu.then_put hmv (by
    rw [addRef_swap]
    exact le_addOne)
  rw [addRef_swap] at hm'
  -- The entry for `next` keeps the reference just taken.
  have hpos : 0 < refs v.st next := by
    have h0 : 0 ≤ refs s0 next := hs0.nonneg next
    rw [hm'.refs, addRef_self]
    omega
  exact ⟨hstay, hm', hdu.trans hdv, hmv.persist.refers hnext hpos⟩

theorem fitsAlong_step {name' : Str} {names : List Str} (hdir : (tree s0 m).type = T_DIR)
    (hlook : (tree s0).lookup m name' = some n) :
    s0.FitsAlong ∅ m (name' :: names) ↔ s0.Fits {m} n ∧ s0.FitsAlong ∅ n names := by
  rw [Fs.FitsAlong, Tree.step, if_pos hdir, hlook]
  rfl

theorem fitsAlong_of_step {name' : Str} {names : List Str}
    (h : (tree s0).step m name' = none) : s0.FitsAlong ∅ m (name' :: names) := by
  rw [Fs.FitsAlong, h]
  trivial

theorem finishes_namexFrom (hs0 : Sane s0) (ha : Anchored s0) {k : ℕ} (name : Str)
    (hfull : ¬ s0.FitsAlong ∅ m (lookups par path) → E (some "iget: no inodes"))
    (hk : path.length < k) (hclear : (tree s0).Clear par k m path) (hip : Reached s0 m ip s.st)
    (hlock : ∀ i, s.owner i = none) : Finishes p E (namexFrom par k ip path name) s fun r t =>
      s0.FitsAlong ∅ m (lookups par path) ∧
        Resolves s0 ((tree s0).namex par k m path name) s r t := by
  induction k generalizing s ip m path name with
  | zero => omega
  | succ k ih =>
    have hlt : refs s0 ip < addRef (refs s0) ip 1 ip := by
      rw [addRef_self]
      omega
    rw [namexFrom, Tree.namex]
    rw [Tree.Clear] at hclear
    cases hskip : skipelem path with
    | none =>
      have hfits : s0.FitsAlong ∅ m (lookups par path) := by
        rw [lookups_of_skipelem_none hskip]
        trivial
      cases par with
      | false => exact .ret ⟨hfits, ⟨rfl, rfl⟩, ip, rfl, hip⟩
      | true =>
        apply (finishes_iput hip.moves.sane hip.refers (hlock ip)
          (ha.not_drops hip.moves hip.disk le_addOne hlt)).bind
        rintro _ t ⟨hstay, hmt, hd⟩
        have hback := hip.moves.then_put hmt (fun j => by rw [addRef_neg])
        rw [addRef_neg] at hback
        exact .ret ⟨hfits, hstay, rfl, hback, hip.disk.trans hd⟩
    | some elem =>
      obtain ⟨name', path'⟩ := elem
      have hlen := skipelem_length hskip
      rw [hskip] at hclear
      obtain ⟨halloc, hdirs⟩ := hclear
      have halloc' : (s.st.dinode m).type ≠ 0 := by
        rw [hip.disk.dinode]
        exact halloc
      apply (finishes_ilock_loaded hip.moves.sane hip.refers (hlock ip) halloc').bind
      rintro _ t ⟨⟨howner, hlog⟩, hmt, hl, hd⟩
      have hheld : t.owner ip = some p := by rw [howner, update_self]
      have hback : update t.owner ip none = s.owner := by
        rw [howner, update_idem, ← hlock ip, update_eq_self]
      have hipt : Reached s0 m ip t.st := ⟨hip.moves.then_same hmt, hip.disk.trans hd, hl.1⟩
      have htype : (t.st.inode ip).type = (tree s0 m).type := by
        rw [hl.type hmt.sane, hipt.disk.tree]
      -- Two rounds end so: the inode is no directory, or it does not have the name.
      have hfail : ∀ u, Reached s0 m ip u.st → u.owner = t.owner → u.st.log = t.st.log →
          Finishes p E (do iunlockput ip; return none) u (Resolves s0 none s) := by
        intro u hipu howner' hlog'
        refine (finishes_drop ha hipu (by rw [howner', hheld])).mono ?_
        rintro r v ⟨⟨howner'', hlog''⟩, h⟩
        rw [howner', hback] at howner''
        exact ⟨⟨howner'', hlog''.trans (hlog'.trans hlog)⟩, h⟩
      apply Finishes.bind_read
      simp only [htype]
      by_cases hpar : par = true ∧ path' = []
      · -- The last element is left to the caller.
        obtain ⟨rfl, rfl⟩ := hpar
        rw [lookups_of_last hskip]
        by_cases hdir : (tree s0 m).type = T_DIR
        · rw [if_neg (not_not.mpr hdir), if_neg (not_not.mpr hdir), if_pos ⟨rfl, rfl⟩,
            if_pos ⟨rfl, rfl⟩]
          apply (finishes_iunlock hheld hl.1.1).bind
          rintro _ _ rfl
          exact .ret ⟨trivial, ⟨hback, hlog⟩, ip, rfl, hipt⟩
        · rw [if_pos hdir, if_pos hdir]
          exact (hfail t hipt rfl rfl).mono fun _ _ h => ⟨trivial, h⟩
      · rw [lookups_of_skipelem hskip hpar] at hfull ⊢
        by_cases hdir : (tree s0 m).type = T_DIR
        · rw [if_neg (not_not.mpr hdir), if_neg (not_not.mpr hdir), if_neg hpar, if_neg hpar]
          obtain ⟨hrest, hnext⟩ := hdirs hdir hpar
          have htree := hipt.disk.tree
          have hfit : ∀ n, t.st.Fits ∅ n ↔ s0.Fits {m} n := fun n =>
            fits_of_ref hipt.moves hipt.refers hs0.toCoherent
          apply (finishes_dirlookup hmt.sane hl (by rwa [htree]) (fun n hn hno => ?_)
            (by rwa [htree])).bind
          · rintro r u ⟨⟨howner', hlog'⟩, hr⟩
            rw [htree] at hr
            cases hlook : (tree s0).lookup m name' with
            | none =>
              rw [hlook] at hr
              obtain ⟨rfl, hu⟩ := hr
              refine (hfail u (by rwa [hu]) howner' hlog').mono fun _ _ h =>
                ⟨fitsAlong_of_step ?_, h⟩
              rw [Tree.step, if_pos hdir, hlook]
            | some n =>
              rw [hlook] at hr
              obtain ⟨hroom, next, off, rfl, hmu, hdu, hnx⟩ := hr
              rw [hfit] at hroom
              rw [fitsAlong_step hdir hlook] at hfull ⊢
              apply (finishes_advance hs0 ha hipt hmu hdu hnx (by rw [howner', hheld])).bind
              rintro _ v ⟨⟨howner'', hlog''⟩, hreach⟩
              have hsame : Stays s v := by
                rw [howner', hback] at howner''
                exact ⟨howner'', hlog''.trans (hlog'.trans hlog)⟩
              refine (ih name' (fun hno => hfull fun h => hno h.2) (by omega) (hnext n hlook)
                hreach fun i => ?_).mono ?_
              · rw [hsame.1]
                exact hlock i
              · rintro r w ⟨hfits, hw, h⟩
                exact ⟨⟨hroom, hfits⟩, hsame.trans hw, h⟩
          · rw [htree] at hn
            rw [hfit] at hno
            exact hfull fun h => hno ((fitsAlong_step hdir hn).mp h).1
        · rw [if_pos hdir, if_pos hdir]
          refine (hfail t hipt rfl rfl).mono fun _ _ h => ⟨fitsAlong_of_step ?_, h⟩
          rw [Tree.step, if_neg hdir]

theorem Tree.Walk.namex {k : ℕ} (name : Str) (h : T.Walk m path n last) (hend : EndsAt T par n last)
    (hk : path.length < k) :
    T.Clear par k m path ∧ ∃ name', T.namex par k m path name = some (n, name') ∧
      (par = true → skipelem last = some (name', [])) := by
  induction k generalizing m path name with
  | zero => omega
  | succ k ih =>
    rw [Tree.Clear, Tree.namex]
    cases hskip : skipelem path with
    | none =>
      rcases h.head with ⟨rfl, rfl⟩ | ⟨_, _, _, hskip', -⟩
      · cases par with
        | false => exact ⟨trivial, name, rfl, by rintro ⟨⟩⟩
        | true =>
          obtain ⟨⟨_, hsome⟩, -⟩ := hend
          rw [hskip] at hsome
          cases hsome
      · rw [hskip] at hskip'
        cases hskip'
    | some elem =>
      obtain ⟨name', path'⟩ := elem
      have hlen := skipelem_length hskip
      have hdir : (T m).type = T_DIR := by
        rcases h.head with ⟨rfl, rfl⟩ | ⟨_, _, _, -, hdir, -⟩
        · exact (hend.of_skipelem hskip).2
        · exact hdir
      simp only [hdir, ne_eq, not_true, if_false]
      by_cases hpar : par = true ∧ path' = []
      · rw [if_pos hpar]
        obtain ⟨rfl, rfl⟩ := hpar
        obtain ⟨rfl, rfl⟩ := h.eq_of_last hend hskip
        exact ⟨⟨by decide, fun _ hno => absurd ⟨rfl, rfl⟩ hno⟩, name', rfl, fun _ => hskip⟩
      · rw [if_neg hpar]
        obtain ⟨j, hj, hnext⟩ := h.next_of hend hskip hpar
        have hlook := Tree.lookup_eq_some.mpr ⟨j, hj, rfl⟩
        obtain ⟨hclear, hx⟩ := ih name' hnext (by omega)
        rw [hlook]
        refine ⟨⟨by decide, fun _ _ => ⟨.inr rfl, fun m' hm' => ?_⟩⟩, hx⟩
        cases hm'
        exact hclear

theorem finishes_namex_any (hs : Sane s.st) (ha : Anchored s.st)
    (hcwd : ∀ i, (s.st.proc p).cwd = some i → 0 < refs s.st i)
    (hfull : ¬ s.st.FitsPath ∅ p par path → E (some "iget: no inodes"))
    (hstart : s.st.startOf p path = some m)
    (hclear : (tree s.st).Clear par (path.length + 1) m path) (hlock : ∀ i, s.owner i = none) :
    Finishes p E (namex p path par) s fun r t => s.st.FitsPath ∅ p par path ∧
      Resolves s.st ((tree s.st).namex par (path.length + 1) m path []) s r t := by
  have halong : ∀ {n}, s.st.startOf p path = some n →
      s.st.FitsAlong ∅ m (lookups par path) → s.st.FitsAlong ∅ n (lookups par path) := by
    intro n hn h
    rw [hstart] at hn
    cases hn
    exact h
  refine Finishes.bind (Q := fun ip t => (path.head? = some slash → s.st.Fits ∅ ROOTINO) ∧
    Stays s t ∧ Reached s.st m ip t.st) ?_ ?_
  · unfold Fs.startOf at hstart
    apply Finishes.ite
    · intro hslash
      rw [if_pos hslash] at hstart
      cases hstart
      refine (finishes_iget hs fun hno => hfull fun h => hno (h.1 hslash)).mono ?_
      rintro ip t ⟨hfit, hstay, hm, hip, hd⟩
      exact ⟨fun _ => hfit, hstay, hm, hd, hip⟩
    · intro hslash
      rw [if_neg hslash] at hstart
      obtain ⟨i, hi, rfl⟩ := Option.map_eq_some_iff.mp hstart
      apply Finishes.bind_read
      rw [hi]
      have hdup : Finishes p E (idup i) s fun _ t => Stays s t := .bind_modify (.ret ⟨rfl, rfl⟩)
      refine (hdup.does (does_idup (E := fun _ => True) hs ⟨hcwd i hi, rfl⟩)).mono ?_
      rintro ip t ⟨hstay, rfl, hm, hip, hd⟩
      exact ⟨fun h => absurd h hslash, hstay, hm, hd, hip⟩
  · rintro ip t ⟨hroot, hstay, hip⟩
    refine (finishes_namexFrom hs ha [] (fun hno => hfull fun h => hno (h.2 m hstart))
      (Nat.lt_succ_self _) hclear hip fun i => ?_).mono ?_
    · rw [hstay.1]
      exact hlock i
    · rintro r u ⟨hfits, hu, h⟩
      exact ⟨⟨hroot, fun n hn => halong hn hfits⟩, hstay.trans hu, h⟩

/-- The walk along the path comes to the inode `n`. -/
def Fs.Exists (s : Fs) (p : Pid) (par : Bool) (path : Str) (n : ℕ) (last : Str) : Prop :=
  s.walks p (some path) n last ∧ EndsAt (tree s) par n last

theorem finishes_namex (hs : Sane s.st) (ha : Anchored s.st)
    (hcwd : ∀ i, (s.st.proc p).cwd = some i → 0 < refs s.st i)
    (hfull : ¬ s.st.FitsPath ∅ p par path → E (some "iget: no inodes"))
    (h : s.st.Exists p par path n last) (hlock : ∀ i, s.owner i = none) :
    Finishes p E (namex p path par) s fun r t => s.st.FitsPath ∅ p par path ∧
      Arrives s.st par n last s r t := by
  obtain ⟨⟨x, hx, n0, hn0, hwalk⟩, hend⟩ := h
  obtain rfl : path = x := Option.some.inj hx
  obtain ⟨hclear, name, hname, hlast⟩ := hwalk.namex [] hend (Nat.lt_succ_self _)
  refine (finishes_namex_any hs ha hcwd hfull hn0 hclear hlock).mono ?_
  rintro r t ⟨hfits, hstay, h⟩
  rw [hname] at h
  obtain ⟨j, rfl, hj⟩ := h
  exact ⟨hfits, hstay, j, name, rfl, hj, hlast⟩

theorem finishes_namei (hs : Sane s.st) (ha : Anchored s.st)
    (hcwd : ∀ i, (s.st.proc p).cwd = some i → 0 < refs s.st i)
    (hfull : ¬ s.st.FitsPath ∅ p false path → E (some "iget: no inodes"))
    (h : s.st.Exists p false path n last) (hlock : ∀ i, s.owner i = none) :
    Finishes p E (namei p path) s fun r t => s.st.FitsPath ∅ p false path ∧ Stays s t ∧
      ∃ j, r = some j ∧ Reached s.st n j t.st := by
  apply (finishes_namex hs ha hcwd hfull h hlock).bind
  rintro _ t ⟨hfits, hstay, j, name, rfl, hj, -⟩
  exact .ret ⟨hfits, hstay, j, rfl, hj⟩

end Namex

end Xv6
