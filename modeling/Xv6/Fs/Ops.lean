import Xv6.Fs.Cache

namespace Xv6
open Lib Prog Function

structure SameDisk (s t : Fs) : Prop where
  dinode : t.dinode = s.dinode
  block : t.block = s.block
  bitmap : t.bitmap = s.bitmap

theorem SameDisk.refl (s : Fs) : SameDisk s s := ⟨rfl, rfl, rfl⟩

theorem SameDisk.trans {s t u : Fs} (h : SameDisk s t) (h' : SameDisk t u) : SameDisk s u :=
  ⟨h'.dinode.trans h.dinode, h'.block.trans h.block, h'.bitmap.trans h.bitmap⟩

theorem refs_of_update {s t : Fs} {i : Slot} {ip : Inode} (h : t.inode = update s.inode i ip) :
    refs t = addRef (refs s) i (ip.ref - (s.inode i).ref) := by
  funext j
  by_cases hj : j = i
  · subst hj
    rw [addRef_self, refs, refs, h, update_self]
    omega
  · rw [addRef_of_ne _ _ hj, refs, refs, h, update_of_ne hj]

theorem persist_of_update {s t : Fs} {i : Slot} {ip : Inode}
    (h : t.inode = update s.inode i ip)
    (hi : 0 < (s.inode i).ref → 0 < ip.ref →
      ip.inum = (s.inode i).inum ∧ ((s.inode i).valid = true → ip.valid = true)) :
    Persist s t := by
  intro j hj hj'
  rw [refs, h] at hj'
  rw [h]
  by_cases hji : j = i
  · subst hji
    rw [update_self] at hj' ⊢
    exact hi hj hj'
  · rw [update_of_ne hji]
    exact ⟨rfl, id⟩

variable {E : String → Prop} {s : Fs} {i : Slot} {n : ℕ}

section Inodes

variable {P : Type} {p : P}

theorem does_iget (hE : Exhausts E) (hs : Sane s) (n : ℕ) :
    Does p E (iget ROOTDEV n) s fun i t =>
      Moves (addRef (refs s) i 1) s t ∧ Refers t i n ∧ SameDisk s t := by
  refine .atomic ?_
  cases hfind : (List.finRange NINODE).find? fun i => (s.inode i).caches ROOTDEV n with
  | some i =>
    -- The inode is cached: one more reference to the same entry.
    have hc := List.find?_some hfind
    simp only [Inode.caches, decide_eq_true_eq] at hc
    obtain ⟨hr, hdev, hinum⟩ := hc
    have ht : (s.setInode i { s.inode i with ref := (s.inode i).ref + 1 }).inode =
        update s.inode i { s.inode i with ref := (s.inode i).ref + 1 } := rfl
    have hrefs := refs_of_update ht
    simp only [add_sub_cancel_left] at hrefs
    refine ⟨⟨⟨hs.toWellFormed.congr rfl rfl rfl rfl, ?_⟩, hrefs, ?_, rfl, rfl, rfl⟩, ⟨?_, ?_⟩,
      rfl, rfl, rfl⟩
    · exact hs.setInode hr ht rfl rfl rfl (by simp only; omega) fun _ => hs.copy i hr
    · exact persist_of_update ht fun _ _ => ⟨rfl, id⟩
    · rw [hrefs, addRef_self, refs]
      omega
    · simpa using hinum
  | none =>
    have hnone := List.find?_eq_none.mp hfind
    have hnew : ∀ j, 0 < (s.inode j).ref → (s.inode j).inum ≠ n := by
      intro j hj he
      have := hnone j (List.mem_finRange j)
      simp only [Inode.caches, decide_eq_true_eq] at this
      exact this ⟨hj, hs.dev j hj, he⟩
    simp only
    cases hfree : (List.finRange NINODE).find? fun i => decide ((s.inode i).ref = 0) with
    | none => exact hE _ (by decide)
    | some i =>
      have hz := List.find?_some hfree
      simp only [decide_eq_true_eq] at hz
      have ht : (s.setInode i { s.inode i with
          dev := ROOTDEV, inum := n, ref := 1, valid := false }).inode =
          update s.inode i { s.inode i with
            dev := ROOTDEV, inum := n, ref := 1, valid := false } := rfl
      have hrefs := refs_of_update ht
      simp only [hz, sub_zero] at hrefs
      refine ⟨⟨⟨hs.toWellFormed.congr rfl rfl rfl rfl, ?_⟩, hrefs, ?_, rfl, rfl, rfl⟩, ⟨?_, ?_⟩,
        rfl, rfl, rfl⟩
      · exact hs.recycle hnew ht rfl ⟨rfl, rfl, rfl, rfl⟩
      · exact persist_of_update ht fun h => absurd h (by omega)
      · rw [hrefs, addRef_self, refs]
        omega
      · simp

theorem does_idup (hs : Sane s) (hi : Refers s i n) :
    Does p E (idup i) s fun j t =>
      j = i ∧ Moves (addRef (refs s) i 1) s t ∧ Refers t i n ∧ SameDisk s t := by
  have ht : (s.setInode i { s.inode i with ref := (s.inode i).ref + 1 }).inode =
      update s.inode i { s.inode i with ref := (s.inode i).ref + 1 } := rfl
  have hrefs := refs_of_update ht
  simp only [add_sub_cancel_left] at hrefs
  have hpos : 0 < (s.inode i).ref := hi.1
  refine .bind (.modify (Q := fun _ t => Moves (addRef (refs s) i 1) s t ∧ Refers t i n ∧
    SameDisk s t) ?_) fun _ t h => .ret ⟨rfl, h⟩
  refine ⟨⟨⟨hs.toWellFormed.congr rfl rfl rfl rfl, ?_⟩, hrefs, ?_, rfl, rfl, rfl⟩, ⟨?_, ?_⟩, rfl,
    rfl, rfl⟩
  · exact hs.setInode hpos ht rfl rfl rfl (by simp only; omega) fun _ => hs.copy i hpos
  · exact persist_of_update ht fun _ _ => ⟨rfl, id⟩
  · rw [hrefs, addRef_self, refs]
    omega
  · simpa using hi.2

theorem does_iload (hs : Sane s) (hpos : 0 < (s.inode i).ref) (hinum : (s.inode i).inum = n)
    (hn : (s.dinode n).type ≠ 0 ∨ E noType) :
    Does p E (iload i) s fun _ t =>
      Moves (refs s) s t ∧ Loaded t i n ∧ SameDisk s t ∧ (s.dinode n).type ≠ 0 := by
  apply Does.atomic
  by_cases hv : (s.inode i).valid = true
  · rw [if_pos hv]
    exact ⟨.refl hs, ⟨⟨hpos, hinum⟩, hv⟩, .refl s, hinum ▸ (hs.copy i hpos hv).2⟩
  · rw [if_neg hv, hinum]
    by_cases ht : (s.dinode n).type = 0
    · rw [if_pos ht]
      exact hn.resolve_left fun h => h ht
    · rw [if_neg ht]
      have hu : (s.setInode i { s.inode i with toDinode := s.dinode n, valid := true }).inode =
          update s.inode i
            { s.inode i with toDinode := s.dinode n, valid := true } := rfl
      have hrefs := refs_of_update hu
      simp only [sub_self, addRef_zero] at hrefs
      refine ⟨⟨⟨hs.toWellFormed.congr rfl rfl rfl rfl, ?_⟩, hrefs, ?_, rfl, rfl, rfl⟩,
        ⟨⟨by rwa [hrefs], ?_⟩, ?_⟩, ⟨rfl, rfl, rfl⟩, ht⟩
      · refine hs.setInode hpos hu rfl rfl rfl (le_of_lt hpos) fun _ _ => ?_
        rw [hinum]
        exact ⟨rfl, ht⟩
      · exact persist_of_update hu fun _ _ => ⟨rfl, fun _ => rfl⟩
      · simpa using hinum
      · simp

theorem does_ilock (hE : Tolerates E) (hs : Sane s) (hinum : (s.inode i).inum = n)
    (hn : (s.dinode n).type ≠ 0 ∨ E noType) :
    Does p E (ilock i) s fun _ t =>
      Moves (refs s) s t ∧ Loaded t i n ∧ SameDisk s t ∧ (s.dinode n).type ≠ 0 := by
  refine .bind_read ?_
  by_cases hr : (s.inode i).ref < 1
  · rw [if_pos hr]
    exact .panic (hE _ (by decide) (by decide))
  · rw [if_neg hr]
    exact .acquire (does_iload hs (by omega) hinum hn)

theorem does_iunlock (hE : Tolerates E) : Does p E (iunlock i) s fun _ t => t = s := by
  refine .bind (.held (Q := fun _ t => t = s) fun b => .ret rfl) ?_
  rintro b _ rfl
  refine .bind_read ?_
  split_ifs
  · exact .panic (hE _ (by decide) (by decide))
  · exact .release (.ret rfl)

/-- `iput` has the last reference to an inode without links. -/
def Drops (s : Fs) (i : Slot) : Prop :=
  (s.inode i).ref = 1 ∧ (s.inode i).valid = true ∧ (s.inode i).nlink = 0

structure Freed (s t : Fs) (n : ℕ) : Prop where
  dinode : t.dinode = update s.dinode n (s.dinode n).freed
  block : t.block = s.block

theorem wellFormed_freeState (hs : Sane s) (hi : 0 < (s.inode i).ref)
    (hv : (s.inode i).valid = true) (l : Log) : WellFormed (freeState s i l) := by
  obtain ⟨hcopy, ht⟩ := hs.copy i hi hv
  constructor
  · have h := hs.owned.free ht (d := (s.inode i).toDinode.freed) rfl
    rwa [← hcopy] at h
  · intro m hm
    simp only [freeState] at hm ⊢
    by_cases hmn : m = (s.inode i).inum
    · subst hmn
      rw [update_self] at hm
      exact absurd rfl hm
    · rw [update_of_ne hmn] at hm ⊢
      exact hs.full m hm

theorem moves_drop (hs : Sane s) (hd : Drops s i) {l : Log} {t : Fs}
    (hwf : WellFormed (freeState s i l)) (hsb : t.sb = s.sb)
    (hbits : t.bitmap = (freeState s i l).bitmap) (hblock : t.block = s.block)
    (hdinode : t.dinode = (freeState s i l).dinode)
    (hinode : t.inode = update s.inode i { s.inode i with
      toDinode := (s.inode i).toDinode.freed, ref := 0, valid := false })
    (hproc : t.proc = s.proc) (hfile : t.file = s.file) :
    Moves (addRef (refs s) i (-1)) s t where
  sane := by
    refine ⟨hwf.congr hsb hbits hblock hdinode, ?_⟩
    have hpos : 0 < (s.inode i).ref := by rw [hd.1]; decide
    exact hs.update hpos hinode hdinode rfl rfl le_rfl fun h => absurd h (lt_irrefl _)
  refs := by
    rw [refs_of_update hinode, hd.1, zero_sub]
  persist := persist_of_update hinode fun _ h => absurd h (lt_irrefl _)
  sb := hsb
  proc := hproc
  file := hfile

theorem moves_release (hs : Sane s) (hi : 0 < (s.inode i).ref) :
    Moves (addRef (refs s) i (-1)) s
      (s.setInode i { s.inode i with ref := (s.inode i).ref - 1 }) := by
  have hu : (s.setInode i { s.inode i with ref := (s.inode i).ref - 1 }).inode =
      update s.inode i { s.inode i with ref := (s.inode i).ref - 1 } := rfl
  have hrefs := refs_of_update hu
  simp only [sub_sub_cancel_left] at hrefs
  refine ⟨⟨hs.toWellFormed.congr rfl rfl rfl rfl, ?_⟩, hrefs, ?_, rfl, rfl, rfl⟩
  · exact hs.setInode hi hu rfl rfl rfl (by simp only; omega) fun _ => hs.copy i hi
  · exact persist_of_update hu fun _ _ => ⟨rfl, id⟩

theorem does_iput (hE : Exhausts E) (hs : Sane s) (hi : Refers s i n) :
    Does p E (iput i) s fun _ t => Moves (addRef (refs s) i (-1)) s t ∧
      (Drops s i ∧ (s.dinode n).nlink = 0 ∧ (s.dinode n).type ≠ 0 ∧ Freed s t n ∨
        ¬ Drops s i ∧ SameDisk s t) := by
  obtain ⟨hpos, hinum⟩ := hi
  have hpos' : 0 < (s.inode i).ref := hpos
  refine .bind (.acquire (.ret (Q := fun _ t => t = s) rfl)) ?_
  rintro _ t rfl
  refine .bind_read ?_
  -- The state before the reference is given back.
  refine .bind (Q := fun _ u => Drops t i ∧ (∃ l, u = freeState t i l) ∨ ¬ Drops t i ∧ u = t)
    (.when (fun hc => ?_) fun hc => ?_) ?_
  · simp only [Bool.and_eq_true, decide_eq_true_eq] at hc
    intro o
    refine wp_ifree hE (fun _ => .inr ?_) (fun h1 l => ?_) fun h1 => ?_
    · obtain ⟨hcopy, ht⟩ := hs.copy i hpos' hc.1
      simp only [hcopy]
      exact hs.owned.freeable ht
    · exact .inl ⟨⟨h1, hc⟩, l, rfl⟩
    · exact .inr ⟨fun h => h1 h.1, rfl⟩
  · simp only [Bool.and_eq_true, decide_eq_true_eq] at hc
    exact .inr ⟨fun h => hc h.2, rfl⟩
  · intro _ u hu
    refine .bind (.release (.ret (Q := fun _ v => v = u) rfl)) ?_
    rintro _ _ rfl
    refine .modify ?_
    rcases hu with ⟨hd, l, rfl⟩ | ⟨hd, rfl⟩
    · obtain ⟨hcopy, htype⟩ := hs.copy i hpos' hd.2.1
      refine ⟨moves_drop hs hd (wellFormed_freeState hs hpos' hd.2.1 l) rfl rfl rfl rfl ?_ rfl rfl,
        .inl ⟨hd, ?_, ?_, ?_, rfl⟩⟩
      · simp [freeState, hd.1]
      · rw [← hinum, ← hcopy]
        exact hd.2.2
      · rwa [← hinum]
      · simp [freeState, hcopy, hinum]
    · exact ⟨moves_release hs hpos', .inr ⟨hd, rfl, rfl, rfl⟩⟩

def Relabels (f : Inode → Inode) : Prop :=
  ∀ ip, ∃ a b c, f ip = { ip with major := a, minor := b, nlink := c }

theorem does_modify_iupdate (hE : Exhausts E) (hs : Sane s) (hi : Loaded s i n)
    {f : Inode → Inode} (hf : Relabels f) :
    Does p E ((modifyInode i f).bind fun _ => iupdate i) s fun _ t => Moves (refs s) s t ∧
      t.dinode = update s.dinode n (f (s.inode i)).toDinode ∧ t.block = s.block ∧
      t.bitmap = s.bitmap := by
  obtain ⟨⟨hpos, hinum⟩, hv⟩ := hi
  have hpos' : 0 < (s.inode i).ref := hpos
  obtain ⟨hcopy, htype⟩ := hs.copy i hpos' hv
  obtain ⟨a, b, c, hf⟩ := hf (s.inode i)
  have href : (f (s.inode i)).ref = (s.inode i).ref := by rw [hf]
  have hinum' : (f (s.inode i)).inum = (s.inode i).inum := by rw [hf]
  have htype' : (f (s.inode i)).type = (s.inode i).type := by rw [hf]
  have hsize : (f (s.inode i)).size = (s.inode i).size := by rw [hf]
  have haddrs : (f (s.inode i)).addrs = (s.inode i).addrs := by rw [hf]
  have hct : (s.inode i).type ≠ 0 := by
    rw [show (s.inode i).type = (s.dinode (s.inode i).inum).type from congrArg Dinode.type hcopy]
    exact htype
  refine .bind (.modify (Q := fun _ t => t = s.setInode i (f (s.inode i))) rfl) ?_
  rintro _ _ rfl
  refine .atomic (logged_sat hE fun l => ?_)
  simp only [Fs.setInode, update_self, hinum', hinum, Fs.setDinode]
  have hu : ∀ t : Fs, t.inode = update s.inode i (f (s.inode i)) →
      refs t = refs s := by
    intro t ht
    rw [refs_of_update ht, href, sub_self, addRef_zero]
  refine ⟨⟨⟨⟨?_, ?_⟩, ?_⟩, hu _ rfl, ?_, rfl, rfl, rfl⟩, trivial, trivial, trivial⟩
  · refine hs.owned.congr (fun m => ?_) fun m hm => ?_
    · by_cases hmn : m = n
      · subst hmn
        simp only [update_self, htype', ← hinum]
        rw [show (s.inode i).type = (s.dinode (s.inode i).inum).type from
          congrArg Dinode.type hcopy]
      · simp only [update_of_ne hmn]
    · by_cases hmn : m = n
      · subst hmn
        simp only [update_self, haddrs, ← hinum]
        exact congrArg Dinode.addrs hcopy
      · simp only [update_of_ne hmn]
  · intro m hm
    by_cases hmn : m = n
    · subst hmn
      simp only [update_self, hsize] at hm ⊢
      have hfull := hs.full (s.inode i).inum htype
      rw [← hcopy] at hfull
      refine hfull.congr fun k => ?_
      simp only [ptr, haddrs]
    · simp only [update_of_ne hmn] at hm ⊢
      exact hs.full m hm
  · refine hs.update hpos' rfl (by simp only [hinum]) hinum' (by rw [hf]) (by omega) fun _ _ => ⟨rfl, ?_⟩
    rw [htype']
    exact hct
  · exact persist_of_update rfl fun _ _ => ⟨hinum', fun h => by rw [hf]; exact h⟩

theorem moves_congr {t : Fs} (hs : Sane s) (hsb : t.sb = s.sb) (hd : t.dinode = s.dinode)
    (hbits : t.bitmap = s.bitmap) (hblock : t.block = s.block) (hinode : t.inode = s.inode)
    (hproc : t.proc = s.proc) (hfile : t.file = s.file) : Moves (refs s) s t where
  sane := by
    refine ⟨hs.toWellFormed.congr hsb hbits hblock hd, ?_⟩
    constructor
    · rw [hinode]
      exact hs.nonneg
    · rw [hinode]
      exact hs.dev
    · rw [hinode]
      exact hs.uniq
    · rw [hinode, hd]
      exact hs.copy
  refs := by
    funext j
    simp only [Xv6.refs, hinode]
  persist j _ _ := by
    rw [hinode]
    exact ⟨rfl, id⟩
  sb := hsb
  proc := hproc
  file := hfile

theorem sane_allocInode (hs : Sane s) (hn : (s.dinode n).type = 0) (type : ℤ) (l : Log) :
    Sane { s.setDinode n (.fresh type) with log := l } := by
  refine ⟨⟨hs.owned.allocInode hn type, fun m hm => ?_⟩, hs.allocDisk hn rfl rfl⟩
  simp only [Fs.setDinode] at hm ⊢
  by_cases hmn : m = n
  · subst hmn
    have h0 : nblk (Dinode.fresh type).size = 0 := by simp [nblk, Dinode.fresh, BSIZE]
    rw [update_self, h0]
    exact full_fresh type
  · rw [update_of_ne hmn] at hm ⊢
    exact hs.full m hm

structure Allocated (s t : Fs) (n : ℕ) (type : ℤ) : Prop where
  free : (s.dinode n).type = 0
  dinode : t.dinode = update s.dinode n (.fresh type)
  block : t.block = s.block

theorem does_iallocFrom (hE : Exhausts E) (hs : Sane s) {type : ℤ} (k inum : ℕ) :
    Does p E (iallocFrom ROOTDEV type k inum) s fun i t => Moves (addRef (refs s) i 1) s t ∧
      ∃ n, Refers t i n ∧ inum ≤ n ∧ n < inum + k ∧ Allocated s t n type := by
  induction k generalizing inum with
  | zero => exact .panic (hE _ (by decide))
  | succ k ih =>
    by_cases hn : (s.dinode inum).type = 0
    · refine .bind (Q := fun free t => free = true ∧
        ∃ l, t = { s.setDinode inum (.fresh type) with log := l }) (.atomic ?_) ?_
      · rw [if_pos hn]
        exact logged_sat hE fun l => ⟨rfl, l, rfl⟩
      · rintro _ _ ⟨rfl, l, rfl⟩
        simp only [if_true]
        refine (does_iget hE (sane_allocInode hs hn type l) inum).mono ?_
        rintro i t ⟨hm, hr, hd⟩
        refine ⟨⟨hm.sane, hm.refs, hm.persist, hm.sb, hm.proc, hm.file⟩, inum, hr, le_rfl,
          by omega, hn, hd.dinode, hd.block⟩
    · refine .bind (Q := fun free t => free = false ∧ t = s) (.atomic ?_) ?_
      · rw [if_neg hn]
        exact ⟨rfl, rfl⟩
      · rintro _ _ ⟨rfl, rfl⟩
        simp only [Bool.false_eq_true, if_false]
        refine (ih (inum + 1)).mono ?_
        rintro i t ⟨hm, n, hr, h1, h2, ha⟩
        exact ⟨hm, n, hr, by omega, by omega, ha⟩

theorem does_ialloc (hE : Exhausts E) (hs : Sane s) {type : ℤ} :
    Does p E (ialloc ROOTDEV type) s fun i t => Moves (addRef (refs s) i 1) s t ∧
      ∃ n, Refers t i n ∧ 1 ≤ n ∧ n < s.sb.ninodes ∧ Allocated s t n type := by
  refine .bind_read ((does_iallocFrom hE hs _ _).mono ?_)
  rintro i t ⟨hm, n, hr, h1, h2, ha⟩
  exact ⟨hm, n, hr, h1, by omega, ha⟩

end Inodes

section Contents

variable {P : Type} {p : P}

theorem Loaded.copy (hs : Sane s) (hi : Loaded s i n) :
    (s.inode i).toDinode = s.dinode n ∧ (s.dinode n).type ≠ 0 := by
  obtain ⟨⟨hpos, rfl⟩, hv⟩ := hi
  exact hs.copy i hpos hv

theorem Loaded.eff (hs : Sane s) (hi : Loaded s i n) : s.eff i = s.dinode := by
  have hc := (hi.copy hs).1
  have hn : (s.inode i).inum = n := hi.1.2
  rw [Fs.eff, hc, hn, update_eq_self]

section

variable (hE : Tolerates E) (hs : Sane s) (hi : Loaded s i n)
include hE hs hi

theorem does_relock :
    Does p E (ilock i) s fun _ t => Moves (refs s) s t ∧ SameDisk s t :=
  (does_ilock hE hs hi.1.2 (.inl (hi.copy hs).2)).mono fun _ _ h => ⟨h.1, h.2.2.1⟩

theorem does_consoleread (m : ℕ) :
    Does p E (consoleread i m) s fun _ t => Moves (refs s) s t ∧ SameDisk s t := by
  refine (does_iunlock hE).bind ?_
  rintro _ t rfl
  have hm : Moves (refs t) t { t with env := fun n => t.env (n + 1) } :=
    moves_congr hs rfl rfl rfl rfl rfl rfl rfl
  have hans : Does p E answer t fun _ u => u = { t with env := fun n => t.env (n + 1) } :=
    .atomic rfl
  refine hans.bind ?_
  rintro r _ rfl
  have hpos : 0 < refs t i := hi.1.1
  refine (does_relock hE hm.sane (hm.loaded hi hpos)).bind fun _ u hu => .ret ⟨?_, ?_⟩
  · rw [hm.refs] at hu
    exact hm.trans hu.1 fun _ h _ => h
  · exact ⟨hu.2.dinode, hu.2.block, hu.2.bitmap⟩

theorem does_consolewrite (src : List UInt8) :
    Does p E (consolewrite i src) s fun _ t => Moves (refs s) s t ∧ SameDisk s t := by
  refine (does_iunlock hE).bind ?_
  rintro _ t rfl
  exact (does_relock hE hs hi).bind fun _ u hu => .ret hu

end

/-- `readi` of a file or a directory returns the bytes that are asked for, up to the end. -/
theorem does_readi_file (hs : Sane s) (hi : Loaded s i n) (off m : ℕ)
    (hdev : (s.dinode n).type ≠ T_DEV) :
    Does p E (readi i off m) s fun r t => t = s ∧
      (off ≤ (s.dinode n).size → off ≤ uadd off m → r.isSome) ∧ ∀ l, r = some l →
        off + l.length ≤ (s.dinode n).size ∧ (off + m ≤ (s.dinode n).size → l.length = m) ∧
        l = bytesAt s.block (s.dinode n) off l.length := by
  obtain ⟨hcopy, ht⟩ := hi.copy hs
  have htype : (s.inode i).type = (s.dinode n).type := congrArg Dinode.type hcopy
  have hsize : (s.inode i).size = (s.dinode n).size := congrArg Dinode.size hcopy
  refine .bind_read ?_
  simp only [id, htype, hsize]
  rw [if_neg hdev]
  by_cases hoff : off > (s.dinode n).size ∨ uadd off m < off
  · rw [if_pos hoff]
    exact .ret ⟨rfl, fun h1 h2 => by omega, fun l h => by cases h⟩
  · rw [if_neg hoff]
    generalize hk : (if off + m > (s.dinode n).size then (s.dinode n).size - off else m) = k
    have hle : off + k ≤ (s.dinode n).size := by
      split_ifs at hk <;> omega
    have hfull := hs.full n ht
    refine .bind (Q := fun l t => t = s ∧ l = bytesAt s.block (s.dinode n) off k) ?_ ?_
    · rw [← hcopy] at hfull hle ⊢
      exact (halts_readLoop hfull.le (fun _ => hfull.ptr_ne_zero) le_rfl
        (hle.trans (nblk_le.mp le_rfl))).does
    · rintro l _ ⟨rfl, rfl⟩
      refine .ret ⟨rfl, fun _ _ => rfl, ?_⟩
      rintro l h
      cases h
      rw [bytesAt_length]
      refine ⟨hle, fun hin => ?_, rfl⟩
      rw [← hk, if_neg (by omega)]

theorem does_readi (hE : Tolerates E) (hs : Sane s) (hi : Loaded s i n) (off m : ℕ) :
    Does p E (readi i off m) s fun _ t => Moves (refs s) s t ∧ SameDisk s t := by
  by_cases hdev : (s.dinode n).type = T_DEV
  · obtain ⟨hcopy, -⟩ := hi.copy hs
    have htype : (s.inode i).type = T_DEV := (congrArg Dinode.type hcopy).trans hdev
    refine .bind_read ?_
    simp only [id, htype, if_true]
    exact .ite (fun _ => does_consoleread hE hs hi m) fun _ => .ret ⟨.refl hs, .refl s⟩
  · refine (does_readi_file hs hi off m hdev).mono ?_
    rintro _ t ⟨rfl, -⟩
    exact ⟨.refl hs, .refl t⟩

/-- The bytes `src` were written into the file `n` from offset `off` on. -/
structure WroteFile (n off : ℕ) (src : List UInt8) (s t : Fs) : Prop where
  other : ∀ m, m ≠ n → t.dinode m = s.dinode m
  self : t.dinode n = { s.dinode n with
    size := max (s.dinode n).size (off + src.length), addrs := (t.dinode n).addrs }
  kept : ∀ m x, (s.dinode m).type ≠ 0 → x < (s.dinode m).size →
    ¬ (m = n ∧ off ≤ x ∧ x < off + src.length) →
    byteAt t.block (t.dinode m) x = byteAt s.block (s.dinode m) x
  new : ∀ x, off ≤ x → x < off + src.length →
    byteAt t.block (t.dinode n) x = src.getD (x - off) 0

theorem WellFormed.holds (hs : WellFormed s) {m x : ℕ} (hm : (s.dinode m).type ≠ 0)
    (hx : x < (s.dinode m).size) :
    ∃ b, Holds s.block s.dinode (m, ptrIndex (x / BSIZE)) b := by
  have hf := hs.full m hm
  have hlt := lt_nblk hx
  exact ⟨_, hm, ptrIndex_lt (lt_of_lt_of_le hlt hf.le), rfl, hf.ptr_ne_zero hlt⟩

/-- What the loop of `writei` leaves is complete once the cached inode has its new size and is
on the disk. -/
theorem Wrote.finish {off : ℕ} {src : List UInt8} {t u : Fs} (hs : Sane s) (hi : Loaded s i n)
    (hoff : off ≤ (s.dinode n).size) (hw : Wrote i off src s t)
    (hf : Full t.block (t.inode i).toDinode (max (nblk (s.dinode n).size) (nblk (off + src.length))))
    (hinode : u.inode = update t.inode i
      { t.inode i with size := max (s.dinode n).size (off + src.length) })
    (hdinode : u.dinode = update t.dinode n
      { (t.inode i).toDinode with size := max (s.dinode n).size (off + src.length) })
    (hblock : u.block = t.block) (hbits : u.bitmap = t.bitmap) (hsb : u.sb = t.sb)
    (hproc : u.proc = t.proc) (hfile : u.file = t.file) :
    Moves (refs s) s u ∧ WroteFile n off src s u := by
  obtain ⟨hcopy, htype⟩ := hi.copy hs
  obtain ⟨⟨hpos, hinum⟩, hv⟩ := id hi
  have hpos' : 0 < (s.inode i).ref := hpos
  have heff := hi.eff hs
  have hfr := hw.frame
  have htinum : (t.inode i).inum = n := hfr.inum.trans hinum
  have htd : (t.inode i).toDinode = { s.dinode n with addrs := (t.inode i).addrs } := by
    rw [hfr.self, ← hcopy]
  have heffn : t.eff i n = (t.inode i).toDinode := by rw [← htinum, Fs.eff_self]
  have heffm : ∀ m, m ≠ n → t.eff i m = s.dinode m := by
    intro m hm
    rw [Fs.eff_of_ne _ _ (by rwa [htinum]), hfr.dinode]
  have hum : ∀ m, m ≠ n → u.dinode m = s.dinode m := by
    intro m hm
    rw [hdinode, update_of_ne hm, hfr.dinode]
  have hun : u.dinode n = { (t.inode i).toDinode with
      size := max (s.dinode n).size (off + src.length) } := by
    rw [hdinode, update_self]
  have hut : (u.dinode n).type = (s.dinode n).type := by
    rw [hun, htd]
  -- The new disk inodes have the pointers of the effective ones.
  have haddr : ∀ m, (u.dinode m).addrs = (t.eff i m).addrs := by
    intro m
    by_cases hm : m = n
    · rw [hm, hun, heffn]
    · rw [hum m hm, heffm m hm]
  have hbyte : ∀ m x, byteAt u.block (u.dinode m) x = byteAt t.block (t.eff i m) x := by
    intro m x
    simp only [byteAt, ptr, haddr, hblock]
  refine ⟨⟨⟨⟨?_, fun m hm => ?_⟩, ?_⟩, ?_, ?_, hsb.trans hfr.sb, hproc.trans hfr.proc,
    hfile.trans hfr.file⟩, hum, ?_, fun m x hm hx hn => ?_, fun x h1 h2 => ?_⟩
  · rw [hsb, hbits, hblock]
    refine hw.owned.congr (fun m => ?_) fun m _ => haddr m
    by_cases hm : m = n
    · rw [hm, hut, heffn, htd]
    · rw [hum m hm, heffm m hm]
  · rw [hblock]
    by_cases hmn : m = n
    · subst hmn
      have hsz : nblk (u.dinode m).size = max (nblk (s.dinode m).size) (nblk (off + src.length)) := by
        rw [hun, nblk_max]
      rw [hsz]
      refine hf.congr fun k => ?_
      simp only [ptr, haddr, heffn]
    · rw [hum m hmn] at hm ⊢
      exact (hs.full m hm).congr fun k => hw.other m (by rwa [hinum]) hm k
  · -- Only entry `i` and the disk inode `n` differ from the sane state before.
    have hin : u.inode = update s.inode i
        { t.inode i with size := max (s.dinode n).size (off + src.length) } := by
      rw [hinode]
      funext j
      by_cases hj : j = i
      · rw [hj, update_self, update_self]
      · rw [update_of_ne hj, update_of_ne hj, hfr.other j hj]
    refine hs.update hpos' hin (d := { (t.inode i).toDinode with
      size := max (s.dinode n).size (off + src.length) }) ?_ ?_ ?_ ?_ ?_
    · rw [hdinode, hfr.dinode, hinum]
    · simp only [hfr.inum]
    · simp only [hfr.dev]
    · simp only [hfr.ref]
      omega
    · refine fun _ _ => ⟨rfl, ?_⟩
      show (t.inode i).type ≠ 0
      rw [hfr.type, congrArg Dinode.type hcopy]
      exact htype
  · funext j
    by_cases hj : j = i
    · rw [refs, hinode, hj, update_self]
      simp only [hfr.ref, refs]
    · rw [refs, hinode, update_of_ne hj, hfr.other j hj, refs]
  · intro j _ _
    by_cases hj : j = i
    · rw [hinode, hj, update_self]
      simp only [hfr.inum, hfr.valid]
      exact ⟨trivial, id⟩
    · rw [hinode, update_of_ne hj, hfr.other j hj]
      exact ⟨rfl, id⟩
  · rw [hun, htd]
  · obtain ⟨b, hb⟩ := hs.toWellFormed.holds hm hx
    rw [← heff] at hb
    rw [hbyte, hw.kept m x b hb (by rwa [hinum]), heff]
  · have hnew := (hw.new x h1 h2).2
    rwa [hinum, ← hbyte] at hnew

theorem does_writei_file (hE : Exhausts E) (hs : Sane s) (hi : Loaded s i n) (src : List UInt8)
    (off : ℕ) (hdev : (s.dinode n).type ≠ T_DEV) :
    Does p E (writei i src off) s fun r t => Moves (refs s) s t ∧
      (SameDisk s t ∧ r = -1 ∧
          (off > (s.dinode n).size ∨ off + src.length > MAXFILE * BSIZE) ∨
        r = src.length ∧ off ≤ (s.dinode n).size ∧ WroteFile n off src s t) := by
  obtain ⟨hcopy, ht⟩ := hi.copy hs
  have hinum : (s.inode i).inum = n := hi.1.2
  have htype : (s.inode i).type = (s.dinode n).type := congrArg Dinode.type hcopy
  have hsize : (s.inode i).size = (s.dinode n).size := congrArg Dinode.size hcopy
  have same : off > (s.dinode n).size ∨ off + src.length > MAXFILE * BSIZE →
      Moves (refs s) s s ∧ (SameDisk s s ∧ (-1 : ℤ) = -1 ∧
          (off > (s.dinode n).size ∨ off + src.length > MAXFILE * BSIZE) ∨
        (-1 : ℤ) = src.length ∧ off ≤ (s.dinode n).size ∧ WroteFile n off src s s) :=
    fun h => ⟨.refl hs, .inl ⟨.refl s, rfl, h⟩⟩
  refine .bind_read ?_
  simp only [id, htype, hsize]
  rw [if_neg hdev]
  by_cases hoff : off > (s.dinode n).size ∨ uadd off src.length < off
  · rw [if_pos hoff]
    refine .ret (same (hoff.imp_right fun hwrap => ?_))
    unfold uadd at hwrap
    unfold MAXFILE NDIRECT NINDIRECT BSIZE
    omega
  · rw [if_neg hoff]
    by_cases hmax : off + src.length > MAXFILE * BSIZE
    · rw [if_pos hmax]
      exact .ret (same (.inr hmax))
    · rw [if_neg hmax]
      have hle : off ≤ (s.dinode n).size := by omega
      have hfull := hs.full n ht
      have heff := hi.eff hs
      refine .bind (Q := fun off' t => off' = off + src.length ∧ Wrote i off src s t ∧
        Full t.block (t.inode i).toDinode
          (max (nblk (s.dinode n).size) (nblk (off + src.length))) ∧
        (nblk (off + src.length) ≤ nblk (s.dinode n).size →
          (t.inode i).addrs = (s.dinode n).addrs)) ?_ ?_
      · intro o
        rw [← hcopy] at hfull
        refine wp_writeLoop hE (by rwa [htype]) (by rw [heff]; exact hs.owned) hfull le_rfl
          ?_ (by omega) fun t hw hf hsame => ?_
        · rw [hcopy]
          exact le_trans hle (nblk_le.mp le_rfl)
        · rw [hcopy] at hf hsame
          exact ⟨rfl, hw, hf, hsame⟩
      · rintro _ t ⟨rfl, hw, hf, hsame⟩
        refine .bind_read ?_
        have htsize : (t.inode i).size = (s.dinode n).size := hw.frame.size.trans hsize
        have htinum : (t.inode i).inum = n := hw.frame.inum.trans hinum
        simp only [htsize]
        refine .bind (Q := fun _ u => Moves (refs s) s u ∧ WroteFile n off src s u)
          (.when (fun hgrow => ?_) fun hno => ?_) fun _ u hu => .ret ⟨hu.1, .inr ⟨rfl, hle, hu.2⟩⟩
        · -- The file has grown: the cached inode gets the new size and is written.
          have hm : max (s.dinode n).size (off + src.length) = off + src.length :=
            max_eq_right (by omega)
          refine .bind (.modify (Q := fun _ u => u = t.setInode i
            { t.inode i with size := off + src.length }) rfl) ?_
          rintro _ _ rfl
          refine .atomic (logged_sat hE fun l => ?_)
          simp only [Fs.setInode, Fs.setDinode, update_self, htinum]
          exact hw.finish hs hi hle hf (by simp only [hm, htinum]) (by simp only [hm]) rfl rfl rfl rfl
            rfl
        · -- Nothing was allocated, so the disk inode is still right.
          have hin : off + src.length ≤ (s.dinode n).size := by
            by_contra hlt
            exact hno ⟨by omega, by omega⟩
          have hm : max (s.dinode n).size (off + src.length) = (t.inode i).size := by
            rw [htsize]
            exact max_eq_left hin
          have haddr := hsame (nblk_le.mpr (le_trans hin (nblk_le.mp le_rfl)))
          have hti : t.inode i = s.inode i := by
            rw [hw.frame.self, haddr, ← hcopy]
          refine hw.finish hs hi hle hf ?_ ?_ rfl rfl rfl rfl rfl
          · rw [hm, update_eq_self]
          · rw [hm, hti, hcopy, ← hw.frame.dinode, update_eq_self]

theorem does_writei (hE : Tolerates E) (hs : Sane s) (hi : Loaded s i n) (src : List UInt8)
    (off : ℕ) :
    Does p E (writei i src off) s fun _ t => Moves (refs s) s t ∧
      (SameDisk s t ∨ WroteFile n off src s t) := by
  by_cases hdev : (s.dinode n).type = T_DEV
  · obtain ⟨hcopy, -⟩ := hi.copy hs
    have htype : (s.inode i).type = T_DEV := (congrArg Dinode.type hcopy).trans hdev
    refine .bind_read ?_
    simp only [id, htype, if_true]
    refine .ite (fun _ => ?_) fun _ => .ret ⟨.refl hs, .inl (.refl s)⟩
    exact (does_consolewrite hE hs hi src).mono fun _ _ h => ⟨h.1, .inl h.2⟩
  · refine (does_writei_file hE hs hi src off hdev).mono ?_
    rintro _ t ⟨hm, ⟨hd, -, -⟩ | ⟨-, -, hw⟩⟩
    · exact ⟨hm, .inl hd⟩
    · exact ⟨hm, .inr hw⟩

end Contents

end Xv6
