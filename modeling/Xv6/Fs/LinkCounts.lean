import Mathlib.Order.Interval.Finset.Nat
import Xv6.Fs.Links

namespace Xv6
open Lib Prog

/-- The block and the place there of entry `k` of directory `d`. -/
def Fs.entryPlace (s : Fs) (p : ℕ × ℕ) : ℕ × ℕ :=
  (ptr s.block (s.dinode p.1) (ptrIndex (p.2 * DIRENT / BSIZE)), p.2 % (BSIZE / DIRENT))

section Bound

variable {s : Fs} {d k n : ℕ}

theorem WellFormed.holds_entry (hs : WellFormed s) (hc : (tree s).cell (d, k) = some n) :
    Holds s.block s.dinode (d, ptrIndex (k * DIRENT / BSIZE)) (s.entryPlace (d, k)).1 := by
  obtain ⟨ht, hlive, -⟩ := Node.cell_eq_some.mp hc
  have ht' : (s.dinode d).type = T_DIR := ht
  have hlen : (tree s d).len = (s.dinode d).size / DIRENT := if_pos ht'
  have hlt : k * DIRENT < (s.dinode d).size := by
    have := hlive.1
    rw [hlen] at this
    unfold DIRENT at *
    omega
  obtain ⟨b, hb⟩ := hs.holds (m := d) (by rw [ht']; exact Graph.dir_ne_zero) hlt
  obtain ⟨h1, h2, h3, h4⟩ := hb
  exact ⟨h1, h2, rfl, fun h0 => h4 (h3.symm.trans h0)⟩

theorem WellFormed.tally_le (hs : WellFormed s) (n : ℕ) :
    tally (tree s).cell n ≤ (s.sb.size - s.sb.dataStart) * (BSIZE / DIRENT) := by
  let room := Finset.Ico s.sb.dataStart s.sb.size ×ˢ Finset.range (BSIZE / DIRENT)
  have hroom : (room : Set (ℕ × ℕ)).ncard = (s.sb.size - s.sb.dataStart) * (BSIZE / DIRENT) := by
    rw [Set.ncard_coe_finset, Finset.card_product, Nat.card_Ico, Finset.card_range]
  rw [← hroom]
  refine Set.ncard_le_ncard_of_injOn s.entryPlace ?_ ?_ room.finite_toSet
  · rintro ⟨d, k⟩ hp
    have hb := hs.owned.exact.range _ _ (hs.holds_entry hp)
    exact Finset.mem_coe.mpr (Finset.mem_product.mpr ⟨Finset.mem_Ico.mpr hb,
      Finset.mem_range.mpr (Nat.mod_lt _ (by decide))⟩)
  · rintro ⟨d, k⟩ hp ⟨d', k'⟩ hp' he
    obtain ⟨hb, hk⟩ := Prod.mk.inj he
    have h' := hs.holds_entry hp'
    rw [Fs.entryPlace, ← hb] at h'
    obtain ⟨rfl, hidx⟩ := Prod.mk.inj (hs.owned.exact.inj _ _ _ (hs.holds_entry hp) h')
    have hblk := ptrIndex_inj hidx
    unfold DIRENT BSIZE at *
    have : k = k' := by omega
    rw [this]

end Bound

theorem Tree.Linked.nlink_lt {s : Fs} (h : (tree s).Linked s.sb.ninodes) (hs : WellFormed s)
    (hsb : s.sb = mkfsSb) (n : ℕ) (hn : (tree s n).type ≠ 0) : (tree s n).nlink < 32767 := by
  have hle := hs.tally_le n
  have hroom : (mkfsSb.size - mkfsSb.dataStart) * (BSIZE / DIRENT) = 30112 := by decide
  rw [hsb, hroom] at hle
  have hcount : (tree s n).nlink = tally (tree s).cell n := h.exact.nlink n hn
  omega

theorem Tree.Dirs.cell_dotdot {N : ℕ} {T : Tree} {d : ℕ} (h : T.Dirs N) (hd : (T d).type = T_DIR) :
    T.cell (d, 1) = if 0 < (T d).nlink then some ((T d).ent 1).inum else none := by
  have hdir := (h d).isDir hd
  have hlive : (T d).Live 1 := ⟨lt_of_lt_of_le (by decide) hdir.len, hdir.dotdot.1⟩
  refine Option.ext fun m => ?_
  rw [Tree.cell, Node.cell_eq_some]
  split_ifs with hnl
  · simp [hd, hlive, hnl]
  · simp [hnl]

theorem Fresh.linked {s : Fs} (h : Fresh s) : (tree s).Linked s.sb.ninodes := by
  have hdirs := h.dirs
  have hroot : ∀ d, (tree s d).type = T_DIR → d = ROOTINO := by
    intro d hd
    by_contra hne
    exact (h.file d hne (by rw [hd]; exact Graph.dir_ne_zero)).1 hd
  have hlinked : 0 < (tree s ROOTINO).nlink := by
    rw [h.root.2]
    decide
  have hup : (tree s).cell (ROOTINO, 1) = some ROOTINO := by
    rw [hdirs.cell_dotdot h.root.1, if_pos hlinked, h.dotdot]
  -- All entries that count are in the root: `..` and the files.
  have hcells : ∀ d k n, (tree s).cell (d, k) = some n → d = ROOTINO ∧
      (k = 1 ∧ n = ROOTINO ∨ 2 ≤ k ∧ (tree s ROOTINO).Live k ∧
        ((tree s ROOTINO).ent k).inum = n) := by
    intro d k n hc
    obtain ⟨ht, hlive, hk, -, hn⟩ := Node.cell_eq_some.mp hc
    obtain rfl := hroot d ht
    refine ⟨rfl, ?_⟩
    by_cases h1 : k = 1
    · subst h1
      rw [hup] at hc
      exact .inl ⟨rfl, (Option.some.inj hc).symm⟩
    · exact .inr ⟨by omega, hlive, hn⟩
  refine ⟨hdirs, hdirs.finitely, fun d k hd => Tree.cell_of_type hd, fun d => ?_,
    fun d hd => hdirs.cell_dotdot hd, ⟨h.root.1, hlinked, h.dotdot⟩, fun n hn => ?_,
    fun n hn => ?_, fun d k hd hk => ?_, fun d k x hk hc hx => ?_, fun x hx _ hne => ?_⟩
  · refine Option.eq_none_iff_forall_ne_some.mpr fun m hm => ?_
    exact (Node.cell_eq_some.mp hm).2.2.1 rfl
  · show (tree s n).nlink = tally (tree s).cell n
    by_cases hne : n = ROOTINO
    · subst hne
      rw [h.root.2, tally_eq_one hup]
      · rfl
      rintro ⟨d, k⟩ hc
      obtain ⟨rfl, ⟨rfl, -⟩ | ⟨hk, hlive, he⟩⟩ := hcells d k _ hc
      · rfl
      · exact absurd he (h.named k hk hlive).1
    · obtain ⟨ht, hnl, -, -, k, hk, hlive, he⟩ := h.file n hne hn
      rw [hnl, tally_eq_one (i := (ROOTINO, k)) ((Node.cell_of_ge hk).mpr ⟨h.root.1, hlive, he⟩)]
      · rfl
      rintro ⟨d, j⟩ hc
      obtain ⟨rfl, ⟨rfl, hn'⟩ | ⟨hj, hlive', he'⟩⟩ := hcells d j _ hc
      · exact absurd hn' hne
      · rw [h.once j k hj hk hlive' hlive (he'.trans he.symm)]
  · refine (tally_eq_zero hdirs.finitely).mpr ?_
    rintro ⟨d, k⟩ hc
    obtain ⟨rfl, ⟨rfl, rfl⟩ | ⟨hk, hlive, he⟩⟩ := hcells d k _ hc
    · exact Graph.dir_ne_zero (h.root.1.symm.trans hn)
    · exact (h.named k hk hlive).2 (he ▸ hn)
  · refine Option.eq_none_iff_forall_ne_some.mpr fun m hm => ?_
    obtain ⟨rfl, -⟩ := hcells d k m hm
    have hd' : (tree s ROOTINO).nlink = 0 := hd
    omega
  · obtain ⟨rfl, ⟨rfl, -⟩ | ⟨-, hlive, he⟩⟩ := hcells d k x hc
    · omega
    · exact absurd (hroot x hx) (he ▸ (h.named k hk hlive).1)
  · exact absurd (hroot x hx) hne

/-- The call enters no name in a directory without links. -/
def Fs.EntersLinked (s : Fs) (p : Pid) (a : Action) : Prop :=
  ∀ d name, s.enters p a d name → (tree s d).nlink ≠ 0

theorem Runs.linked {C : Fs → Pid → Action → Prop} {s t : Shared Fs Slot Pid} (h : Runs C s t)
    (hC : ∀ s p a, C s p a → s.EntersLinked p a) (hs : Settled s.st) (hsb : s.st.sb = mkfsSb)
    (hl : (tree s.st).Linked s.st.sb.ninodes) :
    Settled t.st ∧ t.st.sb = mkfsSb ∧ (tree t.st).Linked t.st.sb.ninodes := by
  induction h with
  | start => exact ⟨hs, hsb, hl⟩
  | @call t u p a r _ hen hc hrun ih =>
    obtain ⟨ht, hsbt, hlt⟩ := ih
    have hact := (does_action (p := p) (E := fun _ => True) (fun _ _ _ => trivial) ht a hen
      (fun _ _ => .inr trivial) fun d k x name hu => hlt.dirs.unlinkable_ne hu).run hrun
    refine ⟨hact.settled, hact.sb.trans hsbt, ?_⟩
    rw [hact.sb]
    exact hact.effect.linked ht.ninodes hlt (hlt.nlink_lt ht.sane.toWellFormed hsbt)
      (hC t.st p a hc)

/-- The link count of every allocated inode is the number of entries for it, after any completed
calls of which none enters a name in a directory without links. -/
theorem link_counts_exact {s t : Shared Fs Slot Pid} (hs : Fresh s.st)
    (h : Runs Fs.EntersLinked s t) (n : ℕ) (hn : (t.st.dinode n).type ≠ 0) :
    (t.st.dinode n).nlink = (tree t.st).links t.st.sb.ninodes n :=
  (h.linked (fun _ _ _ hc => hc) hs.settled hs.sb hs.linked).2.2.links_eq hn

/-- A new file in the removed working directory is left without an entry when the directory is
freed. -/
def orphanCalls : List Action :=
  [.mkdir (some [slash, 100]), .chdir (some [slash, 100]), .unlink (some [slash, 100]),
    .open (some [102]) (some 0x202), .close (some 0), .chdir (some [slash])]

def orphaned : Shared Fs Slot Pid :=
  (follow initproc orphanCalls (started fun _ => none)).get (by decide +kernel)

theorem orphaned_runs : Runs (fun _ _ _ => True) (started fun _ => none) orphaned :=
  Runs.start.follow (l := orphanCalls) (by simp [orphanCalls, Action.Enabled])
    (Option.some_get _).symm

theorem link_counts_orphaned : ¬ ∀ s t : Shared Fs Slot Pid, Fresh s.st →
    Runs (fun _ _ _ => True) s t → ∀ n, (t.st.dinode n).type ≠ 0 →
      (t.st.dinode n).nlink = (tree t.st).links t.st.sb.ninodes n := by
  intro h
  have hn : (orphaned.st.dinode 3).type ≠ 0 := by decide +kernel
  have hcount := h _ _ (boot_fresh fun _ => none) orphaned_runs 3 hn
  revert hcount
  decide +kernel

theorem mkdirD_entersLinked :
    (started fun _ => none).st.EntersLinked initproc mkdirD := by
  rintro d name ⟨rest, ⟨x, hx, n0, hn0, hw⟩, -⟩
  obtain rfl : [slash, 100] = x := Option.some.inj hx
  obtain rfl : ROOTINO = n0 := Option.some.inj hn0
  have hl := (boot_fresh fun _ => none).linked
  rcases hl.walk hl.root_housed hw with rfl | ⟨-, hnl⟩
  · decide +kernel
  · exact hnl.ne'

theorem link_counts_exact_mkdirD : (afterMkdirD.st.dinode 2).type ≠ 0 ∧
    (afterMkdirD.st.dinode 2).nlink = (tree afterMkdirD.st).links afterMkdirD.st.sb.ninodes 2 := by
  have hn : (afterMkdirD.st.dinode 2).type ≠ 0 := by decide +kernel
  refine ⟨hn, link_counts_exact (s := started fun _ => none) (boot_fresh fun _ => none) ?_ 2 hn⟩
  exact .call .start (p := initproc) (a := mkdirD) trivial mkdirD_entersLinked
    (Outcome.eq_done (by decide +kernel))

end Xv6
