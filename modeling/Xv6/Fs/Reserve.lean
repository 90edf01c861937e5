import Xv6.Fs.Content
import Xv6.Fs.Mkfs

namespace Xv6
open Lib Prog Function

section Logged

/-- What is in the log was in the log of `s`, or is in `S`. -/
def Logged (s : Fs) (S : Finset ℕ) (t : Fs) : Prop := ∀ b ∈ t.log.lh, b ∈ s.log.lh ∨ b ∈ S

/-- At most `n` blocks have been logged since `s`. -/
def LoggedAtMost (s : Fs) (n : ℕ) (t : Fs) : Prop := ∃ S : Finset ℕ, S.card ≤ n ∧ Logged s S t

variable {s t : Fs} {S T : Finset ℕ} {n : ℕ}

theorem Logged.refl (s : Fs) : Logged s ∅ s := fun _ => .inl

theorem Logged.mono (h : Logged s S t) (hST : S ⊆ T) : Logged s T t :=
  fun b hb => (h b hb).imp_right fun hS => hST hS

theorem Logged.insert {u : Fs} {b : ℕ} (h : Logged s S t) (hu : u.log = t.log.logWrite b) :
    Logged s (insert b S) u := by
  intro c hc
  rw [hu] at hc
  rcases Log.mem_absorb.mp hc with hc | rfl
  · exact (h c hc).imp_right Finset.mem_insert_of_mem
  · exact .inr (Finset.mem_insert_self _ _)

theorem Logged.atMost (h : Logged s S t) (hn : S.card ≤ n) : LoggedAtMost s n t := ⟨S, hn, h⟩

end Logged

section Count

variable {P : Type} {p : P} {s0 s : Fs} {S D B : Finset ℕ} {N : ℕ} {E : Option String → Fs → Prop}
  {c n k off : ℕ} {i : Slot} {src : List UInt8}

theorem halts_logged {α : Type} {Q : α → Fs → Prop} {b : ℕ} {a : α} {f : Fs → Outcome Fs α} {t : Fs}
    (hf : f s = logged b a s t) (hE : ∀ m, s.log.logWriteCheck = some m → E (some m) s)
    (hQ : Q a { t with log := s.log.logWrite b }) : Halts p E (.atomic f : FsM α) s Q := by
  apply Halts.atomic
  rw [hf, logged]
  cases hcheck : s.log.logWriteCheck with
  | none => exact hQ
  | some m => exact hE m hcheck

def Fs.allocated (s : Fs) (c : ℕ) (l : Log) : Fs :=
  { s with
    bitmap := update s.bitmap c true
    block := update s.block c zeroBlock
    log := l }

theorem ne_zero_of_free (hboot : s.bitmap 0 = true) (hc : s.bitmap c = false) : c ≠ 0 := by
  rintro rfl
  rw [hboot] at hc
  cases hc

theorem halts_ballocFrom (hS : Logged s0 S s) (hN : S.card < N) (hboot : s.bitmap 0 = true)
    (k b : ℕ) :
    Halts p (fun _ => LoggedAtMost s0 N) (ballocFrom k b) s fun c t => c ≠ 0 ∧
      ∃ bb l, t = s.allocated c l ∧ Logged s0 (insert c (insert bb S)) t := by
  induction k generalizing b with
  | zero => exact .panic (hS.atMost (Nat.le_of_lt hN))
  | succ k ih =>
    rw [ballocFrom]
    cases hf : firstFree s.bitmap b (min BPB (s.sb.size - b)) with
    | none =>
      refine Halts.bind (Q := fun r t => r = none ∧ t = s) (.atomic ?_) ?_
      · rw [hf]
        exact ⟨rfl, rfl⟩
      · rintro _ _ ⟨rfl, rfl⟩
        exact ih (b + BPB)
    | some c =>
      have hbit := (firstFree_eq_some hf).1
      have hS' : Logged s0 (insert (s.sb.bblock b) S)
          { s.setBit c true with log := s.log.logWrite (s.sb.bblock b) } := hS.insert rfl
      have hN' := (Finset.card_insert_le (s.sb.bblock b) S).trans hN
      refine Halts.bind (Q := fun r t => r = some c ∧
        t = { s.setBit c true with log := s.log.logWrite (s.sb.bblock b) }) ?_ ?_
      · apply halts_logged (by rw [hf]) fun _ _ => hS.atMost (Nat.le_of_lt hN)
        exact ⟨rfl, rfl⟩
      · rintro _ _ ⟨rfl, rfl⟩
        refine Halts.bind (Q := fun _ t => ∃ l, t = s.allocated c l ∧
          Logged s0 (insert c (insert (s.sb.bblock b) S)) t) ?_ ?_
        · exact halts_logged rfl (fun _ _ => hS'.atMost hN') ⟨_, rfl, hS'.insert rfl⟩
        · rintro _ _ ⟨l, rfl, hl⟩
          exact .ret ⟨ne_zero_of_free hboot hbit, _, l, rfl, hl⟩

theorem halts_balloc (hS : Logged s0 S s) (hN : S.card < N) (hboot : s.bitmap 0 = true) :
    Halts p (fun _ => LoggedAtMost s0 N) balloc s fun c t => c ≠ 0 ∧
      ∃ bb l, t = s.allocated c l ∧ Logged s0 (insert c (insert bb S)) t :=
  .bind_read (halts_ballocFrom hS hN hboot _ _)

def indirectBlock (s : Fs) (i : Slot) : Finset ℕ :=
  if (s.inode i).addrs NDIRECT = 0 then ∅ else {(s.inode i).addrs NDIRECT}

/-- One block of the bitmap is kept back for an indirect block. -/
def keptBack (s : Fs) (i : Slot) : ℕ := if (s.inode i).addrs NDIRECT = 0 then 1 else 0

/-- At most `n` blocks of the file, the set `D`, may be in the log, at most `k + 1` blocks of the
bitmap, the set `B`, and the indirect block. -/
structure Spent (s₀ : Fs) (i : Slot) (D B : Finset ℕ) (n k : ℕ) (t : Fs) : Prop where
  boot : t.bitmap 0 = true
  logged : Logged s₀ (indirectBlock t i ∪ (D ∪ B)) t
  data : D.card ≤ n
  bits : B.card + keptBack t i ≤ k + 1

theorem Spent.refl (h : s.bitmap 0 = true) : Spent s i ∅ ∅ 0 0 s := by
  refine ⟨h, (Logged.refl s).mono (Finset.empty_subset _), le_rfl, ?_⟩
  unfold keptBack
  split_ifs <;> simp

theorem card_indirectBlock (s : Fs) (i : Slot) : (indirectBlock s i).card + keptBack s i = 1 := by
  unfold indirectBlock keptBack
  split_ifs <;> simp

theorem mem_indirectBlock {a : ℕ} (h : (s.inode i).addrs NDIRECT = a) (ha : a ≠ 0) :
    a ∈ indirectBlock s i := by
  rw [indirectBlock, h, if_neg ha]
  exact Finset.mem_singleton_self a

theorem Spent.card_le (h : Spent s0 i D B n k s) :
    (indirectBlock s i ∪ (D ∪ B)).card + 2 * keptBack s i ≤ n + k + 2 := by
  have h1 := Finset.card_union_le (indirectBlock s i) (D ∪ B)
  have h2 := Finset.card_union_le D B
  have h3 := card_indirectBlock s i
  have h4 := h.data
  have h5 := h.bits
  omega

theorem Spent.atMost (h : Spent s0 i D B n k s) (hN : n + k + 2 ≤ N) : LoggedAtMost s0 N s := by
  have := h.card_le
  exact h.logged.atMost (by omega)

theorem bitmap_zero_of_update {bits : ℕ → Bool} (h : bits 0 = true) :
    update bits c true 0 = true := by
  by_cases hc : 0 = c
  · rw [hc, update_self]
  · rw [update_of_ne hc, h]

theorem Spent.alloc {bb : ℕ} {t : Fs} (h : Spent s0 i D B n k s)
    (hl : Logged s0 (insert c (insert bb (indirectBlock s i ∪ (D ∪ B)))) t)
    (hbit : t.bitmap 0 = true) (ht : (t.inode i).addrs NDIRECT = (s.inode i).addrs NDIRECT) :
    Spent s0 i (insert c D) (insert bb B) (n + 1) (k + 1) t := by
  have hkept : keptBack t i = keptBack s i := by rw [keptBack, ht, keptBack]
  have hind : indirectBlock t i = indirectBlock s i := by rw [indirectBlock, ht, indirectBlock]
  have hD := Finset.card_insert_le c D
  have hB := Finset.card_insert_le bb B
  have h1 := h.data
  have h2 := h.bits
  refine ⟨hbit, hl.mono ?_, by omega, by omega⟩
  rw [hind]
  intro b hb
  simp only [Finset.mem_insert, Finset.mem_union] at hb ⊢
  tauto

theorem Spent.more (h : Spent s0 i D B n k s) (c : ℕ) : Spent s0 i (insert c D) B (n + 1) k s := by
  refine ⟨h.boot, h.logged.mono ?_, (Finset.card_insert_le c D).trans (Nat.succ_le_succ h.data),
    h.bits⟩
  apply Finset.union_subset_union_right
  exact Finset.union_subset_union_left (Finset.subset_insert c D)

theorem Spent.mono {n' k' : ℕ} (h : Spent s0 i D B n k s) (hn : n ≤ n') (hk : k ≤ k') :
    Spent s0 i D B n' k' s :=
  ⟨h.boot, h.logged, h.data.trans hn, h.bits.trans (Nat.succ_le_succ hk)⟩

theorem halts_direct {j : ℕ} (hj : j < NDIRECT) (h : Spent s0 i D B n k s) (hN : n + k + 2 < N) :
    Halts p (fun _ => LoggedAtMost s0 N) (addrOrAlloc i j) s fun b t =>
      ∃ D' B', Spent s0 i D' B' (n + 1) (k + 1) t ∧ b ∈ D' := by
  have hcard := h.card_le
  apply Halts.bind_read
  apply Halts.ite
  · intro _
    apply (halts_balloc h.logged (by omega) h.boot).bind
    rintro c _ ⟨-, bb, l, rfl, hl⟩
    apply Halts.bind_modify
    refine .ret ⟨_, _, h.alloc (t := Fs.setInode _ _ _) hl (bitmap_zero_of_update h.boot) ?_,
      Finset.mem_insert_self _ _⟩
    simp [Inode.setAddr, Fs.allocated, Nat.ne_of_gt hj]
  · intro _
    exact .ret ⟨_, _, (h.more _).mono le_rfl (Nat.le_succ _), Finset.mem_insert_self _ _⟩

theorem halts_indirect (h : Spent s0 i D B n k s) (hN : n + k + 2 < N) :
    Halts p (fun _ => LoggedAtMost s0 N) (addrOrAlloc i NDIRECT) s fun a t =>
      ∃ B', Spent s0 i D B' n k t ∧ a ≠ 0 ∧ (t.inode i).addrs NDIRECT = a := by
  have hcard := h.card_le
  apply Halts.bind_read
  apply Halts.ite
  · intro hz
    apply (halts_balloc h.logged (by omega) h.boot).bind
    rintro a _ ⟨ha, bb, l, rfl, hl⟩
    apply Halts.bind_modify
    have hself : ((Fs.setInode (s.allocated a l) i
        (((s.allocated a l).inode i).setAddr NDIRECT a)).inode i).addrs NDIRECT = a := by
      simp [Inode.setAddr]
    have hB := Finset.card_insert_le bb B
    have hbits := h.bits
    rw [keptBack, if_pos hz] at hbits
    refine .ret ⟨insert bb B, ⟨bitmap_zero_of_update h.boot, ?_, h.data, ?_⟩, ha, hself⟩
    · have hind : indirectBlock s i = ∅ := if_pos hz
      rw [indirectBlock, hself, if_neg ha]
      refine Logged.mono hl ?_
      rw [hind]
      intro b hb
      simp only [Finset.mem_insert, Finset.mem_union, Finset.mem_singleton, Finset.notMem_empty]
        at hb ⊢
      tauto
    · rw [keptBack, hself, if_neg ha]
      omega
  · intro hz
    exact .ret ⟨_, h, hz, rfl⟩

theorem halts_entry {a j : ℕ} (h : Spent s0 i D B n k s) (ha : a ≠ 0)
    (hind : (s.inode i).addrs NDIRECT = a) (hN : n + k + 3 < N) :
    Halts p (fun _ => LoggedAtMost s0 N) (entryOrAlloc a j) s fun b t =>
      ∃ D' B', Spent s0 i D' B' (n + 1) (k + 1) t ∧ b ∈ D' := by
  have hcard := h.card_le
  apply Halts.bind_read
  apply Halts.ite
  · intro _
    apply (halts_balloc h.logged (by omega) h.boot).bind
    rintro c _ ⟨-, bb, l, rfl, hl⟩
    have hS := h.alloc hl (bitmap_zero_of_update h.boot) rfl
    refine Halts.bind (Q := fun _ t => Spent s0 i (insert c D) (insert bb B) (n + 1) (k + 1) t)
      (halts_logged rfl (fun _ _ => hS.atMost (by omega)) ⟨hS.boot, ?_, hS.data, hS.bits⟩) ?_
    · -- The indirect block is in the log at most once.
      refine (hS.logged.insert rfl).mono (Finset.insert_subset ?_ (Finset.Subset.refl _))
      exact Finset.mem_union_left _ (mem_indirectBlock hind ha)
    · rintro _ t ht
      exact .ret ⟨_, _, ht, Finset.mem_insert_self _ _⟩
  · intro _
    exact .ret ⟨_, _, (h.more _).mono le_rfl (Nat.le_succ _), Finset.mem_insert_self _ _⟩

theorem halts_bmap {bn : ℕ} (h : Spent s0 i D B n k s) (hN : n + k + 3 < N) :
    Halts p (fun _ => LoggedAtMost s0 N) (bmap i bn) s fun b t =>
      ∃ D' B', Spent s0 i D' B' (n + 1) (k + 1) t ∧ b ∈ D' := by
  apply Halts.ite
  · intro hbn
    exact halts_direct hbn h (by omega)
  · intro _
    apply Halts.ite
    · intro _
      apply (halts_indirect h (by omega)).bind
      rintro a t ⟨B', ht, ha, hind⟩
      exact halts_entry ht ha hind hN
    · intro _
      exact .panic (h.atMost (by omega))

theorem Spent.write {b : ℕ} (h : Spent s0 i D B n k s) (hb : b ∈ D) (c : Block) :
    Spent s0 i D B n k { s.setBlock b c with log := s.log.logWrite b } := by
  refine ⟨h.boot, ?_, h.data, h.bits⟩
  refine (h.logged.insert rfl).mono (Finset.insert_subset ?_ (Finset.Subset.refl _))
  exact Finset.mem_union_right _ (Finset.mem_union_left _ hb)

/-- One round of the loop is over at a block boundary, or it was the last one. -/
theorem round_le {len r : ℕ} (hr : off % BSIZE + len ≤ (r + 1) * BSIZE) :
    let m := min len (BSIZE - off % BSIZE)
    len - m ≠ 0 → (off + m) % BSIZE + (len - m) ≤ r * BSIZE := by
  intro m hm
  have hB : BSIZE = 512 := rfl
  simp only [m, hB] at *
  omega

theorem halts_writeLoop {f r : ℕ} (h : Spent s0 i D B n k s)
    (hr : src.length ≠ 0 → off % BSIZE + src.length ≤ r * BSIZE) (hN : n + k + 2 * r + 2 ≤ N) :
    Halts p (fun _ => LoggedAtMost s0 N) (writeLoop i f off src) s fun _ t =>
      ∃ D' B', Spent s0 i D' B' (n + r) (k + r) t := by
  induction f generalizing s D B n k r off src with
  | zero => exact .ret ⟨_, _, h.mono (Nat.le_add_right _ _) (Nat.le_add_right _ _)⟩
  | succ f ih =>
    rw [writeLoop]
    apply Halts.ite
    · intro _
      exact .ret ⟨_, _, h.mono (Nat.le_add_right _ _) (Nat.le_add_right _ _)⟩
    · intro hlen
      cases r with
      | zero =>
        have := hr hlen
        omega
      | succ r =>
        apply (halts_bmap h (by omega)).bind
        rintro b t ⟨D', B', ht, hb⟩
        refine Halts.bind (Q := fun _ => Spent s0 i D' B' (n + 1) (k + 1))
          (halts_logged rfl (fun _ _ => ht.atMost (by omega)) (ht.write hb _)) ?_
        intro _ u hu
        refine (ih (r := r) hu ?_ (by omega)).mono (fun _ _ => id) ?_
        · rw [List.length_drop]
          exact round_le (hr hlen)
        · rintro _ v ⟨D'', B'', hv⟩
          exact ⟨D'', B'', hv.mono (by omega) (by omega)⟩

/-- A piece that `filewrite` gives to `writei`.  If it begins inside of a block, that block is
one of the file. -/
theorem halts_writeLoop_piece {f : ℕ} (hboot : s.bitmap 0 = true)
    (hblocks : ∀ bn < nblk (s.inode i).size, ptr s.block (s.inode i).toDinode (ptrIndex bn) ≠ 0)
    (hoff : off ≤ (s.inode i).size) (hlen : src.length ≤ maxWrite)
    (hmax : off + src.length ≤ MAXFILE * BSIZE) :
    Halts p (fun _ => LoggedAtMost s MAXOPBLOCKS) (writeLoop i f off src) s fun _ t =>
      ∃ D B, Spent s i D B 4 3 t := by
  have hB : BSIZE = 512 := rfl
  have hM : maxWrite = 3 * 512 := rfl
  have hO : MAXOPBLOCKS = 10 := rfl
  rw [hM] at hlen
  by_cases haligned : off % BSIZE = 0
  · refine (halts_writeLoop (r := 3) (.refl hboot) ?_ (by omega)).mono (fun _ _ => id) ?_
    · intro _
      omega
    · rintro _ t ⟨D, B, h⟩
      exact ⟨D, B, h.mono (by omega) (by omega)⟩
  · cases f with
    | zero => exact .ret ⟨_, _, (Spent.refl hboot).mono (by omega) (by omega)⟩
    | succ f =>
      rw [writeLoop]
      apply Halts.ite
      · intro _
        exact .ret ⟨_, _, (Spent.refl hboot).mono (by omega) (by omega)⟩
      · intro hne
        have hlt : off / BSIZE < nblk (s.inode i).size := by
          rw [hB] at haligned
          rw [nblk, hB]
          omega
        have hbn : off / BSIZE < MAXFILE := by
          rw [Nat.div_lt_iff_lt_mul (by decide)]
          omega
        apply (halts_bmap_of_ptr (hblocks _ hlt) hbn).bind
        rintro b t ⟨-, ht⟩
        rw [ht]
        have h := (Spent.refl (i := i) hboot).more b
        refine Halts.bind (Q := fun _ => Spent s i _ _ 1 0)
          (halts_logged rfl (fun _ _ => h.atMost (by omega))
            (h.write (Finset.mem_insert_self _ _) _)) ?_
        intro _ u hu
        refine (halts_writeLoop (r := 3) hu ?_ (by omega)).mono (fun _ _ => id) ?_
        · rw [List.length_drop]
          apply round_le
          have := Nat.mod_lt off (y := BSIZE) (by decide)
          omega
        · rintro _ t ⟨D, B, ht⟩
          exact ⟨D, B, ht⟩

theorem halts_consolewrite (i : Slot) (src : List UInt8) {l : Log} (hl : s.log = l) :
    Halts p (fun _ t => t.log = l) (consolewrite i src) s fun _ t => t.log = l := by
  refine Halts.bind (Q := fun _ t => t.log = l) (.held fun _ => .bind_read (.ite ?_ ?_)) ?_
  · exact fun _ => .panic hl
  · exact fun _ => .release (.ret hl)
  · intro _ t ht
    refine Halts.bind (Q := fun _ t => t.log = l) (.bind_read (.ite ?_ ?_)) ?_
    · exact fun _ => .panic ht
    · intro _
      refine .acquire (.atomic ?_) ht
      by_cases hv : (t.inode i).valid = true
      · rw [if_pos hv]
        exact ht
      · by_cases htype : (t.dinode (t.inode i).inum).type = 0
        · rw [if_neg hv, if_pos htype]
          exact ht
        · rw [if_neg hv, if_neg htype]
          exact ht
    · exact fun _ _ ht => .ret ht

theorem halts_writei_logged (hN : n + k + 3 ≤ N)
    (hloop : off ≤ (s.inode i).size → off + src.length ≤ MAXFILE * BSIZE → Halts p (fun _ => LoggedAtMost s N) (writeLoop i src.length off src) s fun _ t => ∃ D B, Spent s i D B n k t) :
    Halts p (fun _ => LoggedAtMost s N) (writei i src off) s fun _ => LoggedAtMost s N := by
  have hnone : ∀ t : Fs, t.log = s.log → LoggedAtMost s N t := by
    intro t ht
    refine ⟨∅, Nat.zero_le _, fun b hb => .inl ?_⟩
    rwa [ht] at hb
  apply Halts.bind_read
  apply Halts.ite
  · intro _
    apply Halts.ite
    · intro _
      exact (halts_consolewrite i src rfl).mono (fun _ => hnone) fun _ => hnone
    · intro _
      exact .ret (hnone s rfl)
  · intro _
    apply Halts.ite
    · intro _
      exact .ret (hnone s rfl)
    · intro hoff
      apply Halts.ite
      · intro _
        exact .ret (hnone s rfl)
      · intro hmax
        have hle : off ≤ (s.inode i).size := Nat.le_of_not_lt fun h => hoff (.inl h)
        apply (hloop hle (Nat.le_of_not_lt hmax)).bind
        rintro off' t ⟨D, B, h⟩
        apply Halts.bind_read
        refine Halts.bind (Q := fun _ => LoggedAtMost s N) (.when ?_ ?_) ?_
        · intro _
          apply Halts.bind_modify
          have hcard := h.card_le
          refine halts_logged rfl (fun _ _ => h.atMost (by omega))
            ((h.logged.insert rfl).atMost ((Finset.card_insert_le _ _).trans ?_))
          show _ + 1 ≤ N
          have : (indirectBlock t i ∪ (D ∪ B)).card + 1 ≤ N := by omega
          exact this
        · intro _
          exact h.atMost (by omega)
        · exact fun _ _ ht => .ret ht

/-- Each `writei` of `filewrite` logs at most `MAXOPBLOCKS` blocks, whatever the disk looks like
and wherever the call comes to a halt.  Block 0 is the boot block, which is in use. -/
theorem writei_fits_reservation (s : Fs) (i : Slot) (src : List UInt8) (off : ℕ) (p : P)
    (o : Slot → Option P) (hboot : s.bitmap 0 = true)
    (hblocks : ∀ bn < nblk (s.inode i).size, ptr s.block (s.inode i).toDinode (ptrIndex bn) ≠ 0)
    (hoff : off ≤ (s.inode i).size) (hlen : src.length ≤ maxWrite) :
    LoggedAtMost s MAXOPBLOCKS ((writei i src off).last p ⟨s, o⟩).st := by
  refine Halts.last (R := LoggedAtMost s MAXOPBLOCKS) ?_ o
  exact halts_writei_logged (n := 4) (k := 3) (by decide) fun _ hmax =>
    halts_writeLoop_piece hboot hblocks hoff hlen hmax

/-- A transaction in which the root directory is in the inode cache. -/
def rootLoaded : Fs :=
  { boot fun _ => none with
    inode := fun _ =>
      { mkfsRoot with dev := ROOTDEV, inum := ROOTINO, ref := 1, valid := true }
    log := ⟨LOGSIZE, 1, false, []⟩ }

def fiveBytes : FsM ℤ := writei ⟨0, NINODE_pos⟩ [1, 2, 3, 4, 5] 510

theorem writei_fits_reservation_root :
    (fiveBytes.last initproc ⟨rootLoaded, fun _ => none⟩).st.log.lh =
        [rootBlock, mkfsSb.bmapstart, rootBlock + 1, mkfsSb.inodestart] ∧
      LoggedAtMost rootLoaded MAXOPBLOCKS (fiveBytes.last initproc ⟨rootLoaded, fun _ => none⟩).st :=
  ⟨by decide +kernel, writei_fits_reservation rootLoaded ⟨0, by decide⟩ [1, 2, 3, 4, 5] 510 initproc _
    (by decide) (by decide +kernel) (by decide) (by decide)⟩

end Count

end Xv6
