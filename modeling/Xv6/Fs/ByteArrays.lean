import Xv6.Fs.Reserve

namespace Xv6
open Lib Prog Function

/-- The blocks up to the end of the file are there. -/
structure Filled (block : ℕ → Block) (d : Dinode) : Prop where
  le : nblk d.size ≤ MAXFILE
  ptr : ∀ bn < nblk d.size, Xv6.ptr block d (ptrIndex bn) ≠ 0

/-- The file system with the cached inode `i` in the place of its disk inode. -/
structure Sound (s : Fs) (i : Slot) : Prop where
  apart : Apart s.sb s.bitmap s.block (s.eff i)
  filled : ∀ n, (s.eff i n).type ≠ 0 → Filled s.block (s.eff i n)

/-- The transaction goes on, and the log lists no block twice. -/
structure SameTrans (s t : Fs) : Prop where
  size : t.log.size = s.log.size
  outstanding : t.log.outstanding = s.log.outstanding
  committing : t.log.committing = s.log.committing
  nodup : s.log.lh.Nodup → t.log.lh.Nodup

theorem SameTrans.refl (s : Fs) : SameTrans s s := ⟨rfl, rfl, rfl, id⟩

variable {s t s0 : Fs} {nb : ℕ} {i : Slot}

variable {u : Fs}

theorem SameTrans.congr (h : SameTrans s t) (hu : u.log = t.log) : SameTrans s u := by
  refine ⟨?_, ?_, ?_, ?_⟩
  · rw [hu, h.size]
  · rw [hu, h.outstanding]
  · rw [hu, h.committing]
  · rw [hu]
    exact h.nodup

theorem SameTrans.logWrite {b : ℕ} (h : SameTrans s t) (hu : u.log = t.log.logWrite b) :
    SameTrans s u := by
  refine ⟨?_, ?_, ?_, fun hs => ?_⟩
  · rw [hu, Log.logWrite, h.size]
  · rw [hu, Log.logWrite, h.outstanding]
  · rw [hu, Log.logWrite, h.committing]
  · rw [hu]
    exact Log.nodup_absorb b (h.nodup hs)

def LogFails (s : Fs) (m : Option String) (t : Fs) : Prop :=
  SameTrans s t ∧ ∃ msg, m = some msg ∧ t.log.logWriteCheck = some msg

theorem SameTrans.fails {m : String} (h : SameTrans s t) (hm : t.log.logWriteCheck = some m) :
    LogFails s (some m) t := ⟨h, m, rfl, hm⟩

def Fs.free (s : Fs) : Finset ℕ := (Finset.range s.sb.size).filter fun b => s.bitmap b = false

theorem Fs.mem_free {b : ℕ} : b ∈ s.free ↔ b < s.sb.size ∧ s.bitmap b = false := by
  rw [Fs.free, Finset.mem_filter, Finset.mem_range]

/-- The pointers that a file of `nb` blocks needs and does not have. -/
def missing (nb : ℕ) (block : ℕ → Block) (d : Dinode) : Finset ℕ :=
  (Finset.range NPTR).filter fun k => Live nb k ∧ ptr block d k = 0

def Enough (nb : ℕ) (i : Slot) (s : Fs) : Prop :=
  (missing nb s.block (s.inode i).toDinode).card ≤ s.free.card

instance (nb : ℕ) (i : Slot) (s : Fs) : Decidable (Enough nb i s) :=
  inferInstanceAs (Decidable (_ ≤ _))

section Enough

variable {k b : ℕ}

theorem mem_missing {block : ℕ → Block} {d : Dinode} :
    k ∈ missing nb block d ↔ k < NPTR ∧ Live nb k ∧ ptr block d k = 0 := by
  rw [missing, Finset.mem_filter, Finset.mem_range]

theorem Enough.exists_free (h : Enough nb i s)
    (hk : k ∈ missing nb s.block (s.inode i).toDinode) : ∃ b, b ∈ s.free := by
  apply Finset.card_pos.mp
  exact Nat.lt_of_lt_of_le (Finset.card_pos.mpr ⟨k, hk⟩) h

theorem Enough.congr (h : Enough nb i s) (hsb : t.sb = s.sb) (hbits : t.bitmap = s.bitmap)
    (hptr : ∀ k, ptr t.block (t.inode i).toDinode k = ptr s.block (s.inode i).toDinode k) :
    Enough nb i t := by
  have hmissing : missing nb t.block (t.inode i).toDinode =
      missing nb s.block (s.inode i).toDinode := by
    ext k
    rw [mem_missing, mem_missing, hptr]
  have hfree : t.free = s.free := by rw [Fs.free, hsb, hbits, Fs.free]
  rwa [Enough, hmissing, hfree]

theorem Enough.alloc (h : Enough nb i s) (hk : k ∈ missing nb s.block (s.inode i).toDinode)
    (hb : b ∈ s.free) (hb0 : b ≠ 0) (hsb : t.sb = s.sb)
    (hbits : t.bitmap = update s.bitmap b true)
    (hptr : ∀ j, ptr t.block (t.inode i).toDinode j =
      if j = k then b else ptr s.block (s.inode i).toDinode j) : Enough nb i t := by
  have hmissing : missing nb t.block (t.inode i).toDinode =
      (missing nb s.block (s.inode i).toDinode).erase k := by
    ext j
    rw [Finset.mem_erase, mem_missing, mem_missing, hptr]
    by_cases hj : j = k
    · simp [hj, hb0]
    · simp [hj]
  have hfree : t.free = s.free.erase b := by
    ext c
    rw [Finset.mem_erase, Fs.mem_free, Fs.mem_free, hsb, hbits]
    by_cases hc : c = b
    · simp [hc]
    · simp [hc]
  rw [Enough, hmissing, hfree, Finset.card_erase_of_mem hk, Finset.card_erase_of_mem hb]
  exact Nat.sub_le_sub_right h 1

end Enough

section Balloc

variable {P : Type} {p : P} {c : ℕ}

theorem firstFree_isSome {bits : ℕ → Bool} {b n : ℕ} (hc : bits c = false) (hb : b ≤ c)
    (hn : c < b + n) : ∃ c', firstFree bits b n = some c' := by
  induction n generalizing b with
  | zero => omega
  | succ n ih =>
    rw [firstFree]
    by_cases hbit : bits b = false
    · exact ⟨b, if_pos hbit⟩
    · rw [if_neg hbit]
      apply ih
      · have hne : b ≠ c := by
          rintro rfl
          exact hbit hc
        omega
      · omega

theorem halts_ballocFrom_free (hs : SameTrans s0 s) {k b : ℕ} (hc : c ∈ s.free) (hb : b ≤ c)
    (hk : s.sb.size ≤ b + k * BPB) : Halts p (LogFails s0) (ballocFrom k b) s fun c t =>
      c ∈ s.free ∧ ∃ l, t = s.allocated c l ∧ SameTrans s0 t := by
  obtain ⟨hsize, hbit⟩ := Fs.mem_free.mp hc
  induction k generalizing b with
  | zero => omega
  | succ k ih =>
    rw [ballocFrom]
    cases hf : firstFree s.bitmap b (min BPB (s.sb.size - b)) with
    | none =>
      refine Halts.bind (Q := fun r t => r = none ∧ t = s) (.atomic ?_) ?_
      · rw [hf]
        exact ⟨rfl, rfl⟩
      · rintro _ t ⟨rfl, ht⟩
        rw [ht]
        apply ih
        · by_contra hlt
          obtain ⟨c', hc'⟩ := firstFree_isSome (n := min BPB (s.sb.size - b)) hbit hb (by omega)
          rw [hf] at hc'
          cases hc'
        · rw [Nat.succ_mul] at hk
          omega
    | some c' =>
      obtain ⟨hbit', -, hlt⟩ := firstFree_eq_some hf
      have hs' : SameTrans s0 { s.setBit c' true with log := s.log.logWrite (s.sb.bblock b) } :=
        hs.logWrite rfl
      refine Halts.bind (Q := fun r t => r = some c' ∧
        t = { s.setBit c' true with log := s.log.logWrite (s.sb.bblock b) }) ?_ ?_
      · exact halts_logged (by rw [hf]) (fun _ => hs.fails) ⟨rfl, rfl⟩
      · rintro _ _ ⟨rfl, rfl⟩
        refine Halts.bind (Q := fun _ t => ∃ l, t = s.allocated c' l ∧ SameTrans s0 t) ?_ ?_
        · exact halts_logged rfl (fun _ => hs'.fails) ⟨_, rfl, hs'.logWrite rfl⟩
        · rintro _ t ht
          exact .ret ⟨Fs.mem_free.mpr ⟨by omega, hbit'⟩, ht⟩

theorem halts_balloc_free (hs : SameTrans s0 s) (hc : c ∈ s.free) :
    Halts p (LogFails s0) balloc s fun c t =>
      c ∈ s.free ∧ ∃ l, t = s.allocated c l ∧ SameTrans s0 t := by
  apply Halts.bind_read
  apply halts_ballocFrom_free hs hc (Nat.zero_le _)
  have hB : BPB = 4096 := rfl
  rw [hB]
  omega

end Balloc

/-- What allocating blocks for a cached inode leads to. -/
structure Grew (i : Slot) (s t : Fs) : Prop where
  frame : Frame i s t
  apart : Apart t.sb t.bitmap t.block (t.eff i)
  keep : Keep s.block (s.eff i) t.block (t.eff i)

theorem Grew.refl {i : Slot} (h : Apart s.sb s.bitmap s.block (s.eff i)) : Grew i s s :=
  ⟨.refl i s, h, .refl _ _⟩

theorem Grew.trans {i : Slot} (h : Grew i s t) (h' : Grew i t u) : Grew i s u :=
  ⟨h.frame.trans h'.frame, h'.apart, h.keep.trans h'.keep⟩

section Alloc

variable {P : Type} {p : P}

/-- What holds after pointer `k` of a cached inode has been looked up. -/
structure Got (s₀ : Fs) (i : Slot) (nb k : ℕ) (s : Fs) (b : ℕ) (t : Fs) : Prop where
  grew : Grew i s t
  trans : SameTrans s₀ t
  enough : Enough nb i t
  found : ptr t.block (t.inode i).toDinode k = b
  ne : b ≠ 0
  same : ptr s.block (s.inode i).toDinode k ≠ 0 → t = s

section

variable (hs : SameTrans s0 s) (ht : (s.inode i).type ≠ 0)
  (ha : Apart s.sb s.bitmap s.block (s.eff i)) (hn : Enough nb i s)
include hs ht ha hn

theorem halts_addrOrAlloc {k : ℕ} (hk : k ≤ NDIRECT)
    (hlive : Live nb k) : Halts p (LogFails s0) (addrOrAlloc i k) s (Got s0 i nb k s) := by
  have hp : ptr s.block (s.inode i).toDinode k = (s.inode i).addrs k := ptr_of_le hk
  apply Halts.bind_read
  apply Halts.ite
  · intro hz
    have hz' : (s.eff i (s.inode i).inum).addrs k = 0 := by rwa [Fs.eff_self]
    have ht' : (s.eff i (s.inode i).inum).type ≠ 0 := by rwa [Fs.eff_self]
    have hm : k ∈ missing nb s.block (s.inode i).toDinode :=
      mem_missing.mpr ⟨by unfold NPTR; omega, hlive, hp.trans hz⟩
    obtain ⟨c, hc⟩ := hn.exists_free hm
    apply (halts_balloc_free hs hc).bind
    rintro b _ ⟨hb, l, rfl, hl⟩
    obtain ⟨hsize, hbit⟩ := Fs.mem_free.mp hb
    have hb0 := ha.fresh_ne_zero hbit hsize
    apply Halts.bind_modify
    have hptr : ∀ j, ptr (s.growAddr i k b l).block ((s.growAddr i k b l).inode i).toDinode j =
        if j = k then b else ptr s.block (s.inode i).toDinode j := by
      intro j
      have hj := ha.ptr_addAddr hbit hsize ht' hk hz' j
      rw [Fs.eff_self, Apart.addAddr, update_self, Fs.eff_self] at hj
      simpa [Fs.growAddr, Inode.setAddr] using hj
    refine .ret (show Got s0 i nb k s b (s.growAddr i k b l) from
      ⟨⟨⟨rfl, rfl, rfl, rfl, rfl, fun j hj => ?_, ?_⟩, ?_, ?_⟩, hl.congr rfl,
        hn.alloc hm hb hb0 rfl rfl hptr, ?_, hb0, fun hne => absurd (hp.trans hz) hne⟩)
    · simp [Fs.growAddr, hj]
    · simp [Fs.growAddr, Inode.setAddr]
    · rw [Fs.eff_growAddr]
      exact ha.allocAddr hbit hsize ht' hk hz'
    · rw [Fs.eff_growAddr]
      exact ha.keep_addAddr hbit hsize ht' hk hz'
    · rw [hptr, if_pos rfl]
  · intro hz
    exact .ret ⟨.refl ha, hs, hn, hp, hz, fun _ => rfl⟩

theorem halts_entryOrAlloc {j : ℕ} (hj : j < NINDIRECT)
    (hlive : Live nb (NDIRECT + 1 + j)) (hind : (s.inode i).addrs NDIRECT ≠ 0) :
    Halts p (LogFails s0) (entryOrAlloc ((s.inode i).addrs NDIRECT) j) s
      (Got s0 i nb (NDIRECT + 1 + j) s) := by
  have hp : ptr s.block (s.inode i).toDinode (NDIRECT + 1 + j) =
      (s.block ((s.inode i).addrs NDIRECT)).get32 (4 * j) := ptr_entry hind
  apply Halts.bind_read
  apply Halts.ite
  · intro hz
    have ht' : (s.eff i (s.inode i).inum).type ≠ 0 := by rwa [Fs.eff_self]
    have hind' : (s.eff i (s.inode i).inum).addrs NDIRECT ≠ 0 := by rwa [Fs.eff_self]
    have hz' : ptr s.block (s.eff i (s.inode i).inum) (NDIRECT + 1 + j) = 0 := by
      rw [Fs.eff_self, hp, hz]
    have hm : NDIRECT + 1 + j ∈ missing nb s.block (s.inode i).toDinode :=
      mem_missing.mpr ⟨by unfold NPTR; omega, hlive, hp.trans hz⟩
    obtain ⟨c, hc⟩ := hn.exists_free hm
    apply (halts_balloc_free hs hc).bind
    rintro b _ ⟨hb, l, rfl, hl⟩
    obtain ⟨hsize, hbit⟩ := Fs.mem_free.mp hb
    have hb0 := ha.fresh_ne_zero hbit hsize
    -- The indirect block is not the new one, so its entries are still there.
    have hne : (s.inode i).addrs NDIRECT ≠ b := by
      have := (ha.indirect_ne_fresh hbit hsize ht').resolve_left hind'
      rwa [Fs.eff_self] at this
    have hget : (s.allocated b l).block ((s.inode i).addrs NDIRECT) =
        s.block ((s.inode i).addrs NDIRECT) := update_of_ne hne _ _
    have ha' := ha.allocEntry hbit hsize ht' hj hind' hz'
    have hkeep := ha.keep_addEntry hbit hsize ht' hj hind' hz'
    have hptr := ha.ptr_addEntry (n := (s.inode i).inum) hsize hj hind'
    rw [Fs.eff_self] at ha' hkeep hptr
    refine Halts.bind (Q := fun _ => Got s0 i nb (NDIRECT + 1 + j) s b)
      (halts_logged rfl (fun _ => hl.fails) ?_) fun _ t ht => .ret ht
    rw [hget]
    exact ⟨⟨⟨rfl, rfl, rfl, rfl, rfl, fun _ _ => rfl, rfl⟩, ha', hkeep⟩, hl.logWrite rfl,
      hn.alloc hm hb hb0 rfl rfl hptr, (hptr _).trans (if_pos rfl), hb0,
      fun hne => absurd (hp.trans hz) hne⟩
  · intro hz
    exact .ret ⟨.refl ha, hs, hn, hp, hz, fun _ => rfl⟩

theorem halts_bmap_got {bn : ℕ} (hbn : bn < nb)
    (hmax : bn < MAXFILE) :
    Halts p (LogFails s0) (bmap i bn) s (Got s0 i nb (ptrIndex bn) s) := by
  apply Halts.ite
  · intro hd
    have hidx : ptrIndex bn = bn := if_pos hd
    have hlive : Live nb (ptrIndex bn) := live_ptrIndex.mpr hbn
    rw [hidx] at hlive ⊢
    exact halts_addrOrAlloc hs ht ha hn (Nat.le_of_lt hd) hlive
  · intro hd
    have hlt : bn - NDIRECT < NINDIRECT := by
      unfold MAXFILE at hmax
      omega
    have hidx : NDIRECT + 1 + (bn - NDIRECT) = ptrIndex bn := by
      rw [ptrIndex, if_neg hd]
      omega
    have hlive : Live nb NDIRECT := by
      rw [Live, if_pos le_rfl]
      omega
    rw [if_pos hlt]
    apply (halts_addrOrAlloc hs ht ha hn le_rfl hlive).bind
    rintro a t ⟨hg, hts, htn, hptr, ha0, hsame⟩
    have haddr : (t.inode i).addrs NDIRECT = a := by
      rw [← hptr, ptr_of_le le_rfl]
    subst haddr
    have h := halts_entryOrAlloc (p := p) hts (by rwa [hg.frame.type]) hg.apart htn hlt
      (by rw [hidx]; exact live_ptrIndex.mpr hbn) ha0
    rw [hidx] at h
    refine h.mono (fun _ _ => id) ?_
    rintro b u ⟨hg', hus, hun, hptr', hb0, hsame'⟩
    refine ⟨hg.trans hg', hus, hun, hptr', hb0, fun hne => ?_⟩
    -- Where the block is there, the indirect block is.
    have hind : ptr s.block (s.inode i).toDinode NDIRECT ≠ 0 := by
      rw [ptr_of_le le_rfl]
      intro hz
      rw [ptr_of_zero (by rw [← hidx]; omega) hz] at hne
      exact hne rfl
    obtain rfl := hsame hind
    exact hsame' hne

end

end Alloc

section Loops

variable {P : Type} {p : P} {off : ℕ} {src : List UInt8}

structure Written (s₀ : Fs) (i : Slot) (nb off : ℕ) (src : List UInt8) (s t : Fs) : Prop where
  frame : Frame i s t
  apart : Apart t.sb t.bitmap t.block (t.eff i)
  stored : Stored (s.inode i).inum off src s.block (s.eff i) t.block (t.eff i)
  trans : SameTrans s₀ t
  enough : Enough nb i t
  same : (∀ bn < nblk (off + src.length), ptr s.block (s.inode i).toDinode (ptrIndex bn) ≠ 0) →
    t.inode i = s.inode i ∧ t.bitmap = s.bitmap

theorem Written.nil (hs : SameTrans s0 s) (ha : Apart s.sb s.bitmap s.block (s.eff i))
    (hn : Enough nb i s) : Written s0 i nb off [] s s :=
  ⟨.refl i s, ha, .nil .., hs, hn, fun _ => ⟨rfl, rfl⟩⟩

theorem Got.write {b : ℕ} (src : List UInt8) (ht : (s.inode i).type ≠ 0)
    (h : Got s0 i nb (ptrIndex (off / BSIZE)) s b t) (hmax : off / BSIZE < MAXFILE)
    (hne : src.length ≠ 0) (hlen : off % BSIZE + src.length ≤ BSIZE) : Written s0 i nb off src s
      { t.setBlock b ((t.block b).put (off % BSIZE) src) with log := t.log.logWrite b } := by
  have hinum : t.eff i (s.inode i).inum = (t.inode i).toDinode := by
    rw [← h.grew.frame.inum, Fs.eff_self]
  have hb : Holds t.block (t.eff i) ((s.inode i).inum, ptrIndex (off / BSIZE)) b := by
    refine ⟨?_, ptrIndex_lt hmax, ?_, h.ne⟩
    · rwa [hinum, h.grew.frame.type]
    · rw [hinum, h.found]
  have hptr : ∀ j, ptr (update t.block b ((t.block b).put (off % BSIZE) src))
      (t.inode i).toDinode j = ptr t.block (t.inode i).toDinode j := by
    intro j
    have hj := h.grew.apart.ptr_writeData hb ptrIndex_ne ((t.block b).put (off % BSIZE) src) hb.1 j
    rwa [hinum] at hj
  have hf := h.grew.frame
  refine ⟨⟨hf.sb, hf.dinode, hf.file, hf.proc, hf.env, hf.other, hf.self⟩,
    h.grew.apart.writeData hb ptrIndex_ne _, h.grew.apart.stored h.grew.keep hb hlen,
    h.trans.logWrite rfl, h.enough.congr rfl rfl hptr, fun hall => ?_⟩
  obtain rfl := h.same (hall _ (lt_nblk (by omega)))
  exact ⟨rfl, rfl⟩

theorem Written.ptr_ne_zero {bn : ℕ} (ht : (s.inode i).type ≠ 0) (h : Written s0 i nb off src s t)
    (hbn : bn < MAXFILE) (hp : ptr s.block (s.inode i).toDinode (ptrIndex bn) ≠ 0) :
    ptr t.block (t.inode i).toDinode (ptrIndex bn) ≠ 0 := by
  have hinum : t.eff i (s.inode i).inum = (t.inode i).toDinode := by
    rw [← h.frame.inum, Fs.eff_self]
  have hb : Holds s.block (s.eff i) ((s.inode i).inum, ptrIndex bn)
      (ptr s.block (s.inode i).toDinode (ptrIndex bn)) := by
    refine ⟨?_, ptrIndex_lt hbn, ?_, hp⟩
    · rwa [Fs.eff_self]
    · rw [Fs.eff_self]
  obtain ⟨-, -, hb', -⟩ := h.stored.holds _ _ hb
  rw [hinum] at hb'
  rwa [hb']

theorem Written.append {a b : List UInt8} {u : Fs} (ht : (s.inode i).type ≠ 0)
    (hmax : nblk (off + (a ++ b).length) ≤ MAXFILE) (h : Written s0 i nb off a s t)
    (h' : Written s0 i nb (off + a.length) b t u) : Written s0 i nb off (a ++ b) s u := by
  have hstored := h'.stored
  rw [h.frame.inum] at hstored
  refine ⟨h.frame.trans h'.frame, h'.apart, h.stored.append hstored, h'.trans, h'.enough,
    fun hall => ?_⟩
  rw [List.length_append, ← Nat.add_assoc] at hall hmax
  have hle : nblk (off + a.length) ≤ nblk (off + a.length + b.length) :=
    Nat.div_le_div_right (by omega)
  obtain ⟨hi, hbits⟩ := h.same fun bn hbn => hall bn (by omega)
  obtain ⟨hi', hbits'⟩ := h'.same fun bn hbn => h.ptr_ne_zero ht (by omega) (hall bn hbn)
  exact ⟨hi'.trans hi, hbits'.trans hbits⟩

theorem halts_writeLoop_written (hs : SameTrans s0 s) (ht : (s.inode i).type ≠ 0)
    (ha : Apart s.sb s.bitmap s.block (s.eff i)) (hn : Enough nb i s) {k : ℕ} (hk : src.length ≤ k)
    (hnb : nblk (off + src.length) ≤ nb) (hmax : nblk (off + src.length) ≤ MAXFILE) :
    Halts p (LogFails s0) (writeLoop i k off src) s fun off' t =>
      off' = off + src.length ∧ Written s0 i nb off src s t := by
  induction k generalizing off src s with
  | zero =>
    obtain rfl : src = [] := List.eq_nil_of_length_eq_zero (Nat.le_zero.mp hk)
    exact .ret ⟨rfl, .nil hs ha hn⟩
  | succ k ih =>
    rw [writeLoop]
    apply Halts.ite
    · intro hlen
      obtain rfl : src = [] := List.eq_nil_of_length_eq_zero hlen
      exact .ret ⟨rfl, .nil hs ha hn⟩
    · intro hlen
      have hbn : off / BSIZE < nblk (off + src.length) := lt_nblk (by omega)
      apply (halts_bmap_got hs ht ha hn (Nat.lt_of_lt_of_le hbn hnb)
        (Nat.lt_of_lt_of_le hbn hmax)).bind
      intro b t hgot
      have hmod := Nat.mod_lt off (y := BSIZE) (by decide)
      generalize hm : min src.length (BSIZE - off % BSIZE) = m
      have htake : (src.take m).length = m := by rw [List.length_take]; omega
      have hdrop : (src.drop m).length = src.length - m := List.length_drop
      have hw := hgot.write (src.take m) ht (Nat.lt_of_lt_of_le hbn hmax) (by omega) (by omega)
      refine Halts.bind (Q := fun _ => Written s0 i nb off (src.take m) s)
        (halts_logged rfl (fun _ => hgot.trans.fails) hw) ?_
      intro _ u hu
      have hend : off + m + (src.drop m).length = off + src.length := by omega
      refine Halts.mono (ih hu.trans (hu.frame.type.trans_ne ht) hu.apart hu.enough (by omega)
        (by rwa [hend]) (by rwa [hend])) (fun _ _ => id) ?_
      rintro _ v ⟨rfl, hv⟩
      refine ⟨hend, ?_⟩
      have happ := hu.append (b := src.drop m) (u := v) ht (by rwa [List.take_append_drop])
        (by rwa [htake])
      rwa [List.take_append_drop] at happ

end Loops

end Xv6
