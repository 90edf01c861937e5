import Xv6.Lib.Splice
import Xv6.Fs.Blocks
import Xv6.Fs.ByteArrays

namespace Xv6
open Lib Prog Function

def contents (block : ℕ → Block) (d : Dinode) : List UInt8 := bytesAt block d 0 d.size

theorem contents_eq (block : ℕ → Block) (d : Dinode) :
    contents block d = (List.range d.size).map (byteAt block d) := by
  simp only [contents, bytesAt, Nat.zero_add]

theorem contents_length (block : ℕ → Block) (d : Dinode) : (contents block d).length = d.size :=
  bytesAt_length ..

theorem contents_drop_take (block : ℕ → Block) (d : Dinode) {off n : ℕ} (h : off ≤ d.size) :
    ((contents block d).drop off).take n = bytesAt block d off (min n (d.size - off)) := by
  have hsplit : contents block d = bytesAt block d 0 off ++ bytesAt block d off (d.size - off) := by
    have hadd := bytesAt_add block d 0 off (d.size - off)
    rw [Nat.zero_add, Nat.add_sub_cancel' h] at hadd
    exact hadd.symm
  rw [hsplit, List.drop_left' (bytesAt_length ..), bytesAt, ← List.map_take, List.take_range, bytesAt]

/-- The bytes `src` have replaced those of a file from `off` on, and no other file or inode has
changed. -/
structure Overwrote (i : Slot) (off : ℕ) (src : List UInt8) (s t : Fs) : Prop where
  sb : t.sb = s.sb
  proc : t.proc = s.proc
  env : t.env = s.env
  cached : ∀ j, j ≠ i → t.inode j = s.inode j
  self : t.inode i = { s.inode i with
    size := max (s.inode i).size (off + src.length), addrs := (t.inode i).addrs }
  dinode : ∀ m, m ≠ (s.inode i).inum → t.dinode m = s.dinode m
  copy : (s.inode i).toDinode = s.dinode (s.inode i).inum →
    (t.inode i).toDinode = t.dinode (s.inode i).inum
  contents : contents t.block (t.inode i).toDinode =
    splice (Xv6.contents s.block (s.inode i).toDinode) off src
  other : ∀ m, m ≠ (s.inode i).inum → (s.dinode m).type ≠ 0 →
    Xv6.contents t.block (s.dinode m) = Xv6.contents s.block (s.dinode m)
  sound : Sound t i

variable {s0 s : Fs} {i : Slot} {off : ℕ} {src : List UInt8}

section Finish

variable {nb m : ℕ} {t : Fs}

theorem Sound.holds (h : Sound s i) {x : ℕ} (hm : (s.eff i m).type ≠ 0) (hx : x < (s.eff i m).size) :
    ∃ b, Holds s.block (s.eff i) (m, ptrIndex (x / BSIZE)) b := by
  have hf := h.filled m hm
  have hlt := lt_nblk hx
  exact ⟨_, hm, ptrIndex_lt (Nat.lt_of_lt_of_le hlt hf.le), rfl, hf.ptr _ hlt⟩

section

variable (hs : Sound s i)
include hs

theorem Written.ptr_of_size (ht : (s.inode i).type ≠ 0)
    (hoff : off ≤ (s.inode i).size) (h : Written s0 i nb off src s t) {bn : ℕ}
    (hbn : bn < nblk (max (s.inode i).size (off + src.length))) :
    ptr t.block (t.inode i).toDinode (ptrIndex bn) ≠ 0 := by
  have hfill := hs.filled (s.inode i).inum (by rwa [Fs.eff_self])
  rw [Fs.eff_self] at hfill
  by_cases hold : bn < nblk (s.inode i).size
  · exact h.ptr_ne_zero ht (Nat.lt_of_lt_of_le hold hfill.le) (hfill.ptr bn hold)
  · -- The first byte of the block is one of those that were written.
    have hsize := nblk_le.mp (Nat.le_of_not_lt hold)
    have hlast : bn * BSIZE < off + src.length := by
      rw [nblk_max] at hbn
      by_contra hle
      have := nblk_le.mpr (Nat.le_of_not_lt hle)
      omega
    obtain ⟨⟨b, hb⟩, -⟩ := h.stored.new (bn * BSIZE) (by omega) hlast
    rw [Nat.mul_div_cancel bn (by decide), Holds, ← h.frame.inum, Fs.eff_self] at hb
    rw [hb.2.2.1]
    exact hb.2.2.2

theorem Written.filled_other (h : Written s0 i nb off src s t)
    (hm : m ≠ (s.inode i).inum) (htype : (s.dinode m).type ≠ 0) : Filled t.block (s.dinode m) := by
  have heff : s.eff i m = s.dinode m := Fs.eff_of_ne _ _ hm
  have heff' : t.eff i m = s.dinode m := by
    rw [Fs.eff_of_ne _ _ (by rwa [h.frame.inum]), h.frame.dinode]
  have hfill := hs.filled m (by rwa [heff])
  rw [heff] at hfill
  refine ⟨hfill.le, fun bn hbn => ?_⟩
  have hb : Holds s.block (s.eff i) (m, ptrIndex bn) (ptr s.block (s.dinode m) (ptrIndex bn)) := by
    refine ⟨by rwa [heff], ptrIndex_lt (Nat.lt_of_lt_of_le hbn hfill.le), ?_, hfill.ptr bn hbn⟩
    rw [heff]
  obtain ⟨-, -, hp, hb0⟩ := h.stored.holds _ _ hb
  rw [heff'] at hp
  rwa [hp]

theorem Written.contents_self (ht : (s.inode i).type ≠ 0)
    (hoff : off ≤ (s.inode i).size) (h : Written s0 i nb off src s t) :
    (List.range (max (s.inode i).size (off + src.length))).map
        (byteAt t.block (t.inode i).toDinode) =
      splice (contents s.block (s.inode i).toDinode) off src := by
  have heff : t.eff i (s.inode i).inum = (t.inode i).toDinode := by
    rw [← h.frame.inum, Fs.eff_self]
  rw [contents_eq]
  apply map_range_eq_splice 0 hoff
  · intro x h1 h2
    have hx := (h.stored.new x h1 h2).2
    rwa [heff] at hx
  · intro x hx hn
    obtain ⟨b, hb⟩ := hs.holds (m := (s.inode i).inum) (x := x) (by rwa [Fs.eff_self])
      (by rwa [Fs.eff_self])
    have hx := h.stored.kept _ x b hb fun hin => hn hin.2
    rwa [heff, Fs.eff_self] at hx

theorem Written.contents_other (h : Written s0 i nb off src s t)
    (hm : m ≠ (s.inode i).inum) (htype : (s.dinode m).type ≠ 0) :
    contents t.block (s.dinode m) = contents s.block (s.dinode m) := by
  have heff : s.eff i m = s.dinode m := Fs.eff_of_ne _ _ hm
  have heff' : t.eff i m = s.dinode m := by
    rw [Fs.eff_of_ne _ _ (by rwa [h.frame.inum]), h.frame.dinode]
  rw [contents_eq, contents_eq]
  apply List.map_congr_left
  intro x hx
  rw [List.mem_range] at hx
  obtain ⟨b, hb⟩ := hs.holds (m := m) (x := x) (by rwa [heff]) (by rwa [heff])
  have hx := h.stored.kept m x b hb fun hin => hm hin.1
  rwa [heff, heff'] at hx

/-- What the loop of `writei` leaves is complete once the inode has its new size. -/
theorem Written.finish {u : Fs} (ht : (s.inode i).type ≠ 0)
    (hoff : off ≤ (s.inode i).size) (hmax : nblk (off + src.length) ≤ MAXFILE)
    (h : Written s0 i nb off src s t) (hinode : u.inode = update t.inode i
      { t.inode i with size := max (s.inode i).size (off + src.length) })
    (hdinode : ∀ m, m ≠ (s.inode i).inum → u.dinode m = t.dinode m)
    (hcopy : (s.inode i).toDinode = s.dinode (s.inode i).inum → (u.inode i).toDinode = u.dinode (s.inode i).inum)
    (hblock : u.block = t.block) (hbits : u.bitmap = t.bitmap) (hsb : u.sb = t.sb)
    (hproc : u.proc = t.proc) (henv : u.env = t.env) : Overwrote i off src s u := by
  have hf := h.frame
  have hself : u.inode i = { t.inode i with size := max (s.inode i).size (off + src.length) } := by
    rw [hinode, update_self]
  have hinum : (u.inode i).inum = (s.inode i).inum := by rw [hself, ← hf.inum]
  have heffn : u.eff i (s.inode i).inum = (u.inode i).toDinode := by rw [← hinum, Fs.eff_self]
  have heffm : ∀ m, m ≠ (s.inode i).inum → u.eff i m = s.dinode m := by
    intro m hm
    rw [Fs.eff_of_ne _ _ (by rwa [hinum]), hdinode m hm, hf.dinode]
  have hteffn : t.eff i (s.inode i).inum = (t.inode i).toDinode := by rw [← hf.inum, Fs.eff_self]
  have hteffm : ∀ m, m ≠ (s.inode i).inum → t.eff i m = s.dinode m := by
    intro m hm
    rw [Fs.eff_of_ne _ _ (by rwa [hf.inum]), hf.dinode]
  have hsize : (u.inode i).size = max (s.inode i).size (off + src.length) := by rw [hself]
  have hptr : ∀ k, ptr u.block (u.inode i).toDinode k = ptr t.block (t.inode i).toDinode k := by
    intro k
    rw [hself, hblock]
    rfl
  refine ⟨hsb.trans hf.sb, hproc.trans hf.proc, henv.trans hf.env, ?_, ?_, ?_, hcopy, ?_, ?_,
    ⟨?_, ?_⟩⟩
  · intro j hj
    rw [hinode, update_of_ne hj, hf.other j hj]
  · rw [hself, hf.self]
  · intro m hm
    rw [hdinode m hm, hf.dinode]
  · rw [← h.contents_self hs ht hoff, contents_eq, hsize, hself, hblock]
    rfl
  · intro m hm htype
    rw [hblock]
    exact h.contents_other hs hm htype
  · rw [hsb, hbits, hblock]
    refine h.apart.congr (fun m => ?_) fun m _ => ?_
    · by_cases hm : m = (s.inode i).inum
      · rw [hm, heffn, hteffn, hself]
      · rw [heffm m hm, hteffm m hm]
    · by_cases hm : m = (s.inode i).inum
      · rw [hm, heffn, hteffn, hself]
      · rw [heffm m hm, hteffm m hm]
  · intro m hm
    by_cases hmn : m = (s.inode i).inum
    · rw [hmn, heffn]
      have hfill := hs.filled (s.inode i).inum (by rwa [Fs.eff_self])
      rw [Fs.eff_self] at hfill
      refine ⟨?_, fun bn hbn => ?_⟩
      · rw [hsize, nblk_max]
        exact Nat.max_le.mpr ⟨hfill.le, hmax⟩
      · rw [hptr]
        rw [hsize] at hbn
        exact h.ptr_of_size hs ht hoff hbn
    · rw [heffm m hmn] at hm ⊢
      rw [hblock]
      exact h.filled_other hs hmn hm

end

end Finish

section Calls

variable {P : Type} {p : P} {E : Option String → Fs → Prop} {n : ℕ}

def Inode.refuses (ip : Inode) (off n : ℕ) : Prop :=
  off > ip.size ∨ off + n ≥ 2 ^ 32 ∨ off + n > MAXFILE * BSIZE

instance (ip : Inode) (off n : ℕ) : Decidable (ip.refuses off n) :=
  inferInstanceAs (Decidable (_ ∨ _))

theorem uadd_lt_iff {a b : ℕ} (ha : a < 2 ^ 32) (hb : b < 2 ^ 32) : uadd a b < a ↔ a + b ≥ 2 ^ 32 := by
  unfold uadd
  omega

theorem halts_writei_refused (hdev : (s.inode i).type ≠ T_DEV) (hoff : off < 2 ^ 32)
    (hn : src.length < 2 ^ 32) (h : (s.inode i).refuses off src.length) :
    Halts p E (writei i src off) s fun r t => r = -1 ∧ t = s := by
  apply Halts.bind_read
  simp only [id]
  rw [if_neg hdev]
  apply Halts.ite
  · exact fun _ => .ret ⟨rfl, rfl⟩
  · intro hin
    rw [uadd_lt_iff hoff hn] at hin
    apply Halts.ite
    · exact fun _ => .ret ⟨rfl, rfl⟩
    · intro hmax
      rcases h with h | h | h
      · exact absurd (.inl h) hin
      · exact absurd (.inr h) hin
      · exact absurd h hmax

theorem halts_writei_done {nb : ℕ} (hs : Sound s i) (ht : (s.inode i).type ≠ 0)
    (hdev : (s.inode i).type ≠ T_DEV) (hok : ¬ (s.inode i).refuses off src.length)
    (hnb : nblk (off + src.length) ≤ nb) (hn : Enough nb i s) :
    Halts p (LogFails s) (writei i src off) s fun r t =>
      r = src.length ∧ Overwrote i off src s t ∧ t.file = s.file ∧ SameTrans s t ∧ Enough nb i t := by
  have hmaxB : MAXFILE * BSIZE < 2 ^ 32 := by decide
  have hoff : off ≤ (s.inode i).size := Nat.le_of_not_lt fun h => hok (.inl h)
  have hlen : off + src.length ≤ MAXFILE * BSIZE := Nat.le_of_not_lt fun h => hok (.inr (.inr h))
  have hwrap : ¬ uadd off src.length < off := by
    rw [uadd_lt_iff (by omega) (by omega)]
    omega
  have hin : ¬ (off > (s.inode i).size ∨ uadd off src.length < off) := by
    rintro (h | h)
    · exact absurd hoff (Nat.not_le.mpr h)
    · exact hwrap h
  have hmax : nblk (off + src.length) ≤ MAXFILE := nblk_le.mpr hlen
  apply Halts.bind_read
  simp only [id]
  rw [if_neg hdev, if_neg hin, if_neg (Nat.not_lt.mpr hlen)]
  apply (halts_writeLoop_written (.refl s) ht hs.apart hn le_rfl hnb hmax).bind
  rintro _ t ⟨rfl, hw⟩
  apply Halts.bind_read
  refine Halts.bind (Q := fun _ u => Overwrote i off src s u ∧ u.file = s.file ∧ SameTrans s u ∧
    Enough nb i u) (.when ?_ ?_) fun _ u hu => .ret ⟨rfl, hu⟩
  · -- The file has grown: the cached inode gets the new size and is written.
    rintro ⟨-, hgrow⟩
    have hgrow : (t.inode i).size < off + src.length := hgrow
    rw [hw.frame.size] at hgrow
    have hsize : max (s.inode i).size (off + src.length) = off + src.length :=
      Nat.max_eq_right (Nat.le_of_lt hgrow)
    apply Halts.bind_modify
    refine halts_logged rfl (fun _ hm => ⟨hw.trans.congr rfl, _, rfl, hm⟩)
      ⟨?_, hw.frame.file, hw.trans.logWrite rfl, ?_⟩
    · refine hw.finish hs ht hoff hmax ?_ ?_ ?_ rfl rfl rfl rfl rfl
      · rw [hsize]
        rfl
      · intro m hm
        simp [hw.frame.inum, hm]
      · intro _
        simp [hw.frame.inum]
    · refine hw.enough.congr rfl rfl fun k => ?_
      simp [ptr]
  · -- Nothing was allocated, so the inode is still right.
    intro hno
    have hle : off + src.length ≤ (s.inode i).size := by
      by_contra hlt
      have hgrow : (t.inode i).size < off + src.length := by
        rw [hw.frame.size]
        exact Nat.lt_of_not_le hlt
      exact hno ⟨by omega, hgrow⟩
    have hfill := hs.filled (s.inode i).inum (by rwa [Fs.eff_self])
    rw [Fs.eff_self] at hfill
    have hblocks : nblk (off + src.length) ≤ nblk (s.inode i).size :=
      Nat.div_le_div_right (Nat.add_le_add_right hle _)
    obtain ⟨hsame, -⟩ := hw.same fun bn hbn => hfill.ptr bn (Nat.lt_of_lt_of_le hbn hblocks)
    refine ⟨hw.finish hs ht hoff hmax ?_ (fun _ _ => rfl) (fun hcopy => ?_) rfl rfl rfl rfl rfl,
      hw.frame.file, hw.trans, hw.enough⟩
    · rw [Nat.max_eq_left hle, ← hw.frame.size, update_eq_self]
    · rw [hsame, hcopy, hw.frame.dinode]

theorem halts_readi_refused (hdev : (s.inode i).type ≠ T_DEV) (hoff : off < 2 ^ 32)
    (hn : n < 2 ^ 32) (h : off > (s.inode i).size ∨ off + n ≥ 2 ^ 32) :
    Halts p E (readi i off n) s fun r t => r = none ∧ t = s := by
  rw [← uadd_lt_iff hoff hn] at h
  apply Halts.bind_read
  simp only [id]
  rw [if_neg hdev, if_pos h]
  exact .ret ⟨rfl, rfl⟩

theorem halts_readi_done (hs : Sound s i) (ht : (s.inode i).type ≠ 0)
    (hdev : (s.inode i).type ≠ T_DEV) (hoff : off < 2 ^ 32) (hn : n < 2 ^ 32)
    (h : ¬ (off > (s.inode i).size ∨ off + n ≥ 2 ^ 32)) :
    Halts p E (readi i off n) s fun r t => r = some
      (((contents s.block (s.inode i).toDinode).drop off).take n) ∧ t = s := by
  have hfill := hs.filled (s.inode i).inum (by rwa [Fs.eff_self])
  rw [Fs.eff_self] at hfill
  have hle : off ≤ (s.inode i).size := Nat.le_of_not_lt fun hlt => h (.inl hlt)
  rw [← uadd_lt_iff hoff hn] at h
  apply Halts.bind_read
  simp only [id]
  rw [if_neg hdev, if_neg h]
  generalize hk : (if off + n > (s.inode i).size then (s.inode i).size - off else n) = k
  have hkle : off + k ≤ (s.inode i).size := by
    split_ifs at hk <;> omega
  apply (halts_readLoop hfill.le hfill.ptr le_rfl (hkle.trans (nblk_le.mp le_rfl))).bind
  rintro _ t ⟨ht, rfl⟩
  refine .ret ⟨?_, ht⟩
  rw [contents_drop_take _ _ hle, ← hk]
  congr 2
  split_ifs <;> omega

/-- Inside of a transaction, `n` more blocks can be logged. -/
structure LogRoom (s : Fs) (n : ℕ) : Prop where
  outstanding : 1 ≤ s.log.outstanding
  nodup : s.log.lh.Nodup
  room : s.log.lh.length + n < LOGSIZE
  size : (s.log.lh.length + n : ℤ) < s.log.size - 1

/-- What a `writei` logs at most: for every block that it touches the block and one of the bitmap,
an indirect block with one of the bitmap, and the inode. -/
def logBlocks (off n : ℕ) : ℕ := 2 * (nblk (off + n) - off / BSIZE) + 3

theorem LoggedAtMost.length_le {t : Fs} (h : LoggedAtMost s n t) (ht : t.log.lh.Nodup) :
    t.log.lh.length ≤ s.log.lh.length + n := by
  obtain ⟨S, hS, hlog⟩ := h
  have hsub : t.log.lh.toFinset ⊆ s.log.lh.toFinset ∪ S := by
    intro b hb
    rw [Finset.mem_union, List.mem_toFinset]
    exact hlog b (List.mem_toFinset.mp hb)
  calc t.log.lh.length
      = t.log.lh.toFinset.card := (List.toFinset_card_of_nodup ht).symm
    _ ≤ (s.log.lh.toFinset ∪ S).card := Finset.card_le_card hsub
    _ ≤ s.log.lh.toFinset.card + S.card := Finset.card_union_le _ _
    _ ≤ s.log.lh.length + n := Nat.add_le_add (List.toFinset_card_le _) hS

theorem LogFails.no_room {m : Option String} {t : Fs} (h : LogFails s m t) (hroom : LogRoom s n)
    (hn : LoggedAtMost s n t) : False := by
  obtain ⟨htrans, msg, -, hcheck⟩ := h
  have hlen := hn.length_le (htrans.nodup hroom.nodup)
  have h1 := hroom.outstanding
  have h2 := hroom.room
  have h3 := hroom.size
  rw [Log.logWriteCheck, htrans.size, htrans.outstanding, if_neg (by omega), if_neg (by omega)]
    at hcheck
  cases hcheck

theorem Sound.boot (hs : Sound s i) : s.bitmap 0 = true := by
  have hstart := hs.apart.start
  apply hs.apart.covers.reserved 0 hstart
  unfold Superblock.dataStart at hstart
  omega

theorem halts_writei_count (hs : Sound s i) :
    Halts p (fun _ => LoggedAtMost s (logBlocks off src.length)) (writei i src off) s
      fun _ => LoggedAtMost s (logBlocks off src.length) := by
  have htouched : off % BSIZE + src.length ≤ (nblk (off + src.length) - off / BSIZE) * BSIZE := by
    have hB : BSIZE = 512 := rfl
    rw [nblk, hB]
    omega
  unfold logBlocks
  generalize nblk (off + src.length) - off / BSIZE = r at htouched
  refine halts_writei_logged (n := 0 + r) (k := 0 + r) (by omega) fun _ _ => ?_
  exact halts_writeLoop (.refl hs.boot) (fun _ => htouched) (by omega)

theorem halts_writei {nb : ℕ} (hs : Sound s i) (ht : (s.inode i).type ≠ 0)
    (hdev : (s.inode i).type ≠ T_DEV) (hok : ¬ (s.inode i).refuses off src.length)
    (hnb : nblk (off + src.length) ≤ nb) (hn : Enough nb i s)
    (hroom : LogRoom s (logBlocks off src.length)) :
    Halts p (fun _ _ => False) (writei i src off) s fun r t =>
      r = src.length ∧ Overwrote i off src s t ∧ t.file = s.file ∧ SameTrans s t ∧ Enough nb i t :=
  ((halts_writei_done hs ht hdev hok hnb hn).and (halts_writei_count hs)).mono
    (fun _ _ h => h.1.no_room hroom h.2) fun _ _ h => h.1

/-- `writei` and `readi` implement arrays of bytes, on every inode that is not a device and for all
32-bit offsets and lengths.  A write that is not refused and fits on the disk is made, unless
`log_write` finds the log full on the way; while the log has room for every block that the write
can touch, it does not. -/
theorem writei_readi_byte_arrays (p : P) (o : Slot → Option P) (s : Fs) (i : Slot) (hs : Sound s i)
    (ht : (s.inode i).type ≠ 0) (hdev : (s.inode i).type ≠ T_DEV) (off : ℕ) (hoff : off < 2 ^ 32) :
    (∀ src : List UInt8, src.length < 2 ^ 32 →
      ((s.inode i).refuses off src.length →
        ∃ u, (writei i src off).run p ⟨s, o⟩ = .done (-1) u ∧ u.st = s) ∧
      (¬ (s.inode i).refuses off src.length → Enough (nblk (off + src.length)) i s →
        ((∃ u, (writei i src off).run p ⟨s, o⟩ = .done src.length u ∧
            Overwrote i off src s u.st ∧ u.st.file = s.file) ∨
          ∃ m, (writei i src off).run p ⟨s, o⟩ = .panic m ∧
            LogFails s (some m) ((writei i src off).last p ⟨s, o⟩).st) ∧
        (LogRoom s (logBlocks off src.length) →
          ∃ u, (writei i src off).run p ⟨s, o⟩ = .done src.length u ∧
            Overwrote i off src s u.st ∧ u.st.file = s.file))) ∧
    ∀ n < 2 ^ 32, ∃ u, u.st = s ∧ (readi i off n).run p ⟨s, o⟩ = .done
      (if off > (s.inode i).size ∨ off + n ≥ 2 ^ 32 then none
        else some (((contents s.block (s.inode i).toDinode).drop off).take n)) u := by
  refine ⟨fun src hlen => ⟨fun href => ?_, fun hok hn => ⟨?_, fun hroom => ?_⟩⟩, fun n hlen => ?_⟩
  · obtain ⟨r, u, hrun, rfl, hu⟩ := (halts_writei_refused hdev hoff hlen href).run o
    exact ⟨u, hrun, hu⟩
  · refine ((halts_writei_done hs ht hdev hok le_rfl hn).run_or_panic ?_ o).imp_left ?_
    · rintro t ⟨-, m, hm, -⟩
      cases hm
    · rintro ⟨_, u, hrun, rfl, hu, hfile, -⟩
      exact ⟨u, hrun, hu, hfile⟩
  · obtain ⟨r, u, hrun, rfl, hu, hfile, -⟩ :=
      (halts_writei hs ht hdev hok le_rfl hn hroom).run o
    exact ⟨u, hrun, hu, hfile⟩
  · by_cases h : off > (s.inode i).size ∨ off + n ≥ 2 ^ 32
    · obtain ⟨r, u, hrun, rfl, hu⟩ := (halts_readi_refused hdev hoff hlen h).run o
      rw [if_pos h]
      exact ⟨u, hu, hrun⟩
    · obtain ⟨r, u, hrun, rfl, hu⟩ := (halts_readi_done hs ht hdev hoff hlen h).run o
      rw [if_neg h]
      exact ⟨u, hu, hrun⟩

theorem WellFormed.sound (h : WellFormed s)
    (hcopy : (s.inode i).toDinode = s.dinode (s.inode i).inum) : Sound s i := by
  have heff : s.eff i = s.dinode := by rw [Fs.eff, hcopy, update_eq_self]
  refine ⟨?_, fun n hn => ?_⟩
  · rw [heff]
    exact h.owned.apart
  · rw [heff] at hn ⊢
    exact ⟨(h.full n hn).le, fun bn hbn => (h.full n hn).ptr_ne_zero hbn⟩

theorem rootLoaded_sound : Sound rootLoaded ⟨0, by decide⟩ := by
  apply WellFormed.sound
  · exact (Blocks.boot_wellFormed fun _ => none).congr rfl rfl rfl rfl
  · exact (Blocks.boot_root fun _ => none).symm

/-- Five bytes that cross the end of a block, for which the log has room in any case, and twenty-six
blocks, the most that the log takes. -/
theorem writei_readi_byte_arrays_root :
    (∃ u, fiveBytes.run initproc ⟨rootLoaded, fun _ => none⟩ = .done 5 u ∧
      Overwrote ⟨0, by decide⟩ 510 [1, 2, 3, 4, 5] rootLoaded u.st ∧ u.st.file = rootLoaded.file) ∧
    ∃ u, (writei ⟨0, by decide⟩ (List.replicate (26 * BSIZE) 0) 0).run initproc
        ⟨rootLoaded, fun _ => none⟩ = .done (List.replicate (26 * BSIZE) (0 : UInt8)).length u ∧
      Overwrote ⟨0, by decide⟩ 0 (List.replicate (26 * BSIZE) 0) rootLoaded u.st ∧
      u.st.file = rootLoaded.file := by
  have hroot (off : ℕ) (hoff : off < 2 ^ 32) := writei_readi_byte_arrays initproc (fun _ => none)
    rootLoaded ⟨0, by decide⟩ rootLoaded_sound (by decide) (by decide) off hoff
  refine ⟨?_, ?_⟩
  · exact (((hroot 510 (by decide)).1 [1, 2, 3, 4, 5] (by decide)).2 (by decide)
      (by decide +kernel)).2 ⟨by decide, by decide, by decide, by decide⟩
  · refine ((((hroot 0 (by decide)).1 (List.replicate (26 * BSIZE) 0) (by decide +kernel)).2
      (by decide +kernel) (by decide +kernel)).1).resolve_right ?_
    rintro ⟨m, hm, -⟩
    have hnone : ((writei ⟨0, by decide⟩ (List.replicate (26 * BSIZE) 0) 0).run initproc
        ⟨rootLoaded, fun _ => none⟩).message = none := by decide +kernel
    rw [hm] at hnone
    cases hnone

/-- `writei` leaves it to its callers to keep a write small enough for the log. -/
theorem writei_exceeds_log : ¬ ∀ (s : Fs) (i : Slot) (src : List UInt8) (off : ℕ), Sound s i →
    (s.inode i).type ≠ 0 → (s.inode i).type ≠ T_DEV → ¬ (s.inode i).refuses off src.length →
    Enough (nblk (off + src.length)) i s → 1 ≤ s.log.outstanding →
    ∃ u, (writei i src off).run initproc ⟨s, fun _ => none⟩ = .done src.length u := by
  intro h
  obtain ⟨u, hu⟩ := h rootLoaded ⟨0, by decide⟩ (List.replicate (27 * BSIZE) 0) 0 rootLoaded_sound
    (by decide) (by decide) (by decide +kernel) (by decide +kernel) (by decide)
  have hpanic : ((writei ⟨0, by decide⟩ (List.replicate (27 * BSIZE) 0) 0).run initproc
      ⟨rootLoaded, fun _ => none⟩).message = some Log.tooBig := by decide +kernel
  rw [hu] at hpanic
  cases hpanic

end Calls

end Xv6
