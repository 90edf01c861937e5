import Mathlib.Data.List.GetD
import Xv6.Lib.Finish
import Xv6.Fs.Owner

namespace Xv6
open Lib Prog Function

def nblk (size : ℕ) : ℕ := (size + (BSIZE - 1)) / BSIZE

def byteAt (block : ℕ → Block) (d : Dinode) (x : ℕ) : UInt8 :=
  (block (ptr block d (ptrIndex (x / BSIZE)))).get (x % BSIZE)

/-- The disk inodes once the cached inode is written. -/
def Fs.eff (s : Fs) (i : Slot) : ℕ → Dinode :=
  update s.dinode (s.inode i).inum (s.inode i).toDinode

theorem Fs.eff_of_ne (s : Fs) (i : Slot) {m : ℕ} (h : m ≠ (s.inode i).inum) :
    s.eff i m = s.dinode m := update_of_ne h _ _

theorem Fs.eff_self (s : Fs) (i : Slot) : s.eff i (s.inode i).inum = (s.inode i).toDinode :=
  update_self _ _ _

/-- Only blocks, the bitmap, the log and the addresses of one cached inode may differ. -/
structure Frame (i : Slot) (s t : Fs) : Prop where
  sb : t.sb = s.sb
  dinode : t.dinode = s.dinode
  file : t.file = s.file
  proc : t.proc = s.proc
  env : t.env = s.env
  other : ∀ j, j ≠ i → t.inode j = s.inode j
  self : t.inode i = { s.inode i with addrs := (t.inode i).addrs }

theorem Frame.refl (i : Slot) (s : Fs) : Frame i s s := ⟨rfl, rfl, rfl, rfl, rfl, fun _ _ => rfl, rfl⟩

variable {i : Slot} {t : Fs} {E : String → Prop} {nb : ℕ}

variable {s : Fs}

section

variable (h : Frame i s t)
include h

theorem Frame.trans {u : Fs} (h' : Frame i t u) : Frame i s u where
  sb := h'.sb.trans h.sb
  dinode := h'.dinode.trans h.dinode
  file := h'.file.trans h.file
  proc := h'.proc.trans h.proc
  env := h'.env.trans h.env
  other j hj := (h'.other j hj).trans (h.other j hj)
  self := by
    rw [h'.self, h.self]

theorem Frame.inum : (t.inode i).inum = (s.inode i).inum := by
  rw [h.self]

theorem Frame.type : (t.inode i).type = (s.inode i).type := by
  rw [h.self]

theorem Frame.size : (t.inode i).size = (s.inode i).size := by
  rw [h.self]

theorem Frame.dev : (t.inode i).dev = (s.inode i).dev := by
  rw [h.self]

theorem Frame.ref : (t.inode i).ref = (s.inode i).ref := by
  rw [h.self]

theorem Frame.valid : (t.inode i).valid = (s.inode i).valid := by
  rw [h.self]

end

structure Grown (i : Slot) (s t : Fs) : Prop where
  frame : Frame i s t
  owned : Owned t.sb t.bitmap t.block (t.eff i)
  keep : Keep s.block (s.eff i) t.block (t.eff i)
  other : ∀ m, m ≠ (s.inode i).inum → (s.dinode m).type ≠ 0 →
    ∀ k, ptr t.block (s.dinode m) k = ptr s.block (s.dinode m) k

theorem Grown.refl (h : Owned s.sb s.bitmap s.block (s.eff i)) :
    Grown i s s := ⟨.refl i s, h, .refl _ _, fun _ _ _ _ => rfl⟩

theorem Grown.trans {u : Fs} (h : Grown i s t) (h' : Grown i t u) : Grown i s u where
  frame := h.frame.trans h'.frame
  owned := h'.owned
  keep := h.keep.trans h'.keep
  other m hm ht k := by
    have h2 := h'.other m (by rwa [h.frame.inum]) (by rwa [h.frame.dinode]) k
    rw [h.frame.dinode] at h2
    rw [h2, h.other m hm ht k]

section Alloc

variable {P : Type} {p : P} {s : Shared Fs Slot P} {Q : ℕ → Shared Fs Slot P → Prop}

theorem firstFree_eq_some {bits : ℕ → Bool} {b n c : ℕ} (h : firstFree bits b n = some c) :
    bits c = false ∧ b ≤ c ∧ c < b + n := by
  induction n generalizing b with
  | zero => cases h
  | succ n ih =>
    rw [firstFree] at h
    split_ifs at h with hb
    · cases h
      exact ⟨hb, le_rfl, by omega⟩
    · obtain ⟨h1, h2, h3⟩ := ih h
      exact ⟨h1, by omega, by omega⟩

theorem wp_ballocFrom (hE : Exhausts E) (k b : ℕ)
    (hQ : ∀ c l, s.st.bitmap c = false → c < s.st.sb.size →
      Q c ⟨{ s.st with
        bitmap := update s.st.bitmap c true
        block := update s.st.block c zeroBlock
        log := l }, s.owner⟩) : wp p E (ballocFrom k b) Q s := by
  induction k generalizing b with
  | zero => exact hE _ (by decide)
  | succ k ih =>
    simp only [ballocFrom, bind_eq, wp_bind, wp_atomic]
    cases hf : firstFree s.st.bitmap b (min BPB (s.st.sb.size - b)) with
    | none => exact ih (b + BPB)
    | some c =>
      obtain ⟨h1, h2, h3⟩ := firstFree_eq_some hf
      refine logged_sat hE fun l => ?_
      simp only [wp_bind, bzero, wp_atomic]
      exact logged_sat hE fun l' => hQ c l' h1 (by omega)

theorem wp_balloc (hE : Exhausts E) (hQ : ∀ c l, s.st.bitmap c = false → c < s.st.sb.size →
      Q c ⟨{ s.st with
        bitmap := update s.st.bitmap c true
        block := update s.st.block c zeroBlock
        log := l }, s.owner⟩) : wp p E balloc Q s := by
  simp only [balloc, bind_eq, wp_bind, wp_read]
  exact wp_ballocFrom hE _ _ hQ

/-- The state after the fresh block `b` has become address `k` of a cached inode. -/
def Fs.growAddr (s : Fs) (i : Slot) (k b : ℕ) (l : Log) : Fs :=
  { s with
    bitmap := update s.bitmap b true
    block := update s.block b zeroBlock
    inode := update s.inode i ((s.inode i).setAddr k b)
    log := l }

theorem Fs.eff_growAddr (s : Fs) (i : Slot) (k b : ℕ) (l : Log) :
    (s.growAddr i k b l).eff i = Apart.addAddr (s.eff i) (s.inode i).inum k b := by
  simp [Fs.eff, Fs.growAddr, Apart.addAddr, Inode.setAddr]

theorem wp_addrOrAlloc (hE : Exhausts E) {k : ℕ} (hk : k ≤ NDIRECT) (ht : (s.st.inode i).type ≠ 0)
    (ho : Owned s.st.sb s.st.bitmap s.st.block (s.st.eff i))
    (hQ : (s.st.inode i).addrs k ≠ 0 → Q ((s.st.inode i).addrs k) s)
    (hQ' : ∀ b t, (s.st.inode i).addrs k = 0 → Grown i s.st t → (t.inode i).addrs k = b → b ≠ 0 → (∀ j, ptr t.block (t.inode i).toDinode j = if j = k then b else ptr s.st.block (s.st.inode i).toDinode j) → Q b ⟨t, s.owner⟩) :
    wp p E (addrOrAlloc i k) Q s := by
  simp only [addrOrAlloc, readInode, bind_eq, wp_bind, wp_read]
  by_cases hz : (s.st.inode i).addrs k = 0
  · rw [if_pos hz, wp_bind]
    refine wp_balloc hE fun b l hb hsize => ?_
    simp only [modifyInode, wp_bind, wp_modify]
    have ht' : (s.st.eff i (s.st.inode i).inum).type ≠ 0 := by rwa [Fs.eff_self]
    have hz' : (s.st.eff i (s.st.inode i).inum).addrs k = 0 := by rwa [Fs.eff_self]
    refine hQ' b (s.st.growAddr i k b l) hz ⟨⟨rfl, rfl, rfl, rfl, rfl, fun j hj => ?_, ?_⟩, ?_, ?_,
      fun m hm htm j => ?_⟩ ?_ (ho.apart.fresh_ne_zero hb hsize) fun j => ?_
    · simp [Fs.growAddr, hj]
    · simp [Fs.growAddr, Inode.setAddr]
    · rw [Fs.eff_growAddr]
      exact ho.allocAddr hb hsize ht' hk hz'
    · rw [Fs.eff_growAddr]
      exact ho.apart.keep_addAddr hb hsize ht' hk hz'
    · rw [← Fs.eff_of_ne _ _ hm] at htm ⊢
      exact ho.apart.ptr_fresh hb hsize zeroBlock htm
    · simp [Fs.growAddr, Inode.setAddr]
    · have hp := ho.apart.ptr_addAddr hb hsize ht' hk hz' j
      rw [Fs.eff_self, Apart.addAddr, update_self, Fs.eff_self] at hp
      simpa [Fs.growAddr, Inode.setAddr] using hp
  · rw [if_neg hz]
    exact hQ hz

theorem wp_entryOrAlloc (hE : Exhausts E) {j : ℕ} (hj : j < NINDIRECT)
    (ht : (s.st.inode i).type ≠ 0) (ho : Owned s.st.sb s.st.bitmap s.st.block (s.st.eff i))
    (hind : (s.st.inode i).addrs NDIRECT ≠ 0)
    (hQ : ptr s.st.block (s.st.inode i).toDinode (NDIRECT + 1 + j) ≠ 0 → Q (ptr s.st.block (s.st.inode i).toDinode (NDIRECT + 1 + j)) s)
    (hQ' : ∀ b t, ptr s.st.block (s.st.inode i).toDinode (NDIRECT + 1 + j) = 0 → Grown i s.st t → b ≠ 0 → (∀ k, ptr t.block (t.inode i).toDinode k = if k = NDIRECT + 1 + j then b else ptr s.st.block (s.st.inode i).toDinode k) → Q b ⟨t, s.owner⟩) :
    wp p E (entryOrAlloc ((s.st.inode i).addrs NDIRECT) j) Q s := by
  rw [ptr_entry hind, entry] at hQ
  simp only [ptr_entry hind] at hQ'
  simp only [entryOrAlloc, bind_eq, wp_bind, wp_read]
  by_cases hz : (s.st.block ((s.st.inode i).addrs NDIRECT)).get32 (4 * j) = 0
  · rw [if_pos hz, wp_bind]
    refine wp_balloc hE fun b l hb hsize => ?_
    simp only [wp_bind, wp_atomic]
    refine logged_sat hE fun l => ?_
    have ht' : (s.st.eff i (s.st.inode i).inum).type ≠ 0 := by rwa [Fs.eff_self]
    have hind' : (s.st.eff i (s.st.inode i).inum).addrs NDIRECT ≠ 0 := by rwa [Fs.eff_self]
    have hz' : ptr s.st.block (s.st.eff i (s.st.inode i).inum) (NDIRECT + 1 + j) = 0 := by
      rw [ptr_entry hind', Fs.eff_self]
      exact hz
    have hab : (s.st.inode i).addrs NDIRECT ≠ b := by
      have := (ho.apart.indirect_ne_fresh hb hsize ht').resolve_left hind'
      rwa [Fs.eff_self] at this
    have hblk : ∀ c, update (update s.st.block b zeroBlock)
        ((s.st.inode i).addrs NDIRECT) ((update s.st.block b zeroBlock
          ((s.st.inode i).addrs NDIRECT)).put32 (4 * j) c) =
        update (update s.st.block b zeroBlock)
          ((s.st.inode i).addrs NDIRECT)
          ((s.st.block ((s.st.inode i).addrs NDIRECT)).put32 (4 * j) c) := by
      intro c
      rw [update_of_ne hab]
    have ho' := ho.allocEntry hb hsize ht' hj hind' hz'
    have hk' := ho.apart.keep_addEntry hb hsize ht' hj hind' hz'
    have hp' := ho.apart.ptr_addEntry (n := (s.st.inode i).inum) hsize hj hind'
    rw [Fs.eff_self, Apart.addEntry] at ho' hk' hp'
    simp only [Fs.setBlock, hblk]
    refine hQ' b _ hz ⟨⟨rfl, rfl, rfl, rfl, rfl, fun _ _ => rfl, rfl⟩, ho', hk',
      fun m hm htm k => ?_⟩ (ho.apart.fresh_ne_zero hb hsize) hp'
    rw [← Fs.eff_of_ne _ _ hm] at htm ⊢
    have hp := ho.apart.ptr_addEntry_of_ne (j := j) hb hsize hm htm ht' k
    rwa [Fs.eff_self, Apart.addEntry] at hp
  · rw [if_neg hz]
    exact hQ hz

theorem live_succ_direct (h : nb < NDIRECT) (k : ℕ) : Live (nb + 1) k ↔ k = nb ∨ Live nb k := by
  unfold Live
  split_ifs <;> omega

theorem live_succ_indirect (h : NDIRECT ≤ nb) (k : ℕ) :
    Live (nb + 1) k ↔ k = nb + 1 ∨ k = NDIRECT ∨ Live nb k := by
  unfold Live
  split_ifs <;> omega

theorem Full.succ {block : ℕ → Block} {d : Dinode} (hle : nb < MAXFILE)
    (h : ∀ k, k < NPTR → (Xv6.ptr block d k ≠ 0 ↔ Live (nb + 1) k)) : Full block d (nb + 1) :=
  ⟨hle, h⟩

section

variable (hE : Exhausts E) {bn : ℕ} (ht : (s.st.inode i).type ≠ 0)
  (ho : Owned s.st.sb s.st.bitmap s.st.block (s.st.eff i))
include hE bn ht ho

/-- The second half of `bmap` for a block behind the direct ones, when there is an indirect
block. -/
theorem wp_entryOrAlloc_last (hind : (s.st.inode i).addrs NDIRECT ≠ 0)
    (hp : ∀ k, k < NPTR → (ptr s.st.block (s.st.inode i).toDinode k ≠ 0 ↔ k = NDIRECT ∨ Live nb k))
    (hd : NDIRECT ≤ bn) (hbn : bn ≤ nb) (hmax : bn < MAXFILE)
    (hQ : bn < nb → Q (ptr s.st.block (s.st.inode i).toDinode (ptrIndex bn)) s)
    (hQ' : ∀ b t, bn = nb → Grown i s.st t → Full t.block (t.inode i).toDinode (nb + 1) → ptr t.block (t.inode i).toDinode (ptrIndex bn) = b → b ≠ 0 → Q b ⟨t, s.owner⟩) :
    wp p E (entryOrAlloc ((s.st.inode i).addrs NDIRECT) (bn - NDIRECT)) Q s := by
  have hlt : bn - NDIRECT < NINDIRECT := by
    unfold MAXFILE at hmax
    omega
  have hidx : NDIRECT + 1 + (bn - NDIRECT) = ptrIndex bn := by
    rw [ptrIndex, if_neg (by omega)]
    omega
  have hpb := hp (ptrIndex bn) (ptrIndex_lt hmax)
  rw [live_ptrIndex, or_iff_right ptrIndex_ne] at hpb
  refine wp_entryOrAlloc hE hlt ht ho hind ?_ ?_
  · rw [hidx]
    exact fun he => hQ (hpb.mp he)
  · rw [hidx]
    intro b t he hg hb0 hptr
    have hnb : bn = nb := by
      by_contra hne
      exact hpb.mpr (by omega) he
    refine hQ' b t hnb hg (.succ (by omega) fun k hk => ?_) (by rw [hptr, if_pos rfl]) hb0
    rw [hptr, live_succ_indirect (by omega)]
    by_cases hkb : k = ptrIndex bn
    · rw [if_pos hkb]
      exact iff_of_true hb0 (.inl (by omega))
    · rw [if_neg hkb, hp k hk, or_iff_right (a := k = nb + 1)]
      omega

/-- `bmap` reads the address of a block of the file, and allocates the block behind the last. -/
theorem wp_bmap (hf : Full s.st.block (s.st.inode i).toDinode nb) (hbn : bn ≤ nb) (hmax : bn < MAXFILE)
    (hQ : bn < nb → Q (ptr s.st.block (s.st.inode i).toDinode (ptrIndex bn)) s)
    (hQ' : ∀ b t, bn = nb → Grown i s.st t → Full t.block (t.inode i).toDinode (nb + 1) → ptr t.block (t.inode i).toDinode (ptrIndex bn) = b → b ≠ 0 → Q b ⟨t, s.owner⟩) :
    wp p E (bmap i bn) Q s := by
  unfold bmap
  by_cases hd : bn < NDIRECT
  · rw [if_pos hd]
    have hidx : ptrIndex bn = bn := if_pos hd
    have hp : ptr s.st.block (s.st.inode i).toDinode bn = (s.st.inode i).addrs bn :=
      ptr_of_le (le_of_lt hd)
    rw [hidx] at hQ hQ'
    refine wp_addrOrAlloc hE (le_of_lt hd) ht ho (fun hz => ?_) fun b t hz hg hb hb0 hptr => ?_
    · rw [hp] at hQ
      refine hQ (by_contra fun hlt => hz (hf.addr_eq_zero (le_of_lt hd) (by omega)))
    · have hnb : bn = nb := by
        by_contra hne
        exact hf.addr_ne_zero (le_of_lt hd) (by omega) hz
      refine hQ' b t hnb hg (.succ (by omega) fun k hk => ?_) (by rw [hptr, if_pos rfl]) hb0
      rw [hptr, live_succ_direct (by omega)]
      by_cases hkb : k = bn
      · rw [if_pos hkb]
        exact iff_of_true hb0 (.inl (by omega))
      · rw [if_neg hkb, hf.ptr k hk, or_iff_right (a := k = nb)]
        omega
  · have hlt : bn - NDIRECT < NINDIRECT := by
      unfold MAXFILE at hmax
      omega
    rw [if_neg hd, if_pos hlt, bind_eq, wp_bind]
    refine wp_addrOrAlloc hE le_rfl ht ho (fun hz => ?_) fun a t hz hg ha ha0 hptr => ?_
    · refine wp_entryOrAlloc_last hE ht ho hz (fun k hk => ?_) (by omega) hbn hmax hQ hQ'
      rw [← hf.ptr k hk, iff_comm, or_iff_right_iff_imp]
      rintro rfl
      rwa [ptr_of_le le_rfl]
    · -- The indirect block is new, so the file has no blocks behind the direct ones.
      have hnb : nb = NDIRECT := by
        by_contra hne
        exact hf.addr_ne_zero le_rfl (by omega) hz
      subst ha
      refine wp_entryOrAlloc_last (s := ⟨t, s.owner⟩) hE (by rwa [hg.frame.type]) hg.owned ha0
        (fun k hk => ?_) (by omega) hbn hmax (fun hlt => by omega) fun b u hb hg' => ?_
      · rw [hptr]
        by_cases hkd : k = NDIRECT
        · rw [if_pos hkd]
          exact iff_of_true ha0 (.inl hkd)
        · rw [if_neg hkd, hf.ptr k hk, or_iff_right hkd]
      · exact hQ' b u hb (hg.trans hg')

end

end Alloc

def bytesAt (block : ℕ → Block) (d : Dinode) (off n : ℕ) : List UInt8 :=
  (List.range n).map fun j => byteAt block d (off + j)

@[simp] theorem bytesAt_length (block : ℕ → Block) (d : Dinode) (off n : ℕ) :
    (bytesAt block d off n).length = n := by
  simp [bytesAt]

theorem bytesAt_add (block : ℕ → Block) (d : Dinode) (off m n : ℕ) :
    bytesAt block d off m ++ bytesAt block d (off + m) n = bytesAt block d off (m + n) := by
  simp only [bytesAt, List.range_add, List.map_append, List.map_map]
  congr 1
  apply List.map_congr_left
  intro j _
  simp only [Function.comp_apply, Nat.add_assoc]

theorem slice_eq_bytesAt (block : ℕ → Block) (d : Dinode) {off m : ℕ}
    (h : off % BSIZE + m ≤ BSIZE) :
    (block (ptr block d (ptrIndex (off / BSIZE)))).slice (off % BSIZE) m = bytesAt block d off m := by
  apply List.map_congr_left
  intro j hj
  have hj' := List.mem_range.mp hj
  have hB : 0 < BSIZE := by decide
  have hdiv : (off + j) / BSIZE = off / BSIZE := by
    rw [Nat.div_eq_iff hB, Nat.mul_comm]
    have := Nat.div_add_mod off BSIZE
    omega
  have hmod : (off + j) % BSIZE = off % BSIZE + j := by
    rw [Nat.add_mod, Nat.mod_eq_of_lt (a := j) (by omega), Nat.mod_eq_of_lt (by omega)]
  rw [byteAt, hdiv, hmod]

section Loops

variable {P : Type} {p : P} {s : Shared Fs Slot P} {off n b : ℕ} {a src : List UInt8}
  {block block' : ℕ → Block} {D D' : ℕ → Dinode} {sb : Superblock} {bits : ℕ → Bool}
  {Q : ℕ → Shared Fs Slot P → Prop}

theorem halts_bmap_of_ptr {s : Fs} {E : Option String → Fs → Prop} {bn : ℕ}
    (h : ptr s.block (s.inode i).toDinode (ptrIndex bn) ≠ 0)
    (hbn : bn < MAXFILE) : Halts p E (bmap i bn) s fun b t =>
      b = ptr s.block (s.inode i).toDinode (ptrIndex bn) ∧ t = s := by
  unfold bmap
  by_cases hd : bn < NDIRECT
  · have hidx : ptrIndex bn = bn := if_pos hd
    rw [hidx, ptr_of_le (Nat.le_of_lt hd)] at h ⊢
    rw [if_pos hd]
    apply Halts.bind_read
    rw [if_neg h]
    exact .ret ⟨rfl, rfl⟩
  · have hidx : ptrIndex bn = NDIRECT + 1 + (bn - NDIRECT) := by
      rw [ptrIndex, if_neg hd]
      omega
    have hlt : bn - NDIRECT < NINDIRECT := by
      unfold MAXFILE at hbn
      omega
    have hind : (s.inode i).addrs NDIRECT ≠ 0 := by
      intro hz
      rw [ptr_of_zero (by omega) hz] at h
      exact h rfl
    rw [hidx, ptr_entry hind, entry] at h ⊢
    rw [if_neg hd, if_pos hlt]
    refine Halts.bind (Q := fun a t => a = (s.inode i).addrs NDIRECT ∧ t = s) ?_ ?_
    · apply Halts.bind_read
      rw [if_neg hind]
      exact .ret ⟨rfl, rfl⟩
    · rintro _ _ ⟨rfl, rfl⟩
      apply Halts.bind_read
      rw [if_neg h]
      exact .ret ⟨rfl, rfl⟩

theorem halts_readLoop {s : Fs} {E : Option String → Fs → Prop} (hnb : nb ≤ MAXFILE)
    (hptr : ∀ bn < nb, ptr s.block (s.inode i).toDinode (ptrIndex bn) ≠ 0) {k : ℕ} (hk : n ≤ k)
    (hn : off + n ≤ nb * BSIZE) : Halts p E (readLoop i k off n) s fun l t =>
      t = s ∧ l = bytesAt s.block (s.inode i).toDinode off n := by
  induction k generalizing off n with
  | zero =>
    obtain rfl : n = 0 := Nat.le_zero.mp hk
    exact .ret ⟨rfl, rfl⟩
  | succ k ih =>
    rw [readLoop]
    apply Halts.ite
    · rintro rfl
      exact .ret ⟨rfl, rfl⟩
    · intro hn0
      have hmod := Nat.mod_lt off (y := BSIZE) (by decide)
      have hbn : off / BSIZE < nb := by
        rw [Nat.div_lt_iff_lt_mul (by decide)]
        omega
      apply (halts_bmap_of_ptr (hptr _ hbn) (Nat.lt_of_lt_of_le hbn hnb)).bind
      rintro b t ⟨rfl, ht⟩
      rw [ht]
      apply Halts.bind_read
      generalize hm : min n (BSIZE - off % BSIZE) = m
      refine Halts.bind (ih (by omega) (by omega)) ?_
      rintro l u ⟨hu, rfl⟩
      refine .ret ⟨hu, ?_⟩
      rw [slice_eq_bytesAt _ _ (by omega), bytesAt_add, Nat.add_sub_cancel' (by omega)]

/-- The bytes `src` were written into file `n` from offset `off` on, no pointer is lost, and no
other byte of a file has changed. -/
structure Stored (n off : ℕ) (src : List UInt8) (block : ℕ → Block) (D : ℕ → Dinode)
    (block' : ℕ → Block) (D' : ℕ → Dinode) : Prop where
  holds : ∀ x b, Holds block D x b → Holds block' D' x b
  kept : ∀ m x b, Holds block D (m, ptrIndex (x / BSIZE)) b →
    ¬ (m = n ∧ off ≤ x ∧ x < off + src.length) →
    byteAt block' (D' m) x = byteAt block (D m) x
  new : ∀ x, off ≤ x → x < off + src.length →
    (∃ b, Holds block' D' (n, ptrIndex (x / BSIZE)) b) ∧
    byteAt block' (D' n) x = src.getD (x - off) 0

theorem Stored.nil (n off : ℕ) (block : ℕ → Block) (D : ℕ → Dinode) :
    Stored n off [] block D block D where
  holds _ _ := id
  kept _ _ _ _ _ := rfl
  new x h1 h2 := by
    simp only [List.length_nil] at h2
    omega

theorem Stored.append {b : List UInt8} {block'' : ℕ → Block} {D'' : ℕ → Dinode}
    (h : Stored n off a block D block' D') (h' : Stored n (off + a.length) b block' D' block'' D'') :
    Stored n off (a ++ b) block D block'' D'' where
  holds x c hc := h'.holds x c (h.holds x c hc)
  kept m x c hc hx := by
    rw [List.length_append] at hx
    rw [h'.kept m x c (h.holds _ _ hc) (by omega), h.kept m x c hc (by omega)]
  new x h1 h2 := by
    rw [List.length_append] at h2
    by_cases hx : x < off + a.length
    · -- Written by the first part and kept by the second.
      obtain ⟨⟨c, hc⟩, hv⟩ := h.new x h1 hx
      refine ⟨⟨c, h'.holds _ _ hc⟩, ?_⟩
      rw [h'.kept _ x c hc (by omega), hv, List.getD_append _ _ _ _ (by omega)]
    · have hn := h'.new x (by omega) (by omega)
      refine ⟨hn.1, ?_⟩
      rw [hn.2, List.getD_append_right _ _ _ _ (by omega), Nat.sub_sub]

theorem Apart.byteAt_write {m x c : ℕ} (h : Apart sb bits block D)
    (hb : Holds block D (n, ptrIndex (off / BSIZE)) b) (hlen : off % BSIZE + src.length ≤ BSIZE)
    (hc : Holds block D (m, ptrIndex (x / BSIZE)) c) :
    byteAt (update block b ((block b).put (off % BSIZE) src)) (D m) x =
      if m = n ∧ off ≤ x ∧ x < off + src.length then src.getD (x - off) 0
      else byteAt block (D m) x := by
  have hB : 0 < BSIZE := by decide
  have hoff := Nat.div_add_mod off BSIZE
  have hx := Nat.div_add_mod x BSIZE
  have hxB := Nat.mod_lt x hB
  have hpc : ptr block (D m) (ptrIndex (x / BSIZE)) = c := hc.2.2.1
  rw [byteAt, byteAt, h.ptr_writeData hb ptrIndex_ne _ hc.1, hpc]
  by_cases hcb : c = b
  · subst hcb
    -- The same block: then `x` lies in it, and the same part of it is meant.
    have he := h.covers.inj _ _ _ hb hc
    rw [Prod.mk.injEq] at he
    rw [← ptrIndex_inj he.2] at hx
    rw [update_self]
    by_cases hin : off ≤ x ∧ x < off + src.length
    · rw [if_pos ⟨he.1.symm, hin⟩, Bytes.get_put_of_mem _ _ hxB (by omega) (by omega)]
      congr 1
      omega
    · rw [if_neg fun hp => hin hp.2]
      by_cases hlt : x % BSIZE < off % BSIZE
      · exact Bytes.get_put_of_lt _ _ hlt
      · exact Bytes.get_put_of_ge _ _ (by omega)
  · rw [update_of_ne hcb, if_neg]
    rintro ⟨rfl, h1, h2⟩
    have hdiv : x / BSIZE = off / BSIZE := by
      rw [Nat.div_eq_iff hB, Nat.mul_comm]
      omega
    rw [hdiv] at hc
    exact hcb (hc.2.2.1.symm.trans hb.2.2.1)

theorem Apart.stored (h : Apart sb bits block' D') (hkeep : Keep block D block' D')
    (hb : Holds block' D' (n, ptrIndex (off / BSIZE)) b) (hlen : off % BSIZE + src.length ≤ BSIZE) :
    Stored n off src block D (update block' b ((block' b).put (off % BSIZE) src)) D' where
  holds x c hc := (h.holds_writeData hb ptrIndex_ne _ x c).mpr (hkeep.holds x c hc)
  kept m x c hc hx := by
    have hc' := hkeep.holds _ _ hc
    rw [h.byteAt_write hb hlen hc', if_neg hx, byteAt, byteAt, hc'.2.2.1, hc.2.2.1,
      hkeep.data _ c hc ptrIndex_ne]
  new x h1 h2 := by
    have hB : 0 < BSIZE := by decide
    have hoff := Nat.div_add_mod off BSIZE
    have hdiv : x / BSIZE = off / BSIZE := by
      rw [Nat.div_eq_iff hB, Nat.mul_comm]
      omega
    have hb' : Holds block' D' (n, ptrIndex (x / BSIZE)) b := hdiv ▸ hb
    refine ⟨⟨b, (h.holds_writeData hb ptrIndex_ne _ _ _).mpr hb'⟩, ?_⟩
    rw [h.byteAt_write hb hlen hb', if_pos ⟨rfl, h1, h2⟩]

/-- The bytes `src` were written into a file from offset `off` on, and no other byte of a file
has changed. -/
structure Wrote (i : Slot) (off : ℕ) (src : List UInt8) (s t : Fs) : Prop where
  frame : Frame i s t
  owned : Owned t.sb t.bitmap t.block (t.eff i)
  holds : ∀ x b, Holds s.block (s.eff i) x b → Holds t.block (t.eff i) x b
  other : ∀ m, m ≠ (s.inode i).inum → (s.dinode m).type ≠ 0 →
    ∀ k, ptr t.block (s.dinode m) k = ptr s.block (s.dinode m) k
  kept : ∀ m x b, Holds s.block (s.eff i) (m, ptrIndex (x / BSIZE)) b →
    ¬ (m = (s.inode i).inum ∧ off ≤ x ∧ x < off + src.length) →
    byteAt t.block (t.eff i m) x = byteAt s.block (s.eff i m) x
  new : ∀ x, off ≤ x → x < off + src.length →
    (∃ b, Holds t.block (t.eff i) ((s.inode i).inum, ptrIndex (x / BSIZE)) b) ∧
    byteAt t.block (t.eff i (s.inode i).inum) x = src.getD (x - off) 0

theorem Wrote.stored {s : Fs} (h : Wrote i off src s t) :
    Stored (s.inode i).inum off src s.block (s.eff i) t.block (t.eff i) :=
  ⟨h.holds, h.kept, h.new⟩

theorem Stored.wrote {s : Fs}
    (h : Stored (s.inode i).inum off src s.block (s.eff i) t.block (t.eff i)) (hf : Frame i s t)
    (ho : Owned t.sb t.bitmap t.block (t.eff i))
    (hother : ∀ m, m ≠ (s.inode i).inum → (s.dinode m).type ≠ 0 → ∀ k, ptr t.block (s.dinode m) k = ptr s.block (s.dinode m) k) :
    Wrote i off src s t :=
  ⟨hf, ho, h.holds, hother, h.kept, h.new⟩

theorem Wrote.nil {s : Fs} (h : Owned s.sb s.bitmap s.block (s.eff i)) : Wrote i off [] s s :=
  (Stored.nil ..).wrote (.refl i s) h fun _ _ _ _ => rfl

theorem Wrote.append {b : List UInt8} {s u : Fs} (h : Wrote i off a s t)
    (h' : Wrote i (off + a.length) b t u) : Wrote i off (a ++ b) s u := by
  have hb := h'.stored
  rw [h.frame.inum] at hb
  refine (h.stored.append hb).wrote (h.frame.trans h'.frame) h'.owned fun m hm ht k => ?_
  have h2 := h'.other m (by rwa [h.frame.inum]) (by rwa [h.frame.dinode]) k
  rw [h.frame.dinode] at h2
  rw [h2, h.other m hm ht k]

theorem Grown.wrote {s u : Fs} (h : Grown i s t)
    (hb : Holds t.block (t.eff i) ((s.inode i).inum, ptrIndex (off / BSIZE)) b)
    (hlen : off % BSIZE + src.length ≤ BSIZE) {l : Log} (hu : u = { t with
      block := update t.block b ((t.block b).put (off % BSIZE) src), log := l }) :
    Wrote i off src s u := by
  subst hu
  refine Stored.wrote (h.owned.apart.stored h.keep hb hlen) ⟨h.frame.sb, h.frame.dinode,
    h.frame.file, h.frame.proc, h.frame.env, h.frame.other, h.frame.self⟩
    (h.owned.writeData hb ptrIndex_ne _) fun m hm htm k => ?_
  have heff : t.eff i m = s.dinode m := by
    rw [Fs.eff_of_ne _ _ (by rwa [h.frame.inum]), h.frame.dinode]
  rw [← h.other m hm htm k, ← heff]
  exact h.owned.apart.ptr_writeData hb ptrIndex_ne _ (by rwa [heff]) k

theorem nblk_le {size : ℕ} : nblk size ≤ nb ↔ size ≤ nb * BSIZE := by
  have hB : BSIZE = 512 := rfl
  unfold nblk
  rw [hB, Nat.div_le_iff_le_mul_add_pred (by decide)]
  omega

theorem nblk_max (a b : ℕ) : nblk (max a b) = max (nblk a) (nblk b) := by
  have hmono : Monotone nblk := fun a b h => Nat.div_le_div_right (Nat.add_le_add_right h _)
  exact hmono.map_max

theorem lt_nblk {size : ℕ} (h : off < size) : off / BSIZE < nblk size := by
  by_contra hle
  have hs := nblk_le.mp (Nat.le_of_not_lt hle)
  have := Nat.div_mul_le_self off BSIZE
  omega

section

variable (hE : Exhausts E) (ht : (s.st.inode i).type ≠ 0)
  (ho : Owned s.st.sb s.st.bitmap s.st.block (s.st.eff i))
  (hf : Full s.st.block (s.st.inode i).toDinode nb)
include hE ht ho hf

theorem wp_bmap_write (hoff : off ≤ nb * BSIZE)
    (hmax : off < MAXFILE * BSIZE)
    (hQ : ∀ b t, Grown i s.st t → Full t.block (t.inode i).toDinode (max nb (off / BSIZE + 1)) → Holds t.block (t.eff i) ((s.st.inode i).inum, ptrIndex (off / BSIZE)) b → (off / BSIZE < nb → (t.inode i).addrs = (s.st.inode i).addrs) → Q b ⟨t, s.owner⟩) :
    wp p E (bmap i (off / BSIZE)) Q s := by
  have hB : 0 < BSIZE := by decide
  have hbn : off / BSIZE ≤ nb := Nat.div_le_of_le_mul (by rwa [Nat.mul_comm])
  have hbm : off / BSIZE < MAXFILE := (Nat.div_lt_iff_lt_mul hB).mpr hmax
  refine wp_bmap hE ht ho hf hbn hbm (fun hlt => ?_) fun b t he hg hf' hp hb0 => ?_
  · refine hQ _ s.st (.refl ho) ?_ ⟨?_, ptrIndex_lt hbm, ?_, hf.ptr_ne_zero hlt⟩ fun _ => rfl
    · rwa [max_eq_left (by omega)]
    · rwa [Fs.eff_self]
    · rw [Fs.eff_self]
  · have hinum : t.eff i (s.st.inode i).inum = (t.inode i).toDinode := by
      rw [← hg.frame.inum, Fs.eff_self]
    refine hQ b t hg ?_ ⟨?_, ptrIndex_lt hbm, ?_, hb0⟩ fun h => absurd h (by omega)
    · rwa [he, max_eq_right (by omega)]
    · rwa [hinum, hg.frame.type]
    · rwa [hinum]

/-- The loop writes all of `src`.  Where it does not pass the last block, it allocates nothing. -/
theorem wp_writeLoop {k : ℕ} (hk : src.length ≤ k)
    (hoff : off ≤ nb * BSIZE) (hmax : off + src.length ≤ MAXFILE * BSIZE)
    (hQ : ∀ t, Wrote i off src s.st t → Full t.block (t.inode i).toDinode (max nb (nblk (off + src.length))) → (nblk (off + src.length) ≤ nb → (t.inode i).addrs = (s.st.inode i).addrs) → Q (off + src.length) ⟨t, s.owner⟩) :
    wp p E (writeLoop i k off src) Q s := by
  induction k generalizing off src s nb Q with
  | zero =>
    obtain rfl : src = [] := List.eq_nil_of_length_eq_zero (by omega)
    exact hQ s.st (.nil ho) ((max_eq_left (nblk_le.mpr hoff)).symm ▸ hf) fun _ => rfl
  | succ k ih =>
    rw [writeLoop]
    by_cases hlen : src.length = 0
    · obtain rfl : src = [] := List.eq_nil_of_length_eq_zero hlen
      exact hQ s.st (.nil ho) ((max_eq_left (nblk_le.mpr hoff)).symm ▸ hf) fun _ => rfl
    · rw [if_neg hlen, bind_eq, wp_bind]
      refine wp_bmap_write hE ht ho hf hoff (by omega) fun b t hg hf' hb hsame => ?_
      simp only [bind_eq, wp_bind, wp_atomic]
      refine logged_sat hE fun l => ?_
      have hB : 0 < BSIZE := by decide
      have hmod := Nat.mod_lt off hB
      have hdm := Nat.div_add_mod off BSIZE
      generalize hm : min src.length (BSIZE - off % BSIZE) = m
      have htake : (src.take m).length = m := by rw [List.length_take]; omega
      have hdrop : (src.drop m).length = src.length - m := List.length_drop
      have hin : off % BSIZE + (src.take m).length ≤ BSIZE := by omega
      have hw := hg.wrote hb hin (l := l) rfl
      -- The loop goes on in a state where the block is allocated and written.
      have hlast : off / BSIZE < nblk (off + src.length) := lt_nblk (by omega)
      have hend : off + m + (src.length - m) = off + src.length := by omega
      have hf2 : Full (update t.block b ((t.block b).put (off % BSIZE) (src.take m)))
          (t.inode i).toDinode (max nb (off / BSIZE + 1)) := by
        refine hf'.congr fun k => ?_
        have hp := hg.owned.apart.ptr_writeData hb ptrIndex_ne
          ((t.block b).put (off % BSIZE) (src.take m)) hb.1 k
        rwa [← hg.frame.inum, Fs.eff_self] at hp
      refine ih (hg.frame.type.trans_ne ht) hw.owned hf2 (by omega) ?_ (by omega)
        fun u hw' hf'' hsame' => ?_
      · calc off + m ≤ (off / BSIZE + 1) * BSIZE := by
              rw [Nat.add_mul, Nat.mul_comm (off / BSIZE)]
              omega
          _ ≤ max nb (off / BSIZE + 1) * BSIZE := Nat.mul_le_mul_right _ (le_max_right _ _)
      · rw [hdrop, hend] at hf'' hsame' ⊢
        refine hQ u ?_ ?_ fun hle => ?_
        · have hw'' := hw.append (b := src.drop m) (u := u) (by rwa [htake])
          rwa [List.take_append_drop] at hw''
        · rwa [max_assoc, max_eq_right (a := off / BSIZE + 1) (by omega)] at hf''
        · rw [hsame' (by omega)]
          exact hsame (by omega)

end

end Loops

end Xv6
