import Xv6.Lib.Ledger
import Xv6.Fs.Trunc

namespace Xv6
open Lib Function

def NPTR : ℕ := NDIRECT + 1 + NINDIRECT

def ptr (block : ℕ → Block) (d : Dinode) (k : ℕ) : ℕ :=
  if k ≤ NDIRECT then d.addrs k
  else if d.addrs NDIRECT = 0 then 0
  else entry (block (d.addrs NDIRECT)) (k - (NDIRECT + 1))

/-- The pointer to block `bn` of the file. -/
def ptrIndex (bn : ℕ) : ℕ := if bn < NDIRECT then bn else bn + 1

/-- A file of `nb` blocks uses pointer `k`. -/
def Live (nb k : ℕ) : Prop := if k ≤ NDIRECT then k < nb else k ≤ nb

instance (nb k : ℕ) : Decidable (Live nb k) := inferInstanceAs (Decidable (ite _ _ _))

/-- The inode has exactly the pointers of a file of `nb` blocks. -/
structure Full (block : ℕ → Block) (d : Dinode) (nb : ℕ) : Prop where
  le : nb ≤ MAXFILE
  ptr : ∀ k, k < NPTR → (ptr block d k ≠ 0 ↔ Live nb k)

/-- Pointer `x.2` of the allocated inode `x.1` names block `b`. -/
def Holds (block : ℕ → Block) (D : ℕ → Dinode) (x : ℕ × ℕ) (b : ℕ) : Prop :=
  (D x.1).type ≠ 0 ∧ x.2 < NPTR ∧ ptr block (D x.1) x.2 = b ∧ b ≠ 0

def Superblock.dataStart (sb : Superblock) : ℕ := sb.size - sb.nblocks

/-- The bitmap marks the metadata and the blocks of the inodes `D`, and no block is named twice.
The number of blocks is a `uint`. -/
structure Owned (sb : Superblock) (bits : ℕ → Bool) (block : ℕ → Block) (D : ℕ → Dinode) :
    Prop where
  start : 0 < sb.dataStart
  size : sb.size < 2 ^ 32
  exact : Exact sb.dataStart sb.size bits (Holds block D)

/-- The same, but more bits may be set. -/
structure Apart (sb : Superblock) (bits : ℕ → Bool) (block : ℕ → Block) (D : ℕ → Dinode) :
    Prop where
  start : 0 < sb.dataStart
  size : sb.size < 2 ^ 32
  covers : Covers sb.dataStart sb.size bits (Holds block D)

variable {block : ℕ → Block} {D D' : ℕ → Dinode} {d : Dinode} {k n b : ℕ} {sb : Superblock}
  {bits : ℕ → Bool}

theorem Owned.apart {sb : Superblock} {bits : ℕ → Bool} (h : Owned sb bits block D) :
    Apart sb bits block D :=
  ⟨h.start, h.size, h.exact.covers⟩

section Pointers

variable {nb bn : ℕ}

theorem ptr_of_le (h : k ≤ NDIRECT) : ptr block d k = d.addrs k := if_pos h

theorem ptr_entry {j : ℕ} (h : d.addrs NDIRECT ≠ 0) :
    ptr block d (NDIRECT + 1 + j) = entry (block (d.addrs NDIRECT)) j := by
  rw [ptr, if_neg (by omega), if_neg h, Nat.add_sub_cancel_left]

theorem ptr_of_zero (hk : NDIRECT < k) (h : d.addrs NDIRECT = 0) : ptr block d k = 0 := by
  rw [ptr, if_neg (by omega), if_pos h]

theorem ptr_update_block {b : ℕ} (c : Block) (h : d.addrs NDIRECT = 0 ∨ d.addrs NDIRECT ≠ b) :
    ptr (update block b c) d k = ptr block d k := by
  unfold ptr
  rcases h with h | h
  · simp only [h, if_true]
  · rw [update_of_ne h]

theorem ptrIndex_lt (h : bn < MAXFILE) : ptrIndex bn < NPTR := by
  unfold ptrIndex NPTR
  unfold MAXFILE at h
  split_ifs <;> omega

theorem ptrIndex_ne : ptrIndex bn ≠ NDIRECT := by
  unfold ptrIndex
  split_ifs <;> omega

theorem ptrIndex_inj {a b : ℕ} (h : ptrIndex a = ptrIndex b) : a = b := by
  unfold ptrIndex at h
  split_ifs at h <;> omega

theorem live_ptrIndex : Live nb (ptrIndex bn) ↔ bn < nb := by
  unfold Live ptrIndex
  split_ifs <;> omega

section

variable (h : Full block d nb)
include h

theorem Full.ptr_ne_zero (hbn : bn < nb) :
    Xv6.ptr block d (ptrIndex bn) ≠ 0 :=
  (h.ptr _ (ptrIndex_lt (lt_of_lt_of_le hbn h.le))).mpr (live_ptrIndex.mpr hbn)

theorem Full.addr_ne_zero (hk : k ≤ NDIRECT) (hnb : k < nb) :
    d.addrs k ≠ 0 := by
  have hp : Xv6.ptr block d k = d.addrs k := ptr_of_le hk
  rw [← hp, h.ptr k (by unfold NPTR; omega), Live, if_pos hk]
  exact hnb

theorem Full.addr_eq_zero (hk : k ≤ NDIRECT) (hnb : nb ≤ k) :
    d.addrs k = 0 := by
  have hp : Xv6.ptr block d k = d.addrs k := ptr_of_le hk
  by_contra hz
  rw [← hp, ← ne_eq, h.ptr k (by unfold NPTR; omega), Live, if_pos hk] at hz
  omega

theorem Full.congr {block' : ℕ → Block} {d' : Dinode}
    (hp : ∀ k, Xv6.ptr block' d' k = Xv6.ptr block d k) : Full block' d' nb where
  le := h.le
  ptr k hk := by rw [hp, h.ptr k hk]

end

theorem full_fresh (type : ℤ) : Full block (.fresh type) 0 where
  le := Nat.zero_le _
  ptr k _ := by
    have hz : Xv6.ptr block (.fresh type) k = 0 := by simp [Xv6.ptr, Dinode.fresh]
    have hl : ¬ Live 0 k := by
      unfold Live
      split_ifs <;> omega
    simp [hz, hl]

end Pointers

namespace Apart

variable {m j : ℕ}

theorem indirect_lt : NDIRECT < NPTR := by decide

section

variable (h : Apart sb bits block D)
include h

theorem indirect_ne_fresh (hb : bits b = false) (hsize : b < sb.size)
    (ht : (D n).type ≠ 0) : (D n).addrs NDIRECT = 0 ∨ (D n).addrs NDIRECT ≠ b := by
  by_cases hz : (D n).addrs NDIRECT = 0
  · exact .inl hz
  · right
    rintro rfl
    have hh : Holds block D (n, NDIRECT) ((D n).addrs NDIRECT) :=
      ⟨ht, indirect_lt, ptr_of_le le_rfl, hz⟩
    exact (h.covers.fresh hb hsize).2 _ hh

theorem fresh_ne_zero (hb : bits b = false) (hsize : b < sb.size) :
    b ≠ 0 := by
  have h1 := h.start
  have h2 := (h.covers.fresh hb hsize).1
  omega

theorem indirect_ne_other (hm : (D m).type ≠ 0) (hn : (D n).type ≠ 0)
    (hmn : m ≠ n) : (D m).addrs NDIRECT = 0 ∨ (D m).addrs NDIRECT ≠ (D n).addrs NDIRECT := by
  by_cases hz : (D m).addrs NDIRECT = 0
  · exact .inl hz
  · right
    intro he
    have h1 : Holds block D (m, NDIRECT) ((D m).addrs NDIRECT) :=
      ⟨hm, indirect_lt, ptr_of_le le_rfl, hz⟩
    have h2 : Holds block D (n, NDIRECT) ((D m).addrs NDIRECT) :=
      ⟨hn, indirect_lt, (ptr_of_le le_rfl).trans he.symm, hz⟩
    exact hmn (Prod.mk.inj (h.covers.inj _ _ _ h1 h2)).1

theorem ptr_fresh (hb : bits b = false) (hsize : b < sb.size) (c : Block) (ht : (D n).type ≠ 0) :
    ptr (update block b c) (D n) k = ptr block (D n) k :=
  ptr_update_block c (h.indirect_ne_fresh hb hsize ht)

end

def addAddr (D : ℕ → Dinode) (n k b : ℕ) : ℕ → Dinode :=
  update D n { D n with addrs := update (D n).addrs k b }

theorem entry_zeroBlock (j : ℕ) : entry zeroBlock j = 0 := by
  simp [entry, Bytes.get32, num32, Bytes.slice, Bytes.get, zeroBlock, List.range_succ]

theorem addAddr_type (m : ℕ) : (addAddr D n k b m).type = (D m).type := by
  unfold addAddr
  by_cases hm : m = n
  · subst hm
    simp
  · rw [update_of_ne hm]

theorem ptr_addAddr_of_ne (h : Apart sb bits block D) (hb : bits b = false) (hsize : b < sb.size)
    (hm : m ≠ n) (ht : (D m).type ≠ 0) (j : ℕ) :
    ptr (update block b zeroBlock) (addAddr D n k b m) j = ptr block (D m) j := by
  rw [addAddr, update_of_ne hm]
  exact h.ptr_fresh hb hsize zeroBlock ht

theorem holds_add {block' : ℕ → Block} {D' : ℕ → Dinode} (hb0 : b ≠ 0)
    (htype : ∀ m, (D' m).type = (D m).type) (ht : (D n).type ≠ 0) (hk : k < NPTR)
    (hz : ptr block (D n) k = 0)
    (hself : ∀ j, ptr block' (D' n) j = if j = k then b else ptr block (D n) j)
    (hother : ∀ m, m ≠ n → (D m).type ≠ 0 → ∀ j, ptr block' (D' m) j = ptr block (D m) j)
    (x : ℕ × ℕ) (c : ℕ) : Holds block' D' x c ↔ Holds block D x c ∨ x = (n, k) ∧ c = b := by
  obtain ⟨m, j⟩ := x
  simp only [Holds, htype, Prod.mk.injEq]
  by_cases hm : m = n
  · subst hm
    rw [hself]
    by_cases hj : j = k
    · subst hj
      simp only [if_true, hz, hk, ht, ne_eq, not_false_eq_true, true_and]
      constructor
      · rintro ⟨rfl, _⟩
        exact .inr rfl
      · rintro (⟨rfl, hc⟩ | rfl)
        · exact absurd rfl hc
        · exact ⟨rfl, hb0⟩
    · simp [hj]
  · simp only [hm, false_and, or_false]
    refine and_congr_right fun htm => ?_
    rw [hother m hm htm]

section

variable (h : Apart sb bits block D) (hb : bits b = false) (hsize : b < sb.size)
  (ht : (D n).type ≠ 0) (hk : k ≤ NDIRECT) (hz : (D n).addrs k = 0)
include h hb hsize ht hk hz

theorem ptr_addAddr (j : ℕ) :
    ptr (update block b zeroBlock) (addAddr D n k b n) j =
      if j = k then b else ptr block (D n) j := by
  have hb0 := h.fresh_ne_zero hb hsize
  simp only [addAddr, update_self]
  by_cases hj : j ≤ NDIRECT
  · rw [ptr_of_le hj, ptr_of_le hj]
    by_cases hjk : j = k
    · simp [hjk]
    · simp [hjk]
  · rw [if_neg (by omega)]
    by_cases hkn : k = NDIRECT
    · -- The new block is the indirect block, and none of its entries is set.
      subst hkn
      rw [ptr_of_zero (by omega) hz, ptr, if_neg hj]
      simp [hb0, entry_zeroBlock]
    · rw [ptr_update_block]
      · simp [ptr, hj, update_of_ne (Ne.symm hkn)]
      · simpa [update_of_ne (Ne.symm hkn)] using h.indirect_ne_fresh hb hsize ht

theorem holds_addAddr (x : ℕ × ℕ) (c : ℕ) :
    Holds (update block b zeroBlock) (addAddr D n k b) x c ↔
      Holds block D x c ∨ x = (n, k) ∧ c = b := by
  have hlt : k < NPTR := by unfold NPTR; omega
  exact holds_add (h.fresh_ne_zero hb hsize) addAddr_type ht hlt ((ptr_of_le hk).trans hz)
    (h.ptr_addAddr hb hsize ht hk hz) (fun m hm htm => h.ptr_addAddr_of_ne hb hsize hm htm) x c

theorem allocAddr :
    Apart sb (update bits b true) (update block b zeroBlock)
      (addAddr D n k b) where
  start := h.start
  size := h.size
  covers := h.covers.insert hb hsize (h.holds_addAddr hb hsize ht hk hz)

end

/-- The blocks after entry `j` of the indirect block `a` was set to the fresh block `b`. -/
def addEntry (block : ℕ → Block) (a j b : ℕ) : ℕ → Block :=
  update (update block b zeroBlock) a ((block a).put32 (4 * j) b)

section

variable (h : Apart sb bits block D)
include h

theorem ptr_addEntry (hsize : b < sb.size) (hj : j < NINDIRECT)
    (hind : (D n).addrs NDIRECT ≠ 0) (i : ℕ) :
    ptr (addEntry block ((D n).addrs NDIRECT) j b) (D n) i =
      if i = NDIRECT + 1 + j then b else ptr block (D n) i := by
  have hb32 : b < 4294967296 := lt_trans hsize h.size
  by_cases hi : i ≤ NDIRECT
  · rw [if_neg (by omega), ptr_of_le hi, ptr_of_le hi]
  · obtain ⟨e, rfl⟩ := Nat.exists_eq_add_of_lt (Nat.lt_of_not_le hi)
    rw [show NDIRECT + e + 1 = NDIRECT + 1 + e by omega, ptr_entry hind, ptr_entry hind, addEntry,
      update_self]
    by_cases he : e = j
    · subst he
      rw [if_pos rfl]
      refine Bytes.get32_put32 _ ?_ hb32
      have hB : BSIZE = 4 * NINDIRECT := by decide
      omega
    · rw [if_neg (by omega)]
      exact Bytes.get32_put32_of_disjoint _ (by omega)

theorem ptr_addEntry_of_ne (hb : bits b = false) (hsize : b < sb.size)
    (hm : m ≠ n) (htm : (D m).type ≠ 0) (ht : (D n).type ≠ 0) (i : ℕ) :
    ptr (addEntry block ((D n).addrs NDIRECT) j b) (D m) i = ptr block (D m) i := by
  rw [addEntry, ptr_update_block _ (h.indirect_ne_other htm ht hm), h.ptr_fresh hb hsize _ htm]

section

variable (hb : bits b = false) (hsize : b < sb.size) (ht : (D n).type ≠ 0) (hj : j < NINDIRECT)
  (hind : (D n).addrs NDIRECT ≠ 0) (hz : ptr block (D n) (NDIRECT + 1 + j) = 0)
include hb hsize ht hj hind hz

theorem holds_addEntry (x : ℕ × ℕ) (c : ℕ) :
    Holds (addEntry block ((D n).addrs NDIRECT) j b) D x c ↔
      Holds block D x c ∨ x = (n, NDIRECT + 1 + j) ∧ c = b := by
  have hlt : NDIRECT + 1 + j < NPTR := by unfold NPTR; omega
  exact holds_add (h.fresh_ne_zero hb hsize) (fun _ => rfl) ht hlt hz
    (h.ptr_addEntry hsize hj hind) (fun m hm htm => h.ptr_addEntry_of_ne hb hsize hm htm ht) x c

theorem allocEntry :
    Apart sb (update bits b true) (addEntry block ((D n).addrs NDIRECT) j b) D where
  start := h.start
  size := h.size
  covers := h.covers.insert hb hsize (h.holds_addEntry hb hsize ht hj hind hz)

end

section

variable (hd : Holds block D (n, k) b)
include hd

/-- A block that a pointer to file contents names is nobody's indirect block. -/
theorem indirect_ne_data (hk : k ≠ NDIRECT) (hm : (D m).type ≠ 0) :
    (D m).addrs NDIRECT = 0 ∨ (D m).addrs NDIRECT ≠ b := by
  by_cases hz : (D m).addrs NDIRECT = 0
  · exact .inl hz
  · right
    rintro rfl
    have hh : Holds block D (m, NDIRECT) ((D m).addrs NDIRECT) :=
      ⟨hm, indirect_lt, ptr_of_le le_rfl, hz⟩
    exact hk (Prod.mk.inj (h.covers.inj _ _ _ hd hh)).2

theorem ptr_writeData (hk : k ≠ NDIRECT) (c : Block) (hm : (D m).type ≠ 0) (j : ℕ) :
    ptr (update block b c) (D m) j = ptr block (D m) j :=
  ptr_update_block c (h.indirect_ne_data hd hk hm)

theorem holds_writeData (hk : k ≠ NDIRECT) (c : Block) (x : ℕ × ℕ) (e : ℕ) :
    Holds (update block b c) D x e ↔ Holds block D x e := by
  unfold Holds
  refine and_congr_right fun hm => ?_
  rw [h.ptr_writeData hd hk c hm]

theorem writeData (hk : k ≠ NDIRECT) (c : Block) : Apart sb bits (update block b c) D where
  start := h.start
  size := h.size
  covers := h.covers.congr (h.holds_writeData hd hk c)

end

end

end Apart

/-- No pointer is lost and no file contents change. -/
structure Keep (block : ℕ → Block) (D : ℕ → Dinode) (block' : ℕ → Block) (D' : ℕ → Dinode) :
    Prop where
  holds : ∀ x b, Holds block D x b → Holds block' D' x b
  data : ∀ x b, Holds block D x b → x.2 ≠ NDIRECT → block' b = block b

theorem Keep.refl (block : ℕ → Block) (D : ℕ → Dinode) : Keep block D block D :=
  ⟨fun _ _ => id, fun _ _ _ _ => rfl⟩

theorem Keep.trans {block' block'' : ℕ → Block} {D' D'' : ℕ → Dinode} (h : Keep block D block' D')
    (h' : Keep block' D' block'' D'') : Keep block D block'' D'' where
  holds x b hb := h'.holds x b (h.holds x b hb)
  data x b hb hx := (h'.data x b (h.holds x b hb) hx).trans (h.data x b hb hx)

namespace Apart

section

variable (h : Apart sb bits block D) (hb : bits b = false)
include h hb

theorem ne_fresh {x : ℕ × ℕ} {c : ℕ}
    (hc : Holds block D x c) : c ≠ b := by
  rintro rfl
  have := h.covers.marked _ _ hc
  rw [hb] at this
  cases this

theorem keep_addAddr (hsize : b < sb.size)
    (ht : (D n).type ≠ 0) (hk : k ≤ NDIRECT) (hz : (D n).addrs k = 0) :
    Keep block D (update block b zeroBlock) (addAddr D n k b) where
  holds x c hc := (h.holds_addAddr hb hsize ht hk hz x c).mpr (.inl hc)
  data := by
    rintro x c hc _
    rw [update_of_ne (h.ne_fresh hb hc)]

theorem keep_addEntry (hsize : b < sb.size)
    (ht : (D n).type ≠ 0) {j : ℕ} (hj : j < NINDIRECT) (hind : (D n).addrs NDIRECT ≠ 0)
    (hz : ptr block (D n) (NDIRECT + 1 + j) = 0) :
    Keep block D (addEntry block ((D n).addrs NDIRECT) j b) D where
  holds x c hc := (h.holds_addEntry hb hsize ht hj hind hz x c).mpr (.inl hc)
  data := by
    rintro ⟨m, i⟩ c hc hi
    have hca : c ≠ (D n).addrs NDIRECT := by
      rcases h.indirect_ne_data hc hi ht with h0 | h0
      · exact absurd h0 hind
      · exact h0.symm
    rw [addEntry, update_of_ne hca, update_of_ne (h.ne_fresh hb hc)]

end

end Apart

namespace Owned

theorem allocAddr (h : Owned sb bits block D) (hb : bits b = false) (hsize : b < sb.size)
    (ht : (D n).type ≠ 0) (hk : k ≤ NDIRECT) (hz : (D n).addrs k = 0) :
    Owned sb (update bits b true) (update block b zeroBlock)
      (Apart.addAddr D n k b) where
  start := h.start
  size := h.size
  exact := h.exact.insert hb hsize (h.apart.holds_addAddr hb hsize ht hk hz)

theorem allocEntry (h : Owned sb bits block D) (hb : bits b = false) (hsize : b < sb.size)
    (ht : (D n).type ≠ 0) {j : ℕ} (hj : j < NINDIRECT) (hind : (D n).addrs NDIRECT ≠ 0)
    (hz : ptr block (D n) (NDIRECT + 1 + j) = 0) :
    Owned sb (update bits b true) (Apart.addEntry block ((D n).addrs NDIRECT) j b) D where
  start := h.start
  size := h.size
  exact := h.exact.insert hb hsize (h.apart.holds_addEntry hb hsize ht hj hind hz)

theorem writeData (h : Owned sb bits block D) (hd : Holds block D (n, k) b)
    (hk : k ≠ NDIRECT) (c : Block) : Owned sb bits (update block b c) D where
  start := h.start
  size := h.size
  exact := h.exact.congr (h.apart.holds_writeData hd hk c)

end Owned

/-- The pointers in the order in which `itrunc` frees what they name. -/
def ptrOrder : List ℕ :=
  List.range' 0 NDIRECT ++ (List.range' (NDIRECT + 1) NINDIRECT ++ [NDIRECT])

theorem mem_ptrOrder {k : ℕ} : k ∈ ptrOrder ↔ k < NPTR := by
  simp only [ptrOrder, List.mem_append, List.mem_range'_1, List.mem_singleton, NPTR]
  omega

theorem nodup_ptrOrder : ptrOrder.Nodup := by
  refine List.nodup_append.mpr ⟨List.nodup_range', ?_, ?_⟩
  · refine List.nodup_append.mpr ⟨List.nodup_range', List.nodup_singleton _, ?_⟩
    intro a ha b hb
    rw [List.mem_range'_1] at ha
    rw [List.mem_singleton] at hb
    omega
  · intro a ha b hb
    simp only [List.mem_append, List.mem_range'_1, List.mem_singleton] at ha hb
    omega

section Free

theorem ownBlocks_eq : ownBlocks block d = (ptrOrder.map (ptr block d)).filter (· ≠ 0) := by
  have hdirect : (List.range' 0 NDIRECT).map (ptr block d) = (List.range' 0 NDIRECT).map d.addrs := by
    apply List.map_congr_left
    intro k hk
    rw [List.mem_range'_1] at hk
    exact ptr_of_le (by omega)
  have hlast : ptr block d NDIRECT = d.addrs NDIRECT := ptr_of_le le_rfl
  simp only [ptrOrder, List.map_append, List.filter_append, hdirect, List.map_cons, List.map_nil,
    hlast]
  rw [ownBlocks]
  congr 1
  by_cases hz : d.addrs NDIRECT = 0
  · rw [if_pos hz]
    symm
    simp only [List.append_eq_nil_iff, List.filter_eq_nil_iff, List.mem_map, List.mem_range'_1,
      List.mem_singleton]
    refine ⟨?_, ?_⟩
    · rintro _ ⟨k, hk, rfl⟩
      have hp : ptr block d k = 0 := ptr_of_zero (by omega) hz
      simp [hp]
    · rintro _ rfl
      simp [hz]
  · rw [if_neg hz]
    congr 1
    · unfold nonzeros
      congr 1
      rw [List.range'_eq_map_range, List.range'_eq_map_range, List.map_map, List.map_map]
      apply List.map_congr_left
      intro j _
      simp only [Function.comp_apply, Nat.zero_add]
      exact (ptr_entry hz).symm
    · simp [hz]

theorem mem_ownBlocks : b ∈ ownBlocks block d ↔ b ≠ 0 ∧ ∃ k, k < NPTR ∧ ptr block d k = b := by
  rw [ownBlocks_eq, List.mem_filter, List.mem_map]
  simp only [mem_ptrOrder, decide_eq_true_eq]
  exact and_comm

theorem Owned.freeable (h : Owned sb bits block D) (ht : (D n).type ≠ 0) :
    Freeable bits (ownBlocks block (D n)) := by
  constructor
  · rw [ownBlocks_eq, List.filter_map]
    refine List.Nodup.map_on ?_ (nodup_ptrOrder.filter _)
    intro j hj k hk he
    simp only [List.mem_filter, mem_ptrOrder, Function.comp_apply, decide_eq_true_eq] at hj hk
    have h1 : Holds block D (n, j) (ptr block (D n) j) := ⟨ht, hj.1, rfl, hj.2⟩
    have h2 : Holds block D (n, k) (ptr block (D n) j) := ⟨ht, hk.1, he.symm, hj.2⟩
    exact (Prod.mk.inj (h.exact.inj _ _ _ h1 h2)).2
  · intro b hb
    obtain ⟨hb0, k, hk, hp⟩ := mem_ownBlocks.mp hb
    exact h.exact.covers.marked (n, k) b ⟨ht, hk, hp, hb0⟩

theorem Owned.free (h : Owned sb bits block D) (ht : (D n).type ≠ 0) (hd : d.type = 0) :
    Owned sb (clearBits bits (ownBlocks block (D n))) block (update D n d) where
  start := h.start
  size := h.size
  exact := by
    refine h.exact.remove (g := fun x => x.1 = n) (f := (· ∈ ownBlocks block (D n))) ?_ ?_
    · intro b
      rw [mem_ownBlocks]
      constructor
      · rintro ⟨hb0, k, hk, hp⟩
        exact ⟨(n, k), rfl, ht, hk, hp, hb0⟩
      · rintro ⟨⟨m, k⟩, rfl, _, hk, hp, hb0⟩
        exact ⟨hb0, k, hk, hp⟩
    · rintro ⟨m, k⟩ b
      by_cases hm : m = n
      · subst hm
        simp [Holds, hd]
      · simp [Holds, hm]

theorem holds_congr (ht : ∀ m, (D' m).type = 0 ↔ (D m).type = 0)
    (ha : ∀ m, (D m).type ≠ 0 → (D' m).addrs = (D m).addrs) (x : ℕ × ℕ) (c : ℕ) :
    Holds block D' x c ↔ Holds block D x c := by
  obtain ⟨m, k⟩ := x
  by_cases hm : (D m).type = 0
  · simp [Holds, hm, (ht m).mpr hm]
  · have hp : ptr block (D' m) k = ptr block (D m) k := by simp only [ptr, ha m hm]
    have hm' : ¬ (D' m).type = 0 := fun h => hm ((ht m).mp h)
    simp only [Holds, hp, ne_eq, hm, hm', not_false_eq_true]

theorem Owned.congr (h : Owned sb bits block D) (ht : ∀ m, (D' m).type = 0 ↔ (D m).type = 0)
    (ha : ∀ m, (D m).type ≠ 0 → (D' m).addrs = (D m).addrs) : Owned sb bits block D' where
  start := h.start
  size := h.size
  exact := h.exact.congr (holds_congr ht ha)

theorem Apart.congr (h : Apart sb bits block D) (ht : ∀ m, (D' m).type = 0 ↔ (D m).type = 0)
    (ha : ∀ m, (D m).type ≠ 0 → (D' m).addrs = (D m).addrs) : Apart sb bits block D' where
  start := h.start
  size := h.size
  covers := h.covers.congr (holds_congr ht ha)

theorem Owned.allocInode (h : Owned sb bits block D) (ht : (D n).type = 0) (type : ℤ) :
    Owned sb bits block (update D n (.fresh type)) where
  start := h.start
  size := h.size
  exact := by
    refine h.exact.congr ?_
    rintro ⟨m, k⟩ b
    by_cases hm : m = n
    · subst hm
      have hp : ptr block (.fresh type) k = 0 := by simp [ptr, Dinode.fresh]
      simp only [Holds, update_self, hp, ht, ne_eq, not_true, false_and, iff_false]
      rintro ⟨_, _, rfl, hb⟩
      exact hb rfl
    · simp [Holds, hm]

end Free

end Xv6
