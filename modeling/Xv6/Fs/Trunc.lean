import Xv6.Fs.Inode

namespace Xv6
open Lib Prog Function

/-- All panics are allowed, except perhaps those of `bfree` and `ilock`. -/
def Tolerates (E : String → Prop) : Prop := ∀ m, m ≠ freeingFree → m ≠ noType → E m

/-- The panics of `log_write` and those for want of a block or of a table entry. -/
def exhausted : List String :=
  ["too big a transaction", "log_write outside of trans", "balloc: out of blocks",
    "iget: no inodes", "ialloc: no inodes"]

def Exhausts (E : String → Prop) : Prop := ∀ m ∈ exhausted, E m

theorem Tolerates.exhausts {E : String → Prop} (h : Tolerates E) : Exhausts E := by
  intro m hm
  refine h m ?_ ?_
  · rintro rfl
    exact absurd hm (by decide)
  · rintro rfl
    exact absurd hm (by decide)

instance {E : String → Prop} : Coe (Tolerates E) (Exhausts E) := ⟨Tolerates.exhausts⟩

section Logged

variable {P α : Type} {p : P} {E : String → Prop} {s : Shared Fs Slot P}
  {Q : Unit → Shared Fs Slot P → Prop}

theorem logged_sat (hE : Exhausts E) {b : ℕ} {a : α} {s t : Fs} {Q : α → Fs → Prop}
    (hQ : ∀ l, Q a { t with log := l }) : (logged b a s t).Sat E Q := by
  unfold logged Log.logWriteCheck
  split_ifs
  · exact hE _ (by decide)
  · exact hE _ (by decide)
  · exact hQ _

theorem wp_bfree (hE : Exhausts E) {b : ℕ} (hfree : s.st.bitmap b = false → E freeingFree)
    (hQ : ∀ l, Q () ⟨{ s.st with bitmap := update s.st.bitmap b false, log := l },
      s.owner⟩) : wp p E (bfree b) Q s := by
  rw [bfree, wp_atomic]
  split_ifs with hb
  · exact hfree hb
  · exact logged_sat hE hQ

theorem wp_iupdate (hE : Exhausts E) {i : Slot} (hQ : ∀ l, Q () ⟨{ s.st with
      dinode := update s.st.dinode (s.st.inode i).inum (s.st.inode i).toDinode
      log := l }, s.owner⟩) : wp p E (iupdate i) Q s := by
  rw [iupdate, wp_atomic]
  exact logged_sat hE hQ

end Logged

def clearBits (bits : ℕ → Bool) (l : List ℕ) : ℕ → Bool := fun b => bits b && decide (b ∉ l)

@[simp] theorem clearBits_nil (bits : ℕ → Bool) : clearBits bits [] = bits := by
  funext b
  simp [clearBits]

theorem clearBits_update (bits : ℕ → Bool) (b : ℕ) (l : List ℕ) :
    clearBits (update bits b false) l = clearBits bits (b :: l) := by
  funext c
  by_cases hc : c = b
  · simp [clearBits, hc]
  · simp [clearBits, hc]

theorem clearBits_clearBits (bits : ℕ → Bool) (l m : List ℕ) :
    clearBits (clearBits bits l) m = clearBits bits (l ++ m) := by
  funext c
  simp [clearBits, Bool.and_assoc]

def nonzeros (f : ℕ → ℕ) (n k : ℕ) : List ℕ := ((List.range' k n).map f).filter (· ≠ 0)

theorem nonzeros_succ (f : ℕ → ℕ) (n k : ℕ) :
    nonzeros f (n + 1) k = if f k ≠ 0 then f k :: nonzeros f n (k + 1) else nonzeros f n (k + 1) := by
  unfold nonzeros
  rw [List.range'_succ, List.map_cons, List.filter_cons]
  simp

theorem nonzeros_update (f : ℕ → ℕ) (n k a : ℕ) :
    nonzeros (update f k a) n (k + 1) = nonzeros f n (k + 1) := by
  unfold nonzeros
  congr 1
  apply List.map_congr_left
  intro j hj
  rw [List.mem_range'_1] at hj
  exact update_of_ne (by omega) _ _

def entry (a : Block) (k : ℕ) : ℕ := a.get32 (4 * k)

/-- The blocks of an inode in the order in which `itrunc` frees them. -/
def ownBlocks (block : ℕ → Block) (d : Dinode) : List ℕ :=
  nonzeros d.addrs NDIRECT 0 ++
    if d.addrs NDIRECT = 0 then []
    else nonzeros (entry (block (d.addrs NDIRECT))) NINDIRECT 0 ++ [d.addrs NDIRECT]

/-- The blocks are in use and none is there twice, so each can be freed. -/
def Freeable (bits : ℕ → Bool) (l : List ℕ) : Prop := l.Nodup ∧ ∀ b ∈ l, bits b = true

variable {bits : ℕ → Bool} {l : List ℕ}

theorem Freeable.append {m : List ℕ} (h : Freeable bits (l ++ m)) :
    Freeable bits l ∧ Freeable (clearBits bits l) m := by
  obtain ⟨hn, hb⟩ := h
  rw [List.nodup_append] at hn
  refine ⟨⟨hn.1, fun b hbl => hb b (List.mem_append_left _ hbl)⟩, hn.2.1, fun b hbm => ?_⟩
  have hbl : b ∉ l := fun hbl => hn.2.2 b hbl b hbm rfl
  simp [clearBits, hb b (List.mem_append_right _ hbm), hbl]

theorem Freeable.cons {b : ℕ} (h : Freeable bits (b :: l)) :
    bits b = true ∧ Freeable (update bits b false) l := by
  have h' : Freeable bits ([b] ++ l) := h
  obtain ⟨h1, h2⟩ := h'.append
  refine ⟨h1.2 b (List.mem_singleton_self b), ?_⟩
  rwa [← clearBits_nil (update bits b false), clearBits_update]

section Trunc

variable {P : Type} {p : P} {E : String → Prop} {s : Shared Fs Slot P} {i : Slot}
  {Q : Unit → Shared Fs Slot P → Prop}

def zeroAddrs (addrs : ℕ → ℕ) (n k : ℕ) : ℕ → ℕ := fun j => if k ≤ j ∧ j < k + n then 0 else addrs j

theorem zeroAddrs_succ (addrs : ℕ → ℕ) (n k : ℕ) :
    zeroAddrs (update addrs k 0) n (k + 1) = zeroAddrs addrs (n + 1) k := by
  funext j
  unfold zeroAddrs
  by_cases hj : j = k
  · subst hj
    simp
  · rw [update_of_ne hj]
    congr 1
    exact propext ⟨fun h => by omega, fun h => by omega⟩

theorem zeroAddrs_succ_of_zero {addrs : ℕ → ℕ} {k : ℕ} (n : ℕ) (h : addrs k = 0) :
    zeroAddrs addrs n (k + 1) = zeroAddrs addrs (n + 1) k := by
  rw [← zeroAddrs_succ, ← h, update_eq_self]

theorem zeroAddrs_last (addrs : ℕ → ℕ) (n : ℕ) :
    zeroAddrs addrs (n + 1) 0 = update (zeroAddrs addrs n 0) n 0 := by
  funext j
  by_cases hj : j = n
  · simp [hj, zeroAddrs]
  · rw [update_of_ne hj]
    unfold zeroAddrs
    congr 1
    exact propext ⟨fun h => by omega, fun h => by omega⟩

theorem wp_freeDirect (hE : Exhausts E) (n k : ℕ)
    (hfree : E freeingFree ∨ Freeable s.st.bitmap (nonzeros (s.st.inode i).addrs n k))
    (hQ : ∀ l, Q () ⟨{ s.st with
      bitmap := clearBits s.st.bitmap (nonzeros (s.st.inode i).addrs n k)
      inode := update s.st.inode i
        { s.st.inode i with addrs := zeroAddrs (s.st.inode i).addrs n k }
      log := l }, s.owner⟩) : wp p E (freeDirect i n k) Q s := by
  induction n generalizing k s with
  | zero =>
    have h := hQ s.st.log
    have hz : zeroAddrs (s.st.inode i).addrs 0 k = (s.st.inode i).addrs := by
      funext j
      simp only [zeroAddrs]
      rw [if_neg (by omega)]
    simpa [nonzeros, hz, freeDirect] using h
  | succ n ih =>
    rw [nonzeros_succ] at hfree hQ
    simp only [freeDirect, readInode, bind_eq, wp_bind, wp_read, wp_when]
    by_cases ha : (s.st.inode i).addrs k = 0
    · simp only [ha, ne_eq, not_true, if_false] at hfree hQ ⊢
      rw [← zeroAddrs_succ_of_zero n ha] at hQ
      exact ih (k + 1) hfree hQ
    · simp only [ne_eq, ha, not_false_eq_true, if_true] at hfree hQ ⊢
      refine wp_bfree hE (fun hb => ?_) fun l => ?_
      · rcases hfree with hf | hf
        · exact hf
        · rw [hf.cons.1] at hb
          cases hb
      · simp only [modifyInode, wp_modify]
        -- The rest of the loop starts with this address zero and this bit clear.
        refine ih (k + 1) ?_ fun l' => ?_
        · rcases hfree with hf | hf
          · exact .inl hf
          · right
            simpa [Inode.setAddr, nonzeros_update] using hf.cons.2
        · have h := hQ l'
          simpa [Inode.setAddr, nonzeros_update, clearBits_update, zeroAddrs_succ] using h

theorem wp_freeEntries (hE : Exhausts E) {a : Block} (n k : ℕ)
    (hfree : E freeingFree ∨ Freeable s.st.bitmap (nonzeros (entry a) n k))
    (hQ : ∀ l, Q () ⟨{ s.st with
      bitmap := clearBits s.st.bitmap (nonzeros (entry a) n k)
      log := l }, s.owner⟩) : wp p E (freeEntries a n k) Q s := by
  induction n generalizing k s with
  | zero => simpa [nonzeros, freeEntries] using hQ s.st.log
  | succ n ih =>
    rw [nonzeros_succ] at hfree hQ
    simp only [freeEntries, bind_eq, wp_bind, wp_when]
    by_cases ha : entry a k = 0
    · have ha' : a.get32 (4 * k) = 0 := ha
      simp only [ha, ha', ne_eq, not_true, if_false] at hfree hQ ⊢
      exact ih (k + 1) hfree hQ
    · have ha' : ¬ a.get32 (4 * k) = 0 := ha
      simp only [ne_eq, ha, ha', not_false_eq_true, if_true] at hfree hQ ⊢
      refine wp_bfree hE (fun hb => ?_) fun l => ih (k + 1) ?_ fun l' => ?_
      · rcases hfree with hf | hf
        · exact hf
        · rw [show s.st.bitmap (a.get32 (4 * k)) = true from hf.cons.1] at hb
          cases hb
      · exact hfree.imp_right fun hf => hf.cons.2
      · have h := hQ l'
        simpa [clearBits_update, entry] using h

def Dinode.truncated (d : Dinode) : Dinode :=
  { d with size := 0, addrs := zeroAddrs d.addrs (NDIRECT + 1) 0 }

def truncState (s : Fs) (i : Slot) (l : Log) : Fs :=
  { s with
    bitmap := clearBits s.bitmap (ownBlocks s.block (s.inode i).toDinode)
    inode := update s.inode i { s.inode i with
      toDinode := (s.inode i).toDinode.truncated }
    dinode := update s.dinode (s.inode i).inum (s.inode i).toDinode.truncated
    log := l }

theorem wp_itrunc (hE : Exhausts E)
    (hfree : E freeingFree ∨ Freeable s.st.bitmap (ownBlocks s.st.block (s.st.inode i).toDinode))
    (hQ : ∀ l, Q () ⟨truncState s.st i l, s.owner⟩) : wp p E (itrunc i) Q s := by
  unfold truncState ownBlocks at hQ
  unfold ownBlocks at hfree
  simp only [itrunc, bind_eq, wp_bind, readInode, modifyInode]
  have hd : E freeingFree ∨ Freeable s.st.bitmap (nonzeros (s.st.inode i).addrs NDIRECT 0) :=
    hfree.imp_right fun hf => hf.append.1
  refine wp_freeDirect hE _ _ hd fun l => ?_
  have hind : zeroAddrs (s.st.inode i).addrs NDIRECT 0 NDIRECT = (s.st.inode i).addrs NDIRECT := by
    simp [zeroAddrs]
  simp only [wp_read, wp_when, update_self, hind]
  by_cases ha : (s.st.inode i).addrs NDIRECT = 0
  · have hz : zeroAddrs (s.st.inode i).addrs NDIRECT 0 =
        zeroAddrs (s.st.inode i).addrs (NDIRECT + 1) 0 := by
      rw [zeroAddrs_last, eq_comm, update_eq_self_iff]
      exact (hind.trans ha).symm
    simp only [ha, ne_eq, not_true, if_false, wp_modify, if_true, List.append_nil] at hQ ⊢
    refine wp_iupdate hE fun l' => ?_
    simpa [Dinode.truncated, hz] using hQ l'
  · simp only [ha, ne_eq, not_false_eq_true, if_true, if_false, wp_bind, wp_read] at hQ hfree ⊢
    refine wp_freeEntries hE _ _ (hfree.imp_right fun hf => hf.append.2.append.1) fun l => ?_
    refine wp_bfree hE (fun hb => ?_) fun l => ?_
    · rcases hfree with hf | hf
      · exact hf
      · have hset := hf.append.2.append.2.2 _ (List.mem_singleton_self _)
        exact absurd (hset.symm.trans hb) (by decide)
    · simp only [wp_modify]
      refine wp_iupdate hE fun l' => ?_
      have hbits : ∀ bits : ℕ → Bool, update bits ((s.st.inode i).addrs NDIRECT) false =
          clearBits bits [(s.st.inode i).addrs NDIRECT] := by
        intro bits
        rw [← clearBits_nil (update _ _ _), clearBits_update]
      simpa [Dinode.truncated, Inode.setAddr, hbits, clearBits_clearBits, zeroAddrs_last] using hQ l'

def Dinode.freed (d : Dinode) : Dinode := { d.truncated with type := 0 }

/-- The state after `iput` freed a cached inode, before it gives its reference back. -/
def freeState (s : Fs) (i : Slot) (l : Log) : Fs :=
  { s with
    bitmap := clearBits s.bitmap (ownBlocks s.block (s.inode i).toDinode)
    inode := update s.inode i { s.inode i with
      toDinode := (s.inode i).toDinode.freed, valid := false }
    dinode := update s.dinode (s.inode i).inum (s.inode i).toDinode.freed
    log := l }

theorem wp_ifree (hE : Exhausts E)
    (hfree : (s.st.inode i).ref = 1 → E freeingFree ∨ Freeable s.st.bitmap (ownBlocks s.st.block (s.st.inode i).toDinode))
    (hQ : (s.st.inode i).ref = 1 → ∀ l, Q () ⟨freeState s.st i l, s.owner⟩)
    (hQ' : (s.st.inode i).ref ≠ 1 → Q () s) : wp p E (ifree i) Q s := by
  simp only [ifree, readInode, modifyInode, bind_eq, wp_bind, wp_read, wp_when]
  by_cases hr : (s.st.inode i).ref = 1
  · rw [if_pos hr]
    refine wp_itrunc hE (hfree hr) fun l => ?_
    simp only [wp_modify]
    refine wp_iupdate hE fun l' => ?_
    simpa [freeState, truncState, Dinode.freed, Fs.setInode] using hQ hr l'
  · rw [if_neg hr]
    exact hQ' hr

end Trunc

end Xv6
