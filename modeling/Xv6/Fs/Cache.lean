import Xv6.Fs.Content
import Xv6.Fs.Dir

namespace Xv6
open Lib Prog

/-- Every allocated inode has exactly the blocks of its size, no block has two uses, and the
bitmap marks exactly the blocks in use. -/
structure WellFormed (s : Fs) : Prop where
  owned : Owned s.sb s.bitmap s.block s.dinode
  full : ∀ n, (s.dinode n).type ≠ 0 → Full s.block (s.dinode n) (nblk (s.dinode n).size)

/-- An inode has one cache entry at most, and a valid entry is a copy of the disk inode. -/
structure Coherent (s : Fs) : Prop where
  nonneg : ∀ i, 0 ≤ (s.inode i).ref
  dev : ∀ i, 0 < (s.inode i).ref → (s.inode i).dev = ROOTDEV
  uniq : ∀ i j, 0 < (s.inode i).ref → 0 < (s.inode j).ref →
    (s.inode i).inum = (s.inode j).inum → i = j
  copy : ∀ i, 0 < (s.inode i).ref → (s.inode i).valid = true →
    (s.inode i).toDinode = s.dinode (s.inode i).inum ∧ (s.dinode (s.inode i).inum).type ≠ 0

structure Sane (s : Fs) : Prop extends WellFormed s, Coherent s

theorem WellFormed.congr {s t : Fs} (h : WellFormed s) (hsb : t.sb = s.sb)
    (hbits : t.bitmap = s.bitmap) (hblock : t.block = s.block) (hd : t.dinode = s.dinode) :
    WellFormed t where
  owned := by
    rw [hsb, hbits, hblock, hd]
    exact h.owned
  full := by
    rw [hblock, hd]
    exact h.full

namespace Coherent

variable {s t : Fs} {i : Slot} {ip : Inode} {d : Dinode}

theorem update (h : Coherent s) (hi : 0 < (s.inode i).ref)
    (hinode : t.inode = Function.update s.inode i ip)
    (hd : t.dinode = Function.update s.dinode (s.inode i).inum d)
    (hinum : ip.inum = (s.inode i).inum) (hdev : ip.dev = (s.inode i).dev) (href : 0 ≤ ip.ref)
    (hcopy : 0 < ip.ref → ip.valid = true → ip.toDinode = d ∧ d.type ≠ 0) : Coherent t := by
  have hself : t.inode i = ip := by rw [hinode, Function.update_self]
  have hother : ∀ j, j ≠ i → t.inode j = s.inode j := by
    intro j hj
    rw [hinode, Function.update_of_ne hj]
  have hne : ∀ j, j ≠ i → 0 < (s.inode j).ref → (s.inode j).inum ≠ (s.inode i).inum :=
    fun j hj hr he => hj (h.uniq j i hr hi he)
  refine ⟨fun j => ?_, fun j hr => ?_, fun j k hj hk he => ?_, fun j hr hv => ?_⟩
  · by_cases hj : j = i
    · rw [hj, hself]
      exact href
    · rw [hother j hj]
      exact h.nonneg j
  · by_cases hj : j = i
    · rw [hj, hself, hdev]
      exact h.dev i hi
    · rw [hother j hj] at hr ⊢
      exact h.dev j hr
  · by_cases hji : j = i
    · by_cases hki : k = i
      · rw [hji, hki]
      · rw [hother k hki] at hk he
        rw [hji, hself, hinum] at he
        exact absurd he.symm (hne k hki hk)
    · rw [hother j hji] at hj he
      by_cases hki : k = i
      · rw [hki, hself, hinum] at he
        exact absurd he (hne j hji hj)
      · rw [hother k hki] at hk he
        exact h.uniq j k hj hk he
  · by_cases hj : j = i
    · subst hj
      rw [hself] at hr hv ⊢
      rw [hd, hinum, Function.update_self]
      exact hcopy hr hv
    · rw [hother j hj] at hr hv ⊢
      rw [hd, Function.update_of_ne (hne j hj hr)]
      exact h.copy j hr hv

theorem setInode (h : Coherent s) (hi : 0 < (s.inode i).ref)
    (hinode : t.inode = Function.update s.inode i ip) (hd : t.dinode = s.dinode)
    (hinum : ip.inum = (s.inode i).inum) (hdev : ip.dev = (s.inode i).dev) (href : 0 ≤ ip.ref)
    (hcopy : 0 < ip.ref → ip.valid = true →
      ip.toDinode = s.dinode (s.inode i).inum ∧ (s.dinode (s.inode i).inum).type ≠ 0) :
    Coherent t :=
  h.update hi hinode (by rw [hd, Function.update_eq_self]) hinum hdev href hcopy

theorem recycle (h : Coherent s) {n : ℕ} (hnew : ∀ j, 0 < (s.inode j).ref → (s.inode j).inum ≠ n)
    (hinode : t.inode = Function.update s.inode i ip) (hd : t.dinode = s.dinode)
    (hip : ip.dev = ROOTDEV ∧ ip.inum = n ∧ ip.ref = 1 ∧ ip.valid = false) : Coherent t := by
  obtain ⟨hdev, hinum, href, hvalid⟩ := hip
  have hself : t.inode i = ip := by rw [hinode, Function.update_self]
  have hother : ∀ j, j ≠ i → t.inode j = s.inode j := by
    intro j hj
    rw [hinode, Function.update_of_ne hj]
  refine ⟨fun j => ?_, fun j hr => ?_, fun j k hj hk he => ?_, fun j hr hv => ?_⟩
  · by_cases hj : j = i
    · rw [hj, hself, href]
      decide
    · rw [hother j hj]
      exact h.nonneg j
  · by_cases hj : j = i
    · rw [hj, hself, hdev]
    · rw [hother j hj] at hr ⊢
      exact h.dev j hr
  · by_cases hji : j = i
    · by_cases hki : k = i
      · rw [hji, hki]
      · rw [hother k hki] at hk he
        rw [hji, hself, hinum] at he
        exact absurd he.symm (hnew k hk)
    · rw [hother j hji] at hj he
      by_cases hki : k = i
      · rw [hki, hself, hinum] at he
        exact absurd he (hnew j hj)
      · rw [hother k hki] at hk he
        exact h.uniq j k hj hk he
  · by_cases hj : j = i
    · rw [hj, hself, hvalid] at hv
      cases hv
    · rw [hother j hj] at hr hv ⊢
      rw [hd]
      exact h.copy j hr hv

theorem allocDisk (h : Coherent s) {n : ℕ} (hn : (s.dinode n).type = 0)
    (hinode : t.inode = s.inode) (hd : t.dinode = Function.update s.dinode n d) : Coherent t := by
  refine ⟨?_, ?_, ?_, fun j hr hv => ?_⟩
  · rw [hinode]
    exact h.nonneg
  · rw [hinode]
    exact h.dev
  · rw [hinode]
    exact h.uniq
  · rw [hinode] at hr hv ⊢
    have hc := h.copy j hr hv
    have hne : (s.inode j).inum ≠ n := by
      rintro rfl
      exact hc.2 hn
    rw [hd, Function.update_of_ne hne]
    exact hc

end Coherent

def refs (s : Fs) : Slot → ℤ := fun i => (s.inode i).ref

def addRef (r : Slot → ℤ) (i : Slot) (n : ℤ) : Slot → ℤ := Function.update r i (r i + n)

/-- An entry that stays referenced stays with its inode, and stays valid. -/
def Persist (s t : Fs) : Prop :=
  ∀ j, 0 < refs s j → 0 < refs t j →
    (t.inode j).inum = (s.inode j).inum ∧ ((s.inode j).valid = true → (t.inode j).valid = true)

/-- The state stays sane and the entries then have the references `r`. -/
structure Moves (r : Slot → ℤ) (s t : Fs) : Prop where
  sane : Sane t
  refs : refs t = r
  persist : Persist s t
  sb : t.sb = s.sb
  proc : t.proc = s.proc
  file : t.file = s.file

def Refers (s : Fs) (i : Slot) (n : ℕ) : Prop := 0 < refs s i ∧ (s.inode i).inum = n

def Loaded (s : Fs) (i : Slot) (n : ℕ) : Prop := Refers s i n ∧ (s.inode i).valid = true

theorem Persist.refers {s t : Fs} {i : Slot} {n : ℕ} (h : Persist s t) (hi : Refers s i n)
    (hr : 0 < refs t i) : Refers t i n := ⟨hr, (h i hi.1 hr).1.trans hi.2⟩

theorem Persist.loaded {s t : Fs} {i : Slot} {n : ℕ} (h : Persist s t) (hi : Loaded s i n)
    (hr : 0 < refs t i) : Loaded t i n := ⟨h.refers hi.1 hr, (h i hi.1.1 hr).2 hi.2⟩

section

variable (r : Slot → ℤ)
include r

theorem addRef_self (i : Slot) (n : ℤ) : addRef r i n i = r i + n :=
  Function.update_self _ _ _

theorem addRef_of_ne {i j : Slot} (n : ℤ) (h : j ≠ i) : addRef r i n j = r j :=
  Function.update_of_ne h _ _

@[simp] theorem addRef_addRef (i : Slot) (m n : ℤ) :
    addRef (addRef r i m) i n = addRef r i (m + n) := by
  simp [addRef, add_assoc]

@[simp] theorem addRef_zero (i : Slot) : addRef r i 0 = r := by
  simp [addRef]

theorem addRef_comm (i j : Slot) (m n : ℤ) :
    addRef (addRef r i m) j n = addRef (addRef r j n) i m := by
  funext k
  by_cases hij : i = j
  · subst hij
    rw [addRef_addRef, addRef_addRef, add_comm]
  · by_cases hi : k = i
    · subst hi
      rw [addRef_of_ne _ _ hij, addRef_self, addRef_self, addRef_of_ne _ _ hij]
    · rw [addRef_of_ne _ m hi]
      by_cases hj : k = j
      · subst hj
        rw [addRef_self, addRef_self, addRef_of_ne _ _ hi]
      · rw [addRef_of_ne _ n hj, addRef_of_ne _ n hj, addRef_of_ne _ m hi]

@[simp] theorem addRef_neg (i : Slot) : addRef (addRef r i 1) i (-1) = r := by
  rw [addRef_addRef, add_neg_cancel, addRef_zero]

@[simp] theorem addRef_swap (i j : Slot) :
    addRef (addRef (addRef r i 1) j 1) i (-1) = addRef r j 1 := by
  rw [addRef_comm, addRef_neg]

theorem le_addRef (i j : Slot) {n : ℤ} (hn : 0 ≤ n) : r j ≤ addRef r i n j := by
  by_cases hj : j = i
  · subst hj
    rw [addRef_self]
    omega
  · rw [addRef_of_ne _ _ hj]

end

theorem le_addOne {r : Slot → ℤ} {i : Slot} (j : Slot) : r j ≤ addRef r i 1 j :=
  le_addRef r i j (by decide)

namespace Moves

variable {r r' : Slot → ℤ} {s t u : Fs} {i : Slot} {n : ℕ}

theorem refl (h : Sane s) : Moves (Xv6.refs s) s s :=
  ⟨h, rfl, fun _ _ _ => ⟨rfl, id⟩, rfl, rfl, rfl⟩

/-- Two steps, where no entry that is referenced before and after is free between them. -/
theorem trans (h : Moves r s t) (h' : Moves r' t u)
    (hr : ∀ j, 0 < Xv6.refs s j → 0 < r' j → 0 < r j) : Moves r' s u where
  sane := h'.sane
  refs := h'.refs
  persist j hj hj' := by
    have hm : 0 < Xv6.refs t j := by
      rw [h.refs]
      rw [h'.refs] at hj'
      exact hr j hj hj'
    obtain ⟨h1, h2⟩ := h.persist j hj hm
    obtain ⟨h3, h4⟩ := h'.persist j hm hj'
    exact ⟨h3.trans h1, fun hv => h4 (h2 hv)⟩
  sb := h'.sb.trans h.sb
  proc := h'.proc.trans h.proc
  file := h'.file.trans h.file

theorem refers (h : Moves r s t) (hi : Refers s i n) (hr : 0 < r i) : Refers t i n :=
  h.persist.refers hi (by rwa [h.refs])

theorem loaded (h : Moves r s t) (hi : Loaded s i n) (hr : 0 < r i) : Loaded t i n :=
  h.persist.loaded hi (by rwa [h.refs])

end Moves

end Xv6
