import Xv6.Fs.Unlink
import Xv6.Fs.Mkfs

namespace Xv6.Blocks
open Lib Prog Function

inductive Op where
  | iget (inum : ℕ)
  | ialloc (type : ℤ)
  | writei (i : Slot) (src : List UInt8) (off : ℕ)
  | readi (i : Slot) (off n : ℕ)
  | dirlink (i : Slot) (name : Str) (inum : ℕ)
  | unlink (path : Option Str)
  | iput (i : Slot)

def locked {α : Type} (i : Slot) (x : FsM α) : FsM Unit := do
  ilock i
  let _ ← x
  iunlock i

def transaction {α : Type} (x : FsM α) : FsM Unit := do
  beginOp
  let _ ← x
  endOp

/-- The operation as the system calls run it. -/
def Op.prog (p : Pid) : Op → FsM Unit
  | .iget inum => transaction (Xv6.iget ROOTDEV inum)
  | .ialloc type => transaction (Xv6.ialloc ROOTDEV type)
  | .writei i src off => transaction (locked i (Xv6.writei i src off))
  | .readi i off n => transaction (locked i (Xv6.readi i off n))
  | .dirlink i name inum => transaction (locked i (Xv6.dirlink i name inum))
  | .unlink path => do
    let _ ← sysUnlink p path
    return ()
  | .iput i => transaction (Xv6.iput i)

/-- `iput` gives back a reference that is not the last one of a process's current directory. -/
def Op.Enabled (s : Fs) : Op → Prop
  | .iput i => 0 < (s.inode i).ref ∧ ∀ q, (s.proc q).cwd = some i → 1 < (s.inode i).ref
  | _ => True

instance (s : Fs) : (op : Op) → Decidable (op.Enabled s)
  | .iput _ => inferInstanceAs (Decidable (_ ∧ _))
  | .iget _ => isTrue trivial
  | .ialloc _ => isTrue trivial
  | .writei .. => isTrue trivial
  | .readi .. => isTrue trivial
  | .dirlink .. => isTrue trivial
  | .unlink _ => isTrue trivial

def exec (s : Shared Fs Slot Pid) : List (Pid × Op) → Option (Shared Fs Slot Pid)
  | [] => some s
  | (p, op) :: l =>
    if op.Enabled s.st then
      match (op.prog p).run p s with
      | .done _ t => exec t l
      | _ => none
    else none

def CwdHeld (s : Fs) : Prop := ∀ q i, (s.proc q).cwd = some i → 0 < (s.inode i).ref

def notFreeing (m : String) : Prop := m ≠ freeingFree

theorem tolerates_notFreeing : Tolerates notFreeing := fun _ h _ => h

theorem noType_notFreeing : notFreeing noType := by
  unfold notFreeing
  decide

section Step

variable {p : Pid} {s : Fs}

def Ready (s : Fs) : Prop := Sane s ∧ CwdHeld s

theorem ready_of_moves {r : Slot → ℤ} {t : Fs} (h : Ready s) (hm : Moves r s t)
    (hr : ∀ j, refs s j ≤ r j) : Ready t := by
  refine ⟨hm.sane, fun q i hi => ?_⟩
  rw [hm.proc] at hi
  have h1 : refs t i = r i := congrFun hm.refs i
  have h2 : 0 < refs s i := h.2 q i hi
  have h3 := hr i
  show 0 < refs t i
  omega

theorem startsIn_of_cwdHeld (h : CwdHeld s) (path : Str) : StartsIn s p path fun _ _ => True := by
  unfold StartsIn
  split_ifs
  · trivial
  · exact fun i hi => ⟨_, ⟨h p i hi, rfl⟩, trivial⟩

theorem does_locked {α : Type} {i : Slot} {x : FsM α} (h : Sane s)
    (hx : ∀ t, Sane t → Loaded t i (s.inode i).inum →
      Does p notFreeing x t fun _ u => Moves (refs t) t u) :
    Does p notFreeing (locked i x) s fun _ t => Moves (refs s) s t := by
  refine (does_ilock tolerates_notFreeing h rfl (.inr noType_notFreeing)).bind ?_
  rintro _ t ⟨hmt, hl, -, -⟩
  refine (hx t hmt.sane hl).bind fun _ u hmu => ?_
  refine (does_iunlock tolerates_notFreeing).mono ?_
  rintro _ _ rfl
  exact hmt.then_same hmu

theorem does_transaction {α : Type} {x : FsM α} (h : Ready s)
    (hx : ∀ t, Moves (refs s) s t → Does p notFreeing x t fun _ u => Ready u) :
    Does p notFreeing (transaction x) s fun _ t => Ready t := by
  refine (does_beginOp h.1).bind ?_
  rintro _ t ⟨hmt, -⟩
  refine (hx t hmt).bind fun a u hu => ?_
  refine (does_endOp tolerates_notFreeing hu.1).mono ?_
  rintro _ v ⟨hmv, -⟩
  exact ready_of_moves hu hmv fun _ => le_rfl

theorem does_inode_op {α : Type} {i : Slot} {x : FsM α} (h : Ready s)
    (hx : ∀ t n, Sane t → Loaded t i n → Does p notFreeing x t fun _ u => Moves (refs t) t u) :
    Does p notFreeing (transaction (locked i x)) s fun _ t => Ready t := by
  refine does_transaction h fun t hmt => ?_
  have ht : Ready t := ready_of_moves h hmt fun _ => le_rfl
  refine (does_locked ht.1 fun u hu hl => hx u _ hu hl).mono ?_
  rintro _ u hmu
  exact ready_of_moves ht hmu fun _ => le_rfl

theorem does_op (h : Ready s) (op : Op) (hop : op.Enabled s) :
    Does p notFreeing (op.prog p) s fun _ t => Ready t := by
  have hE := tolerates_notFreeing
  cases op with
  | iget inum =>
    refine does_transaction h fun t hmt => ?_
    have ht : Ready t := ready_of_moves h hmt fun _ => le_rfl
    refine (does_iget hE ht.1 inum).mono ?_
    rintro i u ⟨hmu, -, -⟩
    exact ready_of_moves ht hmu le_addOne
  | ialloc type =>
    refine does_transaction h fun t hmt => ?_
    have ht : Ready t := ready_of_moves h hmt fun _ => le_rfl
    refine (does_ialloc hE ht.1).mono ?_
    rintro i u ⟨hmu, -⟩
    exact ready_of_moves ht hmu le_addOne
  | writei i src off =>
    exact does_inode_op h fun t n ht hl => (does_writei hE ht hl src off).mono fun _ _ hu => hu.1
  | readi i off m =>
    exact does_inode_op h fun t n ht hl => (does_readi hE ht hl off m).mono fun _ _ hu => hu.1
  | dirlink i name inum =>
    exact does_inode_op h fun t n ht hl =>
      (does_dirlink hE hE.scannable (hE _ (by decide) (by decide)) (closed_true t) ht trivial hl name inum).mono fun _ _ hu => hu.1
  | unlink path =>
    have hroute : Route notFreeing (fun _ => True) fun _ _ => True :=
      ⟨fun _ _ _ _ _ _ _ _ _ _ _ => trivial, .inr noType_notFreeing⟩
    refine (does_sysUnlink hE (closed_true s) h.1 hroute trivial
      fun path _ => startsIn_of_cwdHeld h.2 path).bind fun r t ht => .ret ?_
    exact ready_of_moves h ht.1 fun _ => le_rfl
  | iput i =>
    obtain ⟨hpos, hcwd⟩ := hop
    refine does_transaction h fun t hmt => ?_
    have hpos' : 0 < refs s i := hpos
    have hti : Refers t i (s.inode i).inum := hmt.refers ⟨hpos, rfl⟩ hpos'
    refine (does_iput hE hmt.sane hti).mono ?_
    rintro _ u ⟨hmu, -⟩
    refine ⟨hmu.sane, fun q j hj => ?_⟩
    rw [hmu.proc, hmt.proc] at hj
    show 0 < refs u j
    rw [hmu.refs, hmt.refs]
    by_cases hji : j = i
    · -- A current directory keeps the reference of its process.
      subst hji
      have h1 : 1 < refs s j := hcwd q hj
      rw [addRef_self]
      omega
    · rw [addRef_of_ne _ _ hji]
      exact h.2 q j hj

end Step

theorem ready_of_exec {s t : Shared Fs Slot Pid} (h : Ready s.st) (l : List (Pid × Op))
    (hl : exec s l = some t) : Ready t.st := by
  induction l generalizing s with
  | nil =>
    cases hl
    exact h
  | cons x l ih =>
    obtain ⟨p, op⟩ := x
    rw [exec] at hl
    split_ifs at hl with hop
    cases hrun : (op.prog p).run p s with
    | done a u =>
      rw [hrun] at hl
      exact ih ((does_op h op hop).run hrun) hl
    | blocked | panic m =>
      rw [hrun] at hl
      cases hl

/-- From any well-formed state, every sequence of operations leads to a well-formed state, and no
operation that starts there frees a free block. -/
theorem block_ownership {s t : Shared Fs Slot Pid} (hwf : WellFormed s.st) (hcache : Coherent s.st)
    (hcwd : CwdHeld s.st) (l : List (Pid × Op)) (hl : exec s l = some t) :
    WellFormed t.st ∧
      ∀ (p : Pid) (op : Op), op.Enabled t.st → (op.prog p).run p t ≠ .panic freeingFree := by
  have h := ready_of_exec ⟨⟨hwf, hcache⟩, hcwd⟩ l hl
  refine ⟨h.1.toWellFormed, fun p op hop => ?_⟩
  exact (does_op h op hop).no_panic fun hne => hne rfl

theorem boot_root (env : ℕ → Option (List UInt8)) : (boot env).dinode ROOTINO = mkfsRoot := by
  simp [boot]

theorem boot_type (env : ℕ → Option (List UInt8)) {n : ℕ} (h : ((boot env).dinode n).type ≠ 0) :
    n = ROOTINO := by
  by_contra hn
  simp only [boot, update_of_ne hn, Dinode.fresh] at h
  exact h rfl

theorem ptr_mkfsRoot (block : ℕ → Block) (k : ℕ) :
    ptr block mkfsRoot k = if k = 0 then rootBlock else 0 := by
  have hind : mkfsRoot.addrs NDIRECT = 0 := by
    simp [mkfsRoot, NDIRECT]
  by_cases hk : k ≤ NDIRECT
  · rw [ptr_of_le hk, mkfsRoot]
    by_cases h0 : k = 0
    · simp [h0]
    · simp [h0]
  · rw [ptr_of_zero (by omega) hind, if_neg (by rintro rfl; exact hk (Nat.zero_le _))]

def NoBlocks (d : Dinode) : Prop := d.size = 0 ∧ ∀ k, d.addrs k = 0

section Root

variable {s : Fs} (hroot : s.dinode ROOTINO = mkfsRoot)
  (hempty : ∀ n, n ≠ ROOTINO → (s.dinode n).type ≠ 0 → NoBlocks (s.dinode n))
include hroot hempty

theorem root_holds (x : ℕ × ℕ) (b : ℕ) :
    Holds s.block s.dinode x b ↔ x = (ROOTINO, 0) ∧ b = rootBlock := by
  obtain ⟨n, k⟩ := x
  constructor
  · rintro ⟨ht, -, hp, hb⟩
    by_cases hn : n = ROOTINO
    · subst hn
      simp only [hroot, ptr_mkfsRoot] at hp
      split_ifs at hp with hk
      · exact ⟨by rw [hk], hp.symm⟩
      · exact absurd hp.symm hb
    · have hz := (hempty n hn ht).2
      rw [ptr, hz, hz, if_pos rfl, ite_self] at hp
      exact absurd hp.symm hb
  · rintro ⟨hx, rfl⟩
    cases hx
    simp only [Holds, hroot, ptr_mkfsRoot, if_true]
    exact ⟨by decide, by decide, trivial, by decide⟩

/-- The root directory has the first block behind the metadata, and no other file has any. -/
theorem wellFormed_of_root (hsb : s.sb = mkfsSb)
    (hbits : ∀ b, s.bitmap b = decide (b ≤ rootBlock)) : WellFormed s := by
  refine ⟨⟨by rw [hsb]; decide, by rw [hsb]; decide, ?_⟩, fun n hn => ?_⟩
  · refine ⟨fun x b hb => ?_, fun x y b hx hy => ?_, fun b _ => ?_⟩
    · obtain ⟨-, rfl⟩ := (root_holds hroot hempty x b).mp hb
      rw [hsb]
      decide
    · rw [((root_holds hroot hempty x b).mp hx).1, ((root_holds hroot hempty y b).mp hy).1]
    · have hstart : s.sb.dataStart = rootBlock := by
        rw [hsb]
        rfl
      simp only [root_holds hroot hempty, hbits, hstart, decide_eq_true_eq]
      constructor
      · intro hb
        by_cases he : b = rootBlock
        · exact .inr ⟨(ROOTINO, 0), rfl, he⟩
        · exact .inl (by omega)
      · rintro (hb | ⟨_, _, rfl⟩)
        · exact le_of_lt hb
        · exact le_rfl
  · have hN : NDIRECT = 12 := rfl
    by_cases hr : n = ROOTINO
    · subst hr
      rw [hroot]
      refine ⟨by decide, fun k _ => ?_⟩
      have hnb : nblk mkfsRoot.size = 1 := by decide
      rw [ptr_mkfsRoot, hnb]
      by_cases hk : k = 0
      · subst hk
        decide
      · rw [if_neg hk]
        refine iff_of_false (fun h => h rfl) ?_
        unfold Live
        split_ifs <;> omega
    · obtain ⟨hsize, hz⟩ := hempty n hr hn
      have hnb : nblk 0 = 0 := by decide
      rw [hsize, hnb]
      refine ⟨Nat.zero_le _, fun k _ => ?_⟩
      rw [ptr, hz, hz, if_pos rfl, ite_self]
      refine iff_of_false (fun h => h rfl) ?_
      unfold Live
      split_ifs <;> omega

end Root

section

variable (env : ℕ → Option (List UInt8))
include env

theorem boot_wellFormed : WellFormed (boot env) :=
  wellFormed_of_root (boot_root env) (fun _ hn h => absurd (boot_type env h) hn) rfl fun _ => rfl

theorem boot_coherent : Coherent (boot env) := by
  have hother : ∀ i : Slot, i ≠ ⟨0, by decide⟩ → (boot env).inode i = .empty := by
    intro i hi
    simp only [boot, update_of_ne hi]
  have hpos : ∀ i, 0 < ((boot env).inode i).ref → i = ⟨0, by decide⟩ := by
    intro i hi
    by_contra hne
    rw [hother i hne] at hi
    exact absurd hi (by decide)
  refine ⟨fun i => ?_, fun i hi => ?_, fun i j hi hj _ => ?_, fun i hi hv => ?_⟩
  · by_cases hi : i = ⟨0, by decide⟩
    · subst hi
      simp [boot]
    · rw [hother i hi]
      decide
  · obtain rfl := hpos i hi
    rfl
  · rw [hpos i hi, hpos j hj]
  · obtain rfl := hpos i hi
    cases hv

theorem boot_cwdHeld : CwdHeld (boot env) := by
  intro q i hi
  by_cases hq : q = initproc
  · subst hq
    simp only [boot, update_self, Option.some.injEq] at hi
    subst hi
    simp [boot]
  · simp only [boot, update_of_ne hq] at hi
    cases hi

end

/-- Allocate an inode, write it, enter it in the root directory, look for another name, and give
the reference back, which frees the inode. -/
def allocWriteFree : List (Pid × Op) :=
  [(initproc, .ialloc T_FILE), (initproc, .writei ⟨1, one_lt_NINODE⟩ [65, 66] 0),
    (initproc, .readi ⟨1, one_lt_NINODE⟩ 0 2), (initproc, .dirlink ⟨0, NINODE_pos⟩ [102] 2),
    (initproc, .unlink (some [slash, 103])), (initproc, .iput ⟨1, one_lt_NINODE⟩)]

theorem allocWriteFree_completes : (exec (started fun _ => none) allocWriteFree).isSome := by
  decide +kernel

theorem block_ownership_allocWriteFree :
    WellFormed ((exec (started fun _ => none) allocWriteFree).get allocWriteFree_completes).st :=
  (block_ownership (boot_wellFormed _) (boot_coherent _) (boot_cwdHeld _) allocWriteFree
    (Option.some_get _).symm).1

end Xv6.Blocks
