import Xv6.Fs.Mkfs
import Xv6.Fs.Trunc
import Xv6.Lib.Count

namespace Xv6.LastRef
open Lib Prog Function

def iputDec (i : Slot) : FsM Unit := modifyInode i fun ip => { ip with ref := ip.ref - 1 }

def iputAfter (i : Slot) : FsM Unit := .release i (iputDec i)

def iputRead (i : Slot) : FsM Unit := (ifree i).bind fun _ => iputAfter i

/-- The rest of `iput` after it got the sleep-lock. -/
def iputHeld (i : Slot) : FsM Unit :=
  (readInode i fun ip => ip.valid && decide (ip.nlink = 0)).bind fun unlinked =>
    (Prog.when unlinked (ifree i)).bind fun _ => iputAfter i

theorem iput_eq (i : Slot) : iput i = .acquire i (iputHeld i) := rfl

/-- The truncation that follows the read of `ref`, up to the end of `ifree`. -/
def truncBody (i : Slot) : FsM Unit := do
  itrunc i
  modifyInode i fun ip => { ip with type := 0 }
  iupdate i
  modifyInode i fun ip => { ip with valid := false }

theorem ifree_eq (i : Slot) :
    ifree i = (readInode i (·.ref)).bind fun r => Prog.when (r = 1) (truncBody i) := rfl

variable {P : Type} {p q : P} {i : Slot} {s : Shared Fs Slot P} {s0 : Fs}
  {c d : Config Fs Slot P Unit}

def start (i : Slot) (s : Fs) : Config Fs Slot P Unit where
  shared := ⟨s, fun _ => none⟩
  prog _ := iput i

/-- A process that reads `ref` in `iput` sees 1, or another one has yet to take the sleep-lock. -/
def Cond (i : Slot) (c : Config Fs Slot P Unit) (p : P) : Prop :=
  c.prog p = iputRead i → (c.shared.st.inode i).ref = 1 ∨ ∃ q, (c.prog q).wants = some i

/-- The step in which a process decides to truncate the inode. -/
def Truncates (i : Slot) (c : Config Fs Slot P Unit) (p : P) : Prop :=
  c.prog p = iputRead i ∧ (c.shared.st.inode i).ref = 1

section Keeps

variable {i : Slot}

abbrev One (i : Slot) (s : Fs) : Prop := (s.inode i).ref = 1

theorem keeps_modifyInode {f : Inode → Inode} (hf : ∀ ip, (f ip).ref = ip.ref) :
    (modifyInode i f).Keeps (One i) := by
  apply Keeps.modify
  intro s hs
  show ((s.setInode i (f (s.inode i))).inode i).ref = 1
  rw [Fs.setInode_inode, update_self, hf]
  exact hs

theorem keeps_logged {α : Type} {b : ℕ} {a : α} {s t : Fs} (h : One i t) :
    (logged b a s t).Sat (fun _ => True) fun _ u => One i u :=
  logged_sat (fun _ _ => trivial) fun _ => h

theorem keeps_bfree {b : ℕ} : (bfree b).Keeps (One i) := by
  apply Keeps.atomic
  intro s hs
  split_ifs
  · trivial
  · exact keeps_logged hs

theorem keeps_iupdate : (iupdate i).Keeps (One i) := Keeps.atomic fun _ hs => keeps_logged hs

theorem keeps_freeDirect (n k : ℕ) : (freeDirect i n k).Keeps (One i) := by
  induction n generalizing k with
  | zero => trivial
  | succ n ih =>
    refine Keeps.bind Keeps.read fun a => Keeps.bind (Keeps.when ?_) fun _ => ih _
    exact Keeps.bind keeps_bfree fun _ => keeps_modifyInode fun _ => rfl

theorem keeps_freeEntries {a : Block} (n k : ℕ) : (freeEntries a n k).Keeps (One i) := by
  induction n generalizing k with
  | zero => trivial
  | succ n ih => exact Keeps.bind (Keeps.when keeps_bfree) fun _ => ih _

theorem keeps_itrunc : (itrunc i).Keeps (One i) := by
  refine Keeps.bind (keeps_freeDirect _ _) fun _ => Keeps.bind Keeps.read fun a => ?_
  refine Keeps.bind (Keeps.when ?_) fun _ =>
    Keeps.bind (keeps_modifyInode fun _ => rfl) fun _ => keeps_iupdate
  refine Keeps.bind Keeps.read fun _ => Keeps.bind (keeps_freeEntries _ _) fun _ => ?_
  exact Keeps.bind keeps_bfree fun _ => keeps_modifyInode fun _ => rfl

theorem keeps_truncBody : (truncBody i).Keeps (One i) := by
  refine Keeps.bind keeps_itrunc fun _ => Keeps.bind (keeps_modifyInode fun _ => rfl) fun _ => ?_
  exact Keeps.bind keeps_iupdate fun _ => keeps_modifyInode fun _ => rfl

end Keeps

/-- The inode with number `n` is free on disk and the blocks `l` are not in use. -/
def Freed (n : ℕ) (l : List ℕ) (s : Fs) : Prop :=
  (s.dinode n).type = 0 ∧ ∀ b ∈ l, s.bitmap b = false

theorem wp_truncBody (h : One i s.st) :
    wp p (fun _ => True) (truncBody i) (fun _ t => Freed (s.st.inode i).inum
      (ownBlocks s.st.block (s.st.inode i).toDinode) t.st) s := by
  have hw : wp p (fun _ => True) (ifree i) (fun _ t => Freed (s.st.inode i).inum
      (ownBlocks s.st.block (s.st.inode i).toDinode) t.st) s := by
    refine wp_ifree (fun _ _ => trivial) (fun _ => .inl trivial) (fun _ l => ?_) fun hr => absurd h hr
    refine ⟨by simp [freeState, Dinode.freed], fun b hb => ?_⟩
    simp [freeState, clearBits, hb]
  rw [ifree_eq, readInode, wp_bind, wp_read, wp_when, if_pos h] at hw
  exact hw

/-- The rest of `iput` from the truncation on: the inode is free before `ref` is not 1 any more. -/
theorem always_truncBody (h : One i s.st) :
    ((truncBody i).bind fun _ => iputAfter i).Always p (fun t => One i t.st)
      (fun _ t => Freed (s.st.inode i).inum (ownBlocks s.st.block (s.st.inode i).toDinode) t.st)
      s := by
  apply Always.bind
  refine (keeps_truncBody.always h (wp_truncBody h)).mono ?_
  rintro _ t ⟨h1, hfreed⟩
  exact ⟨h1, h1, hfreed⟩

/-- Where a process is in `iput` while nobody has decided to truncate. -/
inductive Phase where
  | wait
  | held
  | read
  | left
  | dec
  | done
  deriving DecidableEq

def Phase.prog (i : Slot) : Phase → FsM Unit
  | wait => iput i
  | held => iputHeld i
  | read => iputRead i
  | left => iputAfter i
  | dec => iputDec i
  | done => .ret ()

def Phase.locks : Phase → Bool
  | held | read | left => true
  | _ => false

def Phase.refs : Phase → Bool
  | done => false
  | _ => true

def Phase.early : Phase → Bool
  | wait | held | read => true
  | _ => false

variable {f : Phase}

theorem eq_wait (h : (f.prog i).wants = some i) : f = .wait := by
  cases f with
  | wait => rfl
  | _ => cases h

theorem child_iputRead (i : Slot) : Child (iputRead i) (iputHeld i) :=
  Child.act (β := Bool) _ (fun unlinked => (Prog.when unlinked (ifree i)).bind fun _ => iputAfter i)
    true

theorem child_truncBody (i : Slot) : Child ((truncBody i).bind fun _ => iputAfter i) (iputRead i) :=
  Child.act (β := ℤ) _ (fun r => (Prog.when (r = 1) (truncBody i)).bind fun _ => iputAfter i) 1

theorem child_iputAfter (i : Slot) : Child (iputAfter i) (iputRead i) :=
  Child.act (β := ℤ) _ (fun r => (Prog.when (r = 1) (truncBody i)).bind fun _ => iputAfter i) 0

theorem eq_read (h : f.prog i = iputRead i) : f = .read := by
  cases f with
  | wait | left | done => cases h
  | held =>
    -- What comes after a read of `ref` is not what comes before it.
    have hc := child_iputRead i
    rw [show iputHeld i = iputRead i from h] at hc
    exact absurd (.single hc) (not_transGen_child _)
  | read => rfl
  | dec =>
    have hc : Relation.TransGen Child (iputDec i) (iputRead i) :=
      .head (Child.release i (iputDec i)) (.single (child_iputAfter i))
    rw [show iputDec i = iputRead i from h] at hc
    exact absurd hc (not_transGen_child _)

/-- Process `p` has decided to truncate and the others have all returned. -/
structure After (i : Slot) (s₀ : Fs) (p : P) (c : Config Fs Slot P Unit) : Prop where
  others : ∀ q, q ≠ p → c.prog q = .ret ()
  always : (c.prog p).Always p (fun t => One i t.st)
    (fun _ t => Freed (s₀.inode i).inum (ownBlocks s₀.block (s₀.inode i).toDinode) t.st) c.shared
  late : Relation.TransGen Child (c.prog p) (iputRead i)

theorem After.freed (h : After i s0 p c) (h0 : (c.shared.st.inode i).ref = 0) :
    Freed (s0.inode i).inum (ownBlocks s0.block (s0.inode i).toDinode) c.shared.st := by
  have ha := h.always
  have hone : ¬ One i c.shared.st := fun h1 => by
    rw [One, h0] at h1
    cases h1
  cases hc : c.prog p with
  | ret a => rw [hc] at ha; exact ha
  | act f k | acquire l k | release l k | held l k => rw [hc] at ha; exact absurd ha.1 hone

variable [DecidableEq P] {φ : P → Phase}

theorem After.not_truncates (h : After i s0 p c) : ¬ Truncates i c q := by
  rintro ⟨hq, _⟩
  by_cases hqp : q = p
  · subst hqp
    have := h.late
    rw [hq] at this
    exact not_transGen_child _ this
  · rw [h.others q hqp] at hq
    cases hq

theorem After.step (h : After i s0 p c) (hs : c.step q = some d) : After i s0 p d := by
  have hqp : q = p := by
    by_contra hne
    simp [Config.step, h.others q hne] at hs
  subst hqp
  refine ⟨fun r hr => ?_, h.always.step hs, .head (step_child hs) h.late⟩
  rw [Config.step_prog_of_ne hs hr]
  exact h.others r hr

theorem locks_update {o : Option P} (ho : ∀ q, o = some q ↔ (φ q).locks = true)
    (h : f.locks = (φ p).locks) (q : P) : o = some q ↔ (update φ p f q).locks = true := by
  rw [ho q]
  by_cases hq : q = p
  · subst hq
    rw [update_self, h]
  · rw [update_of_ne hq]

theorem early_update (h : f.early = true) :
    ∃ q, (update φ p f q).early = true := ⟨p, by rwa [update_self]⟩

theorem early_update_of_late (h : ∃ q, (φ q).early = true) (hp : (φ p).early = false) :
    ∃ q, (update φ p f q).early = true := by
  obtain ⟨q, hq⟩ := h
  have hqp : q ≠ p := by
    rintro rfl
    rw [hp] at hq
    cases hq
  exact ⟨q, by rwa [update_of_ne hqp]⟩

variable [Fintype P]

/-- Nobody has decided to truncate: the state is as at the start, but for the references that
were given back. -/
structure Before (i : Slot) (s₀ : Fs) (φ : P → Phase) (c : Config Fs Slot P Unit) : Prop where
  prog : ∀ q, c.prog q = (φ q).prog i
  st : c.shared.st = s₀.setInode i { s₀.inode i with ref := count Phase.refs φ }
  owner : ∀ q, c.shared.owner i = some q ↔ (φ q).locks = true
  early : ∃ q, (φ q).early = true

theorem Before.move (h : Before i s0 φ c)
    (hst : s.st = s0.setInode i { s0.inode i with ref := count Phase.refs (update φ p f) })
    (howner : ∀ q, s.owner i = some q ↔ (update φ p f q).locks = true)
    (hearly : ∃ q, (update φ p f q).early = true) :
    Before i s0 (update φ p f) ⟨s, update c.prog p (f.prog i)⟩ where
  prog q := by
    by_cases hq : q = p
    · subst hq
      simp
    · simp [hq, h.prog q]
  st := hst
  owner := howner
  early := hearly

theorem count_refs_update (φ : P → Phase) (h : f.refs = (φ p).refs) :
    count Phase.refs (update φ p f) = count Phase.refs φ := by
  rw [count_update, h]
  omega

theorem Before.step (hv : (s0.inode i).valid = true) (hl : (s0.inode i).nlink = 0)
    (h : Before i s0 φ c) (hC : Cond i c p) (hT : ¬ Truncates i c p) (hs : c.step p = some d) :
    ∃ φ, Before i s0 φ d := by
  have hp := h.prog p
  have hst := h.st
  cases hf : φ p with
  | wait =>
    rw [hf, Phase.prog, iput_eq] at hp
    simp only [Config.step, hp] at hs
    cases ho : c.shared.owner i with
    | some q => simp only [ho] at hs; cases hs
    | none =>
      simp only [ho] at hs
      cases hs
      refine ⟨_, h.move (f := .held) ?_ (fun q => ?_) (early_update rfl)⟩
      · rw [count_refs_update φ (by rw [hf]; rfl)]
        exact hst
      · have hq := h.owner q
        rw [ho] at hq
        by_cases hqp : q = p
        · subst hqp
          simp [Phase.locks]
        · simp only [update_self, Option.some.injEq, update_of_ne hqp]
          rw [← hq]
          simp [Ne.symm hqp]
  | held =>
    rw [hf] at hp
    have hu : ((c.shared.st.inode i).valid && decide ((c.shared.st.inode i).nlink = 0)) = true := by
      rw [hst]
      simp [hv, hl]
    have hread : c.step p = some ⟨c.shared, update c.prog p (iputRead i)⟩ := by
      simp only [Config.step, hp, Phase.prog, iputHeld, readInode, Prog.read, act_bind, ret_bind, hu]
      rfl
    rw [hread] at hs
    cases hs
    refine ⟨_, h.move (f := .read) ?_ (locks_update h.owner (by rw [hf]; rfl)) (early_update rfl)⟩
    rw [count_refs_update φ (by rw [hf]; rfl)]
    exact hst
  | read =>
    rw [hf] at hp
    have hr : (c.shared.st.inode i).ref ≠ 1 := fun h1 => hT ⟨hp, h1⟩
    have hread : c.step p = some ⟨c.shared, update c.prog p (iputAfter i)⟩ := by
      simp only [Config.step, hp, Phase.prog, iputRead, ifree_eq, readInode, Prog.read, act_bind,
        ret_bind, Prog.when, if_neg hr]
    rw [hread] at hs
    cases hs
    refine ⟨_, h.move (f := .left) ?_ (locks_update h.owner (by rw [hf]; rfl)) ?_⟩
    · rw [count_refs_update φ (by rw [hf]; rfl)]
      exact hst
    · -- Another process has yet to take the lock, and it will read `ref` later.
      obtain ⟨q, hq⟩ := (hC hp).resolve_left hr
      rw [h.prog q] at hq
      have hw := eq_wait hq
      have hqp : q ≠ p := by
        rintro rfl
        rw [hf] at hw
        cases hw
      exact ⟨q, by rw [update_of_ne hqp, hw]; rfl⟩
  | left =>
    rw [hf] at hp
    simp only [Config.step, hp, Phase.prog, iputAfter] at hs
    cases hs
    refine ⟨_, h.move (f := .dec) ?_ (fun q => ?_) ?_⟩
    · rw [count_refs_update φ (by rw [hf]; rfl)]
      exact hst
    · have hq := h.owner q
      rw [(h.owner p).mpr (by rw [hf]; rfl)] at hq
      by_cases hqp : q = p
      · subst hqp
        simp [Phase.locks]
      · simp only [update_self, update_of_ne hqp, ← hq]
        simp [Ne.symm hqp]
    · exact early_update_of_late h.early (by rw [hf]; rfl)
  | dec =>
    rw [hf] at hp
    simp only [Config.step, hp, Phase.prog, iputDec, modifyInode, Prog.modify] at hs
    cases hs
    refine ⟨_, h.move (f := .done) ?_ (locks_update h.owner (by rw [hf]; rfl)) ?_⟩
    · rw [count_update, hf, hst]
      simp [Fs.setInode, Phase.refs]
    · exact early_update_of_late h.early (by rw [hf]; rfl)
  | done =>
    rw [hf] at hp
    simp [Config.step, hp, Phase.prog] at hs

theorem eq_done_of_count (hp : (φ p).refs = true) (h : count Phase.refs φ = 1) (hq : q ≠ p) :
    φ q = .done := by
  have h0 : count Phase.refs (update φ p .done) = 0 := by
    rw [count_update, h, hp]
    rfl
  have hr := eq_false_of_count h0 q
  rw [update_of_ne hq] at hr
  cases hf : φ q with
  | done => rfl
  | _ => rw [hf] at hr; cases hr

theorem Before.truncate (h : Before i s0 φ c) (hT : Truncates i c p) (hs : c.step p = some d) :
    After i s0 p d := by
  obtain ⟨hp, h1⟩ := hT
  have hf : φ p = .read := eq_read ((h.prog p).symm.trans hp)
  have hcount : count Phase.refs φ = 1 := by
    rw [h.st] at h1
    simpa using h1
  have hstep : c.step p = some ⟨c.shared,
      update c.prog p ((truncBody i).bind fun _ => iputAfter i)⟩ := by
    simp only [Config.step, hp, iputRead, ifree_eq, readInode, Prog.read, act_bind, ret_bind,
      Prog.when, if_pos h1]
  rw [hstep] at hs
  cases hs
  refine ⟨fun q hq => ?_, ?_, ?_⟩
  · have hd := eq_done_of_count (by rw [hf]; rfl) hcount hq
    simp [hq, h.prog q, hd, Phase.prog]
  · have ha := always_truncBody (p := p) h1
    have hnum : (c.shared.st.inode i).inum = (s0.inode i).inum := by simp [h.st]
    have hcopy : (c.shared.st.inode i).toDinode = (s0.inode i).toDinode := by simp [h.st]
    have hblock : c.shared.st.block = s0.block := by simp [h.st]
    rw [hnum, hcopy, hblock] at ha
    simpa using ha
  · simpa using Relation.TransGen.single (child_truncBody i)

/-- Last reference frees.  Each of any number of processes drops one reference to an inode
without links whose cached copy is valid.  If the last of them to read `ref` does so only after
the others have decremented it, then once `ref` is 0 the inode is free on disk, its blocks are not
in use, and exactly one process has truncated it. -/
theorem last_ref_frees [Nonempty P] {i : Slot} {s₀ : Fs} (hv : (s₀.inode i).valid = true)
    (hl : (s₀.inode i).nlink = 0) (hr : (s₀.inode i).ref = Fintype.card P) {n : ℕ}
    {c : Config Fs Slot P Unit} (hrun : Config.RunCount (Cond i) (Truncates i) (start i s₀) n c)
    (h0 : (c.shared.st.inode i).ref = 0) :
    (c.shared.st.dinode (s₀.inode i).inum).type = 0 ∧
    (∀ b ∈ ownBlocks s₀.block (s₀.inode i).toDinode, c.shared.st.bitmap b = false) ∧ n = 1 := by
  have hinv : (n = 0 ∧ ∃ φ, Before i s₀ φ c) ∨ (n = 1 ∧ ∃ p, After i s₀ p c) := by
    clear h0
    induction hrun with
    | refl =>
      refine .inl ⟨rfl, fun _ => .wait, fun _ => rfl, ?_, fun q => ?_, ?_⟩
      · have hc : count Phase.refs (fun _ : P => Phase.wait) = (s₀.inode i).ref := by
          rw [hr]
          simp [count, Phase.refs]
        rw [hc]
        simp [start, Fs.setInode]
      · simp [start, Phase.locks]
      · exact ⟨Classical.arbitrary P, rfl⟩
    | tail _ hC hT hs ih =>
      rcases ih with ⟨hn, φ, h⟩ | ⟨hn, p, h⟩
      · exact .inl ⟨hn, h.step hv hl hC hT hs⟩
      · exact .inr ⟨hn, p, h.step hs⟩
    | mark _ _ hT hs ih =>
      rcases ih with ⟨hn, φ, h⟩ | ⟨_, p, h⟩
      · exact .inr ⟨by rw [hn], _, h.truncate hT hs⟩
      · exact absurd hT h.not_truncates
  rcases hinv with ⟨_, φ, h⟩ | ⟨hn, p, h⟩
  · -- Somebody has yet to read `ref`, so it is not 0.
    obtain ⟨q, hq⟩ := h.early
    have hpos : 0 < count Phase.refs φ := by
      apply count_pos (i := q)
      cases hf : φ q with
      | done => rw [hf] at hq; cases hq
      | _ => rfl
    rw [h.st] at h0
    simp at h0
    omega
  · exact ⟨(h.freed h0).1, (h.freed h0).2, hn⟩

/-- A file without links that two processes have open, with one block. -/
def unlinked : Inode where
  type := T_FILE
  major := 0
  minor := 0
  nlink := 0
  size := 1
  addrs := update (fun _ => 0) 0 60
  dev := ROOTDEV
  inum := 2
  ref := 2
  valid := true

local instance neZeroTwo : NeZero 2 := ⟨by decide⟩

def slot : Slot := ⟨1, by decide⟩

def twoRefs : Fs :=
  let s := boot fun _ => none
  { ((s.setInode slot unlinked).setDinode 2 unlinked.toDinode).setBit 60 true with
    log := { s.log with outstanding := 2 } }

/-- Both processes read `ref` before one decrements it. -/
def lateDecrements : List (Fin 2) := [0, 0, 0, 0, 1, 1, 1, 1, 0, 1]

def leaked : Config Fs Slot (Fin 2) Unit :=
  (Config.exec lateDecrements (start slot twoRefs)).get rfl

theorem twoRefs_leak : (twoRefs.inode slot).valid = true ∧ (twoRefs.inode slot).nlink = 0 ∧
    (twoRefs.inode slot).ref = Fintype.card (Fin 2) ∧ Config.Reach (start slot twoRefs) leaked ∧
    (leaked.shared.st.inode slot).ref = 0 ∧ (leaked.shared.st.dinode 2).type ≠ 0 ∧
    leaked.shared.st.bitmap 60 = true := by
  refine ⟨rfl, rfl, rfl, Config.reach_of_exec (Option.some_get _).symm, ?_, ?_, ?_⟩
  · rfl
  · decide
  · rfl

def oneByOne : List (Fin 2) := List.replicate 5 0 ++ List.replicate 25 1

def dropped : Config Fs Slot (Fin 2) Unit := (Config.exec oneByOne (start slot twoRefs)).get rfl

theorem last_ref_frees_oneByOne : ∃ n,
    Config.RunCount (Cond slot) (Truncates slot) (start slot twoRefs) n dropped ∧
    (dropped.shared.st.inode slot).ref = 0 ∧ (dropped.shared.st.dinode 2).type = 0 ∧ n = 1 := by
  let test (c : Config Fs Slot (Fin 2) Unit) : Bool :=
    decide ((c.shared.st.inode slot).ref = 1 ∨ (c.prog 1).wants = some slot)
  have ht : ∀ c p, test c = true → Cond slot c p := by
    intro c p h _
    rcases of_decide_eq_true h with h1 | h1
    · exact .inl h1
    · exact .inr ⟨1, h1⟩
  have he : Config.exec oneByOne (start slot twoRefs) = some dropped := (Option.some_get _).symm
  obtain ⟨n, hn⟩ := Config.RunCount.exec (M := Truncates slot) ht .refl (by decide +kernel) he
  have h := last_ref_frees rfl rfl rfl hn rfl
  exact ⟨n, hn, rfl, h.1, h.2.2⟩

end Xv6.LastRef
