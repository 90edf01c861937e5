import Xv6.Fs.Alone

namespace Xv6
open Lib Prog Function

section Compose

variable {i : Slot} {off : ℕ} {s t u : Fs} {src : List UInt8}

theorem Overwrote.refl (hs : Sound s i) (hoff : off ≤ (s.inode i).size) : Overwrote i off [] s s where
  sb := rfl
  proc := rfl
  env := rfl
  cached _ _ := rfl
  self := by
    rw [List.length_nil, Nat.add_zero, Nat.max_eq_left hoff]
  dinode _ _ := rfl
  copy := id
  contents := (splice_nil _ _).symm
  other _ _ _ := rfl
  sound := hs

theorem Overwrote.inum (h : Overwrote i off src s t) : (t.inode i).inum = (s.inode i).inum := by
  rw [h.self]

theorem Overwrote.trans {a b : List UInt8} (hoff : off ≤ (s.inode i).size)
    (h : Overwrote i off a s t) (h' : Overwrote i (off + a.length) b t u) :
    Overwrote i off (a ++ b) s u where
  sb := h'.sb.trans h.sb
  proc := h'.proc.trans h.proc
  env := h'.env.trans h.env
  cached j hj := (h'.cached j hj).trans (h.cached j hj)
  self := by
    have hsize : (t.inode i).size = max (s.inode i).size (off + a.length) := by rw [h.self]
    have hmax : max (max (s.inode i).size (off + a.length)) (off + a.length + b.length) =
        max (s.inode i).size (off + (a ++ b).length) := by
      rw [List.length_append]
      omega
    rw [h'.self, hsize, hmax, h.self]
  dinode m hm := by
    rw [h'.dinode m (by rwa [h.inum]), h.dinode m hm]
  copy hc := by
    have hcopy := h'.copy
    rw [h.inum] at hcopy
    exact hcopy (h.copy hc)
  contents := by
    rw [h'.contents, h.contents]
    exact splice_append (by rwa [contents_length])
  other m hm ht := by
    have h2 := h'.other m (by rwa [h.inum])
    rw [h.dinode m hm] at h2
    rw [h2 ht, h.other m hm ht]
  sound := h'.sound

theorem Overwrote.congr (h : Overwrote i off src s t) (l l' : Log) (f f' : Fin NFILE → File) :
    Overwrote i off src { s with log := l, file := f } { t with log := l', file := f' } :=
  ⟨h.sb, h.proc, h.env, h.cached, h.self, h.dinode, h.copy, h.contents, h.other,
    ⟨h.sound.apart, h.sound.filled⟩⟩

end Compose

/-- The file is open and can be written; the blocks suffice for `nb` blocks. -/
structure Writable (f : Fin NFILE) (i : Slot) (nb : ℕ) (s : Fs) : Prop where
  log : s.log = idleLog
  ref : 1 ≤ (s.inode i).ref
  type : ((s.load i).inode i).type ≠ 0
  dev : ((s.load i).inode i).type ≠ T_DEV
  sound : Sound (s.load i) i
  off : (s.file f).off ≤ ((s.load i).inode i).size
  enough : Enough nb i (s.load i)

/-- The bytes `src` were written to the open file `f`. -/
structure Through (f : Fin NFILE) (i : Slot) (src : List UInt8) (s t : Fs) : Prop where
  log : t.log = idleLog
  file : t.file = update s.file f
    { s.file f with off := (s.file f).off + src.length }
  wrote : Overwrote i (s.file f).off src (s.load i) (t.load i)

section Loop

variable {P : Type} {p : P} {E : Option String → Prop} {f : Fin NFILE} {i : Slot} {nb : ℕ} {s : Fs}
  {now a : List UInt8} {off n : ℕ}

/-- One round of the loop, and what comes then. -/
def writePiece {α : Type} (f : Fin NFILE) (i : Slot) (now : List UInt8) (k : ℤ → FsM α) : FsM α := do
  beginOp
  ilock i
  let off ← Prog.read fun s => (s.file f).off
  let r ← writei i now off
  advance f r.toNat
  iunlock i
  endOp
  k r

theorem filewriteLoop_succ (k : ℕ) (src : List UInt8) :
    filewriteLoop f i (k + 1) src = if src.length = 0 then return true
      else writePiece f i (src.take maxWrite) fun r =>
        if r < 0 then return false
        else if r ≠ (src.take maxWrite).length then Prog.panic "short filewrite"
        else filewriteLoop f i k (src.drop maxWrite) := rfl

def Fs.advanced (s : Fs) (f : Fin NFILE) (r : ℕ) : Fs :=
  if r > 0 then s.setFile f { s.file f with off := uadd (s.file f).off r } else s

theorem finishes_writePiece {α : Type} {s : Shared Fs Slot P} {k : ℤ → FsM α}
    {Q : α → Shared Fs Slot P → Prop} {R : ℤ → Fs → Prop} (hlog : s.st.log = idleLog)
    (hlock : s.owner i = none) (href : 1 ≤ (s.st.inode i).ref)
    (ht : ((s.st.load i).inode i).type ≠ 0) (hdev : ((s.st.load i).inode i).type ≠ T_DEV)
    (hwrite : Halts p (fun _ _ => False) (writei i now (s.st.file f).off)
      { s.st.load i with log := idleLog.enter } R)
    (hR : ∀ r t, R r t → SameTrans { s.st.load i with log := idleLog.enter } t ∧
      1 ≤ (t.inode i).ref ∧
      Finishes p E (k r) ⟨{ t.advanced f r.toNat with log := idleLog }, s.owner⟩ Q) :
    Finishes p E (writePiece f i now k) s Q := by
  refine (finishes_beginOp hlog).bind ?_
  rintro _ _ rfl
  have hload := Fs.load_withLog s.st i idleLog.enter
  refine (finishes_ilock (s := ⟨{ s.st with log := idleLog.enter }, s.owner⟩) hlock href
    (by rw [hload]; exact ht)).bind ?_
  rintro _ _ rfl
  rw [hload]
  apply Finishes.bind_read
  have hfile : ({ s.st.load i with log := idleLog.enter } : Fs).file = s.st.file :=
    Fs.load_file s.st i
  rw [hfile]
  obtain ⟨r, t, hrun, ht'⟩ := hwrite.run (update s.owner i (some p))
  have howner : t.owner = update s.owner i (some p) :=
    (finishes_writei hdev _ _).of_done hrun
  obtain ⟨htrans, href', hk⟩ := hR r t.st ht'
  refine Finishes.bind (Q := fun r' t' => r = r' ∧ t = t') (.of_run hrun ⟨rfl, rfl⟩) ?_
  rintro _ _ ⟨rfl, rfl⟩
  refine Finishes.bind (Q := fun _ u => u = ⟨t.st.advanced f r.toNat, t.owner⟩) (.when ?_ ?_) ?_
  · intro hpos
    refine .modify ?_
    rw [Fs.advanced, if_pos hpos]
  · intro hpos
    rw [Fs.advanced, if_neg hpos]
  · rintro _ _ rfl
    have hinode : (t.st.advanced f r.toNat).inode = t.st.inode := by
      unfold Fs.advanced
      split_ifs <;> rfl
    have hlog' : (t.st.advanced f r.toNat).log = t.st.log := by
      unfold Fs.advanced
      split_ifs <;> rfl
    refine (finishes_iunlock (s := ⟨t.st.advanced f r.toNat, t.owner⟩) ?_ ?_).bind ?_
    · rw [howner, update_self]
    · rw [hinode]
      exact href'
    · rintro _ _ rfl
      refine (finishes_endOp ?_ ?_ ?_).bind ?_
      · rw [hlog', htrans.outstanding]
        rfl
      · rw [hlog', htrans.committing]
        rfl
      · rw [hlog', htrans.size]
        rfl
      · rintro _ _ rfl
        have hback : update t.owner i none = s.owner := by
          rw [howner, update_idem, ← hlock, update_eq_self]
        rw [hback]
        exact hk

def fitting (off n : ℕ) : ℕ :=
  if off + n ≤ MAXFILE * BSIZE then n else maxWrite * ((MAXFILE * BSIZE - off) / maxWrite)

theorem fitting_succ (h : off + min maxWrite n ≤ MAXFILE * BSIZE) :
    fitting off n = min maxWrite n + fitting (off + min maxWrite n) (n - maxWrite) := by
  have hM : maxWrite = 1536 := rfl
  have hF : MAXFILE * BSIZE = 71680 := rfl
  simp only [fitting, hM, hF] at h ⊢
  split_ifs <;> omega

theorem fitting_eq_zero (h : MAXFILE * BSIZE < off + min maxWrite n) : fitting off n = 0 := by
  have hM : maxWrite = 1536 := rfl
  have hF : MAXFILE * BSIZE = 71680 := rfl
  simp only [fitting, hM, hF] at h ⊢
  split_ifs <;> omega

theorem Writable.through_nil {t : Fs} (h : Writable f i nb s) (hlog : t.log = idleLog)
    (hfile : t.file = s.file) (hload : t.load i = s.load i) : Through f i [] s t where
  log := hlog
  file := by
    rw [hfile, List.length_nil, Nat.add_zero, update_eq_self]
  wrote := by
    rw [hload]
    exact .refl h.sound h.off

theorem Writable.off_le (h : Writable f i nb s) : (s.file f).off ≤ MAXFILE * BSIZE := by
  have hfill := h.sound.filled ((s.load i).inode i).inum (by rw [Fs.eff_self]; exact h.type)
  rw [Fs.eff_self] at hfill
  exact Nat.le_trans h.off (nblk_le.mp hfill.le)

theorem Through.append {b : List UInt8} {t u : Fs} (hs : Writable f i nb s) (h : Through f i a s t)
    (h' : Through f i b t u) : Through f i (a ++ b) s u := by
  have hoff : (t.file f).off = (s.file f).off + a.length := by
    rw [h.file, update_self]
  have hover := h'.wrote
  rw [hoff] at hover
  refine ⟨h'.log, ?_, h.wrote.trans hs.off hover⟩
  rw [h'.file, h.file, update_self, update_idem, List.length_append, Nat.add_assoc]

theorem logRoom_piece (h : s.log = idleLog.enter) (hn : n ≤ maxWrite) :
    LogRoom s (logBlocks off n) := by
  have hM : maxWrite = 1536 := rfl
  have hB : BSIZE = 512 := rfl
  have hblocks : logBlocks off n ≤ 11 := by
    unfold logBlocks nblk
    rw [hB]
    omega
  have hlen : s.log.lh.length = 0 := by rw [h]; rfl
  have hsize : s.log.size = 30 := by rw [h]; rfl
  have hL : LOGSIZE = 30 := rfl
  refine ⟨?_, ?_, by omega, by omega⟩
  · rw [h]
    decide
  · rw [h]
    exact List.nodup_nil

theorem halts_piece (hs : Writable f i nb s) (hpos : 0 < now.length) (hn : now.length ≤ maxWrite)
    (hmax : (s.file f).off + now.length ≤ MAXFILE * BSIZE)
    (hnb : nblk ((s.file f).off + now.length) ≤ nb) :
    Halts p (fun _ _ => False) (writei i now (s.file f).off)
      { s.load i with log := idleLog.enter } fun r t => r = now.length ∧
        SameTrans { s.load i with log := idleLog.enter } t ∧ 1 ≤ (t.inode i).ref ∧
        Through f i now s { t.advanced f now.length with log := idleLog } ∧
        Writable f i nb { t.advanced f now.length with log := idleLog } := by
  have hF : MAXFILE * BSIZE = 71680 := rfl
  have hok : ¬ ((s.load i).inode i).refuses (s.file f).off now.length := by
    rintro (h | h | h)
    · exact absurd hs.off (Nat.not_le.mpr h)
    · omega
    · omega
  refine (halts_writei (s := { s.load i with log := idleLog.enter })
    ⟨hs.sound.apart, hs.sound.filled⟩ hs.type hs.dev hok hnb (hs.enough.congr rfl rfl fun _ => rfl)
    (logRoom_piece rfl hn)).mono (fun _ _ => id) ?_
  rintro r t ⟨hr, hover, hfile, htrans, henough⟩
  have hover : Overwrote i (s.file f).off now (s.load i) t :=
    hover.congr (s.load i).log t.log (s.load i).file t.file
  have hfile : t.file = s.file := hfile.trans (Fs.load_file s i)
  have hadv : t.advanced f now.length =
      t.setFile f { s.file f with off := (s.file f).off + now.length } := by
    rw [Fs.advanced, if_pos hpos, hfile, uadd, Nat.mod_eq_of_lt (by omega)]
  have hvalid : (t.inode i).valid = true := by
    rw [hover.self]
    exact Fs.load_valid s i
  have href : 1 ≤ (t.inode i).ref := by
    rw [hover.self]
    have := hs.ref
    rwa [← Fs.load_ref] at this
  rw [hadv]
  have hload : ({ t.setFile f { s.file f with off := (s.file f).off + now.length } with
      log := idleLog } : Fs).load i = _ := Fs.load_of_valid hvalid
  refine ⟨hr, htrans, href, ⟨rfl, ?_, ?_⟩, ?_⟩
  · show update t.file f _ = _
    rw [hfile]
  · rw [hload]
    exact hover.congr (s.load i).log idleLog (s.load i).file _
  · refine ⟨rfl, href, ?_, ?_, ?_, ?_, ?_⟩
    · rw [hload]
      show (t.inode i).type ≠ 0
      rw [hover.self]
      exact hs.type
    · rw [hload]
      show (t.inode i).type ≠ T_DEV
      rw [hover.self]
      exact hs.dev
    · rw [hload]
      exact ⟨hover.sound.apart, hover.sound.filled⟩
    · rw [hload]
      show (update t.file f _ f).off ≤ (t.inode i).size
      rw [update_self, hover.self]
      exact Nat.le_max_right _ _
    · rw [hload]
      exact henough.congr rfl rfl fun _ => rfl

theorem halts_piece_refused (hs : Writable f i nb s) (hn : now.length ≤ maxWrite)
    (hmax : MAXFILE * BSIZE < (s.file f).off + now.length) :
    Halts p (fun _ _ => False) (writei i now (s.file f).off)
      { s.load i with log := idleLog.enter } fun r t => r = -1 ∧
        t = { s.load i with log := idleLog.enter } := by
  have hoff := hs.off_le
  have hF : MAXFILE * BSIZE = 71680 := rfl
  have hM : maxWrite = 1536 := rfl
  exact halts_writei_refused hs.dev (by omega) (by omega) (.inr (.inr hmax))

def LoopDone (f : Fin NFILE) (i : Slot) (src : List UInt8) (s : Shared Fs Slot P) (b : Bool)
    (t : Shared Fs Slot P) : Prop :=
  b = decide ((s.st.file f).off + src.length ≤ MAXFILE * BSIZE) ∧ t.owner = s.owner ∧
    Through f i (src.take (fitting (s.st.file f).off src.length)) s.st t.st

theorem loopDone_nil {s : Shared Fs Slot P} (hs : Writable f i nb s.st) :
    LoopDone f i [] s true s := by
  refine ⟨(decide_eq_true hs.off_le).symm, rfl, ?_⟩
  rw [List.take_nil]
  exact hs.through_nil hs.log rfl rfl

theorem LoopDone.append {rest : List UInt8} {s t : Shared Fs Slot P} {t' : Fs} {b : Bool}
    (hs : Writable f i nb s.st) (ha : a.length = min maxWrite (a ++ rest).length)
    (hmax : (s.st.file f).off + a.length ≤ MAXFILE * BSIZE) (h : Through f i a s.st t')
    (h' : LoopDone f i rest ⟨t', s.owner⟩ b t) : LoopDone f i (a ++ rest) s b t := by
  obtain ⟨hb, howner, hthrough⟩ := h'
  have hoff : (t'.file f).off = (s.st.file f).off + a.length := by
    rw [h.file, update_self]
  have hlen : (a ++ rest).length = a.length + rest.length := List.length_append
  have hrest : rest.length = (a ++ rest).length - maxWrite := by
    rw [hlen] at ha ⊢
    omega
  have hfit : fitting (s.st.file f).off (a ++ rest).length =
      a.length + fitting ((s.st.file f).off + a.length) rest.length := by
    rw [fitting_succ (by rwa [← ha]), ← ha, ← hrest]
  simp only [hoff] at hb hthrough
  refine ⟨?_, howner, ?_⟩
  · rw [hb, hlen, Nat.add_assoc]
  · rw [hfit, List.take_length_add_append]
    exact h.append hs hthrough

theorem finishes_filewriteLoop {k : ℕ} {src : List UInt8} {s : Shared Fs Slot P}
    (hk : src.length ≤ k) (hlock : s.owner i = none) (hs : Writable f i nb s.st)
    (hnb : nblk ((s.st.file f).off + fitting (s.st.file f).off src.length) ≤ nb) :
    Finishes p E (filewriteLoop f i k src) s (LoopDone f i src s) := by
  induction k generalizing s src with
  | zero =>
    obtain rfl := List.eq_nil_of_length_eq_zero (Nat.le_zero.mp hk)
    exact .ret (loopDone_nil hs)
  | succ k ih =>
    rw [filewriteLoop_succ]
    apply Finishes.ite
    · intro h0
      obtain rfl := List.eq_nil_of_length_eq_zero h0
      exact .ret (loopDone_nil hs)
    · intro hne
      have hM : 0 < maxWrite := by decide
      have hnow : (src.take maxWrite).length = min maxWrite src.length := List.length_take
      have hsplit : src.take maxWrite ++ src.drop maxWrite = src := List.take_append_drop _ _
      by_cases hmax : (s.st.file f).off + (src.take maxWrite).length ≤ MAXFILE * BSIZE
      · have hfit : fitting (s.st.file f).off src.length = min maxWrite src.length +
            fitting ((s.st.file f).off + min maxWrite src.length) (src.length - maxWrite) :=
          fitting_succ (by rwa [← hnow])
        have hnb' : nblk ((s.st.file f).off + (src.take maxWrite).length) ≤ nb :=
          Nat.le_trans (Nat.div_le_div_right (by omega)) hnb
        refine finishes_writePiece hs.log hlock hs.ref hs.type hs.dev
          (halts_piece hs (by omega) (by omega) hmax hnb') ?_
        rintro r t ⟨rfl, htrans, href, hthrough, hw⟩
        refine ⟨htrans, href, ?_⟩
        rw [if_neg (by omega), if_neg (by omega), Int.toNat_natCast]
        have hoff : (({ t.advanced f (src.take maxWrite).length with log := idleLog } : Fs).file f).off =
            (s.st.file f).off + (src.take maxWrite).length := by
          rw [hthrough.file, update_self]
        refine (ih (s := ⟨{ t.advanced f (src.take maxWrite).length with log := idleLog },
          s.owner⟩) ?_ hlock hw ?_).mono ?_
        · rw [List.length_drop]
          omega
        · rw [hoff, List.length_drop, hnow, Nat.add_assoc, ← hfit]
          exact hnb
        · intro b u hu
          rw [← hsplit]
          exact LoopDone.append hs (by rwa [hsplit]) hmax hthrough hu
      · -- `writei` refuses the piece, and nothing has changed
        refine finishes_writePiece hs.log hlock hs.ref hs.type hs.dev
          (halts_piece_refused hs (by omega) (Nat.lt_of_not_le hmax)) ?_
        rintro r t ⟨rfl, rfl⟩
        have hload : ({ s.st.load i with log := idleLog } : Fs).load i = s.st.load i := by
          rw [Fs.load_withLog, Fs.load_of_valid (Fs.load_valid s.st i), ← Fs.load_withLog, ← hs.log]
        refine ⟨.refl _, ?_, .ret ⟨?_, rfl, ?_⟩⟩
        · show 1 ≤ ((s.st.load i).inode i).ref
          rw [Fs.load_ref]
          exact hs.ref
        · exact (decide_eq_false (by omega)).symm
        · rw [fitting_eq_zero (by omega), List.take_zero]
          exact hs.through_nil rfl (Fs.load_file s.st i) hload

/-- The pieces of `filewrite` amount to one `writei` of all bytes, or of the pieces that fit. -/
theorem filewrite_pieces (p : P) (o : Slot → Option P) (s : Fs) (f : Fin NFILE) (src : List UInt8)
    (htype : (s.file f).type = .fdInode) (hwritable : (s.file f).writable = true)
    (hlock : o (s.file f).ip = none)
    (hs : Writable f (s.file f).ip
      (nblk ((s.file f).off + fitting (s.file f).off src.length)) s) :
    ∃ u, (filewrite f src).run p ⟨s, o⟩ = .done
        (if (s.file f).off + src.length ≤ MAXFILE * BSIZE then (src.length : ℤ) else -1) u ∧
      u.owner = o ∧
      Through f (s.file f).ip (src.take (fitting (s.file f).off src.length)) s u.st := by
  have hloop := finishes_filewriteLoop (p := p) (E := fun _ => False) (s := ⟨s, o⟩)
    (Nat.le_refl src.length) hlock hs le_rfl
  have hall : Finishes p (fun _ => False) (filewrite f src) ⟨s, o⟩ fun r t =>
      r = (if (s.file f).off + src.length ≤ MAXFILE * BSIZE then (src.length : ℤ) else -1) ∧
        t.owner = o ∧
        Through f (s.file f).ip (src.take (fitting (s.file f).off src.length)) s t.st := by
    apply Finishes.bind_read
    simp only [htype, hwritable, Bool.true_eq_false, if_false]
    apply hloop.bind
    rintro b t ⟨rfl, howner, hthrough⟩
    refine .ret ⟨?_, howner, hthrough⟩
    simp only [decide_eq_true_eq]
  obtain ⟨r, u, hrun, rfl, hu⟩ := hall.run
  exact ⟨u, hrun, hu⟩

end Loop

/-- A regular file without content is open; `bits` is the bitmap. -/
def openEmpty (bits : ℕ → Bool) : Fs :=
  { boot fun _ => none with
    bitmap := bits
    dinode := update (boot fun _ => none).dinode 2 (.fresh T_FILE)
    inode := fun _ => { Dinode.fresh T_FILE with dev := ROOTDEV, inum := 2, ref := 1, valid := true }
    file := fun _ => ⟨.fdInode, 1, true, true, ⟨0, NINODE_pos⟩, 0⟩ }

theorem openEmpty_sound {bits : ℕ → Bool} (h : ∀ b ≤ rootBlock, bits b = true) :
    Sound (openEmpty bits) ⟨0, by decide⟩ := by
  have hboot := Blocks.boot_wellFormed fun _ => none
  have heff : (openEmpty bits).eff ⟨0, by decide⟩ = (openEmpty bits).dinode := by
    unfold Fs.eff openEmpty
    rw [update_idem]
  have howned := hboot.owned.allocInode (n := 2) (by decide) T_FILE
  refine ⟨?_, fun n hn => ?_⟩
  · rw [heff]
    have hcovers := howned.exact.covers
    have hmarked : ∀ b, (boot fun _ => none).bitmap b = true → bits b = true :=
      fun b hb => h b (of_decide_eq_true hb)
    exact ⟨howned.start, howned.size, hcovers.range, hcovers.inj,
      fun x b hb => hmarked b (hcovers.marked x b hb),
      fun b hb hhi => hmarked b (hcovers.reserved b hb hhi)⟩
  · rw [heff] at hn ⊢
    by_cases h2 : n = 2
    · subst h2
      have hd : (openEmpty bits).dinode 2 = .fresh T_FILE := by simp [openEmpty]
      rw [hd]
      exact ⟨by decide, fun bn hbn => absurd hbn (Nat.not_lt_zero bn)⟩
    · have hd : (openEmpty bits).dinode n = (boot fun _ => none).dinode n :=
        update_of_ne h2 _ _
      rw [hd] at hn ⊢
      exact ⟨(hboot.full n hn).le, fun bn hbn => (hboot.full n hn).ptr_ne_zero hbn⟩

theorem filewrite_pieces_empty :
    ∃ u, (filewrite ⟨0, by decide⟩ [1, 2, 3]).run initproc
        ⟨openEmpty (boot fun _ => none).bitmap, fun _ => none⟩ = .done 3 u ∧
      u.owner = (fun _ => none) ∧
      Through ⟨0, by decide⟩ ⟨0, by decide⟩ [1, 2, 3] (openEmpty (boot fun _ => none).bitmap) u.st :=
  filewrite_pieces initproc (fun _ => none) (openEmpty (boot fun _ => none).bitmap) ⟨0, by decide⟩
    [1, 2, 3] rfl rfl rfl
    ⟨rfl, by decide, by decide, by decide, openEmpty_sound fun _ => decide_eq_true, by decide,
      by decide +kernel⟩

/-- On a full disk a write that is short enough does not return. -/
theorem filewrite_disk_full : ¬ ∀ (s : Fs) (f : Fin NFILE) (src : List UInt8),
    (s.file f).type = .fdInode → (s.file f).writable = true → Writable f (s.file f).ip 0 s →
    (s.file f).off + src.length ≤ MAXFILE * BSIZE →
    ∃ u, (filewrite f src).run initproc ⟨s, fun _ => none⟩ = .done (src.length : ℤ) u := by
  intro h
  obtain ⟨u, hu⟩ := h (openEmpty fun _ => true) ⟨0, by decide⟩ [1, 2, 3] rfl rfl
    ⟨rfl, by decide, by decide, by decide, openEmpty_sound fun _ _ => rfl, by decide,
      by decide +kernel⟩ (by decide)
  have hpanic : ((filewrite ⟨0, by decide⟩ [1, 2, 3]).run initproc
      ⟨openEmpty fun _ => true, fun _ => none⟩).message = some "balloc: out of blocks" := by
    decide +kernel
  rw [hu] at hpanic
  cases hpanic

end Xv6
