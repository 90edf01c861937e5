import Xv6.Lib.Turns
import Xv6.Fs.Filewrite
import Xv6.Fs.LinkExisting

namespace Xv6
open Lib Prog

/-- The loop of `filewrite` as a list. -/
def piecesFrom : ℕ → List UInt8 → List (List UInt8)
  | 0, _ => []
  | k + 1, src => if src.length = 0 then [] else src.take maxWrite :: piecesFrom k (src.drop maxWrite)

def pieces (src : List UInt8) : List (List UInt8) := piecesFrom src.length src

theorem piecesFrom_flatten {k : ℕ} {src : List UInt8} (h : src.length ≤ k) :
    (piecesFrom k src).flatten = src := by
  have hM : 0 < maxWrite := by decide
  induction k generalizing src with
  | zero => rw [List.eq_nil_of_length_eq_zero (Nat.le_zero.mp h)]; rfl
  | succ k ih =>
    rw [piecesFrom]
    split_ifs with h0
    · rw [List.eq_nil_of_length_eq_zero h0]
      rfl
    · rw [List.flatten_cons, ih (by rw [List.length_drop]; omega), List.take_append_drop]

theorem flatMap_pieces (calls : List (List UInt8)) :
    (calls.flatMap pieces).flatten = calls.flatten := by
  induction calls with
  | nil => rfl
  | cons src calls ih =>
    rw [List.flatMap_cons, List.flatten_append, ih, pieces, piecesFrom_flatten le_rfl,
      List.flatten_cons]

def writeCalls (f : Fin NFILE) : List (List UInt8) → FsM (List ℤ)
  | [] => return []
  | src :: rest => do
    let r ← filewrite f src
    let rs ← writeCalls f rest
    return r :: rs

def SameButLog (s t : Fs) : Prop := ∃ l, t = { s with log := l }

theorem SameButLog.refl (s : Fs) : SameButLog s s := ⟨s.log, rfl⟩

theorem SameButLog.symm {s t : Fs} (h : SameButLog s t) : SameButLog t s := by
  obtain ⟨l, rfl⟩ := h
  exact ⟨s.log, rfl⟩

theorem SameButLog.trans {s t u : Fs} (h : SameButLog s t) (h' : SameButLog t u) :
    SameButLog s u := by
  obtain ⟨l, rfl⟩ := h
  obtain ⟨l', rfl⟩ := h'
  exact ⟨l', rfl⟩

structure OpenFile (f : Fin NFILE) (i : Slot) (s : Fs) : Prop where
  type : (s.file f).type = .fdInode
  writable : (s.file f).writable = true
  ip : (s.file f).ip = i
  ref : 0 < refs s i

/-- Its offset is at the end of the regular file `n`. -/
structure AtEnd (f : Fin NFILE) (i : Slot) (n : ℕ) (s : Fs) : Prop extends OpenFile f i s where
  sane : Sane s
  inum : (s.inode i).inum = n
  regular : (s.dinode n).type = T_FILE
  off : (s.file f).off = (s.dinode n).size

/-- The bytes are appended to the file, and the offset is at the new end. -/
def Appends (f : Fin NFILE) (n : ℕ) (now : List UInt8) (s t : Fs) : Prop :=
  contents t.block (t.dinode n) = contents s.block (s.dinode n) ++ now ∧
    (t.file f).off = (s.file f).off + now.length

def appending (f : Fin NFILE) (i : Slot) (n : ℕ) : Discipline Fs Slot (List UInt8) where
  lock := i
  same := SameButLog
  inv := OpenFile f i
  idle := AtEnd f i n
  fits now s := (s.file f).off + now.length ≤ MAXFILE * BSIZE
  does := Appends f n
  same_refl := .refl
  same_symm := .symm
  same_trans := .trans
  inv_same := by
    rintro s _ ⟨l, rfl⟩ h
    exact ⟨h.type, h.writable, h.ip, h.ref⟩
  idle_same := by
    rintro s _ ⟨l, rfl⟩ h
    exact ⟨⟨h.type, h.writable, h.ip, h.ref⟩,
      ⟨⟨h.sane.owned, h.sane.full⟩, ⟨h.sane.nonneg, h.sane.dev, h.sane.uniq, h.sane.copy⟩⟩, h.inum,
      h.regular, h.off⟩
  inv_idle h := h.toOpenFile

/-- What the action does from `s`, for all logs: it leaves the log alone, or writes one block to it, or
it cannot be done.  The open files and the reference counts stay. -/
inductive Tamed {β : Type} (g : Fs → Outcome Fs β) (s : Fs) : Prop where
  | plain (b : β) (t : Fs) (hfile : t.file = s.file) (href : refs t = refs s)
      (h : ∀ l, g { s with log := l } = .done b { t with log := l })
  | logs (c : ℕ) (b : β) (t : Fs) (hfile : t.file = s.file) (href : refs t = refs s)
      (h : ∀ l, g { s with log := l } = logged c b { s with log := l } t)
  | stuck (h : ∀ l b t, g { s with log := l } ≠ .done b t)

def Tame {β : Type} (g : Fs → Outcome Fs β) : Prop := ∀ s, Tamed g s

theorem tame_read {β : Type} {g : Fs → β} (h : ∀ s l, g { s with log := l } = g s) :
    Tame fun s => .done (g s) s := by
  intro s
  refine .plain (g s) s rfl rfl fun l => ?_
  rw [h]

theorem tame_panic {β : Type} (m : String) : Tame fun _ : Fs => (.panic m : Outcome Fs β) :=
  fun _ => .stuck fun _ _ _ h => nomatch h

theorem refs_setInode {s : Fs} {i : Slot} {ip : Inode} (h : ip.ref = (s.inode i).ref) :
    refs (s.setInode i ip) = refs s := by
  funext j
  by_cases hj : j = i
  · subst hj
    simp [refs, h]
  · simp [refs, Function.update_of_ne hj]

theorem each_modifyInode {i : Slot} {g : Inode → Inode} (h : ∀ ip, (g ip).ref = ip.ref) :
    (modifyInode i g).Each Tame :=
  .atomic fun s => .plain () (s.setInode i (g (s.inode i))) rfl (refs_setInode (h (s.inode i)))
    fun _ => rfl

theorem each_readInode {α : Type} {i : Slot} {g : Inode → α} : (readInode i g).Each Tame :=
  .atomic (tame_read fun _ _ => rfl)

theorem each_ballocFrom (k b : ℕ) : (ballocFrom k b).Each Tame := by
  induction k generalizing b with
  | zero => exact .atomic (tame_panic _)
  | succ k ih =>
    refine Each.bind (.atomic fun s => ?_) fun r => ?_
    · cases hf : firstFree s.bitmap b (min BPB (s.sb.size - b)) with
      | none =>
        refine .plain none s rfl rfl fun l => ?_
        simp only [hf]
      | some c =>
        refine .logs (s.sb.bblock b) (some c) (s.setBit c true) rfl rfl fun l => ?_
        simp only [hf]
        rfl
    · cases r with
      | none => exact ih _
      | some c =>
        refine Each.bind (.atomic fun s => ?_) fun _ => trivial
        exact .logs c () (s.setBlock c zeroBlock) rfl rfl fun _ => rfl

theorem each_balloc : balloc.Each Tame :=
  .bind (.atomic (tame_read fun _ _ => rfl)) fun _ => each_ballocFrom _ _

theorem each_addrOrAlloc (i : Slot) (k : ℕ) : (addrOrAlloc i k).Each Tame := by
  refine .bind each_readInode fun addr => .ite ?_ trivial
  exact .bind each_balloc fun b => .bind (each_modifyInode fun _ => rfl) fun _ => trivial

theorem each_entryOrAlloc (addr k : ℕ) : (entryOrAlloc addr k).Each Tame := by
  refine .bind (.atomic (tame_read fun _ _ => rfl)) fun a => .ite ?_ trivial
  refine .bind each_balloc fun b => .bind (.atomic fun s => ?_) fun _ => trivial
  exact .logs addr () (s.setBlock addr ((s.block addr).put32 (4 * k) b)) rfl rfl fun _ => rfl

theorem each_bmap (i : Slot) (bn : ℕ) : (bmap i bn).Each Tame := by
  refine .ite (each_addrOrAlloc i bn) (.ite ?_ (.atomic (tame_panic _)))
  exact .bind (each_addrOrAlloc i NDIRECT) fun addr => each_entryOrAlloc addr _

theorem each_writeLoop (i : Slot) (k off : ℕ) (src : List UInt8) :
    (writeLoop i k off src).Each Tame := by
  induction k generalizing off src with
  | zero => trivial
  | succ k ih =>
    refine .ite trivial (.bind (each_bmap i _) fun addr => .bind (.atomic fun s => ?_) fun _ => ih _ _)
    exact .logs addr () (s.setBlock addr ((s.block addr).put (off % BSIZE)
      (src.take (min src.length (BSIZE - off % BSIZE))))) rfl rfl fun _ => rfl

theorem writei_rest (i : Slot) (src : List UInt8) (off : ℕ) :
    ∃ g : Inode → FsM ℤ, writei i src off = (readInode i id).bind g ∧
      ∀ ip, ip.type ≠ T_DEV → (g ip).Each Tame := by
  refine ⟨_, rfl, fun ip hdev => ?_⟩
  rw [if_neg hdev]
  refine .ite trivial (.ite trivial ?_)
  refine .bind (each_writeLoop i _ _ _) fun off' => .bind each_readInode fun size => ?_
  refine .bind (.ite ?_ trivial) fun _ => trivial
  refine .bind (each_modifyInode fun _ => rfl) fun _ => .atomic fun s => ?_
  exact .logs (s.sb.iblock (s.inode i).inum) ()
    (s.setDinode (s.inode i).inum (s.inode i).toDinode) rfl rfl fun _ => rfl

variable {f : Fin NFILE} {i : Slot} {n : ℕ} {rest : List (List UInt8)}

section Track

theorem OpenFile.congr {s t : Fs} (h : OpenFile f i s) (hfile : t.file = s.file)
    (href : refs t = refs s) : OpenFile f i t := by
  refine ⟨?_, ?_, ?_, ?_⟩
  · rw [hfile]
    exact h.type
  · rw [hfile]
    exact h.writable
  · rw [hfile]
    exact h.ip
  · rw [href]
    exact h.ref

theorem Tame.tracks {β : Type} (g : Fs → Outcome Fs β) (hg : Tame g) :
    Tracks (appending f i n) (fun s => s.log.logWriteCheck = none) g := by
  rintro u _ b t ⟨l, rfl⟩ hinv hdone
  cases hg u with
  | plain b' t' hfile href h =>
    have hu : g u = .done b' { t' with log := u.log } := h u.log
    rw [hu] at hdone
    cases hdone
    exact .inl ⟨_, h l, ⟨l, rfl⟩, hinv.congr hfile href⟩
  | logs c b' t' hfile href h =>
    have hu : g u = logged c b' u t' := h u.log
    cases hl : l.logWriteCheck with
    | some m =>
      refine .inr ⟨fun b'' t'' => ?_, fun hnone => nomatch hl.symm.trans hnone⟩
      rw [h l, logged]
      simp only [hl]
      rintro ⟨⟩
    | none =>
      have hs : g { u with log := l } = .done b' { t' with log := l.logWrite c } := by
        rw [h l, logged]
        simp only [hl]
      rw [hu, logged] at hdone
      cases hcheck : u.log.logWriteCheck with
      | some m =>
        rw [hcheck] at hdone
        cases hdone
      | none =>
        rw [hcheck] at hdone
        cases hdone
        exact .inl ⟨_, hs, ⟨_, rfl⟩, hinv.congr hfile href⟩
  | stuck h => exact absurd hdone (h u.log b t)

theorem Tame.sameTrans {s0 : Fs} {β : Type} (g : Fs → Outcome Fs β) (hg : Tame g) (s : Fs) (b : β)
    (t : Fs) (hs : SameTrans s0 s) (hdone : g s = .done b t) : SameTrans s0 t := by
  cases hg s with
  | plain b' t' _ _ h =>
    have hu : g s = .done b' { t' with log := s.log } := h s.log
    rw [hu] at hdone
    cases hdone
    exact hs.congr rfl
  | logs c b' t' _ _ h =>
    have hu : g s = logged c b' s t' := h s.log
    rw [hu, logged] at hdone
    cases hcheck : s.log.logWriteCheck with
    | some m =>
      rw [hcheck] at hdone
      cases hdone
    | none =>
      rw [hcheck] at hdone
      cases hdone
      exact hs.logWrite rfl
  | stuck h => exact absurd hdone (h s.log b t)

end Track

section Piece

variable {s s0 t : Fs} {now : List UInt8} {es : List (List UInt8)}

theorem WroteFile.append (h : WroteFile n (s.dinode n).size now s t) (ht : (s.dinode n).type ≠ 0) :
    contents t.block (t.dinode n) = contents s.block (s.dinode n) ++ now ∧
      (t.dinode n).size = (s.dinode n).size + now.length := by
  have hsize : (t.dinode n).size = max (s.dinode n).size ((s.dinode n).size + now.length) := by
    rw [h.self]
  have hlen : ((List.range (s.dinode n).size).map (byteAt s.block (s.dinode n))).length =
      (s.dinode n).size := by rw [List.length_map, List.length_range]
  constructor
  · rw [contents_eq, contents_eq, hsize, map_range_eq_splice 0 le_rfl h.new, splice]
    · rw [List.take_of_length_le (Nat.le_of_eq hlen), List.drop_of_length_le (by omega),
        List.append_nil]
    · exact fun x hx hnot => h.kept n x ht hx fun hin => hnot hin.2
  · rw [hsize]
    omega

theorem turns_ilock : (ilock i).Turns (appending f i n) (fun _ es' m => es' = now :: rest ∧
    ∃ s t, m = some (s, t) ∧ (s.file f).off + now.length ≤ MAXFILE * BSIZE ∧ AtEnd f i n t ∧
      Loaded t i n ∧ t.log = idleLog.enter ∧ SameDisk s t ∧ t.file = s.file) (now :: rest) none := by
  refine Turns.bind_read_out fun s hs => ?_
  have href : ¬ (s.inode i).ref < 1 := by
    have := hs.ref
    unfold refs at this
    omega
  rw [if_neg href]
  refine ⟨rfl, now, rest, rfl, fun s hidle hfit => ⟨s, .refl s, ?_⟩⟩
  intro u b t hu hdone
  have hsu := SameButLog.symm hu
  have hu : AtEnd f i n u := (appending f i n).idle_same hsu hidle
  have ht : (u.dinode n).type ≠ 0 := by
    rw [hu.regular]
    decide
  obtain ⟨hmoves, hload, hdisk, -⟩ := (does_iload (p := ()) (E := fun _ => True) hu.sane hu.ref hu.inum
    (.inl ht)).halts.act_done hdone fun _ => none
  have hend : AtEnd f i n t := by
    refine ⟨hu.congr hmoves.file hmoves.refs, hmoves.sane, hload.1.2, ?_, ?_⟩
    · rw [hdisk.dinode]
      exact hu.regular
    · rw [hmoves.file, hdisk.dinode]
      exact hu.off
  -- From here on, the log is as empty as it can be in a transaction.
  have hend' : AtEnd f i n { t with log := idleLog.enter } :=
    (appending f i n).idle_same ⟨_, rfl⟩ hend
  refine ⟨{ t with log := idleLog.enter }, ⟨_, rfl⟩, hend'.toOpenFile, rfl, s, _, rfl, hfit, hend',
    hload, rfl, ?_, ?_⟩
  · obtain ⟨l, rfl⟩ := hsu
    exact ⟨hdisk.dinode, hdisk.block, hdisk.bitmap⟩
  · obtain ⟨l, rfl⟩ := hsu
    exact hmoves.file

theorem turns_writei (hs : AtEnd f i n s) (hload : Loaded s i n) (hlog : s.log = idleLog.enter)
    (hlen : now.length ≤ maxWrite) (hfit : (s.file f).off + now.length ≤ MAXFILE * BSIZE) :
    (writei i now (s.file f).off).Turns (appending f i n) (fun r es' m => es' = es ∧
      ∃ t, m = some (s0, t) ∧ OpenFile f i t ∧ r = (now.length : ℤ) ∧ Moves (refs s) s t ∧
        WroteFile n (s.file f).off now s t) es (some (s0, s)) := by
  obtain ⟨hcopy, ht⟩ := hload.copy hs.sane
  have hdisk : (s.dinode n).type ≠ T_DEV := by
    rw [hs.regular]
    decide
  have hdev : (s.inode i).type ≠ T_DEV := by
    rw [congrArg Dinode.type hcopy]
    exact hdisk
  have hdoes := (does_writei_file (p := ()) (E := fun _ => True) (fun _ _ => trivial) hs.sane hload now
    (s.file f).off hdisk).halts
  have hsound : Sound s i := hs.sane.sound (by rw [hcopy, hs.inum])
  have hcount : Halts () (fun _ => LoggedAtMost s (logBlocks (s.file f).off now.length))
      (writei i now (s.file f).off) s
      fun _ => LoggedAtMost s (logBlocks (s.file f).off now.length) := halts_writei_count hsound
  obtain ⟨g, hg, heach⟩ := writei_rest i now (s.file f).off
  have htrans := (heach _ hdev).halts (p := ()) (fun g hg => Tame.sameTrans g hg) (SameTrans.refl s)
  rw [hg] at hdoes hcount ⊢
  refine Turns.bind_read_in (fun u hu => ?_) hs.toOpenFile ?_
  · obtain ⟨l, rfl⟩ := hu
    rfl
  · refine Turns.of_halts (p := ()) ((heach _ hdev).mono Tame.tracks) hs.toOpenFile ?_
    refine (((hdoes.act_done rfl).and (hcount.act_done rfl)).and htrans).mono ?_ ?_
    · rintro _ t ⟨⟨-, hcount⟩, htrans⟩
      cases hcheck : t.log.logWriteCheck with
      | none => rfl
      | some m => exact ((htrans.fails hcheck).no_room (logRoom_piece hlog hlen) hcount).elim
    · rintro r t ⟨⟨⟨hmoves, hcase⟩, -⟩, -⟩
      rcases hcase with ⟨-, -, hno⟩ | ⟨hr, -, hwrote⟩
      · have := hs.off
        omega
      · exact ⟨hr, hmoves, hwrote⟩

theorem turns_iunlock (hdoes : Appends f n now s0 s) (hs : AtEnd f i n s) :
    (iunlock i).Turns (appending f i n) (fun _ es' m => es' = rest ∧ m = none) (now :: rest)
      (some (s0, s)) := by
  refine ⟨rfl, Turns.bind_read_in (fun u hu => ?_) hs.toOpenFile ?_⟩
  · obtain ⟨l, rfl⟩ := hu
    rfl
  · have href : ¬ (true = false ∨ (s.inode i).ref < 1) := by
      have := hs.ref
      unfold refs at this
      rintro (h | h)
      · cases h
      · omega
    rw [if_neg href]
    exact ⟨rfl, now, rest, rfl, hdoes, hs, rfl, rfl⟩

theorem turns_endOp : endOp.Turns (appending f i n) (fun _ es' m => es' = es ∧ m = none) es none := by
  refine Turns.bind_atomic_out (fun s b t h => ?_) fun commit => ?_
  · cases hl : s.log.leave with
    | error m =>
      rw [hl] at h
      cases h
    | ok l =>
      rw [hl] at h
      cases h
      exact ⟨l, rfl⟩
  · unfold Prog.when
    split_ifs
    · rintro s _ _ - ⟨⟩
      refine ⟨⟨_, rfl⟩, ?_⟩
      rintro s _ _ - ⟨⟩
      exact ⟨⟨_, rfl⟩, rfl, rfl⟩
    · exact ⟨rfl, rfl⟩

/-- The bytes stand behind the contents of the file once `f->off` is moved on. -/
theorem append_done (hs : AtEnd f i n s) (hpos : 0 < now.length)
    (hfit : (s.file f).off + now.length ≤ MAXFILE * BSIZE) (hopen : OpenFile f i t)
    (hmoves : Moves (refs s) s t) (hwrote : WroteFile n (s.file f).off now s t) :
    AtEnd f i n (t.advanced f now.length) ∧ Appends f n now s (t.advanced f now.length) := by
  have hF : MAXFILE * BSIZE = 71680 := rfl
  have ht : (s.dinode n).type ≠ 0 := by
    rw [hs.regular]
    decide
  rw [hs.off] at hwrote
  obtain ⟨hcontents, hsize⟩ := hwrote.append ht
  have hadv : t.advanced f now.length =
      t.setFile f { t.file f with off := (s.file f).off + now.length } := by
    rw [Fs.advanced, if_pos hpos, hmoves.file, uadd, Nat.mod_eq_of_lt (by omega)]
  rw [hadv]
  have hself : (t.setFile f { t.file f with off := (s.file f).off + now.length }).file f =
      { t.file f with off := (s.file f).off + now.length } := Function.update_self ..
  have hm := hmoves.sane
  refine ⟨⟨⟨?_, ?_, ?_, hopen.ref⟩, ⟨⟨hm.owned, hm.full⟩, ⟨hm.nonneg, hm.dev, hm.uniq, hm.copy⟩⟩,
    ?_, ?_, ?_⟩, hcontents, ?_⟩
  · rw [hself]
    exact hopen.type
  · rw [hself]
    exact hopen.writable
  · rw [hself]
    exact hopen.ip
  · exact (hmoves.persist.refers ⟨hs.ref, hs.inum⟩ hopen.ref).2
  · show (t.dinode n).type = T_FILE
    rw [hwrote.self]
    exact hs.regular
  · rw [hself, hs.off]
    exact hsize.symm
  · rw [hself]

theorem turns_writePiece {α : Type} {k : ℤ → FsM α}
    {Q : α → List (List UInt8) → Option (Fs × Fs) → Prop} (hpos : 0 < now.length)
    (hlen : now.length ≤ maxWrite) (hk : (k now.length).Turns (appending f i n) Q rest none) :
    (writePiece f i now k).Turns (appending f i n) Q (now :: rest) none := by
  refine Turns.bind_atomic_out (fun s b t h => ?_) fun _ => ?_
  · split_ifs at h
    cases h
    exact ⟨_, rfl⟩
  apply turns_ilock.bind
  rintro _ _ _ ⟨rfl, s, t, rfl, hfit, ht, hload, hlog, hdisk, hfile⟩
  refine Turns.bind_read_in (fun u hu => ?_) ht.toOpenFile ?_
  · obtain ⟨l, rfl⟩ := hu
    rfl
  have hfit : (t.file f).off + now.length ≤ MAXFILE * BSIZE := by
    rw [hfile]
    exact hfit
  apply (turns_writei ht hload hlog hlen hfit).bind
  rintro _ _ _ ⟨rfl, u, rfl, hopen, rfl, hmoves, hwrote⟩
  obtain ⟨hend, happ⟩ := append_done ht hpos hfit hopen hmoves hwrote
  have happ : Appends f n now s (u.advanced f now.length) := by
    refine ⟨?_, ?_⟩
    · rw [happ.1, hdisk.dinode, hdisk.block]
    · rw [happ.2, hfile]
  have hadvance : (advance f now.length).Turns (appending f i n)
      (fun _ es' m => es' = now :: rest ∧ m = some (s, u.advanced f now.length)) (now :: rest)
      (some (s, u)) := by
    unfold advance Prog.when
    rw [Fs.advanced, if_pos hpos] at hend ⊢
    rw [if_pos hpos]
    rintro v _ _ ⟨l, rfl⟩ ⟨⟩
    exact ⟨_, ⟨l, rfl⟩, hend.toOpenFile, rfl, rfl⟩
  apply Turns.bind hadvance
  rintro _ _ _ ⟨rfl, rfl⟩
  apply (turns_iunlock happ hend).bind
  rintro _ _ _ ⟨rfl, rfl⟩
  apply turns_endOp.bind
  rintro _ _ _ ⟨rfl, rfl⟩
  exact hk

end Piece

section Calls

theorem turns_filewriteLoop {k : ℕ} {src : List UInt8} (h : src.length ≤ k) :
    (filewriteLoop f i k src).Turns (appending f i n)
      (fun all es m => all = true ∧ es = rest ∧ m = none) (piecesFrom k src ++ rest) none := by
  have hM : 0 < maxWrite := by decide
  induction k generalizing src with
  | zero =>
    obtain rfl := List.eq_nil_of_length_eq_zero (Nat.le_zero.mp h)
    exact ⟨rfl, rfl, rfl⟩
  | succ k ih =>
    rw [filewriteLoop_succ, piecesFrom]
    split_ifs with h0
    · exact ⟨rfl, rfl, rfl⟩
    · have hlen : (src.take maxWrite).length = min maxWrite src.length := List.length_take
      refine turns_writePiece (by omega) (by omega) ?_
      rw [if_neg (by omega), if_neg (fun h => h rfl)]
      apply ih
      rw [List.length_drop]
      omega

theorem turns_filewrite (src : List UInt8) :
    (filewrite f src).Turns (appending f i n)
      (fun r es m => r = (src.length : ℤ) ∧ es = rest ∧ m = none) (pieces src ++ rest) none := by
  refine Turns.bind_read_out fun s hs => ?_
  have hs : OpenFile f i s := hs
  simp only [hs.writable, hs.type, hs.ip, Bool.true_eq_false, if_false]
  apply (turns_filewriteLoop le_rfl).bind
  rintro _ _ _ ⟨rfl, rfl, rfl⟩
  exact ⟨rfl, rfl, rfl⟩

theorem turns_writeCalls (calls : List (List UInt8)) :
    (writeCalls f calls).Turns (appending f i n)
      (fun rs es m => rs = calls.map (fun src => (src.length : ℤ)) ∧ es = [] ∧ m = none)
      (calls.flatMap pieces) none := by
  induction calls with
  | nil => exact ⟨rfl, rfl, rfl⟩
  | cons src calls ih =>
    rw [List.flatMap_cons]
    apply (turns_filewrite src).bind
    rintro _ _ _ ⟨rfl, rfl, rfl⟩
    apply ih.bind
    rintro _ _ _ ⟨rfl, rfl, rfl⟩
    exact ⟨rfl, rfl, rfl⟩

theorem chain_appends {hist : List (List UInt8)} {s t : Fs} (h : (appending f i n).Chain hist s t) :
    Appends f n hist.flatten s t := by
  induction hist generalizing s with
  | nil =>
    obtain ⟨l, rfl⟩ := h
    exact ⟨(List.append_nil _).symm, rfl⟩
  | cons e hist ih =>
    obtain ⟨s', u, ⟨l, rfl⟩, -, -, hdoes, hchain⟩ := h
    obtain ⟨hcontents, hoff⟩ := ih hchain
    refine ⟨?_, ?_⟩
    · rw [hcontents, hdoes.1, List.append_assoc, List.flatten_cons]
    · rw [hoff, hdoes.2, Nat.add_assoc, List.flatten_cons, List.length_append]

variable {P : Type} [DecidableEq P]

def sharing (f : Fin NFILE) (s : Fs) (o : Slot → Option P) (calls : P → List (List UInt8)) :
    Config Fs Slot P (List ℤ) :=
  ⟨⟨s, o⟩, fun p => writeCalls f (calls p)⟩

/-- The pieces in the order in which the processes that write them get the inode lock. -/
def written (f : Fin NFILE) (i : Slot) (s : Fs) (o : Slot → Option P)
    (calls : P → List (List UInt8)) (ps : List P) : List (P × List UInt8) :=
  deal (fun p => (calls p).flatMap pieces) ((sharing f s o calls).holders i ps)

/-- Processes that write to one open file lose no update: the file grows by the pieces in the order
in which their writers have the lock, in every interleaving of the steps of the calls. -/
theorem shared_offset (f : Fin NFILE) (i : Slot) (n : ℕ) (s : Fs) (hs : AtEnd f i n s)
    (o : Slot → Option P) (ho : o i = none) (calls : P → List (List UInt8)) (ps : List P)
    (d : Config Fs Slot P (List ℤ)) (hd : (sharing f s o calls).exec ps = some d)
    (hmax : (s.dinode n).size + ((written f i s o calls ps).map Prod.snd).flatten.length ≤
      MAXFILE * BSIZE) :
    (∀ p, ((written f i s o calls ps).filter (·.1 = p)).map Prod.snd <+:
        (calls p).flatMap pieces) ∧
      (∀ p rs, d.prog p = .ret rs → d.shared.owner i ≠ some p ∧
        rs = (calls p).map (fun src => (src.length : ℤ)) ∧
        ((written f i s o calls ps).filter (·.1 = p)).map Prod.snd = (calls p).flatMap pieces ∧
        ((calls p).flatMap pieces).flatten = (calls p).flatten) ∧
      (d.shared.owner i = none →
        contents d.shared.st.block (d.shared.st.dinode n) = contents s.block (s.dinode n) ++
          ((written f i s o calls ps).map Prod.snd).flatten ∧
        (d.shared.st.file f).off = (d.shared.st.dinode n).size) := by
  have hfit : ∀ hist e t, hist ++ [e] <+: (written f i s o calls ps).map Prod.snd →
      (appending f i n).Chain hist s t → (appending f i n).idle t →
      (t.file f).off + e.length ≤ MAXFILE * BSIZE := by
    intro hist e t ⟨later, hlater⟩ hchain _
    have hoff := (chain_appends hchain).2
    rw [← hlater, List.flatten_append, List.flatten_append, List.flatten_singleton,
      List.length_append, List.length_append] at hmax
    rw [hoff, hs.off]
    omega
  have htrack := Discipline.track_run (D := appending f i n) (c := sharing f s o calls) hs ho
    (fun p => turns_writeCalls (calls p)) hd hfit
  have hdealt := deal_filter (fun p => (calls p).flatMap pieces) ((sharing f s o calls).holders i ps)
  refine ⟨fun p => ⟨_, hdealt p⟩, fun p rs hp => ?_, fun howner => ?_⟩
  · rcases htrack.returned hp with ⟨howner, hrs, hleft, -⟩ | ⟨_, _, -, -, hm⟩
    · have h := hdealt p
      have hleft : undealt _ ((sharing f s o calls).holders i ps) p = [] := hleft
      rw [hleft, List.append_nil] at h
      exact ⟨howner, hrs, h, flatMap_pieces (calls p)⟩
    · cases hm
  · unfold Discipline.Track at htrack
    rw [show (appending f i n).lock = i from rfl, howner] at htrack
    obtain ⟨hend, hchain, -⟩ := htrack
    exact ⟨(chain_appends hchain).1, hend.off⟩

end Calls

theorem created_atEnd : AtEnd ⟨0, by decide⟩ ⟨1, by decide⟩ 2 created.st where
  type := by decide +kernel
  writable := by decide +kernel
  ip := by decide +kernel
  ref := by decide +kernel
  sane := created_settled.sane
  inum := by decide +kernel
  regular := by decide +kernel
  off := by decide +kernel

def twoWriters (p : Bool) : List (List UInt8) := if p then [[1, 2], [3]] else [[4]]

/-- The first writer is in the middle of a piece when the other one begins its call. -/
def alternating : List Bool :=
  List.replicate 12 true ++ List.replicate 3 false ++ List.replicate 11 true ++
    List.replicate 14 false ++ List.replicate 17 true

theorem shared_offset_two :
    ∃ d, (sharing ⟨0, by decide⟩ created.st (fun _ => none) twoWriters).exec alternating = some d ∧
      contents d.shared.st.block (d.shared.st.dinode 2) = [1, 2, 4, 3] ∧
      (d.shared.st.file ⟨0, by decide⟩).off = (d.shared.st.dinode 2).size := by
  have hend : ((sharing ⟨0, by decide⟩ created.st (fun _ => none) twoWriters).exec alternating).map
      (·.shared.owner ⟨1, by decide⟩) = some none := by decide +kernel
  have hwritten : written ⟨0, by decide⟩ ⟨1, by decide⟩ created.st (fun _ => none) twoWriters
      alternating = [(true, [1, 2]), (false, [4]), (true, [3])] := by decide +kernel
  have hempty : contents created.st.block (created.st.dinode 2) = [] := by decide +kernel
  obtain ⟨d, hd, howner⟩ := Option.map_eq_some_iff.mp hend
  obtain ⟨-, -, hfree⟩ := shared_offset _ _ 2 _ created_atEnd _ rfl twoWriters alternating d hd
    (by rw [hwritten]; decide +kernel)
  obtain ⟨hcontents, hoff⟩ := hfree howner
  rw [hwritten, hempty] at hcontents
  exact ⟨d, hd, hcontents, hoff⟩

end Xv6
