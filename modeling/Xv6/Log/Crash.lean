import Xv6.Log.Redo

namespace Xv6.Redo
open Lib Function

/-- What other processes do to the buffer cache during a commit: read a block,
or have a buffer recycled. -/
inductive Access where
  | read (b : ℕ)
  | recycle (b : ℕ)

def background : List Access → LogM Unit
  | [] => pure ()
  | .read b :: as => do let _buf ← bread b; background as
  | .recycle b :: as => do recycle b; background as

def conf (x : LogM Unit) (m : Mach) (bg : ℕ → List Access) : Config Mach Empty ℕ Unit where
  shared := ⟨m, Empty.elim⟩
  prog
    | 0 => x
    | q + 1 => background (bg q)

def boot (d : ℕ → Block) : Mach := ⟨d, fun _ => none, [], []⟩

/-- From the disk `d`, any number of interrupted recoveries and then a completed
one leave the disk `d'`. -/
inductive Recovers (start : ℕ) : (ℕ → Block) → (ℕ → Block) → Prop where
  | complete {d : ℕ → Block} {bg : ℕ → List Access} {c : Config Mach Empty ℕ Unit} :
      Config.Reach (conf (recoverFromLog start) (boot d) bg) c → c.prog 0 = .ret () →
      Recovers start d c.shared.st.disk
  | crash {d d' : ℕ → Block} {bg : ℕ → List Access} {c : Config Mach Empty ℕ Unit} :
      Config.Reach (conf (recoverFromLog start) (boot d) bg) c →
      Recovers start c.shared.st.disk d' → Recovers start d d'

/-- `struct logheader` in memory. -/
structure LogHeader where
  block : List ℕ
  fits : block.length ≤ LOGSIZE
  word : ∀ b ∈ block, b < 2 ^ 32

def InLog (start size b : ℕ) : Prop := start ≤ b ∧ b < start + size

/-- The state in which `commit` is called: the log on disk is empty, `log.lh`
lists distinct home blocks, their new contents are pinned in the buffer cache,
and every other cached block is as on disk. -/
structure Transaction (start size : ℕ) (lh : LogHeader) (new : ℕ → Block) (m : Mach) : Prop where
  header : 0 < size
  clear : headN (m.disk start) = 0
  listed : m.lh = lh.block
  distinct : lh.block.Nodup
  room : lh.block.length ≤ size - 1
  home : ∀ b ∈ lh.block, ¬ InLog start size b
  pinned : ∀ b ∈ lh.block, m.cache b = some ⟨new b, true⟩
  clean : ∀ b buf, m.cache b = some buf → b ∉ lh.block → buf = ⟨m.disk b, false⟩
  fresh : m.writes = []

def post (old new : ℕ → Block) (bs : List ℕ) (b : ℕ) : Block := if b ∈ bs then new b else old b

inductive Phase where
  /-- `write_log` has written `k` log blocks. -/
  | logging (k : ℕ)
  /-- Recovery has not read the header yet. -/
  | booting
  /-- The header is on disk and `install_trans` has written `k` home blocks. -/
  | installing (k : ℕ)
  /-- `log.lh.n` is zero, the header on disk is not. -/
  | cleared
  /-- The header on disk is empty. -/
  | idle

variable {new old : ℕ → Block} {start size : ℕ} {bs : List ℕ} {pin : Bool}

section Phases

variable (start size : ℕ) (old new : ℕ → Block) (bs : List ℕ)

/-- The blocks with a dirty buffer.  After a reset (`pin = false`) there is none. -/
def pending (pin : Bool) : Phase → List ℕ
  | .logging _ => bs
  | .installing k => if pin then bs.drop k else []
  | _ => []

structure CacheOk (pend : List ℕ) (s : Mach) : Prop where
  pinned : ∀ b ∈ pend, s.cache b = some ⟨new b, true⟩
  clean : ∀ b buf, s.cache b = some buf → b ∉ pend → buf = ⟨s.disk b, false⟩

/-- The header block is empty and the home blocks are those of `c`. -/
def Quiet (c d : ℕ → Block) : Prop :=
  headN (d start) = 0 ∧ ∀ b, ¬ InLog start size b → d b = c b

/-- The log holds the whole transaction. -/
structure Committed (d : ℕ → Block) : Prop where
  head : getHead (d start) = bs
  body : ∀ i (h : i < bs.length), d (start + i + 1) = new bs[i]
  rest : ∀ b, ¬ InLog start size b → b ∉ bs → d b = old b

def Core (pin : Bool) (ph : Phase) (d : ℕ → Block) (lh writes : List ℕ) : Prop :=
  match ph with
  | .logging k => pin = true ∧ lh = bs ∧ Quiet start size old d ∧
      (∀ i (h : i < bs.length), i < k → d (start + i + 1) = new bs[i]) ∧ start ∉ writes
  | .booting => pin = false ∧ Committed start size old new bs d
  | .installing k => lh = bs ∧ Committed start size old new bs d ∧
      (∀ b ∈ bs.take k, d b = new b) ∧ (pin → start ∈ writes)
  | .cleared => lh = [] ∧ Committed start size old new bs d ∧
      (∀ b ∈ bs, d b = new b) ∧ (pin → start ∈ writes)
  | .idle => Quiet start size (post old new bs) d ∧ (pin → start ∈ writes)

def protocol (pin : Bool) : Protocol Mach Empty ℕ Phase where
  Inv s G := CacheOk new (pending bs pin (G 0)) s.st ∧
    Core start size old new bs pin (G 0) s.st.disk s.st.lh s.st.writes
  May _ _ _ := True
  Err _ := True

end Phases

def look (s : Mach) (b : ℕ) : Block :=
  match s.cache b with
  | some buf => buf.data
  | none => s.disk b

variable {pend : List ℕ} {s : Mach} {b : ℕ}

section

variable (h : CacheOk new pend s)
include h

theorem CacheOk.look_pinned (hb : b ∈ pend) : look s b = new b := by
  simp [look, h.pinned b hb]

theorem CacheOk.look_clean (hb : b ∉ pend) : look s b = s.disk b := by
  unfold look
  cases hc : s.cache b with
  | none => rfl
  | some buf => rw [h.clean b buf hc hb]

theorem CacheOk.load (hb : s.cache b = none) :
    CacheOk new pend { s with cache := update s.cache b (some ⟨s.disk b, false⟩) } where
  pinned x hx := by
    have hne : x ≠ b := by
      rintro rfl
      rw [h.pinned x hx] at hb
      cases hb
    simpa [update_of_ne hne] using h.pinned x hx
  clean x buf hx hp := by
    by_cases hxb : x = b
    · subst hxb
      simp only [update_self, Option.some.injEq] at hx
      exact hx.symm
    · simp only [update_of_ne hxb] at hx
      exact h.clean x buf hx hp

theorem CacheOk.drop {v : Block} (hb : s.cache b = some ⟨v, false⟩) :
    CacheOk new pend { s with cache := update s.cache b none } where
  pinned x hx := by
    have hne : x ≠ b := by
      rintro rfl
      rw [h.pinned x hx] at hb
      cases hb
    simpa [update_of_ne hne] using h.pinned x hx
  clean x buf hx hp := by
    by_cases hxb : x = b
    · subst hxb
      simp at hx
    · simp only [update_of_ne hxb] at hx
      exact h.clean x buf hx hp

theorem CacheOk.write {pend' : List ℕ} {v : Block} {w : List ℕ}
    (hsub : ∀ x ∈ pend', x ∈ pend) (hb : b ∉ pend') (hsup : ∀ x ∈ pend, x ≠ b → x ∈ pend') :
    CacheOk new pend' { s with
      disk := update s.disk b v
      cache := update s.cache b (some ⟨v, false⟩)
      writes := w } where
  pinned x hx := by
    have hne : x ≠ b := fun hxb => hb (hxb ▸ hx)
    simpa [update_of_ne hne] using h.pinned x (hsub x hx)
  clean x buf hx hp := by
    by_cases hxb : x = b
    · subst hxb
      simp only [update_self, Option.some.injEq] at hx ⊢
      exact hx.symm
    · simp only [update_of_ne hxb] at hx ⊢
      exact h.clean x buf hx fun hm => hp (hsup x hm hxb)

end

section Steps

variable {p : ℕ} {g : Phase}

theorem bread_safe (b : ℕ) {Φ : Block → Prop}
    (hΦ : p = 0 → ∀ s : Mach, CacheOk new (pending bs pin g) s →
      Core start size old new bs pin g s.disk s.lh s.writes → Φ (look s b)) :
    (bread b).Safe (protocol start size old new bs pin) p
      (fun v g' => g' = g ∧ (p = 0 → Φ v)) g := by
  apply Prog.Safe.atomic
  intro s G hi hg
  have hv : p = 0 → Φ (look s.st b) := by
    rintro rfl
    subst hg
    exact hΦ rfl s.st hi.1 hi.2
  unfold look at hv
  cases hc : s.st.cache b with
  | some buf =>
    refine ⟨g, ?_, rfl, by simpa only [hc] using hv⟩
    rwa [← hg, update_eq_self]
  | none =>
    refine ⟨g, ?_, rfl, by simpa only [hc] using hv⟩
    rw [← hg, update_eq_self]
    exact ⟨hi.1.load hc, hi.2⟩

theorem recycle_safe (b : ℕ) :
    (recycle b).Safe (protocol start size old new bs pin) p (fun _ g' => g' = g) g := by
  apply Prog.Safe.modify
  intro s G hi hg
  refine ⟨g, ?_, rfl⟩
  rw [← hg, update_eq_self]
  cases hc : s.st.cache b with
  | none => simpa only using hi
  | some buf =>
    obtain ⟨v, dirty⟩ := buf
    cases dirty with
    | true => simpa only using hi
    | false => exact ⟨hi.1.drop hc, hi.2⟩

theorem background_safe (as : List Access) :
    (background as).Safe (protocol start size old new bs pin) p (fun _ _ => True) g := by
  induction as with
  | nil => trivial
  | cons a as ih =>
    cases a with
    | read b =>
      refine (bread_safe b (Φ := fun _ => True) fun _ _ _ _ => trivial).bind ?_
      rintro v g' ⟨rfl, -⟩
      exact ih
    | recycle b =>
      refine (recycle_safe b).bind ?_
      rintro v g' rfl
      exact ih

theorem bwrite_safe {r : Phase} (b : ℕ) (v : Block)
    (hsub : ∀ x ∈ pending bs pin r, x ∈ pending bs pin g) (hb : b ∉ pending bs pin r)
    (hsup : ∀ x ∈ pending bs pin g, x ≠ b → x ∈ pending bs pin r)
    (hcore : ∀ d lh w, Core start size old new bs pin g d lh w →
      Core start size old new bs pin r (update d b v) lh (w ++ [b])) :
    (bwrite b v).Safe (protocol start size old new bs pin) 0 (fun _ x => x = r) g := by
  apply Prog.Safe.modify
  rintro s G hi rfl
  refine ⟨r, ?_, rfl⟩
  simp only [protocol, update_self]
  exact ⟨hi.1.write hsub hb hsup, hcore _ _ _ hi.2⟩

theorem lh_safe {Φ : List ℕ → Prop}
    (hΦ : ∀ d lh w, Core start size old new bs pin g d lh w → Φ lh) :
    (Prog.read Mach.lh : LogM (List ℕ)).Safe (protocol start size old new bs pin) 0
      (fun lh g' => g' = g ∧ Φ lh) g := by
  apply Prog.Safe.read
  rintro s G hi rfl
  exact ⟨rfl, hΦ _ _ _ hi.2⟩

theorem setLh_safe {r : Phase} (lh' : List ℕ) (hp : pending bs pin r = pending bs pin g)
    (hcore : ∀ d lh w, Core start size old new bs pin g d lh w →
      Core start size old new bs pin r d lh' w) :
    (Prog.modify fun s : Mach => { s with lh := lh' } : LogM Unit).Safe
      (protocol start size old new bs pin) 0 (fun _ x => x = r) g := by
  apply Prog.Safe.modify
  rintro s G hi rfl
  refine ⟨r, ?_, rfl⟩
  simp only [protocol, update_self]
  refine ⟨?_, hcore _ _ _ hi.2⟩
  rw [hp]
  exact ⟨hi.1.pinned, hi.1.clean⟩

end Steps

/-- The list fits into the log area and its blocks lie outside it. -/
structure Layout (start size : ℕ) (bs : List ℕ) : Prop where
  header : 0 < size
  distinct : bs.Nodup
  room : bs.length ≤ size - 1
  home : ∀ b ∈ bs, ¬ InLog start size b
  fits : bs.length ≤ LOGSIZE
  word : ∀ b ∈ bs, b < 2 ^ 32

section Loops

theorem drop_eq_cons {b k : ℕ} {rest : List ℕ} (h : bs.drop k = b :: rest) :
    ∃ hk : k < bs.length, bs[k] = b ∧ bs.drop (k + 1) = rest := by
  have hlt : k < bs.length := by
    by_contra hk
    rw [List.drop_eq_nil_of_le (by omega)] at h
    cases h
  rw [List.drop_eq_getElem_cons hlt] at h
  exact ⟨hlt, List.cons.inj h⟩

section

variable (hL : Layout start size bs)
include hL

theorem Layout.inLog_start : InLog start size start := by
  have := hL.header
  unfold InLog
  omega

theorem Layout.inLog_body {i : ℕ} (hi : i < bs.length) :
    InLog start size (start + i + 1) := by
  have := hL.room
  unfold InLog
  omega

theorem Layout.ne_home {a b : ℕ} (ha : InLog start size a) (hb : b ∈ bs) : a ≠ b :=
  fun h => hL.home b hb (h ▸ ha)

theorem writeFrom_safe (rest : List ℕ) (k : ℕ) (hk : k ≤ bs.length) (hrest : bs.drop k = rest) :
    (writeFrom start k rest).Safe (protocol start size old new bs pin) 0
      (fun _ g => g = .logging bs.length) (.logging k) := by
  induction rest generalizing k with
  | nil =>
    have hlen : bs.length ≤ k := List.drop_eq_nil_iff.mp hrest
    have : k = bs.length := by omega
    subst this
    rfl
  | cons b rest ih =>
    obtain ⟨hlt, hb, hrest⟩ := drop_eq_cons hrest
    have hmem : b ∈ bs := hb ▸ List.getElem_mem hlt
    have hin := hL.inLog_body hlt
    refine (bread_safe (start + k + 1) (Φ := fun _ => True) fun _ _ _ _ => trivial).bind ?_
    rintro _ _ ⟨rfl, -⟩
    refine (bread_safe b (Φ := fun v => v = new b) ?_).bind ?_
    · intro _ s hc _
      exact hc.look_pinned hmem
    rintro v _ ⟨rfl, hv⟩
    have hv' : v = new b := hv rfl
    subst hv'
    have hne : start + k + 1 ∉ bs := fun h => hL.ne_home hin h rfl
    refine (bwrite_safe (g := .logging k) (r := .logging (k + 1)) _ _
      (fun _ => id) hne (fun _ h _ => h) ?_).bind ?_
    · rintro d lh w ⟨hpin, hlh, ⟨hq, hout⟩, hbody, hw⟩
      refine ⟨hpin, hlh, ⟨?_, ?_⟩, ?_, ?_⟩
      · rwa [update_of_ne (by omega)]
      · intro x hx
        have hne : x ≠ start + k + 1 := fun h => hx (h ▸ hin)
        rw [update_of_ne hne]
        exact hout x hx
      · intro i hi hik
        by_cases h : i = k
        · subst h
          rw [update_self, hb]
        · rw [update_of_ne (by omega)]
          exact hbody i hi (by omega)
      · simp only [List.mem_append, List.mem_singleton, not_or]
        exact ⟨hw, by omega⟩
    · rintro _ _ rfl
      exact ih (k + 1) hlt hrest

end

theorem Committed.update {d : ℕ → Block} (hr : Committed start size old new bs d)
    (hL : Layout start size bs) {b : ℕ} (hb : b ∈ bs) (v : Block) :
    Committed start size old new bs (update d b v) where
  head := by
    rw [update_of_ne (hL.ne_home hL.inLog_start hb)]
    exact hr.head
  body i hi := by
    rw [update_of_ne (hL.ne_home (hL.inLog_body hi) hb)]
    exact hr.body i hi
  rest x hx hxb := by
    have hne : x ≠ b := fun h => hxb (h ▸ hb)
    rw [update_of_ne hne]
    exact hr.rest x hx hxb

theorem pending_subset (pin : Bool) (ph : Phase) : ∀ x ∈ pending bs pin ph, x ∈ bs := by
  intro x hx
  cases ph with
  | logging k => exact hx
  | booting | cleared | idle => cases hx
  | installing k =>
    cases pin with
    | false => cases hx
    | true => exact List.mem_of_mem_drop hx

section

variable (hL : Layout start size bs)
include hL

theorem installFrom_safe (rest : List ℕ) (k : ℕ) (hk : k ≤ bs.length) (hrest : bs.drop k = rest) :
    (installFrom start k rest).Safe (protocol start size old new bs pin) 0
      (fun _ g => g = .installing bs.length) (.installing k) := by
  induction rest generalizing k with
  | nil =>
    have hlen : bs.length ≤ k := List.drop_eq_nil_iff.mp hrest
    have : k = bs.length := by omega
    subst this
    rfl
  | cons b rest ih =>
    obtain ⟨hlt, hb, hrest⟩ := drop_eq_cons hrest
    have hsplit := List.drop_eq_getElem_cons hlt
    have hmem : b ∈ bs := hb ▸ List.getElem_mem hlt
    have hlate : b ∉ bs.drop (k + 1) := by
      have hn := hL.distinct.sublist (List.drop_sublist k bs)
      rw [hsplit, hb] at hn
      exact (List.nodup_cons.mp hn).1
    refine (bread_safe (start + k + 1) (Φ := fun v => v = new b) ?_).bind ?_
    · intro _ s hc hcore
      have hnp : start + k + 1 ∉ pending bs pin (.installing k) := fun h =>
        hL.ne_home (hL.inLog_body hlt) (pending_subset pin _ _ h) rfl
      rw [hc.look_clean hnp, hcore.2.1.body k hlt, hb]
    rintro v _ ⟨rfl, hv⟩
    have hv' : v = new b := hv rfl
    subst hv'
    refine (bread_safe b (Φ := fun _ => True) fun _ _ _ _ => trivial).bind ?_
    rintro _ _ ⟨rfl, -⟩
    refine (bwrite_safe (r := .installing (k + 1)) _ _ ?_ ?_ ?_ ?_).bind ?_
    · intro x hx
      cases pin with
      | false => cases hx
      | true =>
        simp only [pending, if_true] at hx ⊢
        rw [hsplit]
        exact List.mem_cons_of_mem _ hx
    · cases pin with
      | false => simp [pending]
      | true => simpa [pending] using hlate
    · intro x hx hne
      cases pin with
      | false => cases hx
      | true =>
        simp only [pending, if_true] at hx ⊢
        rw [hsplit, hb] at hx
        exact (List.mem_cons.mp hx).resolve_left hne
    · rintro d lh w ⟨hlh, hr, hdone, hw⟩
      refine ⟨hlh, hr.update hL hmem _, ?_, fun h => List.mem_append_left _ (hw h)⟩
      intro x hx
      by_cases hxb : x = b
      · subst hxb
        exact update_self ..
      · rw [update_of_ne hxb]
        rw [List.take_add_one, List.getElem?_eq_getElem hlt, hb] at hx
        simp only [Option.toList_some, List.mem_append, List.mem_singleton, hxb, or_false] at hx
        exact hdone x hx
    · rintro _ _ rfl
      exact ih (k + 1) hlt hrest

theorem writeHead_safe {g r : Phase} (l : List ℕ)
    (hlh : ∀ d lh w, Core start size old new bs pin g d lh w → lh = l)
    (hp : ∀ x, x ∈ pending bs pin r ↔ x ∈ pending bs pin g)
    (hcore : ∀ v d lh w, Core start size old new bs pin g d lh w →
      Core start size old new bs pin r (update d start (putHead v l)) lh (w ++ [start])) :
    (writeHead start).Safe (protocol start size old new bs pin) 0 (fun _ x => x = r) g := by
  refine (bread_safe start (Φ := fun _ => True) fun _ _ _ _ => trivial).bind ?_
  rintro v _ ⟨rfl, -⟩
  refine (lh_safe (Φ := fun lh => lh = l) hlh).bind ?_
  rintro _ _ ⟨rfl, rfl⟩
  have hstart : start ∉ pending bs pin r := fun h =>
    hL.ne_home hL.inLog_start (pending_subset pin _ _ h) rfl
  exact bwrite_safe start _ (fun x hx => (hp x).mp hx) hstart (fun x hx _ => (hp x).mpr hx)
    (hcore v)

/-- From a committed header on, the blocks are installed and the header is cleared. -/
theorem finish_safe :
    (installTrans start >>= fun _ => clearHead >>= fun _ => writeHead start).Safe
      (protocol start size old new bs pin) 0 (fun _ g => g = .idle) (.installing 0) := by
  have hinst : (installTrans start).Safe (protocol start size old new bs pin) 0
      (fun _ g => g = .installing bs.length) (.installing 0) := by
    refine (lh_safe (g := .installing 0) (Φ := fun lh => lh = bs) fun _ _ _ h => h.1).bind ?_
    rintro lh _ ⟨rfl, hlh⟩
    rw [hlh]
    exact installFrom_safe hL bs 0 (Nat.zero_le _) rfl
  refine hinst.bind ?_
  rintro _ _ rfl
  refine (setLh_safe (r := .cleared) [] ?_ ?_).bind ?_
  · cases pin <;> simp [pending]
  · rintro d lh w ⟨-, hr, hdone, hw⟩
    rw [List.take_length] at hdone
    exact ⟨rfl, hr, hdone, hw⟩
  rintro _ _ rfl
  refine writeHead_safe hL [] (fun _ _ _ h => h.1) (fun _ => Iff.rfl) ?_
  rintro v d lh w ⟨-, hr, hdone, hw⟩
  refine ⟨⟨?_, ?_⟩, fun h => List.mem_append_left _ (hw h)⟩
  · rw [update_self]
    exact headN_putHead v [] (by decide)
  · intro b hb
    have hne : b ≠ start := fun h => hb (h ▸ hL.inLog_start)
    rw [update_of_ne hne, post]
    split_ifs with hbs
    · exact hdone b hbs
    · exact hr.rest b hb hbs

theorem commit_safe :
    (commit start).Safe (protocol start size old new bs true) 0 (fun _ _ => True)
      (.logging 0) := by
  refine (lh_safe (g := .logging 0) (Φ := fun lh => lh = bs) fun _ _ _ h => h.2.1).bind ?_
  rintro lh _ ⟨rfl, hlh⟩
  rw [hlh]
  split_ifs with hpos
  · have hlog : (writeLog start).Safe (protocol start size old new bs true) 0
        (fun _ g => g = .logging bs.length) (.logging 0) := by
      refine (lh_safe (g := .logging 0) (Φ := fun lh => lh = bs) fun _ _ _ h => h.2.1).bind ?_
      rintro lh _ ⟨rfl, hlh⟩
      rw [hlh]
      exact writeFrom_safe hL bs 0 (Nat.zero_le _) rfl
    refine hlog.bind ?_
    rintro _ _ rfl
    refine (writeHead_safe (g := .logging bs.length) (r := .installing 0) hL bs
      (fun _ _ _ h => h.2.1) ?_ ?_).bind ?_
    · simp [pending]
    · rintro v d lh w ⟨-, hlh, ⟨-, hout⟩, hbody, -⟩
      refine ⟨hlh, ⟨?_, ?_, ?_⟩, ?_, fun _ => by simp⟩
      · rw [update_self]
        exact getHead_putHead v bs hL.fits hL.word
      · intro i hi
        rw [update_of_ne (by omega)]
        exact hbody i hi hi
      · intro b hb _
        have hne : b ≠ start := fun h => hb (h ▸ hL.inLog_start)
        rw [update_of_ne hne]
        exact hout b hb
      · simp
    rintro _ _ rfl
    exact (finish_safe hL).mono fun _ _ _ => trivial
  · trivial

theorem recover_safe :
    (recoverFromLog start).Safe (protocol start size old new bs false) 0 (fun _ g => g = .idle)
      .booting := by
  have hread : (readHead start).Safe (protocol start size old new bs false) 0
      (fun _ g => g = .installing 0) .booting := by
    refine (bread_safe start (Φ := fun v => getHead v = bs) ?_).bind ?_
    · intro _ s hc hcore
      rw [hc.look_clean (by simp [pending])]
      exact hcore.2.head
    rintro v _ ⟨rfl, hv⟩
    rw [hv rfl]
    refine setLh_safe bs (by simp [pending]) ?_
    rintro d lh w ⟨-, hr⟩
    exact ⟨rfl, hr, by simp, by simp⟩
  refine hread.bind ?_
  rintro _ _ rfl
  exact finish_safe hL

end

end Loops

section Crash

variable {c d d' : ℕ → Block} {bg : ℕ → List Access} {x : Config Mach Empty ℕ Unit}

/-- Recovery will bring the home blocks to `c`. -/
def Recoverable (start size : ℕ) (c d : ℕ → Block) : Prop :=
  ∃ old new bs, Layout start size bs ∧ Committed start size old new bs d ∧
    ∀ b, ¬ InLog start size b → post old new bs b = c b

theorem Quiet.recoverable (hs : 0 < size) (h : Quiet start size c d) :
    Recoverable start size c d := by
  refine ⟨c, c, [], ⟨hs, by simp, by simp, by simp, by simp, by simp⟩, ⟨?_, by simp, ?_⟩, ?_⟩
  · exact getHead_of_headN_zero h.1
  · intro b hb _
    exact h.2 b hb
  · intro b _
    simp [post]

theorem allSafe_boot {old new : ℕ → Block} {bs : List ℕ} (hL : Layout start size bs)
    (hr : Committed start size old new bs d) (bg : ℕ → List Access) :
    Config.AllSafe (protocol start size old new bs false)
      (fun p _ g => p = 0 → g = .idle) (conf (recoverFromLog start) (boot d) bg) := by
  refine ⟨fun _ => .booting, ⟨⟨by simp [pending], by simp [conf, boot]⟩, rfl, hr⟩, ?_⟩
  intro p
  cases p with
  | zero => exact (recover_safe hL).mono fun _ _ h _ => h
  | succ q => exact (background_safe (bg q)).mono fun _ _ _ h => absurd h (Nat.succ_ne_zero q)

section

variable (h : Recoverable start size c d)
include h

theorem Recoverable.crash (hx : Config.Reach (conf (recoverFromLog start) (boot d) bg) x) :
    Recoverable start size c x.shared.st.disk := by
  obtain ⟨old, new, bs, hL, hr, hc⟩ := h
  obtain ⟨G, ⟨-, hcore⟩, -⟩ := (allSafe_boot hL hr bg).run hx
  cases hg : G 0 with
  | logging k =>
    rw [hg] at hcore
    exact absurd hcore.1 (by decide)
  | booting =>
    rw [hg] at hcore
    exact ⟨old, new, bs, hL, hcore.2, hc⟩
  | installing k | cleared =>
    rw [hg] at hcore
    exact ⟨old, new, bs, hL, hcore.2.1, hc⟩
  | idle =>
    rw [hg] at hcore
    refine Quiet.recoverable hL.header ⟨hcore.1.1, fun b hb => ?_⟩
    rw [hcore.1.2 b hb, hc b hb]

theorem Recoverable.complete
    (hx : Config.Reach (conf (recoverFromLog start) (boot d) bg) x) (hend : x.prog 0 = .ret ()) :
    Quiet start size c x.shared.st.disk := by
  obtain ⟨old, new, bs, hL, hr, hc⟩ := h
  obtain ⟨G, ⟨-, hcore⟩, hp⟩ := (allSafe_boot hL hr bg).run hx
  have hidle := hp 0
  rw [hend] at hidle
  rw [hidle rfl] at hcore
  refine ⟨hcore.1.1, fun b hb => ?_⟩
  rw [hcore.1.2 b hb, hc b hb]

theorem Recoverable.recovers (hr : Recovers start d d') :
    Quiet start size c d' := by
  induction hr with
  | complete hx hend => exact h.complete hx hend
  | crash hx _ ih => exact ih (h.crash hx)

end

end Crash

/-- Stop a commit anywhere, and recover with any number of further stops: all
home blocks are as before the transaction, or all are as after it.  They are as
after it exactly if the header with the transaction's blocks had been written. -/
theorem commit_crash_atomic {start size : ℕ} {lh : LogHeader} {new d' : ℕ → Block} {m : Mach}
    {bg : ℕ → List Access} {x : Config Mach Empty ℕ Unit} (ht : Transaction start size lh new m)
    (hx : Config.Reach (conf (commit start) m bg) x) (hr : Recovers start x.shared.st.disk d') :
    headN (d' start) = 0 ∧
    (start ∈ x.shared.st.writes →
      ∀ b, ¬ InLog start size b → d' b = post m.disk new lh.block b) ∧
    (start ∉ x.shared.st.writes → ∀ b, ¬ InLog start size b → d' b = m.disk b) := by
  have hL : Layout start size lh.block :=
    ⟨ht.header, ht.distinct, ht.room, ht.home, lh.fits, lh.word⟩
  have hsafe : Config.AllSafe (protocol start size m.disk new lh.block true)
      (fun _ _ _ => True) (conf (commit start) m bg) := by
    refine ⟨fun _ => .logging 0, ⟨⟨ht.pinned, ht.clean⟩, ?_⟩, ?_⟩
    · refine ⟨rfl, ht.listed, ⟨ht.clear, fun _ _ => rfl⟩, by omega, ?_⟩
      simp [conf, ht.fresh]
    · intro p
      cases p with
      | zero => exact commit_safe hL
      | succ q => exact background_safe (bg q)
  obtain ⟨G, ⟨-, hcore⟩, -⟩ := hsafe.run hx
  -- after the header write recovery leads to the new contents
  have hafter (hw : start ∈ x.shared.st.writes)
      (h : Recoverable start size (post m.disk new lh.block) x.shared.st.disk) :
      headN (d' start) = 0 ∧
      (start ∈ x.shared.st.writes →
        ∀ b, ¬ InLog start size b → d' b = post m.disk new lh.block b) ∧
      (start ∉ x.shared.st.writes → ∀ b, ¬ InLog start size b → d' b = m.disk b) := by
    have hq := h.recovers hr
    exact ⟨hq.1, fun _ => hq.2, fun hn => absurd hw hn⟩
  cases hg : G 0 with
  | logging k =>
    rw [hg] at hcore
    obtain ⟨-, -, hq, -, hw⟩ := hcore
    have hq' := (hq.recoverable hL.header).recovers hr
    exact ⟨hq'.1, fun h => absurd h hw, fun _ => hq'.2⟩
  | booting =>
    rw [hg] at hcore
    exact absurd hcore.1 (by decide)
  | installing k | cleared =>
    rw [hg] at hcore
    exact hafter (hcore.2.2.2 rfl) ⟨_, _, _, hL, hcore.2.1, fun _ _ => rfl⟩
  | idle =>
    rw [hg] at hcore
    exact hafter (hcore.2 rfl) (hcore.1.recoverable hL.header)

/-- A machine about to commit block 100, which has new contents. -/
def oneBlock : Mach where
  disk _ := fun _ => 0
  cache b := if b = 100 then some ⟨fun _ => 1, true⟩ else none
  lh := [100]
  writes := []

def afterHead : Config Mach Empty ℕ Unit :=
  (Config.exec (List.replicate 8 0) (conf (commit 2) oneBlock fun _ => [])).get rfl

def recovered : Config Mach Empty ℕ Unit :=
  (Config.exec (List.replicate 10 0)
    (conf (recoverFromLog 2) (boot afterHead.shared.st.disk) fun _ => [])).get rfl

theorem commit_crash_atomic_oneBlock :
    headN (recovered.shared.st.disk 2) = 0 ∧
    (recovered.shared.st.disk 100 = fun _ => 1) := by
  have ht : Transaction 2 30 ⟨[100], by decide, by decide⟩ (fun _ _ => 1) oneBlock := by
    refine ⟨by decide, by decide, rfl, by decide, by decide, ?_, ?_, ?_, rfl⟩
    · simp [InLog]
    · simp [oneBlock]
    · intro b buf hb hn
      have hb' : b ≠ 100 := by simpa using hn
      simp [oneBlock, hb'] at hb
  have hx : Config.Reach (conf (commit 2) oneBlock fun _ => []) afterHead :=
    Config.reach_of_exec (Option.some_get _).symm
  have hr : Recovers 2 afterHead.shared.st.disk recovered.shared.st.disk :=
    .complete (Config.reach_of_exec (Option.some_get _).symm) rfl
  have h := commit_crash_atomic ht hx hr
  have hw : 2 ∈ afterHead.shared.st.writes := by decide
  exact ⟨h.1, h.2.1 hw 100 (by simp [InLog])⟩

end Xv6.Redo
