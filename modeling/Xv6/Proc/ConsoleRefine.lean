import Xv6.Proc.Console

namespace Xv6.Console
open Lib Proc Function

section Refinement

variable {P : Type} {s : Input P} {p : P} {x y : Loc P} {c : UInt8} {cs : List UInt8}
  {killed : Bool} {rd : Reader}

/-- What a process that is in the loop of `consoleread` knows. -/
structure Reading (n : ℤ) (target : ℕ) (got : List UInt8) (rd : Reader) : Prop where
  reader : rd = .reading (n + got.length) got
  target : (target : ℤ) = (n + got.length) % 2 ^ 32
  int : -2 ^ 31 ≤ n + got.length ∧ n + got.length < 2 ^ 31
  nonneg : got = [] ∨ 0 ≤ n
  open_line : got.getLast? ≠ some newline

/-- Where the reader is, for the process that is at the place. -/
def Matches : Loc P → Reader → Prop
  | .readLoop n target got, rd | .readSleep n target got, rd => Reading n target got rd
  | .out (some (r, got)), rd | .unlock (some (r, got)), rd => rd = .returned r got
  | .read n, rd | .readEnter n, rd => rd.isReading = false ∧ -2 ^ 31 ≤ n ∧ n < 2 ^ 31
  | _, rd => rd.isReading = false

theorem isReading_of_out {res : Option (ℤ × List UInt8)} (h : Matches (Loc.out (P := P) res) rd) :
    rd.isReading = false := by
  cases res with
  | none => exact h
  | some v =>
    obtain rfl : rd = .returned v.1 v.2 := h
    rfl

/-- `consoleintr` ends the line after the character. -/
def Ends (s : Input P) (c : UInt8) : Prop :=
  c = newline ∨ c = ctrlD ∨ (s.store c).e = ((s.store c).r + INPUT_BUF) % 2 ^ 32

section

variable (h : s.Ok) (hroom : sub32 s.e s.r < INPUT_BUF)
include h hroom

theorem ends_iff (c : UInt8) :
    Ends s c ↔ c = newline ∨ c = ctrlD ∨
      s.line.committed.length + s.line.pending.length + 1 = INPUT_BUF := by
  have hstore := h.toOrdered.store hroom c
  have hlen : (s.store c).committed.length + (s.store c).pending.length =
      s.line.committed.length + s.line.pending.length + 1 := by
    rw [Input.committed_store h.toOrdered hroom, Input.pending_store h.toOrdered hroom,
      List.length_append, List.length_singleton]
    rfl
  unfold Ends
  rw [hstore.full_iff, ← hstore.length, hlen]

theorem line_of_ends (hend : Ends s c) :
    (s.store c).commit.line = s.line.append c := by
  rw [Line.append, if_pos ((ends_iff h hroom c).mp hend),
    Input.line_commit (h.toOrdered.store hroom c), Input.committed_store h.toOrdered hroom,
    Input.pending_store h.toOrdered hroom, ← List.append_assoc]
  rfl

theorem line_of_not_ends (hend : ¬ Ends s c) :
    (s.store c).line = s.line.append c := by
  rw [Line.append, if_neg (mt (ends_iff h hroom c).mpr hend), Input.line,
    Input.committed_store h.toOrdered hroom, Input.pending_store h.toOrdered hroom]
  rfl

theorem ok_of_not_ends (hend : ¬ Ends s c) :
    (s.store c).Ok := by
  have hstore := h.toOrdered.store hroom c
  refine ⟨hstore, fun hfull => ?_, fun hmem => ?_⟩
  · exact absurd (.inr (.inr (hstore.full_iff.mpr hfull))) hend
  · rw [Input.pending_store h.toOrdered hroom, List.mem_append, List.mem_singleton] at hmem
    rcases hmem with hmem | hmem
    · exact h.plain hmem
    · exact hend (.inl hmem.symm)

end

theorem matches_goesTo (h : (code p x).GoesTo y) (hx : Matches x rd) : Matches y rd := by
  cases x with
  | out res =>
    have hcall : y.isCall = true := h
    cases y with
    | kill q | intr cs => exact isReading_of_out hx
    | read n => exact ⟨isReading_of_out hx, of_decide_eq_true hcall⟩
    | _ => cases hcall
  | unlock res =>
    obtain rfl : y = .out res := h
    cases res with
    | none | some v => exact hx
  | intrLoop cs => cases cs <;> exact h.elim
  | killLine cs | readEnter n | readLoop n target got => exact h.elim
  | kill q =>
    obtain rfl : y = .out none := h
    exact hx
  | intr cs | intrWake cs =>
    obtain rfl : y = .intrLoop cs := h
    exact hx
  | read n =>
    obtain rfl : y = .readEnter n := h
    exact hx
  | readSleep n target got =>
    obtain rfl : y = .readLoop n target got := h
    exact hx

variable [DecidableEq P]

/-- An action from `x` keeps the buffer in order and does what its events do. -/
structure Acts (p : P) (x : Loc P) (s : Input P) (r : Input P × Loc P) : Prop where
  ok : r.1.Ok
  sim : ∃ events, r.1.log = s.log ++ events ∧ ∀ d : Desk P, d.line = s.line →
    Matches x (d.reader p) → ∃ d', d.replay events = some d' ∧ d'.line = r.1.line ∧
      Matches r.2 (d'.reader p) ∧ ∀ q, q ≠ p → d'.reader q = d.reader q

theorem replay_singleton (d : Desk P) (e : Event P) : d.replay [e] = d.next e := by
  simp [Desk.replay]

theorem replay_append (d : Desk P) (l l' : List (Event P)) :
    d.replay (l ++ l') = (d.replay l).bind fun d' => d'.replay l' := by
  simp only [Desk.replay, List.foldlM_append]
  rfl

theorem acts_quiet (h : s.Ok) (hxy : ∀ rd, Matches x rd → Matches y rd) : Acts p x s (s, y) :=
  ⟨h, [], (List.append_nil _).symm, fun d hd hx => ⟨d, rfl, hd, hxy _ hx, fun _ _ => rfl⟩⟩

theorem acts_key {s' : Input P} (hok : s'.Ok) (hlog : s'.log = s.log)
    (hline : s'.line = s.line.key c) (hxy : ∀ rd, Matches x rd → Matches y rd) :
    Acts p x s (s'.record [.key c], y) := by
  refine ⟨hok.record _, [.key c], congrArg (· ++ _) hlog, fun d hd hx => ?_⟩
  refine ⟨d.setLine (d.line.key c), replay_singleton d _, ?_, hxy _ hx, fun _ _ => rfl⟩
  show d.line.key c = s'.line
  rw [hd, hline]

theorem acts_storeAct (h : s.Ok) (hP : c ≠ ctrlP) (hU : c ≠ ctrlU) (hH : ¬ (c = ctrlH ∨ c = del)) :
    Acts p (.intrLoop (c :: cs)) s (storeAct c cs s) := by
  have hkey (hc : c ≠ 0) (hroom : sub32 s.e s.r < INPUT_BUF) :
      s.line.append (crToNl c) = s.line.key c := by
    have hlen : s.line.committed.length + s.line.pending.length < INPUT_BUF :=
      h.toOrdered.length.trans_lt hroom
    rw [Line.key, if_neg (not_or.mpr ⟨hP, hc⟩), if_neg hU, if_neg hH, if_pos hlen]
  unfold storeAct
  dsimp only
  split_ifs with hroom hend
  · refine acts_key ((h.toOrdered.store hroom.2 _).commit) rfl ?_ fun _ => id
    rw [line_of_ends h hroom.2 hend, hkey hroom.1 hroom.2]
  · refine acts_key (ok_of_not_ends h hroom.2 hend) rfl ?_ fun _ => id
    rw [line_of_not_ends h hroom.2 hend, hkey hroom.1 hroom.2]
  · -- The character is dropped.
    refine acts_key h rfl ?_ fun _ => id
    unfold Line.key
    split_ifs with hzero hlen
    · rfl
    · have hlt : sub32 s.e s.r < INPUT_BUF := by
        rw [← h.toOrdered.length]
        exact hlen
      exact absurd ⟨fun hc => hzero (.inr hc), hlt⟩ hroom
    · rfl

theorem key_erase {l : Line} (hP : c ≠ ctrlP) (hU : c ≠ ctrlU) (hH : c = ctrlH ∨ c = del) :
    l.key c = ⟨l.committed, l.pending.dropLast⟩ := by
  have hzero : c ≠ 0 := by
    rintro rfl
    revert hH
    decide
  rw [Line.key, if_neg (not_or.mpr ⟨hP, hzero⟩), if_neg hU, if_pos hH]

theorem acts_keyAct (h : s.Ok) : Acts p (.intrLoop (c :: cs)) s (keyAct c cs s) := by
  unfold keyAct
  split_ifs with hP hU hH hne
  · refine acts_key h rfl ?_ fun _ => id
    rw [Line.key, if_pos (.inl hP)]
  · -- The loop is still to come.
    exact acts_quiet h fun _ => id
  · refine acts_key (h.erase hne) rfl ?_ fun _ => id
    rw [Input.line_erase h.toOrdered hne, key_erase hP hU hH]
    rfl
  · refine acts_key h rfl ?_ fun _ => id
    have hnil : s.line.pending = [] := (Input.pending_eq_nil h.toOrdered).mpr (not_not.mp hne)
    rw [key_erase hP hU hH, hnil]
    exact congrArg (Line.mk _) hnil
  · exact acts_storeAct h hP hU hH

theorem acts_killAct (h : s.Ok) : Acts p (.killLine cs) s (killAct cs s) := by
  unfold killAct
  split_ifs with hgo
  · refine ⟨(h.erase hgo.1).record _, [.erase], rfl, fun d hd hx => ?_⟩
    have hne : d.line.pending ≠ [] := by
      rw [hd]
      exact fun hnil => hgo.1 ((Input.pending_eq_nil h.toOrdered).mp hnil)
    refine ⟨d.setLine ⟨d.line.committed, d.line.pending.dropLast⟩, ?_, ?_, hx, fun _ _ => rfl⟩
    · rw [replay_singleton, Desk.next, if_neg hne]
    · show Line.mk d.line.committed d.line.pending.dropLast = s.erase.line
      rw [Input.line_erase h.toOrdered hgo.1, hd]
      rfl
  · have hempty : s.e = s.w := by
      by_contra hne
      exact hgo ⟨hne, Input.last_ne_newline h hne⟩
    refine acts_key h rfl ?_ fun _ => id
    have hnil : s.line.pending = [] := (Input.pending_eq_nil h.toOrdered).mpr hempty
    exact congrArg (Line.mk _) hnil

theorem acts_readEnter {n : ℤ} (h : s.Ok) :
    Acts p (.readEnter n) s (s.record [.read p n], .readLoop n (n % 2 ^ 32).toNat []) := by
  refine ⟨h.record _, [.read p n], rfl, fun d hd hx => ?_⟩
  obtain ⟨hidle, hn⟩ := hx
  refine ⟨d.setReader p (.reading n []), ?_, hd, ?_, fun q hq => update_of_ne hq ..⟩
  · rw [replay_singleton, Desk.next, hidle]
    rfl
  · have htarget : ((n % 2 ^ 32).toNat : ℤ) = (n + 0) % 2 ^ 32 := by omega
    have hself : (d.setReader p (.reading n [])).reader p = .reading (n + 0) [] := by
      rw [add_zero]
      exact update_self ..
    exact ⟨hself, htarget, by simpa using hn, .inl rfl, by simp⟩

theorem result_eq {n : ℤ} {target k : ℕ} (htarget : (target : ℤ) = (n + k) % 2 ^ 32)
    (hk : (k : ℤ) < 2 ^ 31) : result n target = k := by
  have hmod : (target - n) % ((2 ^ 32 : ℕ) : ℤ) = k := by omega
  rw [result, Int.bmod, hmod, if_pos (by omega)]

theorem Reading.result {n : ℤ} {target : ℕ} {got : List UInt8} {rd : Reader}
    (h : Reading n target got rd) : result n target = got.length := by
  refine result_eq h.target ?_
  rcases h.nonneg with hnil | hn
  · rw [hnil]
    decide
  · have := h.int.2
    omega

section Next

variable {d : Desk P} {n : ℤ} {got rest : List UInt8} {c : UInt8}

section

variable (hr : d.reader p = .reading n got)
include hr

theorem next_byte (hc : d.line.committed = c :: rest)
    (hD : c ≠ ctrlD) (hs : ¬ Satisfied n got) : d.next (.byte p c) =
      some ((d.setLine ⟨rest, d.line.pending⟩).setReader p (.reading n (got ++ [c]))) := by
  simp only [Desk.next, hr, hc]
  rw [if_pos ⟨trivial, hD, hs⟩]

theorem next_done (hs : Satisfied n got) :
    d.next (.done p) = some (d.setReader p (.returned got.length got)) := by
  simp only [Desk.next, hr]
  rw [if_pos hs]

theorem next_killed (hc : d.line.committed = []) (hs : ¬ Satisfied n got) :
    d.next (.killed p) = some (d.setReader p (.returned (-1) got)) := by
  simp only [Desk.next, hr, hc]
  rw [if_neg hs]

theorem next_eof (hc : d.line.committed = ctrlD :: rest)
    (hs : ¬ Satisfied n got) : d.next (.eof p) =
      if got = [] then some ((d.setLine ⟨rest, d.line.pending⟩).setReader p (.returned 0 []))
      else some (d.setReader p (.returned got.length got)) := by
  simp only [Desk.next, hr, hc]
  rw [if_pos ⟨trivial, hs⟩]

end

theorem setReader_self (rd : Reader) : (d.setReader p rd).reader p = rd :=
  update_self ..

theorem setReader_of_ne {q : P} (rd : Reader) (hq : q ≠ p) :
    (d.setReader p rd).reader q = d.reader q := update_of_ne hq ..

end Next

variable {n : ℤ} {target : ℕ} {got : List UInt8}

theorem Reading.not_satisfied (h : Reading n target got rd) (hn : 0 < n) :
    ¬ Satisfied (n + got.length) got := by
  rintro (hle | hlast)
  · omega
  · exact h.open_line hlast

theorem Reading.lt_target (h : Reading n target got rd) (hn : 0 < n) :
    n % 2 ^ 32 < target ↔ got ≠ [] := by
  have hint := h.int.2
  rw [h.target, Int.emod_eq_of_lt (by omega) (by omega), Int.emod_eq_of_lt (by omega) (by omega),
    ne_eq, ← List.length_eq_zero_iff]
  omega

theorem Reading.byte_length (n : ℤ) (got : List UInt8) (c : UInt8) :
    n + got.length = (n - 1) + (got ++ [c]).length := by
  rw [List.length_append, List.length_singleton]
  omega

theorem Reading.byte (h : Reading n target got rd) (hn : 0 < n) (hc : c ≠ newline) :
    Reading (n - 1) target (got ++ [c]) (.reading (n + got.length) (got ++ [c])) := by
  refine ⟨?_, ?_, ?_, .inr (by omega), ?_⟩
  · rw [Reading.byte_length n got c]
  · rw [← Reading.byte_length n got c, h.target]
  · rw [← Reading.byte_length n got c]
    exact h.int
  · rw [List.getLast?_concat]
    exact fun heq => hc (Option.some.inj heq)

theorem Reading.result_byte (h : Reading n target got rd) (hn : 0 < n) (c : UInt8) :
    Console.result (n - 1) target = (got ++ [c]).length := by
  have hint := h.int.2
  have hlen := Reading.byte_length n got c
  refine result_eq ?_ (by omega)
  rw [← hlen, h.target]

theorem replay_byte {d : Desk P} (h : s.Ok) (hn : 0 < n) (hne : s.r ≠ s.w) (hD : s.front ≠ ctrlD)
    (hd : d.line = s.line) (hx : Reading n target got (d.reader p)) :
    d.replay [.byte p s.front] = some ((d.setLine s.advance.line).setReader p
      (.reading (n + got.length) (got ++ [s.front]))) := by
  have hcomm : d.line.committed = s.front :: s.advance.committed := by
    rw [hd]
    exact Input.committed_advance h.toOrdered hne
  have hpend : d.line.pending = s.advance.pending := by
    rw [hd]
    rfl
  rw [replay_singleton, next_byte hx.reader hcomm hD (hx.not_satisfied hn), hpend]
  rfl

theorem acts_newline (h : s.Ok) (hn : 0 < n) (hne : s.r ≠ s.w) (hD : s.front ≠ ctrlD)
    (hnl : s.front = newline) : Acts p (.readLoop n target got) s
      (s.advance.record [.byte p s.front, .done p],
        .unlock (some (result (n - 1) target, got ++ [s.front]))) := by
  refine ⟨(h.advance hne).record _, [.byte p s.front, .done p], rfl, fun d hd hx => ?_⟩
  set d1 := (d.setLine s.advance.line).setReader p (.reading (n + got.length) (got ++ [s.front]))
    with hd1
  have hsat : Satisfied (n + got.length) (got ++ [s.front]) := by
    right
    rw [List.getLast?_concat, hnl]
  refine ⟨d1.setReader p (.returned (got ++ [s.front]).length (got ++ [s.front])), ?_, rfl, ?_,
    fun q hq => ?_⟩
  · rw [← List.singleton_append, replay_append, replay_byte h hn hne hD hd hx]
    show d1.replay [.done p] = _
    rw [replay_singleton]
    exact next_done (setReader_self _) hsat
  · show (d1.setReader p _).reader p = .returned _ _
    rw [setReader_self, hx.result_byte hn]
  · rw [setReader_of_ne _ hq, hd1, setReader_of_ne _ hq]
    rfl

theorem acts_byte (h : s.Ok) (hn : 0 < n) (hne : s.r ≠ s.w) (hD : s.front ≠ ctrlD)
    (hnl : s.front ≠ newline) : Acts p (.readLoop n target got) s
      (s.advance.record [.byte p s.front], .readLoop (n - 1) target (got ++ [s.front])) := by
  refine ⟨(h.advance hne).record _, [.byte p s.front], rfl, fun d hd hx => ?_⟩
  refine ⟨_, replay_byte h hn hne hD hd hx, rfl, ?_, fun q hq => setReader_of_ne _ hq⟩
  rw [setReader_self]
  exact hx.byte hn hnl

theorem acts_eof (h : s.Ok) (hn : 0 < n) (hne : s.r ≠ s.w) (hD : s.front = ctrlD) :
    Acts p (.readLoop n target got) s
      ((if n % 2 ^ 32 < target then s.advance.retreat else s.advance).record [.eof p],
        .unlock (some (result n target, got))) := by
  have hfront := Input.committed_advance h.toOrdered hne
  rw [hD] at hfront
  refine ⟨?_, [.eof p], ?_, fun d hd hx => ?_⟩
  · dsimp only
    split_ifs
    · rw [Input.retreat_advance h.toOrdered]
      exact h.record _
    · exact (h.advance hne).record _
  · dsimp only
    split_ifs <;> rfl
  · have hcomm : d.line.committed = ctrlD :: s.advance.committed := by
      rw [hd]
      exact hfront
    have hnext := next_eof hx.reader hcomm (hx.not_satisfied hn)
    rw [← replay_singleton] at hnext
    have hlt := hx.lt_target hn
    by_cases hgot : got = []
    · rw [if_pos hgot] at hnext
      refine ⟨_, hnext, ?_, ?_, fun q hq => setReader_of_ne _ hq⟩
      · rw [if_neg (by rw [hlt]; exact not_not.mpr hgot)]
        show Line.mk s.advance.committed d.line.pending = s.advance.line
        rw [hd]
        rfl
      · show ((d.setLine _).setReader p _).reader p = .returned _ got
        rw [setReader_self, hx.result, hgot]
        rfl
    · rw [if_neg hgot] at hnext
      refine ⟨_, hnext, ?_, ?_, fun q hq => setReader_of_ne _ hq⟩
      · rw [if_pos (hlt.mpr hgot), Input.retreat_advance h.toOrdered]
        exact hd
      · show (d.setReader p _).reader p = .returned _ got
        rw [setReader_self, hx.result]

theorem acts_readAct (h : s.Ok) :
    Acts p (.readLoop n target got) s (readAct p n target got killed s) := by
  unfold readAct
  dsimp only
  split_ifs with hn hempty hkilled hD hlt hnl
  · refine ⟨h.record _, [.killed p], rfl, fun d hd hx => ?_⟩
    have hcomm : d.line.committed = [] := by
      rw [hd]
      exact (Input.committed_eq_nil h.toOrdered).mpr hempty
    have hnext := next_killed hx.reader hcomm (hx.not_satisfied hn)
    rw [← replay_singleton] at hnext
    exact ⟨_, hnext, hd, setReader_self _, fun q hq => setReader_of_ne _ hq⟩
  · exact acts_quiet h fun _ => id
  · have hmain : Acts p (.readLoop n target got) s _ := acts_eof h hn hempty hD
    rwa [if_pos hlt] at hmain
  · have hmain : Acts p (.readLoop n target got) s _ := acts_eof h hn hempty hD
    rwa [if_neg hlt] at hmain
  · exact acts_newline h hn hempty hD hnl
  · exact acts_byte h hn hempty hD hnl
  · refine ⟨h.record _, [.done p], rfl, fun d hd hx => ?_⟩
    have hsat : Satisfied (n + got.length) got := .inl (by omega)
    have hnext := next_done hx.reader hsat
    rw [← replay_singleton] at hnext
    refine ⟨_, hnext, hd, ?_, fun q hq => setReader_of_ne _ hq⟩
    show (d.setReader p _).reader p = .returned _ got
    rw [setReader_self, hx.result]

theorem acts_of_code {f : Bool → Input P → Input P × Loc P} (hcode : code p x = .act f) (h : s.Ok) :
    Acts p x s (f killed s) := by
  cases x with
  | intrLoop cs =>
    cases cs with
    | nil =>
      cases hcode
      exact acts_quiet h fun _ => id
    | cons c cs =>
      cases hcode
      exact acts_keyAct h
  | killLine cs =>
    cases hcode
    exact acts_killAct h
  | readEnter n =>
    cases hcode
    exact acts_readEnter h
  | readLoop n target got =>
    cases hcode
    exact acts_readAct h
  | _ => cases hcode

end Refinement

section Runs

variable {P : Type} {procs : List P} {s t : State P Unit Unit (Input P) (Loc P)}

theorem Boot.ok (h : Boot s) : s.st.Ok := by
  obtain ⟨hr, hw, he⟩ := h.empty
  have hord : s.st.Ordered := by
    refine ⟨?_, ?_, ?_, ?_, ?_⟩
    · rw [hr]
      decide
    · rw [hw]
      decide
    · rw [he]
      decide
    · rw [hw, he]
    · rw [he, hr]
      decide
  refine ⟨hord, fun _ => by rw [hw, he], ?_⟩
  rw [(Input.pending_eq_nil hord).mpr (by rw [hw, he])]
  exact List.not_mem_nil

variable [DecidableEq P]

/-- What has happened so far could have happened at the console that the users see, and has led to
the same characters and results. -/
def Refined (s : State P Unit Unit (Input P) (Loc P)) : Prop :=
  ∃ d : Desk P, Desk.empty.replay s.st.log = some d ∧ d.line = s.st.line ∧
    ∀ p, Matches (s.ctl p).loc (d.reader p)

theorem Refined.step {a : Label P (Loc P)} (h : Refined s) (hok : s.st.Ok) (hi : Proc.Inv s)
    (hstep : Proc.step code procs a s = some t) : Refined t ∧ t.st.Ok := by
  have hm := move_of_step hstep
  have hothers := (hm.others hi).ctl
  obtain ⟨d, hlog, hline, hmatch⟩ := h
  rcases hm.loc with ⟨x, f, hc, hcode, hst, hloc⟩ | ⟨hst, hloc⟩
  · have hx : Matches x (d.reader a.pid) := by
      have hx := hmatch a.pid
      rw [hc] at hx
      exact hx
    have hacts : Acts a.pid x s.st (f (s.killed a.pid) s.st) := acts_of_code hcode hok
    obtain ⟨hok', events, hlog', hsim⟩ := hacts
    obtain ⟨d', hd', hline', hself, hother⟩ := hsim d hline hx
    rw [← hst] at hok' hlog' hline'
    refine ⟨⟨d', ?_, hline', fun q => ?_⟩, hok'⟩
    · rw [hlog', replay_append, hlog]
      exact hd'
    · by_cases hq : q = a.pid
      · rw [hq, hloc]
        exact hself
      · rw [hothers q hq, hother q hq]
        exact hmatch q
  · rw [Refined, hst]
    refine ⟨⟨d, hlog, hline, fun q => ?_⟩, hok⟩
    by_cases hq : q = a.pid
    · subst hq
      rcases hloc with hloc | ⟨x, hc, hgo⟩
      · rw [hloc]
        exact hmatch a.pid
      · have hx := hmatch a.pid
        rw [hc] at hx
        exact matches_goesTo hgo hx
    · rw [hothers q hq]
      exact hmatch q

theorem Boot.refined (h : Boot s) : Refined s := by
  have hord := h.ok.toOrdered
  obtain ⟨hr, hw, he⟩ := h.empty
  refine ⟨Desk.empty, by rw [h.log]; rfl, ?_, fun p => ?_⟩
  · rw [Input.line, (Input.pending_eq_nil hord).mpr (by rw [hw, he]),
      (Input.committed_eq_nil hord).mpr (by rw [hw, hr])]
    rfl
  · rw [h.out p]
    exact (rfl : Reader.idle.isReading = false)

end Runs

def notes (P : Type) : Notes (Loc P) Unit (Input P) where
  inside
    | .out _ | .kill _ | .intr _ | .read _ => False
    | _ => True
  owes
    | .intrWake _, _ => True
    | _, _ => False
  pre
    | .readSleep _ _ _, s => s.r = s.w
    | _, _ => True
  idle _ s := s.r = s.w
  good _ := True

section Sleepers

variable {P : Type} {s : Input P}

theorem act_of_indices {x y : Loc P} {t : Input P} (hx : (notes P).inside x)
    (hy : (notes P).inside y) (hpre : (notes P).pre y t) (howes : ∀ ch, ¬ (notes P).owes x ch)
    (hr : t.r = s.r) (hw : t.w = s.w) : (notes P).Act x s (t, y) where
  inside := ⟨fun _ => hx, fun _ => hy⟩
  frame hin := absurd hx hin
  good := trivial
  pre _ := hpre
  owes ch h := absurd h (howes ch)
  idle _ hidle := .inl (hr.trans (hidle.trans hw.symm))

theorem act_key (c : UInt8) (cs : List UInt8) :
    (notes P).Act (.intrLoop (c :: cs)) s (keyAct c cs s) := by
  unfold keyAct storeAct
  dsimp only
  split_ifs
  any_goals exact act_of_indices trivial trivial trivial (fun _ => id) rfl rfl
  -- The line is committed, and `wakeup` comes next.
  exact ⟨Iff.rfl, fun hin => absurd trivial hin, trivial, fun _ => trivial, fun _ => False.elim,
    fun _ _ => .inr trivial⟩

theorem act_read (p : P) (n : ℤ) (target : ℕ) (got : List UInt8) (killed : Bool) :
    (notes P).Act (.readLoop n target got) s (readAct p n target got killed s) := by
  -- Where a character is taken there was one, so nobody had a reason to sleep.
  have htake {t : Input P} {y : Loc P} (hne : s.r ≠ s.w) (hy : (notes P).inside y)
      (hpre : (notes P).pre y t) : (notes P).Act (.readLoop n target got) s (t, y) :=
    ⟨⟨fun _ => trivial, fun _ => hy⟩, fun hin => absurd trivial hin, trivial, fun _ => hpre,
      fun _ => False.elim, fun _ hidle => absurd hidle hne⟩
  unfold readAct
  dsimp only
  split_ifs with hn hempty hkilled hD hlt hnl
  · exact act_of_indices trivial trivial trivial (fun _ => id) rfl rfl
  · exact act_of_indices trivial trivial hempty (fun _ => id) rfl rfl
  · exact htake hempty trivial trivial
  · exact htake hempty trivial trivial
  · exact htake hempty trivial trivial
  · exact htake hempty trivial trivial
  · exact act_of_indices trivial trivial trivial (fun _ => id) rfl rfl

def monitor (P : Type) : Monitor (code (P := P)) () fun _ _ _ => True where
  toNotes := notes P
  owes_inside x ch h := by
    cases x with
    | intrWake cs => exact trivial
    | _ => exact h.elim
  call p x entry h := by
    cases x with
    | out r =>
      cases h
      refine ⟨id, fun y hy => ?_⟩
      cases y with
      | kill q | intr cs | read n => exact id
      | _ => cases hy
    | intrLoop cs => cases cs <;> cases h
    | _ => cases h
  act p x f killed st h _ _ _ := by
    cases x with
    | intrLoop cs =>
      cases cs with
      | nil =>
        cases h
        exact act_of_indices trivial trivial trivial (fun _ => id) rfl rfl
      | cons c cs =>
        cases h
        exact act_key c cs
    | killLine cs =>
      cases h
      dsimp only [killAct]
      split_ifs
      · exact act_of_indices trivial trivial trivial (fun _ => id) rfl rfl
      · exact act_of_indices trivial trivial trivial (fun _ => id) rfl rfl
    | readEnter n =>
      cases h
      exact act_of_indices trivial trivial trivial (fun _ => id) rfl rfl
    | readLoop n target got =>
      cases h
      exact act_read p n target got killed
    | _ => cases h
  acquire p x l y h := by
    cases x with
    | intr cs =>
      cases h
      exact ⟨rfl, trivial, fun _ _ => trivial⟩
    | read n =>
      cases h
      exact ⟨rfl, trivial, fun _ _ => trivial⟩
    | intrLoop cs => cases cs <;> cases h
    | _ => cases h
  release p x l y h := by
    cases x with
    | unlock r =>
      cases h
      exact ⟨rfl, id, fun _ => id⟩
    | intrLoop cs => cases cs <;> cases h
    | _ => cases h
  sleep p x ch l y h := by
    cases x with
    | readSleep n target got =>
      cases h
      exact ⟨rfl, trivial, fun _ _ => id, fun _ => id, fun _ _ => trivial⟩
    | intrLoop cs => cases cs <;> cases h
    | _ => cases h
  wakeup p x ch y h := by
    cases x with
    | intrWake cs =>
      cases h
      exact ⟨trivial, trivial, fun _ _ => .inl rfl, fun _ _ _ => trivial⟩
    | intrLoop cs => cases cs <;> cases h
    | _ => cases h
  wakeup1 p x ch y h := by
    cases x with
    | intrLoop cs => cases cs <;> cases h
    | _ => cases h
  kill p x q y h := by
    cases x with
    | kill r =>
      cases h
      exact ⟨id, id⟩
    | intrLoop cs => cases cs <;> cases h
    | _ => cases h

end Sleepers

section Main

variable {P : Type} [DecidableEq P] {procs : List P} {s t : State P Unit Unit (Input P) (Loc P)}

/-- The indices stay in order, nobody sleeps while there is something to be read, and the console
does what its users expect of it. -/
theorem console_line_discipline (hprocs : ∀ p, p ∈ procs) (hs : Boot s)
    (h : Runs (step code procs) s t) :
    t.st.Ordered ∧ (sub32 t.st.e t.st.r = INPUT_BUF → t.st.w = t.st.e) ∧
      (t.owner (.lk ()) = none → ∀ p, t.state p = .sleeping → t.st.r = t.st.w) ∧ Refined t := by
  have hinv : (Refined t ∧ t.st.Ok) ∧ Proc.Inv t := by
    refine h.inv (I := fun s => (Refined s ∧ s.st.Ok) ∧ Proc.Inv s) (fun s a t hI _ hstep => ?_)
      ⟨⟨hs.refined, hs.ok⟩, hs.toStart.inv⟩
    exact ⟨hI.1.1.step hI.1.2 hI.2 hstep, (move_of_step hstep).inv hI.2⟩
  have hstart : (monitor P).Inv s := by
    refine Monitor.Inv.start hs.toStart trivial fun p x hx => ?_
    rw [hs.out p] at hx
    obtain rfl := Ctl.pc.inj hx
    exact id
  have hmon : (monitor P).Inv t := hstart.runs hprocs (fun _ _ _ _ _ _ _ => trivial) h
  refine ⟨hinv.1.2.toOrdered, hinv.1.2.full, fun hfree p hsleep => ?_, hinv.1.1⟩
  obtain ⟨phase, ch, l, x, -, hchan⟩ := hinv.2.sleeping hsleep
  exact hmon.idle hfree hsleep hchan

def bootConsole : State Bool Unit Unit (Input Bool) (Loc Bool) where
  st := ⟨fun _ => 0, 0, 0, 0, []⟩
  owner _ := none
  state _ := .running
  chan _ := none
  killed _ := false
  ctl _ := .pc (.out none)
  sleeps _ := 0
  wakeups _ := 0

theorem boot_bootConsole : Boot bootConsole :=
  ⟨⟨fun _ => rfl, fun _ => rfl, fun _ => ⟨_, rfl⟩⟩, ⟨rfl, rfl, rfl⟩, rfl, fun _ => rfl⟩

/-- The keys `x`, backspace, `h`, `i` and return are hit, and a process reads a line. -/
theorem console_line_discipline_hi : ∃ t, Runs (step code [false, true]) bootConsole t ∧
    (t.ctl false).loc = .out (some (3, [104, 105, newline])) ∧ Refined t := by
  have hrun : (execute (step code [false, true])
      (.call true (.intr [120, ctrlH, 104, 105, carriageReturn]) :: List.replicate 14 (.run true) ++
        .call false (.read 10) :: List.replicate 6 (.run false)) bootConsole).any
      (fun t => decide ((t.ctl false).loc = .out (some (3, [104, 105, newline])))) = true := by
    decide +kernel
  obtain ⟨t, ht, htest⟩ := exists_of_execute hrun
  exact ⟨t, ht, of_decide_eq_true htest,
    (console_line_discipline (by decide) boot_bootConsole ht).2.2.2⟩

end Main

end Xv6.Console
