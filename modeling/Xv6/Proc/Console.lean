import Xv6.Lib.Bytes
import Xv6.Lib.Ring
import Xv6.Proc.Monitor

namespace Xv6.Console
open Lib Proc

def INPUT_BUF : ℕ := 128

/-- `C('P')`, `C('U')`, `C('H')` and `C('D')`. -/
def ctrlP : UInt8 := 16
def ctrlU : UInt8 := 21
def ctrlH : UInt8 := 8
def ctrlD : UInt8 := 4
def del : UInt8 := 0x7f
def newline : UInt8 := 10
def carriageReturn : UInt8 := 13

/-- `a - b` for two values of type `uint`. -/
def sub32 (a b : ℕ) : ℕ := if b ≤ a then a - b else a + 2 ^ 32 - b

/-- `(c == '\r') ? '\n' : c`. -/
def crToNl (c : UInt8) : UInt8 := if c = carriageReturn then newline else c

/-- What happens at the console, for the record. -/
inductive Event (P : Type) where
  /-- A character has been dealt with. -/
  | key (c : UInt8)
  /-- One round of the loop at `^U`. -/
  | erase
  | read (p : P) (n : ℤ)
  /-- The reader gets a character. -/
  | byte (p : P) (c : UInt8)
  /-- The reader has all it wants, or a line. -/
  | done (p : P)
  /-- The reader comes upon a `^D`. -/
  | eof (p : P)
  | killed (p : P)

structure Input (P : Type) where
  buf : Bytes INPUT_BUF
  r : ℕ
  w : ℕ
  e : ℕ
  log : List (Event P)

namespace Input

variable {P : Type}

def record (s : Input P) (events : List (Event P)) : Input P := { s with log := s.log ++ events }

def erase (s : Input P) : Input P := { s with e := sub32 s.e 1 }

/-- `input.buf[(input.e-1) % INPUT_BUF]`. -/
def last (s : Input P) : UInt8 := s.buf.get (sub32 s.e 1 % INPUT_BUF)

/-- `input.buf[input.e++ % INPUT_BUF] = c`. -/
def store (s : Input P) (c : UInt8) : Input P :=
  { s with buf := s.buf.put (s.e % INPUT_BUF) [c], e := (s.e + 1) % 2 ^ 32 }

def commit (s : Input P) : Input P := { s with w := s.e }

def front (s : Input P) : UInt8 := s.buf.get (s.r % INPUT_BUF)

def advance (s : Input P) : Input P := { s with r := (s.r + 1) % 2 ^ 32 }

def retreat (s : Input P) : Input P := { s with r := sub32 s.r 1 }

end Input

inductive Loc (P : Type) where
  /-- Outside, with the result of its last `consoleread` and the bytes that it got. -/
  | out (res : Option (ℤ × List UInt8))
  | kill (q : P)
  /-- `consoleintr`, with what `getc` will return. -/
  | intr (cs : List UInt8)
  | intrLoop (cs : List UInt8)
  | killLine (cs : List UInt8)
  | intrWake (cs : List UInt8)
  | read (n : ℤ)
  | readEnter (n : ℤ)
  /-- With the values of `n` and `target`, and the bytes copied so far. -/
  | readLoop (n : ℤ) (target : ℕ) (got : List UInt8)
  | readSleep (n : ℤ) (target : ℕ) (got : List UInt8)
  | unlock (res : Option (ℤ × List UInt8))
  deriving DecidableEq

/-- The calls that a process can make; `n` is an `int`. -/
def Loc.isCall {P : Type} : Loc P → Bool
  | kill _ | intr _ => true
  | read n => decide (-2 ^ 31 ≤ n ∧ n < 2 ^ 31)
  | _ => false

section Code

variable {P : Type}

/-- The default case of the switch in `consoleintr`. -/
def storeAct (c : UInt8) (cs : List UInt8) (s : Input P) : Input P × Loc P :=
  if c ≠ 0 ∧ sub32 s.e s.r < INPUT_BUF then
    let s' := s.store (crToNl c)
    if crToNl c = newline ∨ crToNl c = ctrlD ∨ s'.e = (s'.r + INPUT_BUF) % 2 ^ 32 then
      (s'.commit.record [.key c], .intrWake cs)
    else (s'.record [.key c], .intrLoop cs)
  else (s.record [.key c], .intrLoop cs)

/-- The switch in `consoleintr`. -/
def keyAct (c : UInt8) (cs : List UInt8) (s : Input P) : Input P × Loc P :=
  if c = ctrlP then (s.record [.key c], .intrLoop cs)
  else if c = ctrlU then (s, .killLine cs)
  else if c = ctrlH ∨ c = del then
    ((if s.e ≠ s.w then s.erase else s).record [.key c], .intrLoop cs)
  else storeAct c cs s

/-- The loop at `^U`. -/
def killAct (cs : List UInt8) (s : Input P) : Input P × Loc P :=
  if s.e ≠ s.w ∧ s.last ≠ newline then (s.erase.record [.erase], .killLine cs)
  else (s.record [.key ctrlU], .intrLoop cs)

/-- `target - n`, as an `int`. -/
def result (n : ℤ) (target : ℕ) : ℤ := Int.bmod (target - n) (2 ^ 32)

/-- The body of the loop of `consoleread`, up to where it sleeps. -/
def readAct (p : P) (n : ℤ) (target : ℕ) (got : List UInt8) (killed : Bool) (s : Input P) :
    Input P × Loc P :=
  if 0 < n then
    if s.r = s.w then
      if killed = true then (s.record [.killed p], .unlock (some (-1, got)))
      else (s, .readSleep n target got)
    else
      let c := s.front
      if c = ctrlD then
        let s' := if n % 2 ^ 32 < target then s.advance.retreat else s.advance
        (s'.record [.eof p], .unlock (some (result n target, got)))
      else if c = newline then
        (s.advance.record [.byte p c, .done p],
          .unlock (some (result (n - 1) target, got ++ [c])))
      else (s.advance.record [.byte p c], .readLoop (n - 1) target (got ++ [c]))
  else (s.record [.done p], .unlock (some (result n target, got)))

def code (p : P) : Loc P → Instr P Unit Unit (Input P) (Loc P)
  | .out _ => .call Loc.isCall
  | .kill q => .kill q (.out none)
  | .intr cs => .acquire (.lk ()) (.intrLoop cs)
  | .intrLoop [] => .act fun _ s => (s, .unlock none)
  | .intrLoop (c :: cs) => .act fun _ => keyAct c cs
  | .killLine cs => .act fun _ => killAct cs
  | .intrWake cs => .wakeup () (.intrLoop cs)
  | .read n => .acquire (.lk ()) (.readEnter n)
  | .readEnter n => .act fun _ s => (s.record [.read p n], .readLoop n (n % 2 ^ 32).toNat [])
  | .readLoop n target got => .act (readAct p n target got)
  | .readSleep n target got => .sleep () (.lk ()) (.readLoop n target got)
  | .unlock res => .release (.lk ()) (.out res)

end Code

/-- An empty console, which no process uses yet. -/
structure Boot {P : Type} (s : State P Unit Unit (Input P) (Loc P)) : Prop extends Start s where
  empty : s.st.r = 0 ∧ s.st.w = 0 ∧ s.st.e = 0
  log : s.st.log = []
  out : ∀ p, s.ctl p = .pc (.out none)

/-- Characters that can be read, and the line that is being typed. -/
@[ext] structure Line where
  committed : List UInt8
  pending : List UInt8

namespace Line

def append (l : Line) (c : UInt8) : Line :=
  if c = newline ∨ c = ctrlD ∨ l.committed.length + l.pending.length + 1 = INPUT_BUF then
    ⟨l.committed ++ l.pending ++ [c], []⟩
  else ⟨l.committed, l.pending ++ [c]⟩

def key (l : Line) (c : UInt8) : Line :=
  if c = ctrlP ∨ c = 0 then l
  else if c = ctrlU then ⟨l.committed, []⟩
  else if c = ctrlH ∨ c = del then ⟨l.committed, l.pending.dropLast⟩
  else if l.committed.length + l.pending.length < INPUT_BUF then
    l.append (crToNl c)
  else l

end Line

/-- What has become of a call of `consoleread`. -/
inductive Reader where
  | idle
  | reading (n : ℤ) (got : List UInt8)
  | returned (r : ℤ) (got : List UInt8)

def Reader.isReading : Reader → Bool
  | reading _ _ => true
  | _ => false

/-- A console, as its users see it. -/
structure Desk (P : Type) where
  line : Line
  reader : P → Reader

/-- The reader has got all it wants, or a whole line. -/
def Satisfied (n : ℤ) (got : List UInt8) : Prop := n ≤ got.length ∨ got.getLast? = some newline

instance (n : ℤ) (got : List UInt8) : Decidable (Satisfied n got) :=
  inferInstanceAs (Decidable (_ ∨ _))

section Desk

variable {P : Type} [DecidableEq P]

def Desk.setReader (d : Desk P) (p : P) (rd : Reader) : Desk P :=
  { d with reader := Function.update d.reader p rd }

def Desk.setLine (d : Desk P) (l : Line) : Desk P := { d with line := l }

/-- What an event does, if it can happen. -/
def Desk.next (d : Desk P) : Event P → Option (Desk P)
  | .key c => some (d.setLine (d.line.key c))
  | .erase => if d.line.pending = [] then none
    else some (d.setLine ⟨d.line.committed, d.line.pending.dropLast⟩)
  | .read p n => if (d.reader p).isReading then none else some (d.setReader p (.reading n []))
  | .byte p c => match d.reader p, d.line.committed with
    | .reading n got, c' :: rest =>
      if c = c' ∧ c ≠ ctrlD ∧ ¬ Satisfied n got then
        some ((d.setLine ⟨rest, d.line.pending⟩).setReader p (.reading n (got ++ [c])))
      else none
    | _, _ => none
  | .done p => match d.reader p with
    | .reading n got =>
      if Satisfied n got then some (d.setReader p (.returned got.length got)) else none
    | _ => none
  | .eof p => match d.reader p, d.line.committed with
    | .reading n got, c :: rest =>
      if c = ctrlD ∧ ¬ Satisfied n got then
        -- After some bytes it stays for the next reader.
        if got = [] then some ((d.setLine ⟨rest, d.line.pending⟩).setReader p (.returned 0 []))
        else some (d.setReader p (.returned got.length got))
      else none
    | _, _ => none
  | .killed p => match d.reader p, d.line.committed with
    | .reading n got, [] =>
      if Satisfied n got then none else some (d.setReader p (.returned (-1) got))
    | _, _ => none

def Desk.replay (d : Desk P) (log : List (Event P)) : Option (Desk P) := log.foldlM Desk.next d

def Desk.empty : Desk P := ⟨⟨[], []⟩, fun _ => .idle⟩

end Desk

section Arith

variable {a b c : ℕ}

section

variable (ha : a < 2 ^ 32)
include ha

theorem sub32_eq (hb : b < 2 ^ 32) : sub32 a b = (a + 2 ^ 32 - b) % 2 ^ 32 := by
  unfold sub32
  split_ifs <;> omega

theorem sub32_lt : sub32 a b < 2 ^ 32 := by
  unfold sub32
  split_ifs <;> omega

section

variable (hb : b < 2 ^ 32)
include hb

theorem sub32_eq_zero : sub32 a b = 0 ↔ a = b := by
  rw [sub32_eq ha hb]
  omega

theorem sub32_add : (b + sub32 a b) % 2 ^ 32 = a := by
  rw [sub32_eq ha hb]
  omega

theorem sub32_add_mod :
    (b + sub32 a b) % INPUT_BUF = a % INPUT_BUF := by
  rw [sub32_eq ha hb, INPUT_BUF]
  omega

theorem sub32_trans (hc : c < 2 ^ 32)
    (h : sub32 b c ≤ sub32 a c) : sub32 a c = sub32 b c + sub32 a b := by
  rw [sub32_eq hb hc, sub32_eq ha hc] at h
  rw [sub32_eq ha hb, sub32_eq hb hc, sub32_eq ha hc]
  omega

theorem sub32_succ (h : sub32 a b < INPUT_BUF) :
    sub32 ((a + 1) % 2 ^ 32) b = sub32 a b + 1 := by
  rw [sub32_eq ha hb, INPUT_BUF] at h
  rw [sub32_eq ha hb, sub32_eq (Nat.mod_lt _ (by decide)) hb]
  omega

theorem sub32_pred (h : a ≠ b) :
    sub32 a b = sub32 (sub32 a 1) b + 1 := by
  rw [sub32_eq (sub32_lt ha) hb, sub32_eq ha hb, sub32_eq ha (by decide)]
  omega

theorem sub32_succ_right (h : a ≠ b) :
    sub32 a b = sub32 a ((b + 1) % 2 ^ 32) + 1 := by
  rw [sub32_eq ha (Nat.mod_lt _ (by decide)), sub32_eq ha hb]
  omega

end

theorem sub32_one : sub32 ((a + 1) % 2 ^ 32) 1 = a := by
  rw [sub32_eq (Nat.mod_lt _ (by decide)) (by decide)]
  omega

end

end Arith

namespace Input

variable {P : Type} {s : Input P}

def committed (s : Input P) : List UInt8 := ring INPUT_BUF s.buf.get s.r (sub32 s.w s.r)

def pending (s : Input P) : List UInt8 := ring INPUT_BUF s.buf.get s.w (sub32 s.e s.w)

def line (s : Input P) : Line := ⟨s.committed, s.pending⟩

/-- The indices are in order, modulo `2 ^ 32`. -/
structure Ordered (s : Input P) : Prop where
  r_lt : s.r < 2 ^ 32
  w_lt : s.w < 2 ^ 32
  e_lt : s.e < 2 ^ 32
  w_le : sub32 s.w s.r ≤ sub32 s.e s.r
  e_le : sub32 s.e s.r ≤ INPUT_BUF

/-- Between two characters. -/
structure Ok (s : Input P) : Prop extends Ordered s where
  full : sub32 s.e s.r = INPUT_BUF → s.w = s.e
  /-- The line that is typed has not been ended. -/
  plain : newline ∉ s.pending

section

variable (h : s.Ordered)
include h

theorem Ordered.split : sub32 s.e s.r = sub32 s.w s.r + sub32 s.e s.w :=
  sub32_trans h.e_lt h.w_lt h.r_lt h.w_le

theorem Ordered.length :
    s.committed.length + s.pending.length = sub32 s.e s.r := by
  rw [committed, pending, ring_length, ring_length, h.split]

theorem pending_eq_nil : s.pending = [] ↔ s.e = s.w := by
  rw [← List.length_eq_zero_iff, pending, ring_length]
  exact sub32_eq_zero h.e_lt h.w_lt

theorem committed_eq_nil : s.committed = [] ↔ s.r = s.w := by
  rw [← List.length_eq_zero_iff, committed, ring_length, sub32_eq_zero h.w_lt h.r_lt]
  exact eq_comm

/-- What is in the buffer from `r` on: the characters that can be read, then the line. -/
theorem Ordered.contents :
    ring INPUT_BUF s.buf.get s.r (sub32 s.e s.r) = s.committed ++ s.pending := by
  rw [h.split, ring_add, ← ring_mod (M := 2 ^ 32) (r := s.r + _) (by decide),
    sub32_add h.w_lt h.r_lt]
  rfl

theorem Ordered.store (hroom : sub32 s.e s.r < INPUT_BUF) (c : UInt8) :
    (s.store c).Ordered := by
  have hsucc : sub32 (s.store c).e s.r = sub32 s.e s.r + 1 := sub32_succ h.e_lt h.r_lt hroom
  refine ⟨h.r_lt, h.w_lt, Nat.mod_lt _ (by decide), ?_, ?_⟩
  · show sub32 s.w s.r ≤ sub32 (s.store c).e s.r
    have := h.w_le
    omega
  · show sub32 (s.store c).e s.r ≤ INPUT_BUF
    omega

end

theorem get_store_of_ne {c : UInt8} {j : ℕ} (hj : j ≠ s.e % INPUT_BUF) :
    (s.store c).buf.get j = s.buf.get j := by
  rcases Nat.lt_or_gt_of_ne hj with hlt | hgt
  · exact Bytes.get_put_of_lt _ _ hlt
  · exact Bytes.get_put_of_ge _ _ hgt

section

variable (h : s.Ordered)
include h

theorem committed_store (hroom : sub32 s.e s.r < INPUT_BUF) (c : UInt8) :
    (s.store c).committed = s.committed := by
  refine ring_congr fun i hi => get_store_of_ne ?_
  have hi' : i < sub32 s.w s.r := hi
  have hw := h.w_le
  rw [← sub32_add_mod h.e_lt h.r_lt]
  apply add_mod_ne <;> omega

theorem pending_store (hroom : sub32 s.e s.r < INPUT_BUF) (c : UInt8) :
    (s.store c).pending = s.pending ++ [c] := by
  have hn : sub32 s.e s.w < INPUT_BUF := by
    have := h.split
    omega
  have hmod : s.e % INPUT_BUF < INPUT_BUF := Nat.mod_lt _ (by decide)
  show ring INPUT_BUF (s.store c).buf.get s.w (sub32 ((s.e + 1) % 2 ^ 32) s.w) = _
  rw [sub32_succ h.e_lt h.w_lt hn]
  refine ring_push hn ?_ fun j _ hne => ?_
  · rw [sub32_add_mod h.e_lt h.w_lt]
    show (s.buf.put _ [c]).get _ = c
    rw [Bytes.get_put_of_mem _ _ hmod le_rfl (by simp)]
    simp
  · rw [sub32_add_mod h.e_lt h.w_lt] at hne
    exact get_store_of_ne hne

theorem Ordered.commit : s.commit.Ok := by
  have hord : s.commit.Ordered := ⟨h.r_lt, h.e_lt, h.e_lt, le_rfl, h.e_le⟩
  refine ⟨hord, fun _ => rfl, ?_⟩
  rw [(pending_eq_nil hord).mpr rfl]
  exact List.not_mem_nil

theorem line_commit : s.commit.line = ⟨s.committed ++ s.pending, []⟩ := by
  have hnil : s.commit.pending = [] := (pending_eq_nil h.commit.toOrdered).mpr rfl
  rw [line, hnil, ← h.contents]
  rfl

theorem pending_erase (hne : s.e ≠ s.w) :
    s.pending = s.erase.pending ++ [s.last] := by
  have hlt : s.erase.e < 2 ^ 32 := sub32_lt h.e_lt
  have hcount : sub32 s.e s.w = sub32 s.erase.e s.w + 1 := sub32_pred h.e_lt h.w_lt hne
  rw [pending, hcount, ring_succ_last, sub32_add_mod hlt h.w_lt]
  rfl

end

theorem Ok.erase (h : s.Ok) (hne : s.e ≠ s.w) : s.erase.Ok := by
  have hsplit := h.split
  have he : sub32 s.e s.w = sub32 s.erase.e s.w + 1 := sub32_pred h.e_lt h.w_lt hne
  have hr : sub32 s.e s.r = sub32 s.erase.e s.r + 1 := by
    refine sub32_pred h.e_lt h.r_lt fun heq => ?_
    have := (sub32_eq_zero h.e_lt h.r_lt).mpr heq
    omega
  have hle := h.e_le
  refine ⟨⟨h.r_lt, h.w_lt, sub32_lt h.e_lt, ?_, ?_⟩, fun hfull => ?_, fun hmem => h.plain ?_⟩
  · show sub32 s.w s.r ≤ sub32 s.erase.e s.r
    omega
  · show sub32 s.erase.e s.r ≤ INPUT_BUF
    omega
  · have hfull' : sub32 s.erase.e s.r = INPUT_BUF := hfull
    omega
  · rw [pending_erase h.toOrdered hne]
    exact List.mem_append_left _ hmem

theorem line_erase (h : s.Ordered) (hne : s.e ≠ s.w) :
    s.erase.line = ⟨s.committed, s.pending.dropLast⟩ := by
  rw [pending_erase h hne, List.dropLast_concat]
  rfl

theorem last_ne_newline (h : s.Ok) (hne : s.e ≠ s.w) : s.last ≠ newline := by
  intro hlast
  apply h.plain
  rw [pending_erase h.toOrdered hne, hlast]
  exact List.mem_append_right _ (List.mem_singleton_self _)

theorem committed_advance (h : s.Ordered) (hne : s.r ≠ s.w) :
    s.committed = s.front :: s.advance.committed := by
  rw [committed, sub32_succ_right h.w_lt h.r_lt (Ne.symm hne), ring_succ,
    ← ring_mod (M := 2 ^ 32) (r := s.r + 1) (by decide)]
  rfl

theorem Ok.advance (h : s.Ok) (hne : s.r ≠ s.w) : s.advance.Ok := by
  have hsplit := h.split
  have hw : sub32 s.w s.r = sub32 s.w s.advance.r + 1 :=
    sub32_succ_right h.w_lt h.r_lt (Ne.symm hne)
  have he : sub32 s.e s.r = sub32 s.e s.advance.r + 1 := by
    refine sub32_succ_right h.e_lt h.r_lt fun heq => ?_
    have := (sub32_eq_zero h.e_lt h.r_lt).mpr heq
    omega
  have hle := h.e_le
  refine ⟨⟨Nat.mod_lt _ (by decide), h.w_lt, h.e_lt, ?_, ?_⟩, fun hfull => ?_, h.plain⟩
  · show sub32 s.w s.advance.r ≤ sub32 s.e s.advance.r
    omega
  · show sub32 s.e s.advance.r ≤ INPUT_BUF
    omega
  · have hfull' : sub32 s.e s.advance.r = INPUT_BUF := hfull
    omega

theorem retreat_advance (h : s.Ordered) : s.advance.retreat = s := by
  show { s with r := sub32 ((s.r + 1) % 2 ^ 32) 1 } = s
  rw [sub32_one h.r_lt]

theorem Ok.record (h : s.Ok) (events : List (Event P)) : (s.record events).Ok :=
  ⟨⟨h.r_lt, h.w_lt, h.e_lt, h.w_le, h.e_le⟩, h.full, h.plain⟩

theorem Ordered.full_iff (h : s.Ordered) :
    s.e = (s.r + INPUT_BUF) % 2 ^ 32 ↔ sub32 s.e s.r = INPUT_BUF := by
  have hr := h.r_lt
  rw [sub32_eq h.e_lt h.r_lt, INPUT_BUF]
  have := h.e_lt
  omega

end Input

end Xv6.Console
