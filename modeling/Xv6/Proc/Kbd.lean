import Mathlib.Data.Int.Notation
import Mathlib.Data.List.Basic
import Mathlib.Tactic.SplitIfs

namespace Xv6.Kbd
open Function

def SHIFT : BitVec 32 := 1#32 <<< 0
def CTL : BitVec 32 := 1#32 <<< 1
def ALT : BitVec 32 := 1#32 <<< 2
def CAPSLOCK : BitVec 32 := 1#32 <<< 3
def NUMLOCK : BitVec 32 := 1#32 <<< 4
def SCROLLLOCK : BitVec 32 := 1#32 <<< 5
def E0ESC : BitVec 32 := 1#32 <<< 6

def shiftcode (data : UInt8) : BitVec 32 :=
  if data = 0x1D then CTL
  else if data = 0x2A then SHIFT
  else if data = 0x36 then SHIFT
  else if data = 0x38 then ALT
  else if data = 0x9D then CTL
  else if data = 0xB8 then ALT
  else 0

def togglecode (data : UInt8) : BitVec 32 :=
  if data = 0x3A then CAPSLOCK
  else if data = 0x45 then NUMLOCK
  else if data = 0x46 then SCROLLLOCK
  else 0

/-- The keys of the cursor block, `KEY_HOME` and so on. -/
def cursorKeys : List (UInt8 × UInt8) :=
  [(0xC8, 0xE2), (0xD0, 0xE3), (0xC9, 0xE6), (0xD1, 0xE7), (0xCB, 0xE4), (0xCD, 0xE5),
    (0x97, 0xE0), (0xCF, 0xE1), (0xD2, 0xE8), (0xD3, 0xE9)]

/-- A map with its first rows and the entries further up. -/
def keymap (rows : List String) (more : List (UInt8 × UInt8)) (data : UInt8) : UInt8 :=
  match (more ++ cursorKeys).lookup data with
  | some c => c
  | none => ((rows.flatMap String.toList).map Char.toUInt8).getD data.toNat 0

def normalmap : UInt8 → UInt8 := keymap
  ["\x00\x1b123456", "7890-=\x08\t", "qwertyui", "op[]\n\x00as", "dfghjkl;", "'`\x00\\zxcv",
    "bnm,./\x00*", "\x00 \x00\x00\x00\x00\x00\x00", "\x00\x00\x00\x00\x00\x00\x007", "89-456+1",
    "230."]
  [(0x9C, 10), (0xB5, 47)]

def shiftmap : UInt8 → UInt8 := keymap
  ["\x00\x1b!@#$%^", "&*()_+\x08\t", "QWERTYUI", "OP\x7b\x7d\n\x00AS", "DFGHJKL:", "\"~\x00|ZXCV",
    "BNM<>?\x00*", "\x00 \x00\x00\x00\x00\x00\x00", "\x00\x00\x00\x00\x00\x00\x007", "89-456+1",
    "230."]
  [(0x9C, 10), (0xB5, 47)]

/-- `C('/')` is a negative number, 0xEF as a byte. -/
def ctlmap : UInt8 → UInt8 := keymap
  ["\x00\x00\x00\x00\x00\x00\x00\x00", "\x00\x00\x00\x00\x00\x00\x00\x00",
    "\x11\x17\x05\x12\x14\x19\x15\x09", "\x0f\x10\x00\x00\r\x00\x01\x13",
    "\x04\x06\x07\x08\x0a\x0b\x0c\x00", "\x00\x00\x00\x1c\x1a\x18\x03\x16",
    "\x02\x0e\x0d\x00\x00\xef\x00\x00"]
  [(0x9C, 13), (0xB5, 0xEF)]

def charcode (shift : BitVec 32) : UInt8 → UInt8 :=
  if shift &&& (CTL ||| SHIFT) = 0 then normalmap
  else if shift &&& (CTL ||| SHIFT) = SHIFT then shiftmap
  else ctlmap

/-- With `CAPSLOCK` small and capital letters change places. -/
def swapCase (c : ℕ) : ℕ :=
  if 97 ≤ c ∧ c ≤ 122 then c - 32 else if 65 ≤ c ∧ c ≤ 90 then c + 32 else c

/-- `kbdgetc`, which finds a byte in the controller or none. -/
def kbdgetc (shift : BitVec 32) : Option UInt8 → ℤ × BitVec 32
  | none => (-1, shift)
  | some data =>
    if data = 0xE0 then (0, shift ||| E0ESC)
    else if data &&& 0x80 ≠ 0 then
      let data := if shift &&& E0ESC ≠ 0 then data else data &&& 0x7F
      (0, shift &&& ~~~(shiftcode data ||| E0ESC))
    else
      let (data, shift) :=
        if shift &&& E0ESC ≠ 0 then (data ||| 0x80, shift &&& ~~~E0ESC) else (data, shift)
      let shift := (shift ||| shiftcode data) ^^^ togglecode data
      let c := (charcode shift data).toNat
      ((if shift &&& CAPSLOCK ≠ 0 then swapCase c else c : ℕ), shift)

/-- The calls of `kbdgetc` for bytes that come one after the other. -/
def consume (shift : BitVec 32) (l : List UInt8) : BitVec 32 :=
  l.foldl (fun shift data => (kbdgetc shift (some data)).2) shift

example : (kbdgetc (consume 0 [0x2A]) (some 0x1E)).1 = 65 := by decide +kernel

/-- A key is known by the code that it sends when it is pressed, with the prefix or without.  No
key sends the prefix itself, neither when it is pressed nor when it is released. -/
structure Key where
  ext : Bool
  code : UInt8
  low : code < 0x80
  ne : code ≠ 0x60
  deriving DecidableEq

structure Event where
  key : Key
  down : Bool

def Event.bytes (e : Event) : List UInt8 :=
  (if e.key.ext then [0xE0] else []) ++ [if e.down then e.key.code else e.key.code ||| 0x80]

/-- What it sends for all events; perhaps the prefix of the next one has come already. -/
def scancodes (evs : List Event) (pending : Bool) : List UInt8 :=
  evs.flatMap Event.bytes ++ if pending then [0xE0] else []

inductive Modifier where
  | shift
  | ctl
  | alt
  deriving DecidableEq

/-- Both shift keys, and the control and alt keys left and right of the space bar. -/
def Key.modifier (k : Key) : Option Modifier :=
  if k.code = 0x2A ∧ k.ext = false ∨ k.code = 0x36 ∧ k.ext = false then some .shift
  else if k.code = 0x1D then some .ctl
  else if k.code = 0x38 then some .alt
  else none

def Modifier.bit : Modifier → ℕ
  | shift => 0
  | ctl => 1
  | alt => 2

inductive Lock where
  | caps
  | num
  | scroll
  deriving DecidableEq

def Lock.key : Lock → Key
  | caps => ⟨false, 0x3A, by decide, by decide⟩
  | num => ⟨false, 0x45, by decide, by decide⟩
  | scroll => ⟨false, 0x46, by decide, by decide⟩

def Lock.bit : Lock → ℕ
  | caps => 3
  | num => 4
  | scroll => 5

def heldAfter (held : Key → Bool) (evs : List Event) : Key → Bool :=
  evs.foldl (fun held e => update held e.key e.down) held

def presses (evs : List Event) (l : Lock) : ℕ :=
  evs.countP fun e => e.down && decide (e.key = l.key)

/-- Keys are pressed when they are not held and released when they are, and all events meet the
condition. -/
def Typed (C : (Key → Bool) → Event → Prop) : (Key → Bool) → List Event → Prop
  | _, [] => True
  | held, e :: evs =>
    held e.key = !e.down ∧ C held e ∧ Typed C (update held e.key e.down) evs

/-- When a key with a modifier is released, no other key with that modifier is held. -/
def LastOne (held : Key → Bool) (e : Event) : Prop :=
  e.down = false → e.key.modifier ≠ none →
    ∀ k, k ≠ e.key → held k = true → k.modifier ≠ e.key.modifier

section Bits

variable {s : BitVec 32} {c : UInt8}

theorem code_press (h : c < 0x80) : c ≠ 0xE0 ∧ c &&& 0x80 = 0 := by
  revert h
  rcases c with ⟨c⟩
  revert c
  decide

theorem code_release (h : c < 0x80) (hne : c ≠ 0x60) :
    c ||| 0x80 ≠ 0xE0 ∧ (c ||| 0x80) &&& 0x80 ≠ 0 ∧ (c ||| 0x80) &&& 0x7F = c := by
  revert h hne
  rcases c with ⟨c⟩
  revert c
  decide

theorem esc_eq : E0ESC = BitVec.twoPow 32 6 := by decide

theorem and_esc : s &&& E0ESC ≠ 0 ↔ s.getLsbD 6 = true := by
  rw [esc_eq, BitVec.and_twoPow]
  split_ifs with h
  · exact ⟨fun _ => h, fun _ => by decide⟩
  · exact ⟨fun hne => absurd rfl hne, fun h' => absurd h' h⟩

theorem or_esc : (s ||| E0ESC).getLsbD 6 = true := by
  rw [BitVec.getLsbD_or, esc_eq, BitVec.getLsbD_twoPow]
  simp

/-- The entry of the tables that a key uses. -/
def Key.index (k : Key) : UInt8 := if k.ext then k.code ||| 0x80 else k.code

theorem kbdgetc_release (h : c < 0x80) (hne : c ≠ 0x60) :
    (kbdgetc s (some (c ||| 0x80))).2 =
      s &&& ~~~(shiftcode (if s.getLsbD 6 then c ||| 0x80 else c) ||| E0ESC) := by
  obtain ⟨h1, h2, h3⟩ := code_release h hne
  unfold kbdgetc
  dsimp only
  rw [if_neg h1, if_pos h2]
  simp only [and_esc, h3]

theorem kbdgetc_press (h : c < 0x80) :
    (kbdgetc s (some c)).2 = if s.getLsbD 6
      then (s &&& ~~~E0ESC ||| shiftcode (c ||| 0x80)) ^^^ togglecode (c ||| 0x80)
      else (s ||| shiftcode c) ^^^ togglecode c := by
  obtain ⟨h1, h2⟩ := code_press h
  unfold kbdgetc
  dsimp only
  rw [if_neg h1, if_neg (not_not.mpr h2)]
  simp only [and_esc]
  split_ifs <;> rfl

theorem clear_or (x : BitVec 32) : (s ||| E0ESC) &&& ~~~(x ||| E0ESC) = s &&& ~~~(x ||| E0ESC) := by
  ext i hi
  simp only [BitVec.getElem_and, BitVec.getElem_or, BitVec.getElem_not]
  cases s[i] <;> cases x[i] <;> cases E0ESC[i] <;> rfl

theorem clear_esc (h : s.getLsbD 6 = false) : (s ||| E0ESC) &&& ~~~E0ESC = s := by
  ext i hi
  simp only [BitVec.getElem_and, BitVec.getElem_or, BitVec.getElem_not, esc_eq,
    BitVec.getElem_twoPow]
  by_cases h6 : i = 6
  · subst h6
    simpa using h.symm
  · simp [h6]

def after (s : BitVec 32) (e : Event) : BitVec 32 :=
  if e.down then (s ||| shiftcode e.key.index) ^^^ togglecode e.key.index
  else s &&& ~~~(shiftcode e.key.index ||| E0ESC)

theorem consume_bytes (h : s.getLsbD 6 = false) (e : Event) : consume s e.bytes = after s e := by
  obtain ⟨⟨ext, c, hlow, hne⟩, down⟩ := e
  cases ext <;> cases down
  · show (kbdgetc s (some (c ||| 0x80))).2 = _
    rw [kbdgetc_release hlow hne, h]
    rfl
  · show (kbdgetc s (some c)).2 = _
    rw [kbdgetc_press hlow, h]
    rfl
  · show (kbdgetc (s ||| E0ESC) (some (c ||| 0x80))).2 = _
    rw [kbdgetc_release hlow hne, or_esc, clear_or]
    rfl
  · show (kbdgetc (s ||| E0ESC) (some c)).2 = _
    rw [kbdgetc_press hlow, or_esc, clear_esc h]
    rfl

theorem shiftcode_modifier (k : Key) (m : Modifier) :
    (shiftcode k.index).getLsbD m.bit = decide (k.modifier = some m) := by
  obtain ⟨ext, c, hlow, -⟩ := k
  simp only [Key.index, Key.modifier]
  revert hlow
  rcases c with ⟨c⟩
  revert c
  cases ext <;> cases m <;> decide

theorem togglecode_lock (k : Key) (l : Lock) :
    (togglecode k.index).getLsbD l.bit = decide (k = l.key) := by
  obtain ⟨ext, c, hlow, hne⟩ := k
  cases l <;> simp only [Key.index, Lock.key, Key.mk.injEq] <;> revert hlow hne <;>
    rcases c with ⟨c⟩ <;> revert c <;> cases ext <;> decide

theorem shiftcode_lock (data : UInt8) (l : Lock) : (shiftcode data).getLsbD l.bit = false := by
  unfold shiftcode
  split_ifs <;> cases l <;> rfl

theorem togglecode_modifier (data : UInt8) (m : Modifier) :
    (togglecode data).getLsbD m.bit = false := by
  unfold togglecode
  split_ifs <;> cases m <;> rfl

theorem shiftcode_esc (data : UInt8) : (shiftcode data).getLsbD 6 = false := by
  unfold shiftcode
  split_ifs <;> rfl

theorem togglecode_esc (data : UInt8) : (togglecode data).getLsbD 6 = false := by
  unfold togglecode
  split_ifs <;> rfl

theorem after_esc (h : s.getLsbD 6 = false) (e : Event) : (after s e).getLsbD 6 = false := by
  unfold after
  split_ifs
  · rw [BitVec.getLsbD_xor, BitVec.getLsbD_or, h, shiftcode_esc, togglecode_esc]
    rfl
  · rw [BitVec.getLsbD_and, h, Bool.false_and]

theorem after_modifier (e : Event) (m : Modifier) :
    (after s e).getLsbD m.bit =
      if e.key.modifier = some m then e.down else s.getLsbD m.bit := by
  have hesc : E0ESC.getLsbD m.bit = false := by
    cases m <;> rfl
  have hlt : m.bit < 32 := by
    cases m <;> decide
  unfold after
  by_cases hm : e.key.modifier = some m
  · rw [if_pos hm]
    split_ifs with hd
    · rw [BitVec.getLsbD_xor, BitVec.getLsbD_or, shiftcode_modifier, togglecode_modifier,
        decide_eq_true hm, hd, Bool.or_true, Bool.xor_false]
    · rw [BitVec.getLsbD_and, BitVec.getLsbD_not, BitVec.getLsbD_or, shiftcode_modifier,
        decide_eq_true hm, Bool.eq_false_iff.mpr hd]
      simp
  · rw [if_neg hm]
    split_ifs with hd
    · rw [BitVec.getLsbD_xor, BitVec.getLsbD_or, shiftcode_modifier, togglecode_modifier,
        decide_eq_false hm, Bool.or_false, Bool.xor_false]
    · rw [BitVec.getLsbD_and, BitVec.getLsbD_not, BitVec.getLsbD_or, shiftcode_modifier,
        decide_eq_false hm, hesc]
      simp [hlt]

theorem after_lock (e : Event) (l : Lock) :
    (after s e).getLsbD l.bit = (s.getLsbD l.bit ^^ (e.down && decide (e.key = l.key))) := by
  have hesc : E0ESC.getLsbD l.bit = false := by
    cases l <;> rfl
  have hlt : l.bit < 32 := by
    cases l <;> decide
  unfold after
  split_ifs with hd
  · rw [BitVec.getLsbD_xor, BitVec.getLsbD_or, shiftcode_lock, togglecode_lock, hd, Bool.or_false,
      Bool.true_and]
  · rw [BitVec.getLsbD_and, BitVec.getLsbD_not, BitVec.getLsbD_or, shiftcode_lock, hesc,
      Bool.eq_false_iff.mpr hd]
    simp [hlt]

end Bits

section Runs

variable {s : BitVec 32} {held : Key → Bool} {n : Lock → ℕ}

/-- The bits agree with the keys held and with how often the lock keys were pressed. -/
structure Tracks (s : BitVec 32) (held : Key → Bool) (n : Lock → ℕ) : Prop where
  esc : s.getLsbD 6 = false
  modifiers : ∀ m : Modifier, s.getLsbD m.bit = true ↔ ∃ k, held k = true ∧ k.modifier = some m
  locks : ∀ l : Lock, s.getLsbD l.bit = decide (n l % 2 = 1)

theorem parity_add (n : ℕ) (b : Bool) :
    decide ((n + if b then 1 else 0) % 2 = 1) = (decide (n % 2 = 1) ^^ b) := by
  rcases Nat.mod_two_eq_zero_or_one n with hn | hn
  · cases b <;> simp [Nat.add_mod, hn]
  · cases b <;> simp [Nat.add_mod, hn]

theorem Tracks.event (h : Tracks s held n) {e : Event} (hone : LastOne held e) :
    Tracks (after s e) (update held e.key e.down)
      fun l => n l + presses [e] l := by
  refine ⟨after_esc h.esc e, fun m => ?_, fun l => ?_⟩
  · rw [after_modifier]
    split_ifs with hm
    · constructor
      · intro hd
        exact ⟨e.key, by rw [update_self, hd], hm⟩
      · rintro ⟨k, hk, hkm⟩
        by_contra hd
        have hd : e.down = false := Bool.eq_false_iff.mpr hd
        have hne : k ≠ e.key := by
          rintro rfl
          rw [update_self, hd] at hk
          cases hk
        rw [update_of_ne hne] at hk
        exact hone hd (by rw [hm]; nofun) k hne hk (hkm.trans hm.symm)
    · rw [h.modifiers]
      refine exists_congr fun k => and_congr_left fun hkm => ?_
      rw [update_of_ne]
      rintro rfl
      exact hm hkm
  · rw [after_lock, h.locks]
    unfold presses
    rw [List.countP_singleton, parity_add]

theorem Tracks.events {evs : List Event} (h : Tracks s held n) (ht : Typed LastOne held evs) :
    Tracks (consume s (evs.flatMap Event.bytes)) (heldAfter held evs)
      fun l => n l + presses evs l := by
  induction evs generalizing s held n with
  | nil => exact h
  | cons e evs ih =>
    obtain ⟨-, hone, ht⟩ := ht
    have hnext := ih (h.event hone) ht
    rw [← consume_bytes h.esc] at hnext
    rw [List.flatMap_cons, consume, List.foldl_append]
    refine ⟨hnext.esc, hnext.modifiers, fun l => ?_⟩
    rw [show n l + presses (e :: evs) l = n l + presses [e] l + presses evs l from ?_]
    · exact hnext.locks l
    · rw [Nat.add_assoc]
      congr 1
      show ([e] ++ evs).countP _ = _
      exact List.countP_append

theorem tracks_start : Tracks 0 (fun _ => false) fun _ => 0 := by
  refine ⟨rfl, fun m => ⟨fun h => ?_, fun ⟨_, hk, _⟩ => ?_⟩, fun l => ?_⟩
  · cases m <;> cases h
  · cases hk
  · cases l <;> rfl

theorem scancodes_last (evs : List Event) (pending : Bool) :
    (scancodes evs pending).getLast? = some 0xE0 ↔ pending = true := by
  unfold scancodes
  cases pending with
  | true => simp
  | false =>
    simp only [Bool.false_eq_true, if_false, List.append_nil, iff_false]
    rcases List.eq_nil_or_concat' evs with rfl | ⟨evs, e, rfl⟩
    · nofun
    · rw [List.flatMap_append, List.flatMap_singleton, Event.bytes, ← List.append_assoc,
        List.getLast?_concat]
      intro hlast
      have hlast := Option.some.inj hlast
      split_ifs at hlast
      · exact (code_press e.key.low).1 hlast
      · exact (code_release e.key.low e.key.ne).1 hlast

/-- The bits follow the keys as long as no key with a modifier is released while another one with
the same modifier is held. -/
theorem modifiers_track (evs : List Event) (pending : Bool)
    (h : Typed LastOne (fun _ => false) evs) :
    let s := consume 0 (scancodes evs pending)
    (∀ m : Modifier, s.getLsbD m.bit = true ↔
      ∃ k, heldAfter (fun _ => false) evs k = true ∧ k.modifier = some m) ∧
    (∀ l : Lock, s.getLsbD l.bit = decide (presses evs l % 2 = 1)) ∧
    (s.getLsbD 6 = true ↔ (scancodes evs pending).getLast? = some 0xE0) := by
  have ht := tracks_start.events h
  intro s
  rw [scancodes_last]
  cases pending with
  | false =>
    have hs : s = consume 0 (evs.flatMap Event.bytes) := by
      show consume 0 (_ ++ []) = _
      rw [List.append_nil]
    rw [hs]
    refine ⟨ht.modifiers, fun l => ?_, by rw [ht.esc]⟩
    rw [ht.locks, Nat.zero_add]
  | true =>
    have hs : s = consume 0 (evs.flatMap Event.bytes) ||| E0ESC := List.foldl_append
    rw [hs]
    refine ⟨fun m => ?_, fun l => ?_, ?_⟩
    · rw [← ht.modifiers, BitVec.getLsbD_or]
      cases m <;> simp [Modifier.bit, E0ESC]
    · rw [BitVec.getLsbD_or, ht.locks, Nat.zero_add]
      cases l <;> simp [Lock.bit, E0ESC]
    · rw [or_esc]

def leftShift : Key := ⟨false, 0x2A, by decide, by decide⟩

def rightShift : Key := ⟨false, 0x36, by decide, by decide⟩

/-- The left shift key is released, and then the right one pressed. -/
theorem modifiers_track_shift :
    let evs : List Event := [⟨leftShift, true⟩, ⟨leftShift, false⟩, ⟨rightShift, true⟩]
    (consume 0 (scancodes evs false)).getLsbD Modifier.shift.bit = true := by
  intro evs
  have hone : LastOne (update (fun _ => false) leftShift true) ⟨leftShift, false⟩ := by
    intro _ _ k hne hk
    rw [update_of_ne hne] at hk
    cases hk
  have htyped : Typed LastOne (fun _ => false) evs :=
    ⟨rfl, nofun, by decide, hone, by decide, nofun, trivial⟩
  exact ((modifiers_track evs false htyped).1 .shift).mpr ⟨rightShift, by decide, by decide⟩

/-- Both shift keys are held and the left one is released: the bit is gone. -/
theorem shift_lost :
    let evs : List Event := [⟨leftShift, true⟩, ⟨rightShift, true⟩, ⟨leftShift, false⟩]
    Typed (fun _ _ => True) (fun _ => false) evs ∧
      heldAfter (fun _ => false) evs rightShift = true ∧ rightShift.modifier = some .shift ∧
      (consume 0 (scancodes evs false)).getLsbD Modifier.shift.bit = false := by
  refine ⟨⟨rfl, trivial, by decide, trivial, by decide, trivial, trivial⟩, ?_⟩
  decide

end Runs

end Xv6.Kbd
