import Mathlib.Tactic.SplitIfs
import Xv6.Lib.Lines
import Xv6.Lib.Strings

namespace Xv6.Grep
open Lib

def newline : UInt8 := 10
def caret : UInt8 := 94
def dollar : UInt8 := 36
def star : UInt8 := 42
def dot : UInt8 := 46

/-- `matchstar`, with `matchhere` of what follows the star. -/
def matchstar (matchhere : List UInt8 → Bool) (c : UInt8) : List UInt8 → Bool
  | [] => matchhere []
  | x :: text => matchhere (x :: text) || ((x = c || c = dot) && matchstar matchhere c text)

/-- The pattern and the text are strings without their NUL. -/
def matchhere : List UInt8 → List UInt8 → Bool
  | [], _ => true
  | [c], text =>
    if c = dollar then text.isEmpty
    else match text with
      | [] => false
      | x :: _ => c = dot || c = x
  | c :: d :: re, text =>
    if d = star then matchstar (matchhere re) c text
    else match text with
      | [] => false
      | x :: text => (c = dot || c = x) && matchhere (d :: re) text

/-- The loop of `match`, which looks at the empty string too. -/
def matchAnywhere (re : List UInt8) : List UInt8 → Bool
  | [] => matchhere re []
  | x :: text => matchhere re (x :: text) || matchAnywhere re text

def matchText : List UInt8 → List UInt8 → Bool
  | [], text => matchAnywhere [] text
  | c :: re, text => if c = caret then matchhere re text else matchAnywhere (c :: re) text

def bufSize : ℕ := 1024

/-- How far away the byte is, if it comes before the NUL. -/
def strchr : List UInt8 → UInt8 → Option ℕ
  | [], _ => none
  | x :: mem, c => if x = 0 then none else if x = c then some 0 else (strchr mem c).map (· + 1)

def store (buf : List UInt8) (i : ℕ) (src : List UInt8) : List UInt8 :=
  buf.take i ++ src ++ buf.drop (i + src.length)

/-- The inner loop from `p` on: the buffer and `p` afterwards, and what has been written.  There
is at most one round for every byte. -/
def scan (pattern : List UInt8) : ℕ → List UInt8 → ℕ →
    Option (List UInt8 × ℕ × List (List UInt8))
  | 0, _, _ => none
  | fuel + 1, buf, p =>
    match strchr (buf.drop p) newline with
    | none => some (buf, p, [])
    | some k =>
      let q := p + k
      let buf₀ := buf.set q 0
      if matchText pattern (cstr (buf₀.drop p)) then
        let buf₁ := buf₀.set q newline
        (scan pattern fuel buf₁ (q + 1)).map fun r =>
          (r.1, r.2.1, (buf₁.drop p).take (q + 1 - p) :: r.2.2)
      else scan pattern fuel buf₀ (q + 1)

structure State where
  buf : List UInt8
  m : ℕ
  out : List (List UInt8)

def round (pattern : List UInt8) (s : State) (chunk : List UInt8) : Option State :=
  let m := s.m + chunk.length
  let buf := (store s.buf s.m chunk).set m 0
  (scan pattern (bufSize + 1) buf 0).map fun r =>
    let p := r.2.1
    let m' := if p = 0 then 0 else m
    -- `memmove` copies upwards, and its target is below its source.
    if 0 < m' then ⟨store r.1 0 ((r.1.drop p).take (m' - p)), m' - p, s.out ++ r.2.2⟩
    else ⟨r.1, m', s.out ++ r.2.2⟩

/-- `grep`, with what its calls of `read` return one after the other. -/
def grep (pattern : List UInt8) (s : State) (chunks : List (List UInt8)) : Option State :=
  chunks.foldlM (round pattern) s

/-- What `read` returns is not empty and fits into the buffer, with room for the NUL. -/
def Fits (pattern : List UInt8) : State → List (List UInt8) → Prop
  | _, [] => True
  | s, chunk :: chunks => chunk ≠ [] ∧ chunk.length ≤ bufSize - s.m - 1 ∧
      ∀ t ∈ round pattern s chunk, Fits pattern t chunks

instance decidableFits (pattern : List UInt8) :
    (s : State) → (chunks : List (List UInt8)) → Decidable (Fits pattern s chunks)
  | _, [] => isTrue trivial
  | _, _ :: chunks =>
    haveI := fun t => decidableFits pattern t chunks
    inferInstanceAs (Decidable (_ ∧ _ ∧ _))

def selected (pattern s : List UInt8) : List (List UInt8) :=
  ((lines newline s).filter (matchText pattern)).map (· ++ [newline])

section Scan

variable {pattern l a r : List UInt8} {c : UInt8}

theorem strchr_none (hl : 0 ∉ l) (hc : c ∉ l) : strchr (l ++ 0 :: r) c = none := by
  induction l with
  | nil => rfl
  | cons x l ih =>
    rw [List.mem_cons, not_or] at hl hc
    rw [List.cons_append, strchr, if_neg (Ne.symm hl.1), if_neg (Ne.symm hc.1), ih hl.2 hc.2]
    rfl

theorem strchr_some (hc : c ≠ 0) (ha : 0 ∉ a) (hca : c ∉ a) :
    strchr (a ++ c :: r) c = some a.length := by
  induction a with
  | nil => rw [List.nil_append, strchr, if_neg hc, if_pos rfl, List.length_nil]
  | cons x a ih =>
    rw [List.mem_cons, not_or] at ha hca
    rw [List.cons_append, strchr, if_neg (Ne.symm ha.1), if_neg (Ne.symm hca.1), ih ha.2 hca.2]
    rfl

theorem set_append_length (pre : List UInt8) (x y : UInt8) :
    (pre ++ x :: r).set pre.length y = pre ++ y :: r := by
  rw [List.set_append_right _ _ (Nat.le_refl _), Nat.sub_self, List.set_cons_zero]

theorem selected_of_not_mem (h : newline ∉ l) : selected pattern l = [] := by
  rw [selected, lines_of_not_mem h]
  rfl

theorem selected_append (pattern s t : List UInt8) : selected pattern (s ++ t) =
    selected pattern s ++ selected pattern (unfinished newline s ++ t) := by
  rw [selected, lines_append, List.filter_append, List.map_append]
  rfl

/-- The loop writes the lines that match and stops before the unfinished one. -/
theorem scan_spec {fuel : ℕ} (pattern pre l r : List UInt8) (hl : 0 ∉ l) (hfuel : l.length < fuel) :
    ∃ pre', pre'.length + (unfinished newline l).length = pre.length + l.length ∧
      scan pattern fuel (pre ++ (l ++ 0 :: r)) pre.length =
        some (pre' ++ (unfinished newline l ++ 0 :: r), pre'.length, selected pattern l) := by
  induction fuel generalizing pre l with
  | zero => omega
  | succ fuel ih =>
    by_cases hmem : newline ∈ l
    · obtain ⟨a, l', rfl, ha⟩ := List.eq_append_cons_of_mem hmem
      rw [List.mem_append, List.mem_cons, not_or, not_or] at hl
      obtain ⟨ha0, -, hl'⟩ := hl
      rw [List.length_append, List.length_cons] at hfuel
      -- The next round begins after the newline, whatever byte is left in its place.
      have hnext (x : UInt8) := ih (pre ++ a ++ [x]) l' hl' (by omega)
      have hbuf (x : UInt8) : pre ++ a ++ [x] ++ (l' ++ 0 :: r) = pre ++ (a ++ x :: (l' ++ 0 :: r)) := by
        simp
      have hlen (x : UInt8) : (pre ++ a ++ [x]).length = pre.length + a.length + 1 := by
        simp [Nat.add_assoc]
      have hset (x y : UInt8) : (pre ++ (a ++ x :: (l' ++ 0 :: r))).set (pre.length + a.length) y =
          pre ++ (a ++ y :: (l' ++ 0 :: r)) := by
        rw [← List.append_assoc, ← List.length_append, set_append_length, List.append_assoc]
      have hsel : selected pattern (a ++ newline :: l') =
          (if matchText pattern a then [a ++ [newline]] else []) ++ selected pattern l' := by
        rw [selected, lines_cons ha, List.filter_cons]
        split_ifs
        · rfl
        · rfl
      rw [unfinished_cons]
      rw [scan, List.append_assoc a, List.cons_append, List.drop_left,
        strchr_some (by decide) ha0 ha]
      dsimp only
      rw [hset, List.drop_left, cstr_append ha0, hset, List.drop_left, hsel]
      by_cases hm : matchText pattern a = true
      · obtain ⟨pre', hpre, hscan⟩ := hnext newline
        rw [hbuf, hlen] at hscan
        refine ⟨pre', ?_, ?_⟩
        · rw [hpre, hlen, List.length_append, List.length_cons]
          omega
        · have hline : (a ++ newline :: (l' ++ 0 :: r)).take
              (pre.length + a.length + 1 - pre.length) = a ++ [newline] := by
            rw [show pre.length + a.length + 1 - pre.length = a.length + 1 by omega,
              List.take_length_add_append]
            rfl
          rw [if_pos hm, if_pos hm, hscan, hline]
          rfl
      · obtain ⟨pre', hpre, hscan⟩ := hnext 0
        rw [hbuf, hlen] at hscan
        refine ⟨pre', ?_, ?_⟩
        · rw [hpre, hlen, List.length_append, List.length_cons]
          omega
        · rw [if_neg hm, if_neg hm, hscan]
          rfl
    · refine ⟨pre, ?_, ?_⟩
      · rw [unfinished_of_not_mem hmem]
      · rw [scan, List.drop_left, strchr_none hl hmem, unfinished_of_not_mem hmem,
          selected_of_not_mem hmem]

end Scan

section Rounds

variable {pattern chunk : List UInt8} {s : State}

/-- The buffer holds the beginning of the next line. -/
structure Carries (s : State) (l : List UInt8) : Prop where
  size : s.buf.length = bufSize
  length : l.length = s.m
  keeps : s.buf.take s.m = l
  nul : 0 ∉ l

theorem Carries.filled {l : List UInt8} (h : Carries s l) (hlt : s.m + chunk.length < bufSize) :
    ∃ r, (store s.buf s.m chunk).set (s.m + chunk.length) 0 = l ++ chunk ++ 0 :: r ∧
      (l ++ chunk ++ 0 :: r).length = bufSize := by
  have hsize := h.size
  have hlen : (l ++ chunk).length = s.m + chunk.length := by rw [List.length_append, h.length]
  have hdrop : (s.buf.drop (s.m + chunk.length)).length = bufSize - (s.m + chunk.length) := by
    rw [List.length_drop, hsize]
  obtain ⟨x, r, hr⟩ := List.exists_cons_of_length_pos (by rw [hdrop]; omega)
  refine ⟨r, ?_, ?_⟩
  · rw [store, h.keeps, hr, ← hlen, set_append_length]
  · rw [hr, List.length_cons] at hdrop
    rw [List.length_append, hlen, List.length_cons]
    omega

/-- After a round in which a line comes to its end, the buffer holds the beginning of the next. -/
theorem round_spec {l : List UInt8} (pattern : List UInt8) (h : Carries s l) (hchunk : 0 ∉ chunk)
    (hlt : s.m + chunk.length < bufSize) :
    ∃ t, round pattern s chunk = some t ∧ t.out = s.out ++ selected pattern (l ++ chunk) ∧
      (newline ∈ chunk → Carries t (unfinished newline (l ++ chunk))) := by
  obtain ⟨r, hr, hsize⟩ := h.filled hlt
  have hlen : (l ++ chunk).length = s.m + chunk.length := by rw [List.length_append, h.length]
  have hnul : 0 ∉ l ++ chunk := by
    rw [List.mem_append, not_or]
    exact ⟨h.nul, hchunk⟩
  obtain ⟨pre, hpre, hscan⟩ :=
    scan_spec pattern [] (l ++ chunk) r hnul (by omega : (l ++ chunk).length < bufSize + 1)
  rw [List.nil_append, List.length_nil] at hscan
  rw [List.length_nil, Nat.zero_add, hlen] at hpre
  set u := unfinished newline (l ++ chunk) with hu
  rw [round]
  dsimp only
  rw [hr, hscan, Option.map_some]
  refine ⟨_, rfl, ?_, fun hmem => ?_⟩
  · dsimp only
    split_ifs <;> rfl
  · have hshort : u.length < s.m + chunk.length := by
      rw [← hlen]
      exact length_unfinished_lt (List.mem_append_right l hmem)
    have hp : pre.length ≠ 0 := by omega
    have hrest : ((pre ++ (u ++ 0 :: r)).drop pre.length).take (s.m + chunk.length - pre.length) =
        u := by
      rw [List.drop_left, show s.m + chunk.length - pre.length = u.length by omega, List.take_left]
    dsimp only
    rw [if_neg hp, if_pos (by omega), hrest]
    refine ⟨?_, ?_, ?_, fun h0 => hnul (mem_of_mem_unfinished h0)⟩
    · rw [List.length_append, hlen, List.length_cons] at hsize
      simp only [store, List.take_zero, List.nil_append, List.length_append, List.length_drop,
        List.length_cons]
      omega
    · dsimp only
      omega
    · dsimp only
      rw [store, List.take_zero, List.nil_append,
        show s.m + chunk.length - pre.length = u.length by omega, List.take_left]

theorem grep_from {l : List UInt8} (pattern : List UInt8) (chunks : List (List UInt8))
    (h : Carries s l) (hfits : Fits pattern s chunks) (hnul : 0 ∉ chunks.flatten)
    (hlines : ∀ c ∈ chunks.dropLast, newline ∈ c) (hl : newline ∉ l) :
    ∃ t, grep pattern s chunks = some t ∧
      t.out = s.out ++ selected pattern (l ++ chunks.flatten) := by
  induction chunks generalizing s l with
  | nil =>
    refine ⟨s, rfl, ?_⟩
    rw [List.flatten_nil, List.append_nil, selected_of_not_mem hl, List.append_nil]
  | cons chunk chunks ih =>
    rw [List.flatten_cons, List.mem_append, not_or] at hnul
    obtain ⟨hne, hroom, hnext⟩ := hfits
    have hpos := List.length_pos_of_ne_nil hne
    obtain ⟨t, hround, hout, hcarry⟩ := round_spec pattern h hnul.1 (by omega)
    cases chunks with
    | nil =>
      refine ⟨t, ?_, ?_⟩
      · rw [grep, List.foldlM_cons, hround]
        rfl
      · rw [hout, List.flatten_cons, List.flatten_nil, List.append_nil]
    | cons c chunks =>
      have hmem := hlines chunk List.mem_cons_self
      obtain ⟨t', hgrep, hout'⟩ := ih (hcarry hmem) (hnext t hround) hnul.2
        (fun c hc => hlines c (List.mem_cons_of_mem chunk hc)) (not_mem_unfinished _ _)
      refine ⟨t', ?_, ?_⟩
      · rw [grep, List.foldlM_cons, hround]
        exact hgrep
      · have hflat : (chunk :: c :: chunks).flatten = chunk ++ (c :: chunks).flatten :=
          List.flatten_cons
        rw [hout', hout, List.append_assoc, hflat, ← List.append_assoc l, ← selected_append]

/-- `grep` writes the lines that match if every `read` but the last one returns the end of a
line. -/
theorem grep_writes_lines (pattern buf : List UInt8) (chunks : List (List UInt8))
    (hbuf : buf.length = bufSize) (hfits : Fits pattern ⟨buf, 0, []⟩ chunks)
    (hnul : 0 ∉ chunks.flatten) (hlines : ∀ c ∈ chunks.dropLast, newline ∈ c) :
    ∃ t, grep pattern ⟨buf, 0, []⟩ chunks = some t ∧
      t.out = selected pattern chunks.flatten := by
  have hstart : Carries ⟨buf, 0, []⟩ [] := ⟨hbuf, rfl, rfl, List.not_mem_nil⟩
  exact grep_from pattern chunks hstart hfits hnul hlines List.not_mem_nil

/-- `grep b` on `ab`, `c` and the beginning of a third line, read in two pieces. -/
theorem grep_writes_lines_ab :
    ∃ t, grep [98] ⟨List.replicate bufSize 0, 0, []⟩ [[97, 98, newline], [99, newline, 98]] = some t ∧
      t.out = selected [98] [97, 98, newline, 99, newline, 98] :=
  grep_writes_lines [98] (List.replicate bufSize 0) [[97, 98, newline], [99, newline, 98]]
    (by decide +kernel) (by decide +kernel) (by decide) (by decide)

/-- The line `hi` in two pieces: the first one is forgotten. -/
theorem grep_forgets_piece :
    Fits [104] ⟨List.replicate bufSize 0, 0, []⟩ [[104], [105, newline]] ∧
      selected [104] [104, 105, newline] = [[104, 105, newline]] ∧
      (grep [104] ⟨List.replicate bufSize 0, 0, []⟩ [[104], [105, newline]]).map State.out =
        some [] := by
  decide +kernel

end Rounds

end Xv6.Grep
