import Mathlib.Tactic.SplitIfs
import Xv6.User.Sh

namespace Xv6.Sh

inductive Tok where
  | word (q eq : ℕ)
  | bar
  | lparen
  | rparen
  | semi
  | amp
  | lt
  | gt
  | gtgt
  deriving DecidableEq

def symbol (c : UInt8) : Option Tok :=
  if c = ch '|' then some .bar
  else if c = ch '(' then some .lparen
  else if c = ch ')' then some .rparen
  else if c = ch ';' then some .semi
  else if c = ch '&' then some .amp
  else if c = ch '<' then some .lt
  else none

/-- The tokens of a text that begins at offset `p`: symbols and words, which are as long as they
can be. -/
def tokens (p : ℕ) : List UInt8 → List Tok
  | [] => []
  | c :: l =>
    if isWhite c then tokens (p + 1) l
    else match symbol c with
      | some t => t :: tokens (p + 1) l
      | none =>
        if c = ch '>' then
          if l.head? = some (ch '>') then .gtgt :: tokens (p + 2) l.tail
          else .gt :: tokens (p + 1) l
        else
          .word p (p + 1 + (l.takeWhile inWord).length) ::
            tokens (p + 1 + (l.takeWhile inWord).length) (l.dropWhile inWord)
  termination_by l => l.length
  decreasing_by
    · exact Nat.lt_succ_self _
    · exact Nat.lt_succ_self _
    · rw [List.length_tail, List.length_cons]
      omega
    · exact Nat.lt_succ_self _
    · exact Nat.lt_succ_of_le (List.dropWhile_sublist _).length_le

namespace Tok

def ret : Tok → UInt8
  | word _ _ => ch 'a'
  | bar => ch '|'
  | lparen => ch '('
  | rparen => ch ')'
  | semi => ch ';'
  | amp => ch '&'
  | lt => ch '<'
  | gt => ch '>'
  | gtgt => ch '+'

/-- Whether `peek` sees one of the characters. -/
def begins (toks : List UInt8) : Tok → Bool
  | word _ _ => false
  | gtgt => toks.contains (ch '>')
  | t => toks.contains t.ret

end Tok

variable {line l : List UInt8} {s : ℕ} {c : UInt8}

section Read

theorem read_lt (h : line.drop s = c :: l) : read (line ++ [0]) s = .ok c := by
  have hlt : s < line.length := by
    by_contra hle
    rw [List.drop_eq_nil_of_le (Nat.le_of_not_lt hle)] at h
    cases h
  have hc : (line)[s]? = some c := by
    rw [← List.head?_drop, h, List.head?_cons]
  rw [read, List.getElem?_append_left hlt, hc]

theorem read_end (line : List UInt8) : read (line ++ [0]) line.length = .ok 0 := by
  rw [read, List.getElem?_append_right (Nat.le_refl _), Nat.sub_self]
  rfl

theorem skip_eq (p : UInt8 → Bool) (n : ℕ) (h : s + n = line.length) :
    skip (line ++ [0]) p n s = .ok (s + ((line.drop s).takeWhile p).length) := by
  induction n generalizing s with
  | zero =>
    rw [List.drop_eq_nil_of_le (by omega)]
    rfl
  | succ n ih =>
    obtain ⟨c, l, hl⟩ : ∃ c l, line.drop s = c :: l := by
      apply List.exists_cons_of_length_pos
      rw [List.length_drop]
      omega
    have htail : line.drop (s + 1) = l := by rw [← List.tail_drop, hl, List.tail_cons]
    rw [skip, read_lt hl, hl, List.takeWhile_cons]
    show (if p c then skip (line ++ [0]) p n (s + 1) else .ok s) = _
    split_ifs
    · rw [ih (by omega), htail, List.length_cons, Nat.add_assoc, Nat.add_comm 1]
    · rfl

theorem drop_takeWhile (p : UInt8 → Bool) (l : List UInt8) :
    l.drop (l.takeWhile p).length = l.dropWhile p := by
  induction l with
  | nil => rfl
  | cons c l ih =>
    rw [List.takeWhile_cons, List.dropWhile_cons]
    split_ifs
    · exact ih
    · rfl

theorem tokens_dropWhile (p : ℕ) (l : List UInt8) :
    tokens (p + (l.takeWhile isWhite).length) (l.dropWhile isWhite) = tokens p l := by
  induction l generalizing p with
  | nil => rfl
  | cons c l ih =>
    rw [List.takeWhile_cons, List.dropWhile_cons]
    split_ifs with hc
    · rw [tokens, if_pos hc, ← ih (p + 1), List.length_cons, Nat.add_assoc, Nat.add_comm 1]
    · rfl

end Read

section Spec

variable {t : Tok}

def view (line : List UInt8) (s : ℕ) : List Tok := tokens s (line.drop s)

theorem drop_succ (h : line.drop s = c :: l) : line.drop (s + 1) = l := by
  rw [← List.tail_drop, h, List.tail_cons]

theorem lt_of_drop (h : line.drop s = c :: l) : s < line.length := by
  by_contra hle
  rw [List.drop_eq_nil_of_le (Nat.le_of_not_lt hle)] at h
  cases h

theorem eq_of_drop_nil (h : line.drop s = []) (hs : s ≤ line.length) : s = line.length :=
  Nat.le_antisymm hs (List.drop_eq_nil_iff.mp h)

theorem skip_white (hs : s ≤ line.length) :
    ∃ s', skip (line ++ [0]) isWhite (line.length - s) s = .ok s' ∧ s' ≤ line.length ∧
      view line s' = view line s ∧ ∀ c l, line.drop s' = c :: l → isWhite c = false := by
  have hdrop : line.drop (s + ((line.drop s).takeWhile isWhite).length) =
      (line.drop s).dropWhile isWhite := by
    rw [← List.drop_drop, drop_takeWhile]
  refine ⟨_, skip_eq isWhite _ (by omega), ?_, ?_, fun c l h => ?_⟩
  · have hle := (List.takeWhile_sublist isWhite (l := line.drop s)).length_le
    rw [List.length_drop] at hle
    omega
  · rw [view, hdrop, tokens_dropWhile]
    rfl
  · rw [hdrop] at h
    have hhead := List.head?_dropWhile_not isWhite (line.drop s)
    rw [h] at hhead
    exact hhead

theorem tokens_cons (h : isWhite c = false) (p : ℕ) (l : List UInt8) : tokens p (c :: l) =
    match symbol c with
    | some t => t :: tokens (p + 1) l
    | none =>
      if c = ch '>' then
        if l.head? = some (ch '>') then .gtgt :: tokens (p + 2) l.tail
        else .gt :: tokens (p + 1) l
      else
        .word p (p + 1 + (l.takeWhile inWord).length) ::
          tokens (p + 1 + (l.takeWhile inWord).length) (l.dropWhile inWord) := by
  rw [tokens, if_neg]
  rw [h]
  exact Bool.noConfusion

theorem symbol_some (h : symbol c = some t) : t.ret = c ∧
    [ch '|', ch '(', ch ')', ch ';', ch '&', ch '<'].contains c = true ∧
      ∀ toks, t.begins toks = toks.contains c := by
  unfold symbol at h
  split_ifs at h with h1 h2 h3 h4 h5 h6
  all_goals
    cases h
    subst c
    exact ⟨rfl, by decide, fun _ => rfl⟩

theorem symbol_none (h : symbol c = none) :
    [ch '|', ch '(', ch ')', ch ';', ch '&', ch '<'].contains c = false := by
  unfold symbol at h
  split_ifs at h with h1 h2 h3 h4 h5 h6
  simp [h1, h2, h3, h4, h5, h6]

theorem inWord_of_symbol (hw : isWhite c = false) (h : symbol c = none) (hgt : c ≠ ch '>') :
    inWord c = true := by
  have hsym : symbols.contains c = false := by
    have hnone := symbol_none h
    unfold symbols
    simp only [List.contains_cons, Bool.or_eq_false_iff, List.contains_nil] at hnone ⊢
    simp [hnone, hgt]
  unfold isWhite at hw
  rw [inWord, hw, hsym]
  rfl

theorem endToken_spec (ret : UInt8) (q : ℕ) (hs : s ≤ line.length) :
    ∃ s', endToken (line ++ [0]) line.length ret q s = .ok ⟨ret, q, s, s'⟩ ∧ s' ≤ line.length ∧
      view line s' = view line s := by
  obtain ⟨s', hskip, hle, hview, -⟩ := skip_white hs
  refine ⟨s', ?_, hle, hview⟩
  rw [endToken, hskip]
  rfl

theorem ne_zero_of_drop (hnul : 0 ∉ line) (h : line.drop s = c :: l) : c ≠ 0 := by
  rintro rfl
  exact hnul (List.mem_of_mem_drop (i := s) (by rw [h]; exact List.mem_cons_self))

theorem tokens_head (hw : isWhite c = false) (p : ℕ) (l : List UInt8) :
    ∃ t ts, tokens p (c :: l) = t :: ts ∧
      ∀ toks, (∀ c ∈ toks, symbols.contains c = true) → t.begins toks = toks.contains c := by
  rw [tokens_cons hw]
  cases hsym : symbol c with
  | some t => exact ⟨t, _, rfl, fun toks _ => (symbol_some hsym).2.2 toks⟩
  | none =>
    dsimp only
    split_ifs with hgt hgt'
    · rw [hgt]
      exact ⟨_, _, rfl, fun _ _ => rfl⟩
    · rw [hgt]
      exact ⟨_, _, rfl, fun _ _ => rfl⟩
    · refine ⟨_, _, rfl, fun toks htoks => ?_⟩
      have hin := inWord_of_symbol hw hsym hgt
      unfold inWord at hin
      cases hc : toks.contains c with
      | false => rfl
      | true =>
        rw [htoks c (List.contains_iff_mem.mp hc)] at hin
        simp at hin

theorem peek_spec (hnul : 0 ∉ line) (toks : List UInt8)
    (htoks : toks.all symbols.contains) (hs : s ≤ line.length) :
    ∃ s', peek (line ++ [0]) line.length toks s =
        .ok ((view line s).head?.any (Tok.begins toks), s') ∧ s' ≤ line.length ∧
      view line s' = view line s ∧ (s' = line.length ↔ view line s = []) := by
  rw [List.all_eq_true] at htoks
  obtain ⟨s', hskip, hle, hview, hwhite⟩ := skip_white hs
  rw [peek, hskip, ← hview]
  show ∃ s'', (read (line ++ [0]) s' >>= fun c => .ok (c ≠ 0 && toks.contains c, s')) = _ ∧ _
  refine ⟨s', ?_, hle, rfl, ?_⟩
  · cases hd : line.drop s' with
    | nil =>
      rw [eq_of_drop_nil hd hle, read_end, view, List.drop_length, tokens]
      rfl
    | cons c l =>
      obtain ⟨t, ts, ht, hbegins⟩ := tokens_head (hwhite c l hd) s' l
      have hc : decide (c ≠ 0) = true := decide_eq_true (ne_zero_of_drop hnul hd)
      rw [read_lt hd, view, hd, ht]
      show Except.ok (decide (c ≠ 0) && toks.contains c, s') = _
      rw [hc, List.head?_cons, Option.any_some, hbegins toks htoks, Bool.true_and]
  · cases hd : line.drop s' with
    | nil =>
      rw [view, hd, tokens]
      exact ⟨fun _ => rfl, fun _ => eq_of_drop_nil hd hle⟩
    | cons c l =>
      obtain ⟨t, ts, ht, -⟩ := tokens_head (hwhite c l hd) s' l
      have hlt := lt_of_drop hd
      rw [view, hd, ht]
      exact ⟨fun h => absurd h (Nat.ne_of_lt hlt), nofun⟩

theorem gettoken_spec (hnul : 0 ∉ line) (hs : s ≤ line.length) :
    ∃ t, gettoken (line ++ [0]) line.length s = .ok t ∧ t.s ≤ line.length ∧
      view line t.s = (view line s).tail ∧ t.ret = ((view line s).head?.map Tok.ret).getD 0 ∧
      ∀ q eq, (view line s).head? = some (.word q eq) → t.q = q ∧ t.eq = eq := by
  obtain ⟨q, hskip, hle, hview, hwhite⟩ := skip_white hs
  rw [gettoken, hskip, ← hview]
  dsimp only [bind, Except.bind]
  cases hd : line.drop q with
  | nil =>
    have hread : read (line ++ [0]) q = .ok 0 := by
      rw [eq_of_drop_nil hd hle]
      exact read_end line
    have hnil : view line q = [] := by rw [view, hd, tokens]
    obtain ⟨s', hend, hle', hview'⟩ := endToken_spec 0 q hle
    rw [hread, hnil]
    rw [hnil] at hview'
    exact ⟨_, hend, hle', hview', rfl, nofun⟩
  | cons c l =>
    have hw := hwhite c l hd
    have hlt := lt_of_drop hd
    rw [read_lt hd]
    dsimp only
    rw [if_neg (ne_zero_of_drop hnul hd), view, hd, tokens_cons hw]
    cases hsym : symbol c with
    | some t =>
      obtain ⟨hret, hcontains, -⟩ := symbol_some hsym
      obtain ⟨s', hend, hle', hview'⟩ := endToken_spec c q (Nat.succ_le_of_lt hlt)
      rw [if_pos hcontains]
      refine ⟨_, hend, hle', ?_, hret.symm, fun q' eq' h => ?_⟩
      · rw [hview', view, drop_succ hd]
        rfl
      · cases h
        have hword : [ch '|', ch '(', ch ')', ch ';', ch '&', ch '<'].contains (ch 'a') = false := by
          decide
        rw [← hret] at hcontains
        exact absurd (hword.symm.trans hcontains) Bool.noConfusion
    | none =>
      rw [if_neg (by rw [symbol_none hsym]; exact Bool.noConfusion)]
      dsimp only
      by_cases hgt : c = ch '>'
      · rw [if_pos hgt, if_pos hgt]
        have hd' := drop_succ hd
        have hread : read (line ++ [0]) (q + 1) = .ok (l.headD 0) := by
          cases hl : l with
          | nil =>
            rw [hl] at hd'
            rw [eq_of_drop_nil hd' hlt]
            exact read_end line
          | cons d l' =>
            rw [hl] at hd'
            exact read_lt hd'
        have hhead : l.headD 0 = ch '>' ↔ l.head? = some (ch '>') := by
          cases l with
          | nil => exact ⟨fun h => absurd h (by decide), nofun⟩
          | cons d l' => exact ⟨fun h => congrArg some h, fun h => Option.some.inj h⟩
        rw [hread]
        dsimp only
        by_cases hgg : l.head? = some (ch '>')
        · rw [if_pos (hhead.mpr hgg), if_pos hgg]
          obtain ⟨d, l', rfl⟩ : ∃ d l', l = d :: l' := by
            cases l with
            | nil => cases hgg
            | cons d l' => exact ⟨d, l', rfl⟩
          obtain ⟨s', hend, hle', hview'⟩ := endToken_spec (ch '+') q (lt_of_drop hd')
          refine ⟨_, hend, hle', ?_, rfl, nofun⟩
          rw [hview', view, drop_succ hd']
          rfl
        · rw [if_neg (fun h => hgg (hhead.mp h)), if_neg hgg]
          obtain ⟨s', hend, hle', hview'⟩ := endToken_spec c q hlt
          refine ⟨_, hend, hle', ?_, hgt, nofun⟩
          rw [hview', view, hd']
          rfl
      · rw [if_neg hgt, if_neg hgt]
        have hin := inWord_of_symbol hw hsym hgt
        -- The word goes on as long as there are such characters.
        have hlen : ((line.drop q).takeWhile inWord).length = 1 + (l.takeWhile inWord).length := by
          rw [hd, List.takeWhile_cons, if_pos hin, List.length_cons, Nat.add_comm]
        have hdrop : line.drop (q + 1 + (l.takeWhile inWord).length) = l.dropWhile inWord := by
          rw [← List.drop_drop, drop_succ hd, drop_takeWhile]
        have hle' : q + 1 + (l.takeWhile inWord).length ≤ line.length := by
          have := (List.takeWhile_sublist inWord (l := line.drop q)).length_le
          rw [hlen, List.length_drop] at this
          omega
        rw [skip_eq inWord _ (by omega), hlen, ← Nat.add_assoc]
        dsimp only
        obtain ⟨s', hend, hle'', hview'⟩ := endToken_spec (ch 'a') q hle'
        refine ⟨_, hend, hle'', ?_, rfl, fun q' eq' h => ?_⟩
        · rw [hview', view, hdrop]
          rfl
        · obtain ⟨h1, h2⟩ := Tok.word.inj (Option.some.inj h)
          exact ⟨h1, h2⟩

end Spec

def Tok.redir : Tok → Option (Word → Redir)
  | lt => some fun file => ⟨file, O_RDONLY, 0⟩
  | gt | gtgt => some fun file => ⟨file, O_WRONLY ||| O_CREATE, 1⟩
  | _ => none

def takeRedirs : ℕ → Cmd → List Tok → Except Err (Cmd × List Tok)
  | 0, _, _ => .error .fuel
  | _ + 1, cmd, [] => .ok (cmd, [])
  | n + 1, cmd, t :: ts =>
    match t.redir with
    | some r =>
      match ts with
      | .word q eq :: ts => takeRedirs n (.redir cmd (r (q, eq))) ts
      | _ => .error (.panic "missing file for redirection")
    | none => .ok (cmd, t :: ts)

def takeArgs : ℕ → Cmd → ℕ → List Tok → Except Err (Cmd × List Tok)
  | 0, _, _, _ => .error .fuel
  | _ + 1, cmd, _, [] => .ok (cmd, [])
  | n + 1, cmd, argc, t :: ts =>
    match t with
    | .word q eq =>
      if MAXARGS ≤ argc + 1 then .error (.panic "too many args")
      else do
        let r ← takeRedirs n (cmd.addArg (q, eq)) ts
        takeArgs n r.1 (argc + 1) r.2
    | .bar | .rparen | .amp | .semi => .ok (cmd, t :: ts)
    | _ => .error (.panic "syntax")

def takeBacks : ℕ → Cmd → List Tok → Except Err (Cmd × List Tok)
  | 0, _, _ => .error .fuel
  | n + 1, cmd, .amp :: ts => takeBacks n (.back cmd) ts
  | _ + 1, cmd, ts => .ok (cmd, ts)

mutual

def takeLine : ℕ → List Tok → Except Err (Cmd × List Tok)
  | 0, _ => .error .fuel
  | n + 1, ts => do
    let l ← takePipe n ts
    let l ← takeBacks n l.1 l.2
    match l.2 with
    | .semi :: ts => do
      let r ← takeLine n ts
      .ok (.list l.1 r.1, r.2)
    | ts => .ok (l.1, ts)

def takePipe : ℕ → List Tok → Except Err (Cmd × List Tok)
  | 0, _ => .error .fuel
  | n + 1, ts => do
    let l ← takeExec n ts
    match l.2 with
    | .bar :: ts => do
      let r ← takePipe n ts
      .ok (.pipe l.1 r.1, r.2)
    | ts => .ok (l.1, ts)

def takeBlock : ℕ → List Tok → Except Err (Cmd × List Tok)
  | 0, _ => .error .fuel
  | n + 1, .lparen :: ts => do
    let l ← takeLine n ts
    match l.2 with
    | .rparen :: ts => takeRedirs n l.1 ts
    | _ => .error (.panic "syntax - missing )")
  | _ + 1, _ => .error (.panic "parseblock")

def takeExec : ℕ → List Tok → Except Err (Cmd × List Tok)
  | 0, _ => .error .fuel
  | n + 1, .lparen :: ts => takeBlock n (.lparen :: ts)
  | n + 1, ts => do
    let r ← takeRedirs n (.exec []) ts
    takeArgs n r.1 0 r.2

end

section Refine

inductive Agree (line : List UInt8) :
    Except Err (Cmd × ℕ) → Except Err (Cmd × List Tok) → Prop where
  | ok {cmd : Cmd} {s : ℕ} : s ≤ line.length → Agree line (.ok (cmd, s)) (.ok (cmd, view line s))
  | error {e : Err} : Agree line (.error e) (.error e)

theorem Agree.bind {r : Except Err (Cmd × ℕ)} {r' : Except Err (Cmd × List Tok)}
    {f : Cmd × ℕ → Except Err (Cmd × ℕ)} {f' : Cmd × List Tok → Except Err (Cmd × List Tok)}
    (h : Agree line r r')
    (hf : ∀ cmd s, s ≤ line.length → Agree line (f (cmd, s)) (f' (cmd, view line s))) :
    Agree line (r >>= f) (r' >>= f') := by
  cases h with
  | ok hs => exact hf _ _ hs
  | error => exact .error

section Rules

variable {r' : Except Err (Cmd × List Tok)} {f : Token → Except Err (Cmd × ℕ)} {ts : List Tok}

theorem Agree.peek {f : Bool × ℕ → Except Err (Cmd × ℕ)} (hnul : 0 ∉ line) (toks : List UInt8)
    (htoks : toks.all symbols.contains) (hs : s ≤ line.length)
    (h : ∀ s', s' ≤ line.length → view line s' = view line s →
      Agree line (f ((view line s).head?.any (Tok.begins toks), s')) r') :
    Agree line (Sh.peek (line ++ [0]) line.length toks s >>= f) r' := by
  obtain ⟨s', hpeek, hs', hview, -⟩ := peek_spec hnul toks htoks hs
  rw [hpeek]
  exact h s' hs' hview

theorem Agree.gettoken {t : Tok} (hnul : 0 ∉ line) (hs : s ≤ line.length)
    (hv : view line s = t :: ts)
    (h : ∀ k : Token, k.s ≤ line.length → view line k.s = ts → k.ret = t.ret → (∀ q eq, t = .word q eq → k.q = q ∧ k.eq = eq) → Agree line (f k) r') :
    Agree line (Sh.gettoken (line ++ [0]) line.length s >>= f) r' := by
  obtain ⟨k, hget, hk, hview, hret, hword⟩ := gettoken_spec hnul hs
  rw [hv] at hview hret hword
  rw [hget]
  exact h k hk hview hret fun q eq hq => hword q eq (congrArg some hq)

theorem Agree.gettoken_nil (hnul : 0 ∉ line) (hs : s ≤ line.length) (hv : view line s = [])
    (h : ∀ k : Token, k.s ≤ line.length → view line k.s = [] → k.ret = 0 → Agree line (f k) r') :
    Agree line (Sh.gettoken (line ++ [0]) line.length s >>= f) r' := by
  obtain ⟨k, hget, hk, hview, hret, -⟩ := gettoken_spec hnul hs
  rw [hv] at hview hret
  rw [hget]
  exact h k hk hview hret

theorem Agree.stop {cmd : Cmd} (hs : s ≤ line.length) (hv : view line s = ts) :
    Agree line (.ok (cmd, s)) (.ok (cmd, ts)) := by
  rw [← hv]
  exact .ok hs

end Rules

theorem begins_redir (t : Tok) : t.begins [ch '<', ch '>'] = t.redir.isSome := by
  cases t <;> rfl

theorem redirOf_ret {t : Tok} {r : Word → Redir} (h : t.redir = some r) (file : Word) :
    redirOf t.ret file = some (r file) := by
  cases t with
  | lt | gt | gtgt =>
    cases h
    rfl
  | _ => cases h

theorem parseredirs_agree (hnul : 0 ∉ line) (n : ℕ) (cmd : Cmd) (hs : s ≤ line.length) :
    Agree line (parseredirs (line ++ [0]) line.length n cmd s) (takeRedirs n cmd (view line s)) := by
  induction n generalizing cmd s with
  | zero => exact .error
  | succ n ih =>
    refine .peek hnul _ (by decide) hs fun s1 hs1 hv1 => ?_
    cases hv : view line s with
    | nil => exact .stop hs1 (hv1.trans hv)
    | cons t ts =>
      dsimp only
      rw [List.head?_cons, Option.any_some, begins_redir, takeRedirs]
      cases hr : t.redir with
      | none => exact .stop hs1 (hv1.trans hv)
      | some r =>
        rw [Option.isSome_some, if_pos rfl]
        refine .gettoken hnul hs1 (hv1.trans hv) fun k hk hvk hret _ => ?_
        rw [hret]
        cases ts with
        | nil =>
          refine .gettoken_nil hnul hk hvk fun k' _ _ hret' => ?_
          rw [if_pos (by rw [hret']; decide)]
          exact .error
        | cons t' ts =>
          refine .gettoken hnul hk hvk fun k' hk' hvk' hret' hword => ?_
          cases t' with
          | word q eq =>
            have hret' : k'.ret = ch 'a' := hret'
            obtain ⟨hq, heq⟩ := hword q eq rfl
            rw [hret', if_neg (by decide), redirOf_ret hr, hq, heq, ← hvk']
            exact ih _ hk'
          | _ =>
            rw [hret']
            exact .error

theorem parseargs_agree (hnul : 0 ∉ line) (n : ℕ) (cmd : Cmd) (argc : ℕ) (hs : s ≤ line.length) :
    Agree line (parseargs (line ++ [0]) line.length n cmd argc s)
      (takeArgs n cmd argc (view line s)) := by
  induction n generalizing cmd argc s with
  | zero => exact .error
  | succ n ih =>
    refine .peek hnul _ (by decide) hs fun s1 hs1 hv1 => ?_
    cases hv : view line s with
    | nil =>
      refine .gettoken_nil hnul hs1 (hv1.trans hv) fun k hk hvk hret => ?_
      rw [if_pos hret]
      exact .stop hk hvk
    | cons t ts =>
      have hv1 := hv1.trans hv
      cases t with
      | bar | rparen | amp | semi => exact .stop hs1 hv1
      | word q eq =>
        refine .gettoken hnul hs1 hv1 fun k hk hvk hret hword => ?_
        have hret : k.ret = ch 'a' := hret
        obtain ⟨hq, heq⟩ := hword q eq rfl
        rw [hret, if_neg (by decide), if_neg (by decide), hq, heq, takeArgs]
        split_ifs with hmax
        · exact .error
        · rw [← hvk]
          exact (parseredirs_agree hnul n _ hk).bind fun cmd' s' hs' => ih cmd' (argc + 1) hs'
      | lparen | lt | gt | gtgt =>
        refine .gettoken hnul hs1 hv1 fun k hk hvk hret _ => ?_
        rw [hret]
        exact .error

theorem parsebacks_agree (hnul : 0 ∉ line) (n : ℕ) (cmd : Cmd) (hs : s ≤ line.length) :
    Agree line (parsebacks (line ++ [0]) line.length n cmd s) (takeBacks n cmd (view line s)) := by
  induction n generalizing cmd s with
  | zero => exact .error
  | succ n ih =>
    refine .peek hnul _ (by decide) hs fun s1 hs1 hv1 => ?_
    cases hv : view line s with
    | nil => exact .stop hs1 (hv1.trans hv)
    | cons t ts =>
      have hv1 := hv1.trans hv
      cases t with
      | amp =>
        refine .gettoken hnul hs1 hv1 fun k hk hvk _ _ => ?_
        rw [takeBacks, ← hvk]
        exact ih _ hk
      | _ => exact .stop hs1 hv1

theorem parse_agree (hnul : 0 ∉ line) (n : ℕ) (hs : s ≤ line.length) :
    Agree line (parseline (line ++ [0]) line.length n s) (takeLine n (view line s)) ∧
      Agree line (parsepipe (line ++ [0]) line.length n s) (takePipe n (view line s)) ∧
      Agree line (parseblock (line ++ [0]) line.length n s) (takeBlock n (view line s)) ∧
      Agree line (parseexec (line ++ [0]) line.length n s) (takeExec n (view line s)) := by
  induction n generalizing s with
  | zero =>
    rw [parseline, parsepipe, parseblock, parseexec, takeLine, takePipe, takeBlock, takeExec]
    exact ⟨.error, .error, .error, .error⟩
  | succ n ih =>
    refine ⟨?_, ?_, ?_, ?_⟩
    · rw [parseline, takeLine]
      refine (ih hs).2.1.bind fun l s1 hs1 => ?_
      refine (parsebacks_agree hnul n l hs1).bind fun l s2 hs2 => ?_
      refine .peek hnul _ (by decide) hs2 fun s3 hs3 hv3 => ?_
      cases hv : view line s2 with
      | nil => exact .stop hs3 (hv3.trans hv)
      | cons t ts =>
        have hv3 := hv3.trans hv
        cases t with
        | semi =>
          refine .gettoken hnul hs3 hv3 fun k hk hvk _ _ => ?_
          dsimp only
          rw [← hvk]
          exact (ih hk).1.bind fun r s4 hs4 => .ok hs4
        | _ => exact .stop hs3 hv3
    · rw [parsepipe, takePipe]
      refine (ih hs).2.2.2.bind fun l s2 hs2 => ?_
      refine .peek hnul _ (by decide) hs2 fun s3 hs3 hv3 => ?_
      cases hv : view line s2 with
      | nil => exact .stop hs3 (hv3.trans hv)
      | cons t ts =>
        have hv3 := hv3.trans hv
        cases t with
        | bar =>
          refine .gettoken hnul hs3 hv3 fun k hk hvk _ _ => ?_
          dsimp only
          rw [← hvk]
          exact (ih hk).2.1.bind fun r s4 hs4 => .ok hs4
        | _ => exact .stop hs3 hv3
    · rw [parseblock]
      refine .peek hnul _ (by decide) hs fun s1 hs1 hv1 => ?_
      cases hv : view line s with
      | nil => exact .error
      | cons t ts =>
        have hv1 := hv1.trans hv
        cases t with
        | lparen =>
          refine .gettoken hnul hs1 hv1 fun k hk hvk _ _ => ?_
          rw [takeBlock, ← hvk]
          refine (ih hk).1.bind fun l s2 hs2 => ?_
          refine .peek hnul _ (by decide) hs2 fun s3 hs3 hv3 => ?_
          cases hv' : view line s2 with
          | nil => exact .error
          | cons t' ts' =>
            have hv3 := hv3.trans hv'
            cases t' with
            | rparen =>
              refine .gettoken hnul hs3 hv3 fun k' hk' hvk' _ _ => ?_
              dsimp only
              rw [← hvk']
              exact parseredirs_agree hnul n l hk'
            | _ => exact .error
        | _ => exact .error
    · rw [parseexec]
      refine .peek hnul _ (by decide) hs fun s1 hs1 hv1 => ?_
      -- A command that is not in parentheses.
      have hsimple : Agree line (parseredirs (line ++ [0]) line.length n (.exec []) s1 >>=
            fun r => parseargs (line ++ [0]) line.length n r.1 0 r.2)
          (takeRedirs n (.exec []) (view line s1) >>= fun r => takeArgs n r.1 0 r.2) :=
        (parseredirs_agree hnul n _ hs1).bind fun l s2 hs2 => parseargs_agree hnul n l 0 hs2
      rw [hv1] at hsimple
      cases hv : view line s with
      | nil =>
        rw [hv] at hsimple
        exact hsimple
      | cons t ts =>
        cases t with
        | lparen =>
          have hblock := (ih hs1).2.2.1
          rw [hv1, hv] at hblock
          rw [takeExec]
          exact hblock
        | _ =>
          rw [hv] at hsimple
          exact hsimple

end Refine

end Xv6.Sh
