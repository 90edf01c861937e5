import Mathlib.Data.List.TakeWhile
import Xv6.User.ShGrammar

namespace Xv6.Sh
open Lib

def Cmd.words : Cmd → List Word
  | exec argv => argv
  | redir c r => c.words ++ [r.file]
  | pipe l r => l.words ++ r.words
  | list l r => l.words ++ r.words
  | back c => c.words

def terminate (mem : List UInt8) (ws : List Word) : List UInt8 :=
  ws.foldl (fun mem w => mem.set w.2 0) mem

theorem nulterminate_eq (c : Cmd) (mem : List UInt8) : nulterminate c mem = terminate mem c.words := by
  induction c generalizing mem with
  | exec argv => rfl
  | redir c r ih =>
    rw [nulterminate, ih, Cmd.words, terminate, terminate, List.foldl_append]
    rfl
  | pipe l r ihl ihr | list l r ihl ihr =>
    rw [nulterminate, ihl, ihr, Cmd.words, terminate, terminate, terminate, List.foldl_append]
  | back c ih => exact ih mem

theorem terminate_get (mem : List UInt8) (ws : List Word) (i : ℕ) (h : ∀ w ∈ ws, w.2 ≠ i) :
    (terminate mem ws)[i]? = mem[i]? := by
  induction ws generalizing mem with
  | nil => rfl
  | cons w ws ih =>
    refine (ih (mem.set w.2 0) fun w' hw' => h w' (List.mem_cons_of_mem w hw')).trans ?_
    exact List.getElem?_set_ne (h w List.mem_cons_self)

theorem terminate_zero (mem : List UInt8) (ws : List Word) (i : ℕ) (h : mem[i]? = some 0) :
    (terminate mem ws)[i]? = some 0 := by
  induction ws generalizing mem with
  | nil => exact h
  | cons w ws ih =>
    refine ih (mem.set w.2 0) ?_
    by_cases hi : w.2 = i
    · have hlt := (List.getElem?_eq_some_iff.mp h).1
      rw [hi, List.getElem?_set_self hlt]
    · rw [List.getElem?_set_ne hi, h]

variable {ws : List Word} {p q eq : ℕ} {l line : List UInt8}

theorem terminate_end {mem : List UInt8} {w : Word} (hw : w ∈ ws) (hlt : w.2 < mem.length) :
    (terminate mem ws)[w.2]? = some 0 := by
  induction ws generalizing mem with
  | nil => cases hw
  | cons w' ws ih =>
    rcases List.mem_cons.mp hw with rfl | hw
    · exact terminate_zero (mem.set w.2 0) ws w.2 (List.getElem?_set_self hlt)
    · apply ih hw
      rwa [List.length_set]

/-- The words of each simple command. -/
def Cmd.execs : Cmd → List (List Word)
  | exec argv => [argv]
  | redir c _ => c.execs
  | pipe l r => l.execs ++ r.execs
  | list l r => l.execs ++ r.execs
  | back c => c.execs

theorem words_wrap (c : Cmd) (rs : List Redir) :
    (c.wrap rs).words = c.words ++ rs.map Redir.file := by
  induction rs generalizing c with
  | nil => exact (List.append_nil _).symm
  | cons r rs ih =>
    refine (ih (.redir c r)).trans ?_
    rw [Cmd.words, List.append_assoc]
    rfl

theorem words_backs (c : Cmd) (k : ℕ) : (c.backs k).words = c.words := by
  induction k generalizing c with
  | zero => rfl
  | succ k ih => exact ih c.back

theorem execs_wrap (c : Cmd) (rs : List Redir) : (c.wrap rs).execs = c.execs := by
  induction rs generalizing c with
  | nil => rfl
  | cons r rs ih => exact ih (.redir c r)

theorem execs_backs (c : Cmd) (k : ℕ) : (c.backs k).execs = c.execs := by
  induction k generalizing c with
  | zero => rfl
  | succ k ih => exact ih c.back

def From (ws : List Word) (ts : List Tok) : Prop := ∀ w ∈ ws, Tok.word w.1 w.2 ∈ ts

section Words

variable {ws vs : List Word} {ts us : List Tok} {rs : List Redir}

theorem From.append (h : From ws ts) (h' : From vs us) : From (ws ++ vs) (ts ++ us) := by
  intro w hw
  rcases List.mem_append.mp hw with hw | hw
  · exact List.mem_append_left us (h w hw)
  · exact List.mem_append_right ts (h' w hw)

theorem From.mono (h : From ws ts) (hsub : ts ⊆ us) : From ws us := fun w hw => hsub (h w hw)

theorem Redirs.words (h : Redirs ts rs) : From (rs.map Redir.file) ts := by
  induction h with
  | nil => nofun
  | @cons t r q eq ts rs hr _ ih =>
    intro w hw
    rcases List.mem_cons.mp hw with rfl | hw
    · have hfile : (r (q, eq)).file = (q, eq) := by
        cases t with
        | lt | gt | gtgt =>
          cases hr
          rfl
        | _ => cases hr
      rw [hfile]
      exact List.mem_cons_of_mem t List.mem_cons_self
    · exact List.mem_cons_of_mem t (List.mem_cons_of_mem _ (ih w hw))

theorem Args.words (h : Args ts ws rs) : From ws ts ∧ From (rs.map Redir.file) ts := by
  induction h with
  | nil => exact ⟨nofun, nofun⟩
  | @cons q eq ts us rs rs' ws hts _ ih =>
    constructor
    · intro w hw
      rcases List.mem_cons.mp hw with rfl | hw
      · exact List.mem_cons_self
      · exact List.mem_append_right _ (ih.1 w hw)
    · rw [List.map_append]
      exact (hts.words.mono (List.subset_cons_self _ _)).append ih.2

/-- The strings of the command are words among the tokens, and it has room for them. -/
structure Spelled (c : Cmd) (ts : List Tok) : Prop where
  words : From c.words ts
  room : ∀ argv ∈ c.execs, argv.length < MAXARGS

variable {c d : Cmd}

theorem Spelled.mono (h : Spelled c ts) (hsub : ts ⊆ us) : Spelled c us :=
  ⟨h.words.mono hsub, h.room⟩

theorem Spelled.backs (h : Spelled c ts) (k : ℕ) : Spelled (c.backs k) ts :=
  ⟨words_backs c k ▸ h.words, execs_backs c k ▸ h.room⟩

theorem Spelled.wrap (h : Spelled c ts) (hrs : From (rs.map Redir.file) us) :
    Spelled (c.wrap rs) (ts ++ us) :=
  ⟨words_wrap c rs ▸ h.words.append hrs, execs_wrap c rs ▸ h.room⟩

theorem Spelled.room_append (h : Spelled c ts) (h' : Spelled d us) :
    ∀ argv ∈ c.execs ++ d.execs, argv.length < MAXARGS := fun argv hmem =>
  (List.mem_append.mp hmem).elim (h.room argv) (h'.room argv)

theorem spelled_of_derivation (n : ℕ) :
    (∀ ts c, Line ts c → 4 * ts.length + 3 < n → Spelled c ts) ∧
      (∀ ts c, Pipe ts c → 4 * ts.length + 2 < n → Spelled c ts) ∧
      ∀ ts c, Exec ts c → 4 * ts.length + 1 < n → Spelled c ts := by
  induction n with
  | zero =>
    exact ⟨fun _ _ _ h => absurd h (Nat.not_lt_zero _), fun _ _ _ h => absurd h (Nat.not_lt_zero _),
      fun _ _ _ h => absurd h (Nat.not_lt_zero _)⟩
  | succ n ih =>
    obtain ⟨ihline, ihpipe, ihexec⟩ := ih
    refine ⟨fun ts c h hn => ?_, fun ts c h hn => ?_, fun ts c h hn => ?_⟩
    · cases h with
      | @last ts c k hts =>
        rw [List.length_append] at hn
        exact ((ihpipe ts c hts (by omega)).backs k).mono (List.subset_append_left _ _)
      | @list ts us c d k hts hus =>
        rw [List.length_append, List.length_append, List.length_cons] at hn
        have hc := (ihpipe ts c hts (by omega)).backs k
        have hd := (ihline us d hus (by omega)).mono (List.subset_cons_self .semi us)
        exact ⟨hc.words.append (hd.words.mono (List.subset_append_right _ _)), hc.room_append hd⟩
    · cases h with
      | last hexec => exact ihexec ts c hexec (by omega)
      | @pipe ts us c d hts hus =>
        rw [List.length_append, List.length_cons] at hn
        have hc := ihexec ts c hts (by omega)
        have hd := (ihpipe us d hus (by omega)).mono (List.subset_cons_self .bar us)
        exact ⟨hc.words.append hd.words, hc.room_append hd⟩
    · cases h with
      | @block ts us c rs hts hus =>
        rw [List.length_cons, List.length_append, List.length_cons] at hn
        have hc := ihline ts c hts (by omega)
        exact (hc.wrap (hus.words.mono (List.subset_cons_self .rparen us))).mono
          (List.subset_cons_self _ _)
      | @simple ts us ws rs rs' hts hus hws =>
        obtain ⟨hargs, hredirs⟩ := hus.words
        refine ⟨?_, ?_⟩
        · rw [words_wrap, List.map_append]
          intro w hw
          rcases List.mem_append.mp hw with hw | hw
          · exact List.mem_append_right ts (hargs w hw)
          · exact (hts.words.append hredirs) w hw
        · rw [execs_wrap]
          intro argv hargv
          rwa [List.mem_singleton.mp hargv]

theorem Line.spelled (h : Line ts c) : Spelled c ts :=
  (spelled_of_derivation (4 * ts.length + 4)).1 ts c h (by omega)

end Words

theorem tokens_length (p : ℕ) (l : List UInt8) : (tokens p l).length ≤ l.length := by
  fun_induction tokens p l with
  | case1 => exact le_rfl
  | case2 p c l _ ih => exact Nat.le_succ_of_le ih
  | case3 p c l _ t _ ih | case5 p l _ _ _ ih => exact Nat.succ_le_succ ih
  | case4 p l _ _ _ ih =>
    rw [List.length_tail] at ih
    rw [List.length_cons, List.length_cons]
    omega
  | case6 p c l _ _ _ ih =>
    exact Nat.succ_le_succ (Nat.le_trans ih (List.dropWhile_sublist _).length_le)

/-- A piece of the text from `q` to `eq` that is a word, and as long as it can be. -/
def WordAt (p : ℕ) (l : List UInt8) (q eq : ℕ) : Prop :=
  ∃ pre w post, l = pre ++ (w ++ post) ∧ q = p + pre.length ∧ eq = q + w.length ∧
    (∀ c ∈ w, inWord c = true) ∧ ∀ c ∈ post.head?, inWord c = false

theorem WordAt.cons (h : WordAt (p + 1) l q eq) (c : UInt8) : WordAt p (c :: l) q eq := by
  obtain ⟨pre, w, post, rfl, rfl, rfl, hw, hpost⟩ := h
  refine ⟨c :: pre, w, post, rfl, ?_, rfl, hw, hpost⟩
  rw [List.length_cons]
  omega

theorem WordAt.append (w : List UInt8) (h : WordAt (p + w.length) l q eq) :
    WordAt p (w ++ l) q eq := by
  induction w generalizing p with
  | nil => exact h
  | cons c w ih =>
    refine WordAt.cons (ih ?_) c
    rwa [List.length_cons, Nat.add_comm w.length, ← Nat.add_assoc] at h

theorem tokens_word (h : .word q eq ∈ tokens p l) : WordAt p l q eq := by
  fun_induction tokens p l with
  | case1 => cases h
  | case2 p c l _ ih => exact (ih h).cons c
  | case3 p c l _ t hsym ih =>
    rcases List.mem_cons.mp h with rfl | h
    · unfold symbol at hsym
      split_ifs at hsym <;> cases hsym
    · exact (ih h).cons c
  | case4 p l hhead _ _ ih =>
    rcases List.mem_cons.mp h with h | h
    · cases h
    · cases l with
      | nil => cases hhead
      | cons d l => exact ((ih h).cons d).cons _
  | case5 p l _ _ _ ih =>
    rcases List.mem_cons.mp h with h | h
    · cases h
    · exact (ih h).cons _
  | case6 p c l hw hsym hgt ih =>
    have hsplit := List.takeWhile_append_dropWhile (p := inWord) (l := l)
    rcases List.mem_cons.mp h with h | h
    · cases h
      have hc := inWord_of_symbol (by simpa using hw) hsym hgt
      refine ⟨[], c :: l.takeWhile inWord, l.dropWhile inWord, ?_, rfl, ?_, fun d hd => ?_,
        fun d hd => ?_⟩
      · rw [List.nil_append, List.cons_append, hsplit]
      · rw [List.length_cons]
        omega
      · rcases List.mem_cons.mp hd with rfl | hd
        · exact hc
        · exact List.mem_takeWhile_imp hd
      · have hhead := List.head?_dropWhile_not inWord l
        rw [hd] at hhead
        exact hhead
    · refine WordAt.cons ?_ c
      rw [← hsplit]
      exact (ih h).append _

theorem WordAt.end_ne {q' eq' i : ℕ} (h : WordAt 0 line q eq) (h' : WordAt 0 line q' eq')
    (hq : q ≤ i) (heq : i < eq) : eq' ≠ i := by
  obtain ⟨pre, w, post, hline, rfl, rfl, hw, -⟩ := h
  obtain ⟨pre', w', post', hline', rfl, rfl, -, hpost'⟩ := h'
  rw [Nat.zero_add] at *
  have hin : (line)[i]? = w[i - pre.length]? := by
    rw [hline, List.getElem?_append_right hq, List.getElem?_append_left (by omega)]
  have hend : (line)[pre'.length + w'.length]? = post'.head? := by
    rw [hline', ← List.append_assoc, ← List.length_append, List.getElem?_append_right le_rfl,
      Nat.sub_self, List.head?_eq_getElem?]
  rintro rfl
  have hlt : pre'.length + w'.length - pre.length < w.length := by omega
  rw [hend, List.getElem?_eq_getElem hlt] at hin
  have hfalse := hpost' _ hin
  rw [hw _ (List.getElem_mem hlt)] at hfalse
  cases hfalse

theorem cstr_terminate {w : Word} (hnul : 0 ∉ line) (h : ∀ w ∈ ws, WordAt 0 line w.1 w.2)
    (hw : w ∈ ws) :
    cstr ((terminate (line ++ [0]) ws).drop w.1) = (line.drop w.1).take (w.2 - w.1) := by
  obtain ⟨pre, v, post, hline, hq, heq, -, -⟩ := h w hw
  rw [Nat.zero_add] at hq
  have hlen : line.length = w.1 + (v.length + post.length) := by
    rw [hline, List.length_append, List.length_append, hq]
  have hpiece : (line.drop w.1).take v.length = v := by
    rw [hline, hq, List.drop_left, List.take_left]
  have hv : (0 : UInt8) ∉ v := fun h0 => hnul (by
    rw [hline]
    exact List.mem_append_right _ (List.mem_append_left _ h0))
  set mem := terminate (line ++ [0]) ws with hmem
  have hinside : (mem.drop w.1).take v.length = (line.drop w.1).take v.length := by
    apply List.ext_getElem?
    intro i
    by_cases hi : i < v.length
    · have hget := terminate_get (line ++ [0]) ws (w.1 + i) fun w' hw' =>
        (h w hw).end_ne (h w' hw') (Nat.le_add_right _ _) (by omega)
      rw [List.getElem?_take_of_lt hi, List.getElem?_take_of_lt hi, List.getElem?_drop,
        List.getElem?_drop, hmem, hget, List.getElem?_append_left (by omega)]
    · rw [List.getElem?_take_eq_none (by omega), List.getElem?_take_eq_none (by omega)]
  have hend : mem[w.1 + v.length]? = some 0 := by
    rw [← heq]
    apply terminate_end hw
    rw [List.length_append, List.length_singleton]
    omega
  have hrest : mem.drop (w.1 + v.length) = 0 :: mem.drop (w.1 + v.length + 1) := by
    obtain ⟨hlt, hget⟩ := List.getElem?_eq_some_iff.mp hend
    rw [List.drop_eq_getElem_cons hlt, hget]
  have hsplit : mem.drop w.1 = v ++ 0 :: mem.drop (w.1 + v.length + 1) :=
    calc mem.drop w.1
        = (mem.drop w.1).take v.length ++ (mem.drop w.1).drop v.length :=
          (List.take_append_drop _ _).symm
      _ = v ++ 0 :: mem.drop (w.1 + v.length + 1) := by
          rw [hinside, hpiece, List.drop_drop, hrest]
  rw [hsplit, cstr_append hv, heq, Nat.add_sub_cancel_left, hpiece]

section Parsecmd

variable {line mem : List UInt8} {fuel : ℕ} {c : Cmd}

theorem parsecmd_eq (hnul : 0 ∉ line) (fuel : ℕ) :
    parsecmd fuel line = takeLine fuel (tokens 0 line) >>= fun l =>
      if l.2 ≠ [] then .error (.panic "syntax")
      else .ok (l.1, terminate (line ++ [0]) l.1.words) := by
  have hagree := (parse_agree hnul fuel (Nat.zero_le _)).1
  have hview : view line 0 = tokens 0 line := rfl
  rw [hview] at hagree
  unfold parsecmd
  dsimp only
  generalize parseline (line ++ [0]) line.length fuel 0 = r at hagree
  generalize takeLine fuel (tokens 0 line) = r' at hagree
  cases hagree with
  | error => rfl
  | ok hs =>
    obtain ⟨s', hpeek, -, -, hend⟩ := peek_spec hnul [] rfl hs
    show (peek (line ++ [0]) line.length [] _ >>= _) = _
    rw [hpeek]
    show (if s' ≠ line.length then _ else _) = if view line _ ≠ [] then _ else _
    rw [nulterminate_eq]
    exact if_congr (not_congr hend) rfl rfl

theorem parsecmd_ok (hnul : 0 ∉ line) :
    parsecmd fuel line = .ok (c, mem) ↔
      takeLine fuel (tokens 0 line) = .ok (c, []) ∧ mem = terminate (line ++ [0]) c.words := by
  rw [parsecmd_eq hnul]
  constructor
  · intro h
    obtain ⟨⟨c', rest⟩, htake, h⟩ := bind_eq_ok h
    dsimp only at h
    split_ifs at h with hrest
    obtain ⟨rfl, rfl⟩ := Prod.mk.inj (Except.ok.inj h)
    rw [not_not.mp hrest] at htake
    exact ⟨htake, rfl⟩
  · rintro ⟨htake, rfl⟩
    rw [htake]
    rfl

theorem parsecmd_line (hnul : 0 ∉ line) (h : parsecmd fuel line = .ok (c, mem)) :
    Line (tokens 0 line) c := by
  obtain ⟨us, hus, hline⟩ := (take_sound fuel).1 _ _ _ ((parsecmd_ok hnul).mp h).1
  rw [List.append_nil] at hus
  rwa [hus]

theorem parsecmd_cstr (hnul : 0 ∉ line) (h : parsecmd fuel line = .ok (c, mem)) {w : Word}
    (hw : w ∈ c.words) : cstr (mem.drop w.1) = (line.drop w.1).take (w.2 - w.1) := by
  have hwords := (parsecmd_line hnul h).spelled.words
  obtain ⟨-, rfl⟩ := (parsecmd_ok hnul).mp h
  exact cstr_terminate hnul (fun w hw => tokens_word (hwords w hw)) hw

/-- The parser accepts the lines of the grammar.  Enough `fuel` is four rounds for every
character: no line makes the parser go on forever, and none makes it read past the NUL.  The tree
is the one of the derivation and its strings are the words of the line; every other line ends in
one of the syntax errors. -/
theorem parsecmd_grammar (line : List UInt8) (hnul : 0 ∉ line) (fuel : ℕ)
    (hfuel : 4 * line.length + 3 < fuel) :
    (∀ c, (∃ mem, parsecmd fuel line = .ok (c, mem)) ↔ Line (tokens 0 line) c) ∧
      (∀ c mem, parsecmd fuel line = .ok (c, mem) → ∀ w ∈ c.words,
        cstr (mem.drop w.1) = (line.drop w.1).take (w.2 - w.1)) ∧
      ((¬ ∃ c, Line (tokens 0 line) c) →
        ∃ msg ∈ syntaxErrors, parsecmd fuel line = .error (.panic msg)) := by
  have hfuel' : 4 * (tokens 0 line).length + 3 < fuel := by
    have := tokens_length 0 line
    omega
  have haccept (c : Cmd) : (∃ mem, parsecmd fuel line = .ok (c, mem)) ↔ Line (tokens 0 line) c := by
    constructor
    · rintro ⟨mem, h⟩
      exact parsecmd_line hnul h
    · intro h
      have htake := (take_complete fuel).1 _ _ [] h nofun hfuel'
      rw [List.append_nil] at htake
      exact ⟨_, (parsecmd_ok hnul).mpr ⟨htake, rfl⟩⟩
  refine ⟨haccept, fun c mem h w => parsecmd_cstr hnul h, fun h => ?_⟩
  have hsettles : Settles (parsecmd fuel line) := by
    rw [parsecmd_eq hnul]
    refine ((take_settles fuel _).1 hfuel').bind fun l _ => ?_
    split_ifs
    · exact settles_panic (by decide)
    · exact settles_ok _
  cases hparse : parsecmd fuel line with
  | ok r => exact absurd ⟨r.1, (haccept r.1).mp ⟨r.2, hparse⟩⟩ h
  | error e =>
    obtain ⟨msg, hmsg, rfl⟩ := hsettles e hparse
    exact ⟨msg, hmsg, rfl⟩

theorem parsecmd_grammar_block :
    let line := "(a;b>>c)>d|e&".toUTF8.toList
    (0 ∉ line ∧ 4 * line.length + 3 < 60) ∧ Line (tokens 0 line)
      (.back (.pipe (.redir (.list (.exec [(1, 2)]) (.redir (.exec [(3, 4)]) ⟨(6, 7), 0x201, 1⟩))
        ⟨(9, 10), 0x201, 1⟩) (.exec [(11, 12)]))) :=
  ⟨by decide +kernel, ((parsecmd_grammar _ (by decide +kernel) 60 (by decide +kernel)).1 _).mp
    ⟨"(a\x00b\x00>c\x00>d\x00e\x00\x00".toUTF8.toList, by decide +kernel⟩⟩

end Parsecmd

end Xv6.Sh
