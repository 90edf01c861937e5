import Xv6.User.ShParse

namespace Xv6.Sh
open Lib Function

/-- `struct execcmd`, with `none` for a null pointer. -/
@[ext] structure ExecCmd where
  argv : ℕ → Option ℕ
  eargv : ℕ → Option ℕ

def execcmd : ExecCmd := ⟨fun _ => none, fun _ => none⟩

def ExecCmd.put (cmd : ExecCmd) (argc : ℕ) (q eq : Option ℕ) : ExecCmd :=
  ⟨update cmd.argv argc q, update cmd.eargv argc eq⟩

/-- What `parseexec` does to the arrays when it comes to these words. -/
def ExecCmd.fill (argc : ℕ) (cmd : ExecCmd) : List Word → Except Err ExecCmd
  | [] => if argc < MAXARGS then .ok (cmd.put argc none none) else .error .outOfBounds
  | (q, eq) :: ws =>
    if argc < MAXARGS then
      if argc + 1 ≥ MAXARGS then .error (.panic "too many args")
      else (cmd.put argc (some q) (some eq)).fill (argc + 1) ws
    else .error .outOfBounds

/-- The case of `EXEC` in `nulterminate`. -/
def ExecCmd.nulterminate (cmd : ExecCmd) : ℕ → ℕ → List UInt8 → Except Err (List UInt8)
  | 0, _, _ => .error .fuel
  | n + 1, i, mem =>
    if i < MAXARGS then match cmd.argv i, cmd.eargv i with
      | none, _ => .ok mem
      | some _, some eq => cmd.nulterminate n (i + 1) (mem.set eq 0)
      | some _, none => .error .outOfBounds
    else .error .outOfBounds

def ExecCmd.ofWords (ws : List Word) : ExecCmd :=
  ⟨fun i => ws[i]?.map Prod.fst, fun i => ws[i]?.map Prod.snd⟩

variable {ws : List Word} {i : ℕ}

theorem ExecCmd.ofWords_lt (h : i < ws.length) :
    (ofWords ws).argv i = some ws[i].1 ∧ (ofWords ws).eargv i = some ws[i].2 := by
  simp [ofWords, h]

theorem ExecCmd.ofWords_ge (h : ws.length ≤ i) :
    (ofWords ws).argv i = none ∧ (ofWords ws).eargv i = none := by
  simp [ofWords, h]

theorem ExecCmd.put_ofWords (vs : List Word) (w : Word) :
    (ofWords vs).put vs.length (some w.1) (some w.2) = ofWords (vs ++ [w]) := by
  have hget (f : Word → ℕ) (i : ℕ) : update (fun i => vs[i]?.map f) vs.length (some (f w)) i =
      (vs ++ [w])[i]?.map f := by
    by_cases hi : i = vs.length
    · rw [hi, update_self, List.getElem?_concat_length, Option.map_some]
    · rw [update_of_ne hi, List.getElem?_append]
      split_ifs with hlt
      · rfl
      · rw [List.getElem?_eq_none (Nat.le_of_not_lt hlt), List.getElem?_eq_none]
        rw [List.length_singleton]
        omega
  ext1
  · funext i
    exact hget Prod.fst i
  · funext i
    exact hget Prod.snd i

theorem ExecCmd.put_null (ws : List Word) :
    (ofWords ws).put ws.length none none = ofWords ws := by
  obtain ⟨hargv, heargv⟩ := ofWords_ge (Nat.le_refl ws.length)
  ext1
  · exact update_eq_self_iff.mpr hargv.symm
  · exact update_eq_self_iff.mpr heargv.symm

theorem ExecCmd.fill_ofWords (vs : List Word) (h : (vs ++ ws).length < MAXARGS) :
    (ofWords vs).fill vs.length ws = .ok (ofWords (vs ++ ws)) := by
  induction ws generalizing vs with
  | nil =>
    rw [List.append_nil] at h ⊢
    rw [fill, if_pos h, put_null]
  | cons w ws ih =>
    rw [List.append_cons] at h ⊢
    have ih := ih (vs ++ [w]) h
    rw [List.length_append, List.length_append, List.length_singleton] at h
    rw [fill, if_pos (by omega), if_neg (by omega), put_ofWords, ← ih, List.length_append,
      List.length_singleton]

theorem ExecCmd.nulterminate_ofWords (h : ws.length < MAXARGS) {n : ℕ} (hi : i ≤ ws.length)
    (hn : ws.length < i + n) (mem : List UInt8) :
    (ofWords ws).nulterminate n i mem = .ok (terminate mem (ws.drop i)) := by
  induction n generalizing i mem with
  | zero => omega
  | succ n ih =>
    rw [nulterminate, if_pos (by omega)]
    rcases Nat.lt_or_ge i ws.length with hlt | hge
    · rw [(ofWords_lt hlt).1, (ofWords_lt hlt).2, List.drop_eq_getElem_cons hlt]
      exact ih hlt (by omega) _
    · rw [(ofWords_ge hge).1, List.drop_eq_nil_of_le hge]
      rfl

/-- In the tree of a line that is accepted, every string is a word token of the line and is read
as the text of this token, and every simple command has its words in `argv` and a null pointer
behind them, where `nulterminate` stops. -/
theorem strings_isolated (line : List UInt8) (hnul : 0 ∉ line) (fuel : ℕ) (c : Cmd)
    (mem : List UInt8) (h : parsecmd fuel line = .ok (c, mem)) :
    Line (tokens 0 line) c ∧
      (∀ w ∈ c.words, .word w.1 w.2 ∈ tokens 0 line ∧
        cstr (mem.drop w.1) = (line.drop w.1).take (w.2 - w.1)) ∧
      ∀ argv ∈ c.execs, ∃ cmd, execcmd.fill 0 argv = .ok cmd ∧ cmd.argv argv.length = none ∧
        (∀ i (hi : i < argv.length), cmd.argv i = some argv[i].1) ∧
        ∀ m, cmd.nulterminate MAXARGS 0 m = .ok (nulterminate (.exec argv) m) := by
  have hline := parsecmd_line hnul h
  refine ⟨hline, fun w hw => ⟨hline.spelled.words w hw, parsecmd_cstr hnul h hw⟩,
    fun argv hargv => ?_⟩
  have hroom := hline.spelled.room argv hargv
  have hfill : execcmd.fill 0 argv = .ok (.ofWords argv) := ExecCmd.fill_ofWords [] hroom
  exact ⟨_, hfill, (ExecCmd.ofWords_ge le_rfl).1, fun i hi => (ExecCmd.ofWords_lt hi).1,
    ExecCmd.nulterminate_ofWords hroom (Nat.zero_le _) (by omega)⟩

theorem strings_isolated_redir :
    let line := "a>b|c".toUTF8.toList
    let mem := "a\x00b\x00c\x00".toUTF8.toList
    0 ∉ line ∧ cstr (mem.drop 2) = "b".toUTF8.toList :=
  ⟨by decide +kernel, ((strings_isolated _ (by decide +kernel) 30 _ _ (by decide +kernel :
    parsecmd 30 "a>b|c".toUTF8.toList = .ok (.pipe (.redir (.exec [(0, 1)]) ⟨(2, 3), 0x201, 1⟩)
      (.exec [(4, 5)]), "a\x00b\x00c\x00".toUTF8.toList))).2.1 (2, 3) (by decide)).2.trans
        (by decide +kernel)⟩

end Xv6.Sh
