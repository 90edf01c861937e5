import Xv6.Lib.Strings
import Xv6.User.ShTokens

namespace Xv6.Sh

/-- Redirections, the first of them innermost. -/
def Cmd.wrap (cmd : Cmd) (rs : List Redir) : Cmd := rs.foldl .redir cmd

/-- The command in the background, once for each `&`. -/
def Cmd.backs (cmd : Cmd) : ℕ → Cmd
  | 0 => cmd
  | k + 1 => cmd.back.backs k

/-- `redir*`, where `redir` is `('<' | '>' | '>>') word`. -/
inductive Redirs : List Tok → List Redir → Prop where
  | nil : Redirs [] []
  | cons {t : Tok} {r : Word → Redir} {q eq : ℕ} {ts : List Tok} {rs : List Redir} :
      t.redir = some r → Redirs ts rs → Redirs (t :: .word q eq :: ts) (r (q, eq) :: rs)

/-- `(word redir*)*`. -/
inductive Args : List Tok → List Word → List Redir → Prop where
  | nil : Args [] [] []
  | cons {q eq : ℕ} {ts us : List Tok} {rs rs' : List Redir} {ws : List Word} :
      Redirs ts rs → Args us ws rs' → Args (.word q eq :: ts ++ us) ((q, eq) :: ws) (rs ++ rs')

mutual

/-- `pipe '&'* [';' line]`. -/
inductive Line : List Tok → Cmd → Prop where
  | last {ts : List Tok} {c : Cmd} (k : ℕ) : Pipe ts c →
      Line (ts ++ List.replicate k .amp) (c.backs k)
  | list {ts us : List Tok} {c d : Cmd} (k : ℕ) : Pipe ts c → Line us d →
      Line (ts ++ (List.replicate k .amp ++ .semi :: us)) (.list (c.backs k) d)

/-- `exec ['|' pipe]`. -/
inductive Pipe : List Tok → Cmd → Prop where
  | last {ts : List Tok} {c : Cmd} : Exec ts c → Pipe ts c
  | pipe {ts us : List Tok} {c d : Cmd} : Exec ts c → Pipe us d →
      Pipe (ts ++ .bar :: us) (.pipe c d)

/-- `'(' line ')' redir*` or `redir* (word redir*)*`. -/
inductive Exec : List Tok → Cmd → Prop where
  | block {ts us : List Tok} {c : Cmd} {rs : List Redir} : Line ts c → Redirs us rs →
      Exec (.lparen :: (ts ++ .rparen :: us)) (c.wrap rs)
  | simple {ts us : List Tok} {ws : List Word} {rs rs' : List Redir} : Redirs ts rs →
      Args us ws rs' → ws.length < MAXARGS → Exec (ts ++ us) ((Cmd.exec ws).wrap (rs ++ rs'))

end

theorem addArg_wrap (c : Cmd) (rs : List Redir) (w : Word) :
    (c.wrap rs).addArg w = (c.addArg w).wrap rs := by
  induction rs generalizing c with
  | nil => rfl
  | cons r rs ih => exact ih (.redir c r)

theorem wrap_append (c : Cmd) (rs rs' : List Redir) : c.wrap (rs ++ rs') = (c.wrap rs).wrap rs' :=
  List.foldl_append ..

theorem bind_eq_ok {α β : Type} {r : Except Err α} {f : α → Except Err β} {b : β}
    (h : r >>= f = .ok b) : ∃ a, r = .ok a ∧ f a = .ok b := by
  cases r with
  | error e => cases h
  | ok a => exact ⟨a, rfl, h⟩

variable {n : ℕ} {c : Cmd} {ts rest : List Tok}

section Sound

variable {d : Cmd}

theorem takeRedirs_sound (h : takeRedirs n c ts = .ok (d, rest)) :
    ∃ us rs, ts = us ++ rest ∧ Redirs us rs ∧ d = c.wrap rs := by
  induction n generalizing c ts with
  | zero => cases h
  | succ n ih =>
    cases ts with
    | nil =>
      cases h
      exact ⟨[], [], rfl, .nil, rfl⟩
    | cons t ts =>
      rw [takeRedirs] at h
      cases hr : t.redir with
      | none =>
        rw [hr] at h
        cases h
        exact ⟨[], [], rfl, .nil, rfl⟩
      | some r =>
        rw [hr] at h
        cases ts with
        | nil => cases h
        | cons t' ts =>
          cases t' with
          | word q eq =>
            obtain ⟨us, rs, rfl, hus, rfl⟩ := ih h
            exact ⟨_, _, rfl, .cons hr hus, rfl⟩
          | _ => cases h

theorem takeArgs_sound {ws0 : List Word} {rs0 : List Redir}
    (h : takeArgs n ((Cmd.exec ws0).wrap rs0) ws0.length ts = .ok (d, rest))
    (hlen : ws0.length < MAXARGS) :
    ∃ us ws rs, ts = us ++ rest ∧ Args us ws rs ∧ (ws0 ++ ws).length < MAXARGS ∧
      d = (Cmd.exec (ws0 ++ ws)).wrap (rs0 ++ rs) := by
  induction n generalizing ts ws0 rs0 with
  | zero => cases h
  | succ n ih =>
    have hstop (h : ((Cmd.exec ws0).wrap rs0, ts) = (d, rest)) :
        ∃ us ws rs, ts = us ++ rest ∧ Args us ws rs ∧ (ws0 ++ ws).length < MAXARGS ∧
          d = (Cmd.exec (ws0 ++ ws)).wrap (rs0 ++ rs) := by
      cases h
      refine ⟨[], [], [], rfl, .nil, ?_, ?_⟩
      · rwa [List.append_nil]
      · rw [List.append_nil, List.append_nil]
    cases ts with
    | nil => exact hstop (Except.ok.inj h)
    | cons t ts =>
      cases t with
      | bar | rparen | amp | semi => exact hstop (Except.ok.inj h)
      | word q eq =>
        rw [takeArgs] at h
        split_ifs at h with hmax
        obtain ⟨⟨c, ts'⟩, hredirs, h⟩ := bind_eq_ok h
        obtain ⟨us, rs, rfl, hus, rfl⟩ := takeRedirs_sound hredirs
        have hlen' : (ws0 ++ [(q, eq)]).length = ws0.length + 1 := List.length_append
        dsimp only at h
        rw [addArg_wrap, Cmd.addArg, ← wrap_append, ← hlen'] at h
        obtain ⟨us', ws, rs', rfl, hus', hws, rfl⟩ := ih h (by omega)
        refine ⟨_, (q, eq) :: ws, _, ?_, .cons hus hus', ?_, ?_⟩
        · rw [List.append_assoc]
          rfl
        · rwa [List.append_assoc] at hws
        · rw [List.append_assoc, List.append_assoc]
          rfl
      | _ => cases h

theorem takeBacks_sound (h : takeBacks n c ts = .ok (d, rest)) :
    ∃ k, ts = List.replicate k .amp ++ rest ∧ d = c.backs k := by
  induction n generalizing c ts with
  | zero => cases h
  | succ n ih =>
    cases ts with
    | nil =>
      cases h
      exact ⟨0, rfl, rfl⟩
    | cons t ts =>
      cases t with
      | amp =>
        obtain ⟨k, rfl, rfl⟩ := ih h
        exact ⟨k + 1, rfl, rfl⟩
      | _ =>
        cases h
        exact ⟨0, rfl, rfl⟩

theorem take_sound (n : ℕ) :
    (∀ ts c rest, takeLine n ts = .ok (c, rest) → ∃ us, ts = us ++ rest ∧ Line us c) ∧
      (∀ ts c rest, takePipe n ts = .ok (c, rest) → ∃ us, ts = us ++ rest ∧ Pipe us c) ∧
      (∀ ts c rest, takeBlock n ts = .ok (c, rest) → ∃ us, ts = us ++ rest ∧ Exec us c) ∧
      ∀ ts c rest, takeExec n ts = .ok (c, rest) → ∃ us, ts = us ++ rest ∧ Exec us c := by
  induction n with
  | zero =>
    refine ⟨fun ts c rest h => ?_, fun ts c rest h => ?_, fun ts c rest h => ?_,
      fun ts c rest h => ?_⟩
    · rw [takeLine] at h
      cases h
    · rw [takePipe] at h
      cases h
    · rw [takeBlock] at h
      cases h
    · rw [takeExec] at h
      cases h
  | succ n ih =>
    obtain ⟨ihline, ihpipe, ihblock, ihexec⟩ := ih
    refine ⟨fun ts c rest h => ?_, fun ts c rest h => ?_, fun ts c rest h => ?_,
      fun ts c rest h => ?_⟩
    · rw [takeLine] at h
      obtain ⟨⟨l, ts1⟩, hpipe, h1⟩ := bind_eq_ok h
      obtain ⟨⟨l', ts2⟩, hbacks, h2⟩ := bind_eq_ok h1
      obtain ⟨us, rfl, hus⟩ := ihpipe _ _ _ hpipe
      obtain ⟨k, rfl, rfl⟩ := takeBacks_sound hbacks
      have hstop (h : (l.backs k, ts2) = (c, rest)) :
          ∃ us', us ++ (List.replicate k .amp ++ ts2) = us' ++ rest ∧ Line us' c := by
        cases h
        exact ⟨_, (List.append_assoc ..).symm, .last k hus⟩
      cases ts2 with
      | nil => exact hstop (Except.ok.inj h2)
      | cons t ts3 =>
        cases t with
        | semi =>
          obtain ⟨⟨r, ts4⟩, hline, h3⟩ := bind_eq_ok h2
          obtain ⟨rfl, rfl⟩ := Prod.mk.inj (Except.ok.inj h3)
          obtain ⟨us', rfl, hus'⟩ := ihline _ _ _ hline
          refine ⟨_, ?_, .list k hus hus'⟩
          simp
        | _ => exact hstop (Except.ok.inj h2)
    · rw [takePipe] at h
      obtain ⟨⟨l, ts1⟩, hexec, h1⟩ := bind_eq_ok h
      obtain ⟨us, rfl, hus⟩ := ihexec _ _ _ hexec
      have hstop (h : (l, ts1) = (c, rest)) : ∃ us', us ++ ts1 = us' ++ rest ∧ Pipe us' c := by
        cases h
        exact ⟨us, rfl, .last hus⟩
      cases ts1 with
      | nil => exact hstop (Except.ok.inj h1)
      | cons t ts2 =>
        cases t with
        | bar =>
          obtain ⟨⟨r, ts4⟩, hpipe, h2⟩ := bind_eq_ok h1
          obtain ⟨rfl, rfl⟩ := Prod.mk.inj (Except.ok.inj h2)
          obtain ⟨us', rfl, hus'⟩ := ihpipe _ _ _ hpipe
          refine ⟨_, ?_, .pipe hus hus'⟩
          simp
        | _ => exact hstop (Except.ok.inj h1)
    · cases ts with
      | nil =>
        rw [takeBlock] at h
        · cases h
        · rintro _ ⟨⟩
      | cons t ts =>
        cases t with
        | lparen =>
          rw [takeBlock] at h
          obtain ⟨⟨l, ts1⟩, hline, h1⟩ := bind_eq_ok h
          obtain ⟨us, rfl, hus⟩ := ihline _ _ _ hline
          cases ts1 with
          | nil => cases h1
          | cons t ts2 =>
            cases t with
            | rparen =>
              obtain ⟨us', rs, rfl, hus', rfl⟩ := takeRedirs_sound h1
              refine ⟨_, ?_, .block hus hus'⟩
              simp
            | _ => cases h1
        | _ =>
          rw [takeBlock] at h
          · cases h
          · rintro _ ⟨⟩
    · have hsimple (h : (takeRedirs n (.exec []) ts >>= fun r => takeArgs n r.1 0 r.2) =
          .ok (c, rest)) : ∃ us, ts = us ++ rest ∧ Exec us c := by
        obtain ⟨⟨l, ts1⟩, hredirs, h1⟩ := bind_eq_ok h
        obtain ⟨us, rs, rfl, hus, rfl⟩ := takeRedirs_sound hredirs
        have hargs : takeArgs n ((Cmd.exec []).wrap rs) ([] : List Word).length ts1 =
            .ok (c, rest) := h1
        obtain ⟨us', ws, rs', rfl, hus', hws, rfl⟩ := takeArgs_sound hargs (by decide)
        refine ⟨us ++ us', ?_, .simple hus hus' hws⟩
        rw [List.append_assoc]
      cases ts with
      | nil =>
        rw [takeExec] at h
        · exact hsimple h
        · rintro _ ⟨⟩
      | cons t ts =>
        cases t with
        | lparen =>
          rw [takeExec] at h
          exact ihblock _ _ _ h
        | _ =>
          rw [takeExec] at h
          · exact hsimple h
          · rintro _ ⟨⟩

end Sound

section Complete

variable {us : List Tok} {rs : List Redir} {ws : List Word}

/-- A command ends here. -/
def Stops (rest : List Tok) : Prop :=
  ∀ t ∈ rest.head?, t = .bar ∨ t = .rparen ∨ t = .amp ∨ t = .semi

theorem takeRedirs_complete (h : Redirs us rs) (hrest : ∀ t ∈ rest.head?, t.redir = none)
    (hn : us.length < n) : takeRedirs n c (us ++ rest) = .ok (c.wrap rs, rest) := by
  induction h generalizing n c with
  | nil =>
    obtain ⟨n, rfl⟩ : ∃ m, n = m + 1 := ⟨n - 1, by simp only [List.length_nil] at hn; omega⟩
    cases rest with
    | nil => rfl
    | cons t rest =>
      rw [List.nil_append, takeRedirs, hrest t rfl]
      rfl
  | @cons t r q eq ts rs hr _ ih =>
    rw [List.length_cons, List.length_cons] at hn
    obtain ⟨n, rfl⟩ : ∃ m, n = m + 1 := ⟨n - 1, by omega⟩
    rw [List.cons_append, List.cons_append, takeRedirs, hr]
    exact ih (by omega)

theorem Stops.redir (h : Stops rest) : ∀ t ∈ rest.head?, t.redir = none := by
  intro t ht
  rcases h t ht with rfl | rfl | rfl | rfl <;> rfl

theorem takeArgs_stops (h : Stops rest) (argc : ℕ) :
    takeArgs (n + 1) c argc rest = .ok (c, rest) := by
  cases rest with
  | nil => rfl
  | cons t rest =>
    rcases h t rfl with rfl | rfl | rfl | rfl <;> rfl

theorem Args.head_redir (h : Args us ws rs) (hrest : Stops rest) :
    ∀ t ∈ (us ++ rest).head?, t.redir = none := by
  cases h with
  | nil => exact hrest.redir
  | cons _ _ =>
    intro t ht
    cases ht
    rfl

theorem takeArgs_complete {ws0 : List Word} {rs0 : List Redir} (h : Args us ws rs)
    (hrest : Stops rest) (hn : us.length < n) (hlen : (ws0 ++ ws).length < MAXARGS) :
    takeArgs n ((Cmd.exec ws0).wrap rs0) ws0.length (us ++ rest) =
      .ok ((Cmd.exec (ws0 ++ ws)).wrap (rs0 ++ rs), rest) := by
  induction h generalizing n ws0 rs0 with
  | nil =>
    obtain ⟨n, rfl⟩ : ∃ m, n = m + 1 := ⟨n - 1, by simp only [List.length_nil] at hn; omega⟩
    rw [List.nil_append, takeArgs_stops hrest, List.append_nil, List.append_nil]
  | @cons q eq ts us rs rs' ws hts hus ih =>
    rw [List.cons_append, List.length_cons, List.length_append] at hn
    rw [List.length_append, List.length_cons] at hlen
    obtain ⟨n, rfl⟩ : ∃ m, n = m + 1 := ⟨n - 1, by omega⟩
    have hlen' : (ws0 ++ [(q, eq)]).length = ws0.length + 1 := List.length_append
    rw [List.cons_append, List.cons_append, takeArgs, if_neg (by omega), List.append_assoc,
      takeRedirs_complete hts (hus.head_redir hrest) (by omega), addArg_wrap, Cmd.addArg, ← wrap_append]
    have htail : takeArgs n ((Cmd.exec (ws0 ++ [(q, eq)])).wrap (rs0 ++ rs))
        (ws0 ++ [(q, eq)]).length (us ++ rest) =
          .ok ((Cmd.exec (ws0 ++ [(q, eq)] ++ ws)).wrap (rs0 ++ rs ++ rs'), rest) := by
      apply ih (by omega)
      rw [List.length_append, hlen']
      omega
    rw [hlen', List.append_assoc, List.append_assoc] at htail
    exact htail

theorem takeBacks_complete (k : ℕ) (hrest : rest.head? ≠ some .amp) (hn : k < n) :
    takeBacks n c (List.replicate k .amp ++ rest) = .ok (c.backs k, rest) := by
  induction k generalizing n c with
  | zero =>
    obtain ⟨n, rfl⟩ : ∃ m, n = m + 1 := ⟨n - 1, by omega⟩
    rw [List.replicate_zero, List.nil_append]
    cases rest with
    | nil => rfl
    | cons t rest =>
      cases t with
      | amp => exact absurd rfl hrest
      | _ => rfl
  | succ k ih =>
    obtain ⟨n, rfl⟩ : ∃ m, n = m + 1 := ⟨n - 1, by omega⟩
    rw [List.replicate_succ, List.cons_append, takeBacks]
    exact ih (by omega)

/-- A line ends here. -/
def Closes (rest : List Tok) : Prop := ∀ t ∈ rest.head?, t = .rparen

theorem Stops.backs (h : Stops rest) (k : ℕ) : Stops (List.replicate k .amp ++ rest) := by
  cases k with
  | zero => exact h
  | succ k =>
    intro t ht
    exact .inr (.inr (.inl (Option.some.inj ht).symm))

theorem head_backs (h : rest.head? ≠ some .bar) (k : ℕ) :
    (List.replicate k Tok.amp ++ rest).head? ≠ some .bar := by
  cases k with
  | zero => exact h
  | succ k =>
    intro hhead
    cases hhead

theorem Closes.stops (h : Closes rest) : Stops rest := fun t ht => .inr (.inl (h t ht))

theorem Closes.head_ne {t : Tok} (h : Closes rest) (ht : t ≠ .rparen) : rest.head? ≠ some t :=
  fun heq => ht (h t heq)

theorem takeExec_simple (h : ts.head? ≠ some .lparen) : takeExec (n + 1) ts =
    takeRedirs n (.exec []) ts >>= fun r => takeArgs n r.1 0 r.2 := by
  rw [takeExec]
  rintro us rfl
  exact h rfl

theorem simple_head {rs' : List Redir} (h : Redirs ts rs) (h' : Args us ws rs') (hrest : Stops rest) :
    (ts ++ (us ++ rest)).head? ≠ some .lparen := by
  intro hhead
  cases h with
  | nil =>
    cases h' with
    | nil =>
      rcases hrest _ hhead with h | h | h | h <;> cases h
    | cons _ _ => cases hhead
  | cons hr _ =>
    cases hhead
    cases hr

theorem take_complete (n : ℕ) :
    (∀ us c rest, Line us c → Closes rest → 4 * us.length + 3 < n →
        takeLine n (us ++ rest) = .ok (c, rest)) ∧
      (∀ us c rest, Pipe us c → Stops rest → rest.head? ≠ some .bar → 4 * us.length + 2 < n →
        takePipe n (us ++ rest) = .ok (c, rest)) ∧
      (∀ us c rest, Exec us c → Stops rest → 4 * us.length + 1 < n →
        takeExec n (us ++ rest) = .ok (c, rest)) ∧
      ∀ ts us c rs rest, Line ts c → Redirs us rs → Stops rest →
        4 * (ts.length + us.length + 2) < n →
        takeBlock n (.lparen :: (ts ++ .rparen :: us) ++ rest) = .ok (c.wrap rs, rest) := by
  induction n with
  | zero =>
    exact ⟨fun _ _ _ _ _ h => absurd h (Nat.not_lt_zero _),
      fun _ _ _ _ _ _ h => absurd h (Nat.not_lt_zero _),
      fun _ _ _ _ _ h => absurd h (Nat.not_lt_zero _),
      fun _ _ _ _ _ _ _ _ h => absurd h (Nat.not_lt_zero _)⟩
  | succ n ih =>
    obtain ⟨ihline, ihpipe, ihexec, ihblock⟩ := ih
    refine ⟨fun us c rest h hrest hn => ?_, fun us c rest h hrest hbar hn => ?_,
      fun us c rest h hrest hn => ?_, fun ts us c rs rest h hus hrest hn => ?_⟩
    · -- After the pipe come `&` and what follows the line.
      cases h with
      | @last ts c k hts =>
        rw [List.length_append, List.length_replicate] at hn
        have hpipe := ihpipe ts c _ hts (hrest.stops.backs k)
          (head_backs (hrest.head_ne (by rintro ⟨⟩)) k) (by omega)
        rw [List.append_assoc, takeLine, hpipe]
        show (takeBacks n c (List.replicate k .amp ++ rest) >>= _) = _
        rw [takeBacks_complete k (hrest.head_ne (by rintro ⟨⟩)) (by omega)]
        cases rest with
        | nil => rfl
        | cons t rest =>
          obtain rfl := hrest t rfl
          rfl
      | @list ts us c d k hts hus =>
        rw [List.length_append, List.length_append, List.length_replicate, List.length_cons] at hn
        have hassoc : ts ++ (List.replicate k .amp ++ .semi :: us) ++ rest =
            ts ++ (List.replicate k .amp ++ .semi :: (us ++ rest)) := by
          simp
        have hsemi : Stops (.semi :: (us ++ rest)) := by
          intro t ht
          exact .inr (.inr (.inr (Option.some.inj ht).symm))
        have hbar : (Tok.semi :: (us ++ rest)).head? ≠ some .bar := by
          intro h
          cases h
        have hamp : (Tok.semi :: (us ++ rest)).head? ≠ some .amp := by
          intro h
          cases h
        have hpipe := ihpipe ts c _ hts (hsemi.backs k) (head_backs hbar k) (by omega)
        rw [hassoc, takeLine, hpipe]
        show (takeBacks n c (List.replicate k .amp ++ .semi :: (us ++ rest)) >>= _) = _
        rw [takeBacks_complete k hamp (by omega)]
        show (takeLine n (us ++ rest) >>= fun r => .ok (Cmd.list (c.backs k) r.1, r.2)) = _
        rw [ihline us d rest hus hrest (by omega)]
        rfl
    · cases h with
      | last hexec =>
        rw [takePipe, ihexec us c rest hexec hrest (by omega)]
        cases rest with
        | nil => rfl
        | cons t rest =>
          cases t with
          | bar => exact absurd rfl hbar
          | _ => rfl
      | @pipe ts us c d hts hus =>
        rw [List.length_append, List.length_cons] at hn
        rw [List.append_assoc, List.cons_append, takePipe,
          ihexec ts c (.bar :: (us ++ rest)) hts (fun t ht => .inl (Option.some.inj ht).symm)
            (by omega)]
        show (takePipe n (us ++ rest) >>= fun r => .ok (Cmd.pipe c r.1, r.2)) = _
        rw [ihpipe us d rest hus hrest hbar (by omega)]
        rfl
    · cases h with
      | @block ts us c rs hts hus =>
        simp only [List.length_cons, List.length_append] at hn
        rw [List.cons_append, takeExec, ← List.cons_append]
        exact ihblock ts us c rs rest hts hus hrest (by omega)
      | @simple ts us ws rs rs' hts hus hws =>
        rw [List.length_append] at hn
        rw [List.append_assoc, takeExec_simple (simple_head hts hus hrest),
          takeRedirs_complete hts (hus.head_redir hrest) (by omega)]
        have hargs : takeArgs n ((Cmd.exec []).wrap rs) ([] : List Word).length (us ++ rest) =
            .ok ((Cmd.exec ([] ++ ws)).wrap (rs ++ rs'), rest) :=
          takeArgs_complete hus hrest (by omega) hws
        exact hargs
    · rw [List.cons_append, List.append_assoc, List.cons_append, takeBlock,
        ihline ts c (.rparen :: (us ++ rest)) h (fun t ht => (Option.some.inj ht).symm) (by omega)]
      exact takeRedirs_complete hus hrest.redir (by omega)

end Complete

def syntaxErrors : List String :=
  ["syntax", "missing file for redirection", "syntax - missing )", "too many args"]

/-- The parser returns, or panics about the line. -/
def Settles {α : Type} (r : Except Err α) : Prop :=
  ∀ e, r = .error e → ∃ msg ∈ syntaxErrors, e = .panic msg

section Settle

variable {α : Type}

theorem settles_ok (a : α) : Settles (.ok a : Except Err α) := nofun

theorem settles_panic {msg : String} (h : msg ∈ syntaxErrors) :
    Settles (.error (.panic msg) : Except Err α) := by
  rintro e he
  exact ⟨msg, h, (Except.error.inj he).symm⟩

theorem Settles.bind {β : Type} {r : Except Err α} {f : α → Except Err β} (h : Settles r)
    (hf : ∀ a, r = .ok a → Settles (f a)) : Settles (r >>= f) := by
  cases r with
  | ok a => exact hf a rfl
  | error e =>
    intro e' he
    obtain rfl := Except.error.inj he
    exact h e rfl

theorem takeRedirs_settles (c : Cmd) (ts : List Tok) (hn : ts.length < n) :
    Settles (takeRedirs n c ts) := by
  induction n generalizing c ts with
  | zero => omega
  | succ n ih =>
    cases ts with
    | nil => exact settles_ok _
    | cons t ts =>
      rw [takeRedirs]
      cases t.redir with
      | none => exact settles_ok _
      | some r =>
        cases ts with
        | nil => exact settles_panic (by decide)
        | cons t' ts =>
          rw [List.length_cons, List.length_cons] at hn
          cases t' with
          | word q eq => exact ih _ ts (by omega)
          | _ => exact settles_panic (by decide)

theorem takeArgs_settles (c : Cmd) (argc : ℕ) (ts : List Tok) (hn : ts.length < n) :
    Settles (takeArgs n c argc ts) := by
  induction n generalizing c argc ts with
  | zero => omega
  | succ n ih =>
    cases ts with
    | nil => exact settles_ok _
    | cons t ts =>
      rw [List.length_cons] at hn
      cases t with
      | bar | rparen | amp | semi => exact settles_ok _
      | word q eq =>
        rw [takeArgs]
        split_ifs
        · exact settles_panic (by decide)
        · refine (takeRedirs_settles _ ts (by omega)).bind fun r hr => ih _ _ _ ?_
          obtain ⟨us, rs, hts, -, -⟩ := takeRedirs_sound hr
          rw [hts, List.length_append] at hn
          omega
      | _ => exact settles_panic (by decide)

theorem takeBacks_settles (c : Cmd) (ts : List Tok) (hn : ts.length < n) :
    Settles (takeBacks n c ts) := by
  induction n generalizing c ts with
  | zero => omega
  | succ n ih =>
    cases ts with
    | nil => exact settles_ok _
    | cons t ts =>
      rw [List.length_cons] at hn
      cases t with
      | amp => exact ih _ ts (by omega)
      | _ => exact settles_ok _

theorem take_settles (n : ℕ) (ts : List Tok) :
    (4 * ts.length + 3 < n → Settles (takeLine n ts)) ∧
      (4 * ts.length + 2 < n → Settles (takePipe n ts)) ∧
      (4 * ts.length + 1 < n → Settles (takeExec n ts)) ∧
      (4 * ts.length < n → ts.head? = some .lparen → Settles (takeBlock n ts)) := by
  induction n generalizing ts with
  | zero =>
    exact ⟨fun h => absurd h (Nat.not_lt_zero _), fun h => absurd h (Nat.not_lt_zero _),
      fun h => absurd h (Nat.not_lt_zero _), fun h => absurd h (Nat.not_lt_zero _)⟩
  | succ n ih =>
    obtain ⟨hline, hpipe, -, hexec⟩ := take_sound n
    refine ⟨fun hn => ?_, fun hn => ?_, fun hn => ?_, fun hn hhead => ?_⟩
    · rw [takeLine]
      refine ((ih ts).2.1 (by omega)).bind fun l hl => ?_
      obtain ⟨us, hts, -⟩ := hpipe ts _ _ hl
      rw [hts, List.length_append] at hn
      refine (takeBacks_settles _ _ (by omega)).bind fun l' hl' => ?_
      obtain ⟨k, hts', -⟩ := takeBacks_sound hl'
      rw [hts', List.length_append] at hn
      cases hv : l'.2 with
      | nil => exact settles_ok _
      | cons t ts =>
        rw [hv, List.length_cons] at hn
        cases t with
        | semi => exact ((ih ts).1 (by omega)).bind fun r _ => settles_ok _
        | _ => exact settles_ok _
    · rw [takePipe]
      refine ((ih ts).2.2.1 (by omega)).bind fun l hl => ?_
      obtain ⟨us, hts, -⟩ := hexec ts _ _ hl
      rw [hts, List.length_append] at hn
      cases hv : l.2 with
      | nil => exact settles_ok _
      | cons t ts =>
        rw [hv, List.length_cons] at hn
        cases t with
        | bar => exact ((ih ts).2.1 (by omega)).bind fun r _ => settles_ok _
        | _ => exact settles_ok _
    · by_cases hhead : ts.head? = some .lparen
      · cases ts with
        | nil => cases hhead
        | cons t ts =>
          cases hhead
          rw [takeExec]
          exact (ih _).2.2.2 (by omega) rfl
      · rw [takeExec_simple hhead]
        refine (takeRedirs_settles _ ts (by omega)).bind fun r hr => takeArgs_settles _ _ _ ?_
        obtain ⟨us, rs, hts, -, -⟩ := takeRedirs_sound hr
        rw [hts, List.length_append] at hn
        omega
    · cases ts with
      | nil => cases hhead
      | cons t ts =>
        cases hhead
        rw [List.length_cons] at hn
        rw [takeBlock]
        refine ((ih ts).1 (by omega)).bind fun l hl => ?_
        obtain ⟨us, hts, -⟩ := hline ts _ _ hl
        rw [hts, List.length_append] at hn
        cases hv : l.2 with
        | nil => exact settles_panic (by decide)
        | cons t ts' =>
          rw [hv, List.length_cons] at hn
          cases t with
          | rparen => exact takeRedirs_settles _ _ (by omega)
          | _ => exact settles_panic (by decide)

end Settle

end Xv6.Sh
