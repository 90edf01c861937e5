import Xv6.Files.Calls

namespace Xv6.Files
open Lib

/-- The `n`-th use of `f` has not ended. -/
def State.Opened (s : State) (f : Fin NFILE) (n : ℕ) : Prop :=
  n = s.hist.opens f ∧ (s.file f).type ≠ .fdNone

/-- An end of the pipe that the page is in its `m`-th use has not been closed. -/
def State.PipeOpen (s : State) (page : Page) (m : ℕ) : Prop :=
  ∃ f n w, s.hist.what f n = some (.pipe page m w) ∧ s.hist.pipecloses f n = 0

/-- The accounts, with what the calls in progress have in hand. -/
structure Accounts (s : State) (G : Hands) : Prop where
  idle : ∀ p, s.busy p = false → G p = none
  refs : ∀ f, (s.file f).ref = ∑ p, own s G p f
  nonneg : ∀ p f, 0 ≤ own s G p f
  typed : ∀ f, (s.file f).type ≠ .fdNone → 0 < (s.file f).ref
  fresh : ∀ f, (s.file f).type = .fdNone → 0 < (s.file f).ref → ∃ p, f ∈ fresh G p
  inode : ∀ f n ip, s.hist.what f n = some (.inode ip) → s.hist.pipecloses f n = 0
  pipe : ∀ f n page m w, s.hist.what f n = some (.pipe page m w) → s.hist.iputs f n = 0
  opened : ∀ f n, s.Opened f n →
    s.hist.iputs f n + s.hist.pipecloses f n = 0 ∧ closers (closing G) f n = 0
  closed : ∀ f n, s.hist.what f n ≠ none → ¬ s.Opened f n →
    ((s.hist.iputs f n + s.hist.pipecloses f n : ℕ) : ℤ) + closers (closing G) f n = 1
  kept : ∀ page m, s.PipeOpen page m →
    s.hist.kfrees page m = 0 ∧ freers (freeing G) page m = 0
  freed : ∀ page m, 1 ≤ m → m ≤ s.hist.pipes page → ¬ s.PipeOpen page m →
    (s.hist.kfrees page m : ℤ) + freers (freeing G) page m = 1

/-- The accounts when no call is in progress. -/
structure Settled (s : State) : Prop where
  refs : ∀ f, (s.file f).ref = ∑ p, slots (s.ofile p) f
  inode : ∀ f n ip, s.hist.what f n = some (.inode ip) → s.hist.pipecloses f n = 0 ∧
    s.hist.iputs f n = if n = s.hist.opens f ∧ 0 < (s.file f).ref then 0 else 1
  pipe : ∀ f n page m w, s.hist.what f n = some (.pipe page m w) → s.hist.iputs f n = 0 ∧
    s.hist.pipecloses f n = if n = s.hist.opens f ∧ 0 < (s.file f).ref then 0 else 1
  kept : ∀ page m, s.PipeOpen page m → s.hist.kfrees page m = 0
  freed : ∀ page m, 1 ≤ m → m ≤ s.hist.pipes page → ¬ s.PipeOpen page m →
    s.hist.kfrees page m = 1

theorem closers_none (f : Fin NFILE) (n : ℕ) : closers (fun _ => none) f n = 0 := by
  simp [closers, count]

theorem freers_none (page : Page) (n : ℕ) : freers (fun _ => none) page n = 0 := by
  simp [freers, count]

section Accounts

variable {s : State} {G : Hands} {f : Fin NFILE} {n m : ℕ} {page : Page}

theorem Inv.over_iff (h : Inv s G) (hn : s.hist.what f n ≠ none) :
    (fileLife s (closing G)).Over f n ↔ ¬ s.Opened f n := by
  obtain ⟨h1, hle⟩ := h.lives.what f n hn
  unfold Life.Over State.Opened fileLife
  simp only
  tauto

theorem Inv.pipe_over_iff (h : Inv s G) (he : s.hist.Ends) (h1 : 1 ≤ m)
    (hm : m ≤ s.hist.pipes page) :
    (pipeLife s (freeing G)).Over page m ↔ ¬ s.PipeOpen page m := by
  have hopen : s.PipeOpen page m ↔
      m = s.hist.pipes page ∧ ∃ w, (s.pipe page).isOpen w = true := by
    constructor
    · rintro ⟨f, n, w, hw, h0⟩
      obtain ⟨hlast, ho⟩ := (h.lives.pipe f n page m w hw).2.2.2.mp h0
      exact ⟨hlast, w, ho⟩
    · rintro ⟨hlast, w, ho⟩
      obtain ⟨f, n, hw⟩ := he page m w h1 hm
      exact ⟨f, n, w, hw, (h.lives.pipe f n page m w hw).2.2.2.mpr ⟨hlast, ho⟩⟩
  rw [hopen, Bool.exists_bool]
  unfold Life.Over pipeLife Pipe.isOpen
  simp only
  tauto

theorem Inv.opened_what (h : Inv s G) (ho : s.Opened f n) : s.hist.what f n ≠ none := by
  obtain ⟨rfl, ht⟩ := ho
  rw [((h.files f).live ht).2.2]
  exact Option.some_ne_none _

theorem Inv.accounts (h : Inv s G) (he : s.hist.Ends) : Accounts s G where
  idle p hp := by
    cases hG : G p with
    | none => rfl
    | some g =>
      rw [(h.tabs.busy p g hG).2.2] at hp
      cases hp
  refs f := (h.files f).sum
  nonneg p f := (h.files f).nonneg p
  typed f hf := ((h.files f).live hf).1
  fresh f hf hpos := by
    rw [(h.files f).sum] at hpos
    obtain ⟨p, -, hp⟩ := Finset.exists_lt_of_sum_lt (s := Finset.univ)
      (f := fun _ : Pid => (0 : ℤ)) (g := ownOf s G f) (by simpa using hpos)
    exact ⟨p, ((h.files f).typed p hp).resolve_left fun hne => hne hf⟩
  inode := h.lives.inode
  pipe f n page m w hw := (h.lives.pipe f n page m w hw).1
  opened f n ho := by
    have hover := (h.over_iff (h.opened_what ho)).not.mpr (not_not.mpr ho)
    exact h.lives.files.not_over f n hover
  closed f n hn ho := h.lives.files.ended f n ((h.over_iff hn).mpr ho)
  kept page m ho := by
    obtain ⟨f, n, w, hw, h0⟩ := id ho
    obtain ⟨-, h1, hm, -⟩ := h.lives.pipe f n page m w hw
    exact h.lives.pipes.not_over page m ((h.pipe_over_iff he h1 hm).not.mpr (not_not.mpr ho))
  freed page m h1 hm ho := h.lives.pipes.ended page m ((h.pipe_over_iff he h1 hm).mpr ho)

theorem Accounts.settled (h : Accounts s G) (hidle : ∀ p, s.busy p = false) : Settled s := by
  obtain rfl : G = fun _ => none := funext fun p => h.idle p (hidle p)
  have hclosers : ∀ f n, closers (closing fun _ => none) f n = 0 := closers_none
  have hfreers : ∀ page m, freers (freeing fun _ => none) page m = 0 := freers_none
  have hopened : ∀ f n, s.Opened f n ↔ n = s.hist.opens f ∧ 0 < (s.file f).ref := by
    refine fun f n => and_congr_right fun _ => ⟨h.typed f, fun hpos ht => ?_⟩
    obtain ⟨p, hp⟩ := h.fresh f ht hpos
    cases hp
  have hcloses : ∀ f n, s.hist.what f n ≠ none → s.hist.iputs f n + s.hist.pipecloses f n =
      if n = s.hist.opens f ∧ 0 < (s.file f).ref then 0 else 1 := by
    intro f n hn
    split_ifs with ho
    · exact (h.opened f n ((hopened f n).mpr ho)).1
    · have := h.closed f n hn (fun ho' => ho ((hopened f n).mp ho'))
      rw [hclosers] at this
      omega
  refine ⟨h.refs, fun f n ip hw => ?_, fun f n page m w hw => ?_, fun page m ho => (h.kept page m ho).1,
    fun page m h1 hm ho => ?_⟩
  · have h0 := h.inode f n ip hw
    have := hcloses f n (by rw [hw]; exact Option.some_ne_none _)
    exact ⟨h0, by omega⟩
  · have h0 := h.pipe f n page m w hw
    have := hcloses f n (by rw [hw]; exact Option.some_ne_none _)
    exact ⟨h0, by omega⟩
  · have := h.freed page m h1 hm ho
    rw [hfreers] at this
    omega

end Accounts

theorem inv_boot : Inv boot fun _ => none := by
  have hslots : ∀ f, slots (fun _ => none) f = 0 := fun f => by simp [slots, count]
  refine ⟨fun f => ⟨?_, fun p => (hslots f).ge, fun p hpos => ?_, ?_, fun hf => absurd rfl hf⟩,
    ⟨⟨?_, ?_⟩, ⟨?_, ?_⟩, ?_, ?_, ?_, ?_, ?_, ?_, ?_⟩, ⟨?_, fun _ _ => rfl, fun _ _ _ => rfl, ?_, ?_⟩⟩
  · show (0 : ℤ) = ∑ p, slots (fun _ => none) f
    rw [hslots, Finset.sum_const_zero]
  · have : 0 < slots (fun _ => none) f := hpos
    rw [hslots] at this
    exact absurd this (lt_irrefl _)
  · rintro p ⟨⟩
  · rintro f n ⟨h1, h2 : n ≤ 0, -⟩
    omega
  · exact fun f n _ => ⟨rfl, closers_none f n⟩
  · rintro page n ⟨h1, h2 : n ≤ 0, -⟩
    omega
  · exact fun page n _ => ⟨rfl, freers_none page n⟩
  · exact fun f n hn => absurd rfl hn
  · rintro f n ip ⟨⟩
  · rintro f n page m w ⟨⟩
  · rintro f n f' n' page m w ⟨⟩
  · rintro page ((h | h) | h)
    · cases h
    · cases h
    · have : 0 < freers (fun _ => none) page 0 := h
      rw [freers_none] at this
      exact absurd this (lt_irrefl _)
  · rintro p f n e ⟨⟩
  · rintro p page n ⟨⟩
  · rintro p h ⟨⟩
  · rintro p h np l ⟨⟩
  · rintro p q h h' np l l' ⟨⟩

theorem allSafe_start (l : Pid → List Call) :
    (start l).AllSafe protocol fun _ _ g => g = none := by
  refine ⟨fun _ => none, ⟨inv_boot, fun page m w h1 hm => ?_⟩, fun p => safe_calls (l p)⟩
  have hm' : m ≤ 0 := hm
  omega

/-- Every reference belongs to a descriptor or to a call in progress, whatever is dropped last is
closed once, and every pipe is freed once. -/
theorem files_accounted {l : Pid → List Call} {c : Config State Empty Pid Unit}
    (h : Config.Reach (start l) c) :
    (∃ G, Accounts c.shared.st G) ∧ ((∀ p, c.shared.st.busy p = false) → Settled c.shared.st) ∧
      ∀ p m, c.panics p = some m → m = "init exiting" := by
  have hsafe := (allSafe_start l).run h
  obtain ⟨G, ⟨hi, he⟩, -⟩ := id hsafe
  have hacc := hi.accounts he
  exact ⟨⟨G, hacc⟩, hacc.settled, fun p m hm => hsafe.panics hm⟩

/-- The first process makes a pipe and another process, and closes its ends; the other exits. -/
def sharePipe (p : Pid) : List Call :=
  if p = initproc then [.pipe true (some 5), .fork true true, .close (some 0), .close (some 1)]
  else if p.val = 1 then [.exit] else []

theorem files_accounted_sharePipe : ∃ c, Config.Reach (start sharePipe) c ∧
    (∀ p, c.shared.st.busy p = false) ∧ c.shared.st.hist.kfrees 5 1 = 1 ∧
    Settled c.shared.st := by
  let ps := List.replicate 41 initproc ++ List.replicate 25 ⟨1, by decide⟩
  have hrun : (Config.exec ps (start sharePipe)).any (fun c =>
      decide ((∀ p, c.shared.st.busy p = false) ∧ c.shared.st.hist.kfrees 5 1 = 1)) = true := by
    decide +kernel
  obtain ⟨c, hc, hprop⟩ := (Option.any_eq_true _ _).mp hrun
  obtain ⟨hidle, hfree⟩ := of_decide_eq_true hprop
  have hreach := Config.reach_of_exec hc
  exact ⟨c, hreach, hidle, hfree, (files_accounted hreach).2.1 hidle⟩

end Xv6.Files
