import Xv6.Fs.OpenCalls

namespace Xv6
open Lib Prog Function

inductive Action where
  | open (path : Option Str) (omode : Option ℕ)
  | read (fd : Option ℤ) (n : Option ℕ)
  | write (fd : Option ℤ) (src : Option (List UInt8))
  | close (fd : Option ℤ)
  | dup (fd : Option ℤ)
  | fstat (fd : Option ℤ) (st : Bool)
  | link (old new : Option Str)
  | unlink (path : Option Str)
  | mkdir (path : Option Str)
  | mknod (path : Option Str) (major minor : Option ℤ)
  | chdir (path : Option Str)
  | exec (path : Option Str) (argv : Option (List Str))
  | pipe (buf : Bool)
  | fork (np : Pid)
  | exit

namespace Action

def prog (p : Pid) : Action → FsM ℤ
  | .open path omode => sysOpen p path omode
  | .read fd n => sysRead p fd n
  | .write fd src => sysWrite p fd src
  | .close fd => sysClose p fd
  | .dup fd => sysDup p fd
  | .fstat fd st => sysFstat p fd st
  | .link old new => sysLink p old new
  | .unlink path => sysUnlink p path
  | .mkdir path => sysMkdir p path
  | .mknod path major minor => sysMknod p path major minor
  | .chdir path => sysChdir p path
  | .exec path argv => sysExec p path argv
  | .pipe buf => sysPipe p buf
  | .fork np => Xv6.fork p np
  | .exit => do
    Xv6.exit p
    return 0

/-- `fork` takes a process that is not in use. -/
def Enabled (s : Fs) : Action → Prop
  | .fork np => (s.proc np).cwd = none ∧ ∀ fd, (s.proc np).ofile fd = none
  | _ => True

def paths : Action → List (Option Str)
  | .open path _ => [path]
  | .link old new => [old, new]
  | .unlink path => [path]
  | .mkdir path => [path]
  | .mknod path _ _ => [path]
  | .chdir path => [path]
  | .exec path _ => [path]
  | _ => []

end Action

/-- Directories and the names in them that the call may enter. -/
def Fs.enters (s : Fs) (p : Pid) : Action → ℕ → Str → Prop
  | .open path omode => s.opens p path omode
  | .link _ new => s.parent p new
  | .mkdir path => s.parent p path
  | .mknod path _ _ => s.parent p path
  | _ => fun _ _ => False

/-- Directories and the names in them that the call may remove. -/
def Fs.removes (s : Fs) (p : Pid) : Action → ℕ → Str → Prop
  | .unlink path => s.parent p path
  | _ => fun _ _ => False

/-- Completed calls, each in a state where `C` holds of the caller and the call. -/
inductive Runs (C : Fs → Pid → Action → Prop) (s : Shared Fs Slot Pid) : Shared Fs Slot Pid → Prop
  | start : Runs C s s
  | call {t u : Shared Fs Slot Pid} {p : Pid} {a : Action} {r : ℤ} (h : Runs C s t)
      (hen : a.Enabled t.st) (hC : C t.st p a) (hrun : (a.prog p).run p t = .done r u) : Runs C s u

def follow (p : Pid) : List Action → Shared Fs Slot Pid → Option (Shared Fs Slot Pid)
  | [], s => some s
  | a :: l, s => ((a.prog p).run p s).result.bind fun r => follow p l r.2

theorem Runs.follow {p : Pid} {l : List Action} {s t u : Shared Fs Slot Pid}
    {C : Fs → Pid → Action → Prop} (h : Runs C s t) (hC : ∀ a ∈ l, ∀ t, a.Enabled t ∧ C t p a)
    (hl : Xv6.follow p l t = some u) : Runs C s u := by
  induction l generalizing t with
  | nil =>
    cases hl
    exact h
  | cons a l ih =>
    obtain ⟨⟨r, v⟩, hr, hv⟩ := Option.bind_eq_some_iff.mp hl
    have hrun : (a.prog p).run p t = .done r v := Outcome.eq_done_of_result hr
    have ha := hC a (by simp) t.st
    exact ih (h.call ha.1 ha.2 hrun) (fun b hb => hC b (by simp [hb])) hv

structure Acts (s : Fs) (p : Pid) (a : Action) (t : Fs) : Prop
    extends Ended (s.enters p a) (s.removes p a) s t where
  settled : Settled t
  cwd : ∀ q i, t.cwd q = some i → (∃ q', s.cwd q' = some i) ∨
    ∃ path n rest, a = .chdir path ∧ Loaded t i n ∧ s.walks p path n rest ∧
      (tree s n).type = T_DIR

section Acts

variable {p : Pid} {E : String → Prop} {s t : Fs} {P P' U U' : ℕ → Str → Prop} {a : Action}

theorem Effect.mono {N : ℕ} {T T' : Tree} (h : Effect N P U T T')
    (hP : ∀ d name, P d name → P' d name) (hU : ∀ d name, U d name → U' d name) :
    Effect N P' U' T T' := by
  obtain ⟨T1, hc, hf⟩ := h
  refine ⟨T1, ?_, hf⟩
  cases hc with
  | same => exact .same
  | create d k x name type h1 h2 h3 h4 h5 h6 => exact .create d k x name type (hP _ _ h1) h2 h3 h4 h5 h6
  | link d k x name h1 h2 h3 h4 => exact .link d k x name (hP _ _ h1) h2 h3 h4
  | unlink d k x name h1 h2 h3 => exact .unlink d k x name (hU _ _ h1) h2 h3

theorem Done.acts (h : Done (s.enters p a) (s.removes p a) s t) (ht : Settled t) : Acts s p a t :=
  ⟨h.toEnded, ht, fun q _ hq => .inl ⟨q, h.cwd ▸ hq⟩⟩

theorem Keeps.acts (h : Keeps s t) (hs : Settled s) : Acts s p a t :=
  Done.acts (h.done hs.anchored) (h.settled hs)

theorem ok_call {x : FsM ℤ} (c : Balance.Call) (hx : c.prog p = x) (v : Balance.View)
    (hv : Balance.Ok v) (_ : v.proc = s.proc) : Views (Balance.view p) p x v fun _ w => Balance.Ok w :=
  hx ▸ (Balance.views_call c hv).mono fun _ _ h => h.2.2

theorem does_done {x : FsM ℤ} (hs : Settled s)
    (hx : Does p E x s fun _ t => Done (s.enters p a) (s.removes p a) s t)
    (hv : ∀ v, Balance.Ok v → v.proc = s.proc →
      Views (Balance.view p) p x v fun _ w => Balance.Ok w) :
    Does p E x s fun _ t => Acts s p a t := by
  refine (does_and_ok hs hx hv).mono ?_
  rintro _ t ⟨h, hb, hf⟩
  exact h.acts (hs.after h.toEnded hb hf fun f hf => .inl (h.files f hf))

theorem does_sysMknod (hE : Tolerates E) (hs : Settled s) {path : Option Str}
    (hno : s.Passable p E path) (major minor : Option ℤ) :
    Does p E (sysMknod p path major minor) s (Answers (s.parent p path) U s) := by
  unfold sysMknod
  split
  · exact does_makeNode hE hs hno (by decide)
  · have hnone : s.Passable p E none := .inl fun n rest hx => by cases hx.choose_spec.1
    refine (does_makeNode (U := U) hE hs hnone (by decide)).mono fun r t h => h.imp_right fun h => ?_
    refine ⟨h.1, ⟨h.2.sane, h.2.sb, h.2.persist, h.2.anchored,
      h.2.effect.mono (fun d name hd => ?_) fun _ _ h => h⟩, h.2.cwd, h.2.files⟩
    obtain ⟨rest, ⟨x, hx, -⟩, -⟩ := hd
    cases hx

theorem does_action (hE : Tolerates E) (hs : Settled s) (a : Action) (hen : a.Enabled s)
    (hno : ∀ path ∈ a.paths, s.Passable p E path)
    (hne : ∀ d k x name, Unlinkable (tree s) d k x name → x ≠ d) :
    Does p E (a.prog p) s fun _ t => Acts s p a t := by
  have keeps : ∀ {x : FsM ℤ}, Does p E x s (fun _ t => Keeps s t) →
      Does p E x s fun _ t => Acts s p a t := fun h => h.mono fun _ _ ht => ht.acts hs
  cases a with
  | «open» path omode =>
    refine (does_and_ok hs (does_sysOpen (U := fun _ _ => False) hE hs
      (hno path (by simp [Action.paths]))) (ok_call (.open path omode) rfl)).mono ?_
    rintro _ t ⟨h, hb, hf⟩
    exact ⟨h.toEnded, hs.after h.toEnded hb hf h.files, fun q _ hq => .inl ⟨q, h.cwd ▸ hq⟩⟩
  | read fd n => exact keeps (does_sysRead hE hs fd n)
  | write fd src => exact keeps (does_sysWrite hE hs fd src)
  | close fd =>
    exact does_done hs ((does_sysClose hE hs fd).mono fun _ _ h => h.done) (ok_call (.close fd) rfl)
  | dup fd => exact keeps ((does_sysDup hE hs fd).mono fun _ _ h => h.1)
  | fstat fd st => exact keeps (does_sysFstat hE hs fd st)
  | link old new =>
    exact does_done hs ((does_sysLink hE hs (hno old (by simp [Action.paths]))
      (hno new (by simp [Action.paths]))).mono fun _ _ h => h.done hs.anchored)
      (ok_call (.link old new) rfl)
  | unlink path =>
    exact does_done hs ((does_unlink hE hs (hno path (by simp [Action.paths])) hne).mono
      fun _ _ h => h.done hs.anchored) (ok_call (.unlink path) rfl)
  | mkdir path =>
    exact does_done hs ((does_makeNode hE hs (hno path (by simp [Action.paths])) (by decide)).mono
      fun _ _ h => h.done hs.anchored) (ok_call (.mkdir path) rfl)
  | mknod path major minor =>
    exact does_done hs ((does_sysMknod hE hs (hno path (by simp [Action.paths])) major minor).mono
      fun _ _ h => h.done hs.anchored) (ok_call (.mknod path major minor) rfl)
  | chdir path =>
    refine (does_and_ok hs (does_sysChdir (P := fun _ _ => False) (U := fun _ _ => False) hE hs
      (hno path (by simp [Action.paths]))) (ok_call (.chdir path) rfl)).mono ?_
    rintro _ t ⟨⟨-, h⟩ | ⟨-, h, hfiles, ip, n, rest, hcwd, hip, hW, hdir⟩, hb, hf⟩
    · exact h.keeps.acts hs
    · refine ⟨h, hs.after h hb hf fun f hf => .inl (hfiles f hf), fun q i hq => ?_⟩
      rw [hcwd] at hq
      by_cases hqp : q = p
      · subst hqp
        rw [update_self] at hq
        cases hq
        exact .inr ⟨path, n, rest, rfl, hip, hW, hdir⟩
      · rw [update_of_ne hqp] at hq
        exact .inl ⟨q, hq⟩
  | exec path argv => exact keeps (does_sysExec hE hs (hno path (by simp [Action.paths])) argv)
  | pipe buf => exact keeps ((does_sysPipe hs buf).mono fun _ _ h => h.1)
  | fork np =>
    refine (does_and_ok hs (does_fork (P := fun _ _ => False) (U := fun _ _ => False) hE hs np)
      fun v hv hproc => Balance.views_fork hv (by rw [hproc]; exact hen.1)).mono ?_
    rintro _ t ⟨⟨h, hfiles, i, hi, hcwd⟩, hb, hf⟩
    refine ⟨h, hs.after h hb hf fun f hf => .inl (hfiles f hf), fun q j hq => .inl ?_⟩
    rw [hcwd] at hq
    by_cases hqn : q = np
    · subst hqn
      rw [update_self] at hq
      exact ⟨p, hi.trans hq⟩
    · rw [update_of_ne hqn] at hq
      exact ⟨q, hq⟩
  | exit =>
    refine Does.bind (does_and_ok hs (does_exit hE hs) fun v hv _ => Balance.views_exit hv) ?_
    rintro _ t ⟨⟨h, hfiles, hcwd⟩, hb, hf⟩
    have hend : Ended (fun _ _ => False) (fun _ _ => False) s t := h.ends
    refine .ret ⟨hend, hs.after hend hb hf fun f hf => .inl (hfiles f hf), fun q i hq => .inl ?_⟩
    rw [hcwd] at hq
    by_cases hqp : q = p
    · subst hqp
      rw [update_self] at hq
      cases hq
    · rw [update_of_ne hqp] at hq
      exact ⟨q, hq⟩

end Acts

end Xv6
