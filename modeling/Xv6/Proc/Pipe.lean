import Xv6.Lib.Bytes
import Xv6.Lib.Ring
import Xv6.Proc.Monitor

namespace Xv6.Pipes
open Lib Proc

def PIPESIZE : ℕ := 512

inductive Chan where
  | nread
  | nwrite
  deriving DecidableEq

/-- `struct pipe`, with what has gone through it so far. -/
structure Pipe where
  data : Bytes PIPESIZE
  nread : ℕ
  nwrite : ℕ
  readopen : Bool
  writeopen : Bool
  /-- All bytes that `pipewrite` has stored. -/
  stored : List UInt8
  taken : List UInt8

def Pipe.Full (s : Pipe) : Prop := s.nwrite = (s.nread + PIPESIZE) % 2 ^ 32

def Pipe.Empty (s : Pipe) : Prop := s.nread = s.nwrite

instance (s : Pipe) : Decidable s.Full := inferInstanceAs (Decidable (_ = _))
instance (s : Pipe) : Decidable s.Empty := inferInstanceAs (Decidable (_ = _))

/-- `p->data[p->nwrite++ % PIPESIZE] = b`. -/
def Pipe.store (s : Pipe) (b : UInt8) : Pipe :=
  { s with
    data := s.data.put (s.nwrite % PIPESIZE) [b]
    nwrite := (s.nwrite + 1) % 2 ^ 32
    stored := s.stored ++ [b] }

/-- `addr[i] = p->data[p->nread++ % PIPESIZE]`. -/
def Pipe.take (s : Pipe) : Pipe :=
  { s with
    nread := (s.nread + 1) % 2 ^ 32
    taken := s.taken ++ [s.data.get (s.nread % PIPESIZE)] }

def Pipe.close (s : Pipe) (writable : Bool) : Pipe :=
  if writable then { s with writeopen := false } else { s with readopen := false }

inductive Loc (P : Type) where
  /-- Outside, with the result of its last call. -/
  | out (r : Option ℤ)
  | kill (q : P)
  | write (addr : ℕ → UInt8) (n : ℤ)
  /-- `fresh` tells whether bytes have been stored since the last `wakeup`. -/
  | writeLoop (addr : ℕ → UInt8) (n : ℤ) (i : ℕ) (fresh : Bool)
  | writeFull (addr : ℕ → UInt8) (n : ℤ) (i : ℕ)
  | writeSleep (addr : ℕ → UInt8) (n : ℤ) (i : ℕ)
  | writeEnd (n : ℤ)
  | read (n : ℤ)
  | readCheck (n : ℤ)
  | readSleep (n : ℤ)
  | readLoop (n : ℤ) (i : ℕ)
  | readEnd (i : ℕ)
  | close (writable : Bool)
  | closeSet (writable : Bool)
  | closeWake (writable : Bool)
  | unlock (r : Option ℤ)

def Loc.isCall {P : Type} : Loc P → Bool
  | kill _ | write _ _ | read _ | close _ => true
  | _ => false

/-- The body of the loop of `pipewrite`, up to where it sleeps. -/
def writeAct {P : Type} (addr : ℕ → UInt8) (n : ℤ) (i : ℕ) (killed : Bool) (s : Pipe) :
    Pipe × Loc P :=
  if i < n then
    if s.Full then
      if s.readopen = false ∨ killed = true then (s, .unlock (some (-1)))
      else (s, .writeFull addr n i)
    else (s.store (addr i), .writeLoop addr n (i + 1) true)
  else (s, .writeEnd n)

def readCheck {P : Type} (n : ℤ) (killed : Bool) (s : Pipe) : Pipe × Loc P :=
  if s.Empty ∧ s.writeopen = true then
    if killed = true then (s, .unlock (some (-1))) else (s, .readSleep n)
  else (s, .readLoop n 0)

/-- The body of the loop `piperead-copy`. -/
def readAct {P : Type} (n : ℤ) (i : ℕ) (s : Pipe) : Pipe × Loc P :=
  if i < n ∧ ¬ s.Empty then (s.take, .readLoop n (i + 1)) else (s, .readEnd i)

def code {P : Type} : P → Loc P → Instr P Unit Chan Pipe (Loc P)
  | _, .out _ => .call Loc.isCall
  | _, .kill q => .kill q (.out none)
  | _, .write addr n => .acquire (.lk ()) (.writeLoop addr n 0 false)
  | _, .writeLoop addr n i _ => .act (writeAct addr n i)
  | _, .writeFull addr n i => .wakeup .nread (.writeSleep addr n i)
  | _, .writeSleep addr n i => .sleep .nwrite (.lk ()) (.writeLoop addr n i false)
  | _, .writeEnd n => .wakeup .nread (.unlock (some n))
  | _, .read n => .acquire (.lk ()) (.readCheck n)
  | _, .readCheck n => .act (readCheck n)
  | _, .readSleep n => .sleep .nread (.lk ()) (.readCheck n)
  | _, .readLoop n i => .act fun _ => readAct n i
  | _, .readEnd i => .wakeup .nwrite (.unlock (some i))
  | _, .close writable => .acquire (.lk ()) (.closeSet writable)
  | _, .closeSet writable => .act fun _ s => (s.close writable, .closeWake writable)
  | _, .closeWake writable =>
    .wakeup (if writable then .nread else .nwrite) (.unlock none)
  | _, .unlock r => .release (.lk ()) (.out r)

structure Boot {P : Type} (s : State P Unit Chan Pipe (Loc P)) : Prop extends Start s where
  empty : s.st.nread = 0 ∧ s.st.nwrite = 0
  fresh : s.st.stored = [] ∧ s.st.taken = []
  opened : s.st.readopen = true ∧ s.st.writeopen = true
  out : ∀ p, s.ctl p = .pc (.out none)

/-- `nwrite - nread` in 32 bits. -/
def Pipe.count (s : Pipe) : ℕ := (s.nwrite + 2 ^ 32 - s.nread) % 2 ^ 32

def Pipe.buffered (s : Pipe) : List UInt8 := ring PIPESIZE s.data.get s.nread s.count

structure Pipe.Ok (s : Pipe) : Prop where
  nread_lt : s.nread < 2 ^ 32
  nwrite_lt : s.nwrite < 2 ^ 32
  count_le : s.count ≤ PIPESIZE
  /-- What has been stored and not taken is in the pipe, in order. -/
  queue : s.stored = s.taken ++ s.buffered

theorem Pipe.Ok.store {s : Pipe} (h : s.Ok) (hfull : ¬ s.Full) (b : UInt8) : (s.store b).Ok := by
  have h1 := h.nread_lt
  have h2 := h.nwrite_lt
  have h3 := h.count_le
  unfold Pipe.Full at hfull
  unfold Pipe.count at h3
  simp only [PIPESIZE] at hfull h3
  have hcount : (s.store b).count = s.count + 1 := by
    simp only [Pipe.count, Pipe.store]
    omega
  have hlt : s.count < PIPESIZE := by
    simp only [Pipe.count, PIPESIZE]
    omega
  -- The place behind the last byte is the one that `nwrite` names.
  have hplace : (s.nread + s.count) % PIPESIZE = s.nwrite % PIPESIZE := by
    simp only [Pipe.count, PIPESIZE]
    omega
  have hmod : s.nwrite % PIPESIZE < PIPESIZE := Nat.mod_lt _ (by decide)
  refine ⟨h1, Nat.mod_lt _ (by decide), by rw [hcount]; exact hlt, ?_⟩
  have hpush : ring PIPESIZE (s.store b).data.get s.nread (s.count + 1) =
      ring PIPESIZE s.data.get s.nread s.count ++ [b] := by
    refine ring_push hlt ?_ fun j hj hne => ?_
    · rw [hplace]
      show (s.data.put _ [b]).get _ = b
      rw [Bytes.get_put_of_mem _ _ hmod le_rfl (by simp)]
      simp
    · rw [hplace] at hne
      show (s.data.put _ [b]).get _ = _
      rcases Nat.lt_or_gt_of_ne hne with hlt | hgt
      · exact Bytes.get_put_of_lt _ _ hlt
      · exact Bytes.get_put_of_ge _ _ hgt
  unfold Pipe.buffered
  rw [hcount]
  show s.stored ++ [b] = s.taken ++ ring PIPESIZE (s.store b).data.get s.nread (s.count + 1)
  rw [hpush, h.queue, List.append_assoc]
  rfl

theorem Pipe.Ok.take {s : Pipe} (h : s.Ok) (hempty : ¬ s.Empty) : s.take.Ok := by
  have h1 := h.nread_lt
  have h2 := h.nwrite_lt
  have h3 := h.count_le
  unfold Pipe.Empty at hempty
  have hcount : s.count = s.take.count + 1 := by
    simp only [Pipe.count, Pipe.take]
    omega
  refine ⟨Nat.mod_lt _ (by decide), h2, by omega, ?_⟩
  have hpop : s.buffered = s.data.get (s.nread % PIPESIZE) :: s.take.buffered := by
    unfold Pipe.buffered
    rw [hcount, ring_succ]
    show _ = _ :: ring PIPESIZE s.data.get ((s.nread + 1) % 2 ^ 32) s.take.count
    rw [ring_mod (by decide)]
  show s.stored = (s.taken ++ [s.data.get (s.nread % PIPESIZE)]) ++ s.take.buffered
  rw [h.queue, hpop, List.append_assoc]
  rfl

theorem Pipe.Ok.close {s : Pipe} (h : s.Ok) (writable : Bool) : (s.close writable).Ok := by
  cases writable with
  | true | false => exact ⟨h.nread_lt, h.nwrite_lt, h.count_le, h.queue⟩

theorem Boot.ok {P : Type} {s : State P Unit Chan Pipe (Loc P)} (h : Boot s) : s.st.Ok := by
  have hcount : s.st.count = 0 := by
    unfold Pipe.count
    rw [h.empty.1, h.empty.2]
    rfl
  refine ⟨by rw [h.empty.1]; decide, by rw [h.empty.2]; decide, by rw [hcount]; decide, ?_⟩
  unfold Pipe.buffered
  rw [h.fresh.1, h.fresh.2, hcount]
  rfl

section Runs

theorem ok_act {P : Type} {p : P} {x : Loc P} {f : Bool → Pipe → Pipe × Loc P} {killed : Bool} {s : Pipe}
    (hcode : code p x = .act f) (h : s.Ok) : (f killed s).1.Ok := by
  cases x with
  | writeLoop addr n i fresh =>
    cases hcode
    unfold writeAct
    split_ifs with hi hfull hclosed
    · exact h
    · exact h
    · exact h.store hfull _
    · exact h
  | readCheck n =>
    cases hcode
    unfold readCheck
    split_ifs <;> exact h
  | readLoop n i =>
    cases hcode
    simp only [readAct]
    split_ifs with hi
    · exact h.take hi.2
    · exact h
  | closeSet writable =>
    cases hcode
    exact h.close writable
  | _ => cases hcode

variable {P : Type} [DecidableEq P] {procs : List P} {s t : State P Unit Chan Pipe (Loc P)}

/-- A pipe is a lossless queue. -/
theorem pipe_fifo (hs : Boot s) (h : Runs (step code procs) s t) :
    t.st.count ≤ PIPESIZE ∧ t.st.stored = t.st.taken ++ t.st.buffered := by
  have hok : t.st.Ok := st_of_runs (fun _ _ _ _ _ _ hcode => ok_act hcode) h hs.ok
  exact ⟨hok.count_le, hok.queue⟩

/-- A process writes three bytes to a new pipe, of which another one reads two. -/
def twoOfThree : List (Label Bool (Loc Bool)) :=
  .call true (.write (fun i => UInt8.ofNat i) 3) :: List.replicate 12 (.run true) ++
    .call false (.read 2) :: List.replicate 11 (.run false)

def bootPipe : State Bool Unit Chan Pipe (Loc Bool) where
  st := ⟨fun _ => 0, 0, 0, true, true, [], []⟩
  owner _ := none
  state _ := .running
  chan _ := none
  killed _ := false
  ctl _ := .pc (.out none)
  sleeps _ := 0
  wakeups _ := 0

theorem boot_bootPipe : Boot bootPipe :=
  ⟨⟨fun _ => rfl, fun _ => rfl, fun _ => ⟨_, rfl⟩⟩, ⟨rfl, rfl⟩, ⟨rfl, rfl⟩, ⟨rfl, rfl⟩, fun _ => rfl⟩

theorem pipe_fifo_twoOfThree : ∃ t, Runs (step code [false, true]) bootPipe t ∧
    t.st.taken = [0, 1] ∧ t.st.stored = t.st.taken ++ t.st.buffered := by
  have hrun : (execute (step code [false, true]) twoOfThree bootPipe).any
      (fun t => decide (t.st.taken = [0, 1])) = true := by decide +kernel
  obtain ⟨t, ht, htaken⟩ := exists_of_execute hrun
  exact ⟨t, ht, of_decide_eq_true htaken, (pipe_fifo boot_bootPipe ht).2⟩

end Runs

/-- The loop of `pipewrite` does not take the early return with bytes that no reader knows of. -/
def WriteOk {P : Type} : Loc P → Bool → Pipe → Prop
  | .writeLoop _ n i true, killed, s => ¬ (i < n ∧ s.Full ∧ (s.readopen = false ∨ killed = true))
  | _, _, _ => True

def notes (P : Type) : Notes (Loc P) Chan Pipe where
  inside
    | .out _ | .kill _ | .write _ _ | .read _ | .close _ => False
    | _ => True
  owes
    | .writeLoop _ _ _ fresh, ch => fresh = true ∧ ch = .nread
    | .writeFull _ _ _, ch | .writeEnd _, ch => ch = .nread
    | .readLoop _ _, ch | .readEnd _, ch => ch = .nwrite
    | .closeWake writable, ch => ch = if writable then .nread else .nwrite
    | _, _ => False
  pre
    | .writeFull _ _ _, s | .writeSleep _ _ _, s => s.Full ∧ s.readopen = true
    | .readSleep _, s => s.Empty ∧ s.writeopen = true
    | _, _ => True
  idle
    | .nread, s => s.Empty ∧ s.writeopen = true
    | .nwrite, s => s.Full ∧ s.readopen = true
  good := Pipe.Ok

section Sleepers

variable {P : Type} {s : Pipe} {killed : Bool}

theorem act_write {addr : ℕ → UInt8} {n : ℤ} {i : ℕ} {fresh : Bool} (h : s.Ok)
    (hok : WriteOk (.writeLoop (P := P) addr n i fresh) killed s) :
    (notes P).Act (.writeLoop addr n i fresh) s (writeAct addr n i killed s) := by
  unfold writeAct
  split_ifs with hi hfull hclosed
  · -- The early return: nothing may have been stored.
    refine ⟨Iff.rfl, fun _ => rfl, h, fun _ => trivial, ?_, fun _ => .inl⟩
    rintro ch ⟨rfl, -⟩
    exact absurd ⟨hi, hfull, hclosed⟩ hok
  · refine ⟨Iff.rfl, fun _ => rfl, h, fun _ => ⟨hfull, ?_⟩, fun _ h => h.2, fun _ => .inl⟩
    simpa using (not_or.mp hclosed).1
  · refine ⟨Iff.rfl, fun hin => absurd trivial hin, h.store hfull _, fun _ => trivial,
      fun _ h => ⟨rfl, h.2⟩, fun ch hidle => ?_⟩
    cases ch with
    | nread => exact .inr ⟨rfl, rfl⟩
    | nwrite => exact absurd hidle.1 hfull
  · exact ⟨Iff.rfl, fun _ => rfl, h, fun _ => trivial, fun _ h => h.2, fun _ => .inl⟩

theorem act_readCheck {n : ℤ} (h : s.Ok) :
    (notes P).Act (.readCheck n) s (readCheck n killed s) := by
  unfold readCheck
  split_ifs with hempty hkilled
  · exact ⟨Iff.rfl, fun _ => rfl, h, fun _ => trivial, fun _ h => h.elim, fun _ => .inl⟩
  · exact ⟨Iff.rfl, fun _ => rfl, h, fun _ => hempty, fun _ h => h.elim, fun _ => .inl⟩
  · exact ⟨Iff.rfl, fun _ => rfl, h, fun _ => trivial, fun _ h => h.elim, fun _ => .inl⟩

theorem act_read {n : ℤ} {i : ℕ} (h : s.Ok) : (notes P).Act (.readLoop n i) s (readAct n i s) := by
  unfold readAct
  split_ifs with hi
  · refine ⟨Iff.rfl, fun hin => absurd trivial hin, h.take hi.2, fun _ => trivial, fun _ => id,
      fun ch hidle => ?_⟩
    cases ch with
    | nread => exact absurd hidle.1 hi.2
    | nwrite => exact .inr rfl
  · exact ⟨Iff.rfl, fun _ => rfl, h, fun _ => trivial, fun _ => id, fun _ => .inl⟩

theorem act_close (writable : Bool) (h : s.Ok) :
    (notes P).Act (.closeSet writable) s (s.close writable, .closeWake writable) := by
  refine ⟨Iff.rfl, fun hin => absurd trivial hin, h.close writable, fun _ => trivial,
    fun _ h => h.elim, fun ch hidle => ?_⟩
  cases writable with
  | true =>
    cases ch with
    | nread => exact .inr rfl
    | nwrite => exact .inl hidle
  | false =>
    cases ch with
    | nread => exact .inl hidle
    | nwrite => exact .inr rfl

def monitor (P : Type) : Monitor (code (P := P)) () WriteOk where
  toNotes := notes P
  owes_inside x ch h := by
    cases x <;> first | exact trivial | exact h.elim
  call p x entry h := by
    cases x with
    | out r =>
      cases h
      refine ⟨id, fun y hy => ?_⟩
      cases y <;> first | exact id | cases hy
    | _ => cases h
  act p x f killed st h hgood _ hok := by
    cases x with
    | writeLoop addr n i fresh =>
      cases h
      exact act_write hgood hok
    | readCheck n =>
      cases h
      exact act_readCheck hgood
    | readLoop n i =>
      cases h
      exact act_read hgood
    | closeSet writable =>
      cases h
      exact act_close writable hgood
    | _ => cases h
  acquire p x l y h := by
    cases x with
    | write addr n =>
      cases h
      exact ⟨rfl, trivial, fun _ _ => trivial⟩
    | read n =>
      cases h
      exact ⟨rfl, trivial, fun _ _ => trivial⟩
    | close writable =>
      cases h
      exact ⟨rfl, trivial, fun _ _ => trivial⟩
    | _ => cases h
  release p x l y h := by
    cases x with
    | unlock r =>
      cases h
      exact ⟨rfl, id, fun _ => id⟩
    | _ => cases h
  sleep p x ch l y h := by
    cases x with
    | writeSleep addr n i =>
      cases h
      exact ⟨rfl, trivial, fun _ _ => id, fun _ => id, fun _ _ => trivial⟩
    | readSleep n =>
      cases h
      exact ⟨rfl, trivial, fun _ _ => id, fun _ => id, fun _ _ => trivial⟩
    | _ => cases h
  wakeup p x ch y h := by
    cases x with
    | writeFull addr n i =>
      cases h
      exact ⟨trivial, trivial, fun _ => .inl, fun _ _ => id⟩
    | writeEnd n =>
      cases h
      exact ⟨trivial, trivial, fun _ => .inl, fun _ _ _ => trivial⟩
    | readEnd i =>
      cases h
      exact ⟨trivial, trivial, fun _ => .inl, fun _ _ _ => trivial⟩
    | closeWake writable =>
      cases h
      exact ⟨trivial, trivial, fun _ => .inl, fun _ _ _ => trivial⟩
    | _ => cases h
  wakeup1 p x ch y h := by cases x <;> cases h
  kill p x q y h := by
    cases x with
    | kill r =>
      cases h
      exact ⟨id, id⟩
    | _ => cases h

end Sleepers

/-- The writer that takes the step has not stored bytes since it last woke up the readers if it
gives up, because it was killed or the read end is closed. -/
def WakesReaders {P : Type} (s : State P Unit Chan Pipe (Loc P)) (a : Label P (Loc P)) : Prop :=
  ∀ x, s.ctl a.pid = .pc x → WriteOk x (s.killed a.pid) s.st

/-- While the lock is free nobody sleeps on an event that has happened. -/
theorem no_pipe_sleeper_forgotten {P : Type} [DecidableEq P] {procs : List P}
    {s t : State P Unit Chan Pipe (Loc P)} (hprocs : ∀ p, p ∈ procs) (hs : Boot s)
    (h : Steps (step code procs) WakesReaders s t) (hfree : t.owner (.lk ()) = none) (p : P)
    (hsleep : t.state p = .sleeping) :
    (t.chan p = some .nread → t.st.Empty ∧ t.st.writeopen = true) ∧
      (t.chan p = some .nwrite → t.st.Full ∧ t.st.readopen = true) := by
  have hinv : (monitor P).Inv s := by
    refine Monitor.Inv.start hs.toStart hs.ok fun p x hx => ?_
    rw [hs.out p] at hx
    obtain rfl := Ctl.pc.inj hx
    exact id
  have ht : (monitor P).Inv t := hinv.runs hprocs (fun s a hC x _ hx _ => hC x hx) h
  exact ⟨fun hch => ht.idle hfree hsleep hch, fun hch => ht.idle hfree hsleep hch⟩

instance {P : Type} (x : Loc P) (killed : Bool) (s : Pipe) : Decidable (WriteOk x killed s) := by
  unfold WriteOk
  split <;> infer_instance

def wakesReaders {P : Type} (s : State P Unit Chan Pipe (Loc P)) (a : Label P (Loc P)) : Bool :=
  match s.ctl a.pid with
  | .pc x => decide (WriteOk x (s.killed a.pid) s.st)
  | _ => true

theorem wakesReaders_of_test {P : Type} {s : State P Unit Chan Pipe (Loc P)}
    {a : Label P (Loc P)} (h : wakesReaders s a = true) : WakesReaders s a := by
  intro x hx
  unfold wakesReaders at h
  rw [hx] at h
  exact of_decide_eq_true h

/-- A reader goes to sleep on a new pipe. -/
theorem no_pipe_sleeper_forgotten_reader :
    ∃ t, Steps (step code [false, true]) WakesReaders bootPipe t ∧ t.owner (.lk ()) = none ∧
      t.state false = .sleeping ∧ t.chan false = some .nread ∧ t.st.Empty ∧
        t.st.writeopen = true := by
  have hrun : (executeIf (step code [false, true]) wakesReaders
      (.call false (.read 1) :: List.replicate 8 (.run false)) bootPipe).any (fun t =>
        decide (t.owner (.lk ()) = none ∧ t.state false = .sleeping ∧ t.chan false = some .nread))
      = true := by decide +kernel
  obtain ⟨t, ht, htest⟩ := exists_of_executeIf (fun _ _ => wakesReaders_of_test) hrun
  obtain ⟨ho, hs, hch⟩ := of_decide_eq_true htest
  have hmain := no_pipe_sleeper_forgotten (by decide) boot_bootPipe ht ho false hs
  exact ⟨t, ht, ho, hs, hch, hmain.1 hch⟩

local instance neZeroThree : NeZero 3 := ⟨by decide⟩

/-- Process 0 waits for data, process 1 has the lock in order to write 600 bytes, and process 2
has killed it. -/
def killedWriter : List (Label (Fin 3) (Loc (Fin 3))) :=
  .call 0 (.read 1) :: List.replicate 8 (.run 0) ++
    .call 1 (.write (fun _ => 0) 600) :: .run 1 ::
    .call 2 (.kill 1) :: List.replicate 4 (.run 2)

def bootThree : State (Fin 3) Unit Chan Pipe (Loc (Fin 3)) where
  st := ⟨fun _ => 0, 0, 0, true, true, [], []⟩
  owner _ := none
  state _ := .running
  chan _ := none
  killed _ := false
  ctl _ := .pc (.out none)
  sleeps _ := 0
  wakeups _ := 0

/-- The writer has stored `k` bytes. -/
structure Filling (k : ℕ) (s : State (Fin 3) Unit Chan Pipe (Loc (Fin 3))) : Prop where
  ctl : ∃ addr fresh, s.ctl 1 = .pc (.writeLoop addr 600 k fresh)
  owner : s.owner (.lk ()) = some 1
  reader : s.state 0 = .sleeping ∧ s.chan 0 = some .nread
  killed : s.killed 1 = true
  nread : s.st.nread = 0
  nwrite : s.st.nwrite = k

theorem Filling.step {k : ℕ} {s : State (Fin 3) Unit Chan Pipe (Loc (Fin 3))} (h : Filling k s)
    (hk : k < 512) : ∃ t, step code [0, 1, 2] (.run 1) s = some t ∧ Filling (k + 1) t := by
  obtain ⟨addr, fresh, hc⟩ := h.ctl
  have hi : (k : ℤ) < 600 := by omega
  have hfull : ¬ s.st.Full := by
    unfold Pipe.Full
    rw [h.nread, h.nwrite]
    simp only [PIPESIZE]
    omega
  have hact : writeAct (P := Fin 3) addr 600 k (s.killed 1) s.st =
      (s.st.store (addr k), .writeLoop addr 600 (k + 1) true) := by
    unfold writeAct
    rw [if_pos hi, if_neg hfull]
  refine ⟨_, step_act hc rfl hact, ⟨⟨addr, true, ?_⟩, h.owner, h.reader, h.killed, h.nread, ?_⟩⟩
  · exact State.goto_self s 1 _
  show (s.st.nwrite + 1) % 2 ^ 32 = k + 1
  rw [h.nwrite]
  omega

def isFilling (s : State (Fin 3) Unit Chan Pipe (Loc (Fin 3))) : Bool :=
  (match s.ctl 1 with
    | .pc (.writeLoop _ n i _) => decide (n = 600 ∧ i = 0)
    | _ => false) &&
  decide (s.owner (.lk ()) = some 1 ∧ (s.state 0 = .sleeping ∧ s.chan 0 = some .nread) ∧
    s.killed 1 = true ∧ s.st.nread = 0 ∧ s.st.nwrite = 0)

theorem filling_of_test {s : State (Fin 3) Unit Chan Pipe (Loc (Fin 3))} (h : isFilling s = true) :
    Filling 0 s := by
  obtain ⟨hc, h⟩ := Bool.and_eq_true_iff.mp h
  obtain ⟨ho, hr, hk, h1, h2⟩ := of_decide_eq_true h
  refine ⟨?_, ho, hr, hk, h1, h2⟩
  split at hc
  · next addr n i fresh hctl =>
    obtain ⟨rfl, rfl⟩ := of_decide_eq_true hc
    exact ⟨addr, fresh, hctl⟩
  · cases hc

theorem filling {k : ℕ} (hk : k ≤ 512) :
    ∃ s, Runs (step code [0, 1, 2]) bootThree s ∧ Filling k s := by
  induction k with
  | zero =>
    have hrun : (execute (step code [0, 1, 2]) killedWriter bootThree).any isFilling = true := by
      decide +kernel
    obtain ⟨s, hs, hf⟩ := exists_of_execute hrun
    exact ⟨s, hs, filling_of_test hf⟩
  | succ k ih =>
    obtain ⟨s, hs, hf⟩ := ih (by omega)
    obtain ⟨t, ht, hf'⟩ := hf.step (by omega)
    exact ⟨t, hs.tail trivial ht, hf'⟩

/-- The writer fills the pipe, finds that it was killed and leaves, and the reader sleeps on. -/
theorem pipe_sleeper_forgotten : ∃ t, Runs (step code [0, 1, 2]) bootThree t ∧
    t.owner (.lk ()) = none ∧ t.state 0 = .sleeping ∧ t.chan 0 = some .nread ∧ ¬ t.st.Empty := by
  obtain ⟨s, hs, hf⟩ := filling le_rfl
  obtain ⟨addr, fresh, hc⟩ := hf.ctl
  have hfull : s.st.Full := by
    unfold Pipe.Full
    rw [hf.nread, hf.nwrite]
    rfl
  have hact : writeAct (P := Fin 3) addr 600 512 (s.killed 1) s.st =
      (s.st, .unlock (some (-1))) := by
    unfold writeAct
    rw [if_pos (by decide), if_pos hfull, if_pos (.inr hf.killed)]
  refine ⟨_, (hs.tail trivial (step_act hc rfl hact)).tail trivial
    (step_release (State.goto_self s 1 _) rfl hf.owner), ?_, hf.reader.1, hf.reader.2, ?_⟩
  · show Function.update s.owner (.lk ()) none (.lk ()) = none
    exact Function.update_self ..
  show ¬ s.st.nread = s.st.nwrite
  rw [hf.nread, hf.nwrite]
  decide

end Xv6.Pipes
