import Mathlib.Algebra.BigOperators.Fin
import Xv6.Lib.Chain
import Xv6.Lib.Count
import Xv6.Lib.Steps

namespace Xv6.Ph
open Lib Function

def NBUCKET : ℕ := 5

def bucket (key : ℕ) : Fin NBUCKET := ⟨key % NBUCKET, Nat.mod_lt _ (by decide)⟩

structure Entry where
  key : ℕ
  value : ℕ
  next : Option ℕ

/-- Where a thread is: with the number `i` of its key and its entry `e` in `put`, and with the
number `k` of missing keys later on. -/
inductive Pc where
  | put (i : ℕ)
  | lock (i e : ℕ)
  | next (i e : ℕ)
  | head (i e : ℕ)
  | unlock (i : ℕ)
  | add
  | spin
  | get (i k : ℕ)
  | finished (k : ℕ)
  deriving DecidableEq

structure State (nthread : ℕ) where
  heap : ℕ → Entry
  size : ℕ
  table : Fin NBUCKET → Option ℕ
  locks : Fin NBUCKET → Option (Fin nthread)
  done : ℕ
  pc : Fin nthread → Pc
  /-- The calls of `put`: which key, and by which thread. -/
  calls : List (ℕ × ℕ)

section Machine

variable (nkeys nthread : ℕ) (keys : ℕ → ℕ)

/-- `b`, how many keys a thread puts into the table. -/
def share : ℕ := nkeys / nthread

def keyOf (n : Fin nthread) (i : ℕ) : ℕ := keys (share nkeys nthread * n + i)

variable {nthread}

/-- `get`.  There are no more rounds than entries. -/
def State.get (s : State nthread) (key : ℕ) : Option (Option ℕ) :=
  search (fun e => (s.heap e).next) (fun e => (s.heap e).key = key) (s.size + 1)
    (s.table (bucket key))

def State.goto (s : State nthread) (n : Fin nthread) (x : Pc) : State nthread :=
  { s with pc := update s.pc n x }

/-- `malloc` and the assignments to the new entry. -/
def State.alloc (s : State nthread) (e : Entry) (call : ℕ × ℕ) : State nthread :=
  { s with
    heap := update s.heap s.size e
    size := s.size + 1
    calls := call :: s.calls }

def State.setNext (s : State nthread) (e : ℕ) (o : Option ℕ) : State nthread :=
  { s with heap := update s.heap e { s.heap e with next := o } }

def State.setHead (s : State nthread) (i : Fin NBUCKET) (o : Option ℕ) : State nthread :=
  { s with table := update s.table i o }

def State.setLock (s : State nthread) (i : Fin NBUCKET) (o : Option (Fin nthread)) :
    State nthread :=
  { s with locks := update s.locks i o }

/-- A step of thread `n`; `junk` is what its new entry has in `next`. -/
def step (a : Fin nthread × Option ℕ) (s : State nthread) : Option (State nthread) :=
  let n := a.1
  match s.pc n with
  | .put i =>
    if i < share nkeys nthread then
      some ((s.alloc ⟨keyOf nkeys nthread keys n i, n, a.2⟩ (share nkeys nthread * n + i, n)).goto n
        (.lock i s.size))
    else some (s.goto n .add)
  | .lock i e =>
    let j := bucket (keyOf nkeys nthread keys n i)
    if s.locks j = none then some ((s.setLock j (some n)).goto n (.next i e)) else none
  | .next i e =>
    some ((s.setNext e (s.table (bucket (keyOf nkeys nthread keys n i)))).goto n (.head i e))
  | .head i e =>
    some ((s.setHead (bucket (keyOf nkeys nthread keys n i)) (some e)).goto n (.unlock i))
  | .unlock i =>
    some ((s.setLock (bucket (keyOf nkeys nthread keys n i)) none).goto n (.put (i + 1)))
  | .add => some ({ s with done := s.done + 1 }.goto n .spin)
  | .spin => some (if s.done < nthread then s else s.goto n (.get 0 0))
  | .get i k =>
    if i < nkeys then
      (s.get (keys i)).map fun e => s.goto n (.get (i + 1) (if e = none then k + 1 else k))
    else some (s.goto n (.finished k))
  | .finished _ => none

structure Start (s : State nthread) : Prop where
  size : s.size = 0
  table : ∀ i, s.table i = none
  locks : ∀ i, s.locks i = none
  done : s.done = 0
  pc : ∀ n, s.pc n = .put 0
  calls : s.calls = []

end Machine

namespace Pc

/-- The entry that a thread has not put into the table yet. -/
def entry : Pc → Option (ℕ × ℕ)
  | lock i e | next i e | head i e => some (i, e)
  | _ => none

def critical : Pc → Option ℕ
  | next i _ | head i _ | unlock i => some i
  | _ => none

def started (b : ℕ) : Pc → ℕ
  | put i => i
  | lock i _ | next i _ | head i _ | unlock i => i + 1
  | _ => b

def inserted (b : ℕ) : Pc → ℕ
  | put i | lock i _ | next i _ | head i _ => i
  | unlock i => i + 1
  | _ => b

/-- The thread has added one to `done`. -/
def counted : Pc → Bool
  | spin | get _ _ | finished _ => true
  | _ => false

/-- The thread has seen that all others have done so. -/
def passed : Pc → Bool
  | get _ _ | finished _ => true
  | _ => false

def missing : Pc → ℕ
  | get _ k | finished k => k
  | _ => 0

end Pc

section Inv

variable (nkeys : ℕ) {nthread : ℕ} (keys : ℕ → ℕ) {i e : ℕ}

def Entry.pair (e : Entry) : ℕ × ℕ := (e.key, e.value)

structure Lists (s : State nthread) (L : Fin NBUCKET → List ℕ) : Prop where
  chain : ∀ i, Chain (fun e => (s.heap e).next) (s.table i) (L i)
  low : ∀ i, ∀ e ∈ L i, e < s.size
  bucket : ∀ i, ∀ e ∈ L i, bucket (s.heap e).key = i
  nodup : ∀ i, (L i).Nodup

/-- What a thread knows that is at `x`. -/
structure Own (s : State nthread) (L : Fin NBUCKET → List ℕ) (n : Fin nthread) (x : Pc) :
    Prop where
  bound : x.started (share nkeys nthread) ≤ share nkeys nthread
  fresh : ∀ i e, x.entry = some (i, e) → e < s.size ∧ (∀ j, e ∉ L j) ∧
    (s.heap e).pair = (keyOf nkeys nthread keys n i, n.val)
  locked : ∀ i, x.critical = some i → s.locks (Ph.bucket (keyOf nkeys nthread keys n i)) = some n
  linked : ∀ i e, x = .head i e →
    (s.heap e).next = s.table (Ph.bucket (keyOf nkeys nthread keys n i))
  missing : x.missing = 0

def entries (s : State nthread) (L : Fin NBUCKET → List ℕ) : Multiset (ℕ × ℕ) :=
  ∑ i, (L i : Multiset ℕ).map fun e => (s.heap e).pair

/-- The first `m` calls of `put` by thread `n`. -/
def callsOf (n : Fin nthread) (m : ℕ) : Multiset (ℕ × ℕ) :=
  (Multiset.range m).map fun i => (share nkeys nthread * n + i, n.val)

/-- What they put into the table. -/
def pairsOf (n : Fin nthread) (m : ℕ) : Multiset (ℕ × ℕ) :=
  (Multiset.range m).map fun i => (keyOf nkeys nthread keys n i, n.val)

/-- The table, `done` and the calls, counted. -/
structure Books (s : State nthread) (L : Fin NBUCKET → List ℕ) : Prop where
  calls : (s.calls : Multiset (ℕ × ℕ)) =
    ∑ n, callsOf nkeys n ((s.pc n).started (share nkeys nthread))
  entries : entries s L = ∑ n, pairsOf nkeys keys n ((s.pc n).inserted (share nkeys nthread))
  done : s.done = ∑ n, if (s.pc n).counted then 1 else 0
  passed : ∀ n, (s.pc n).passed = true → ∀ n', (s.pc n').counted = true

structure Inv (s : State nthread) (L : Fin NBUCKET → List ℕ) : Prop where
  lists : Lists s L
  own : ∀ n, Own nkeys keys s L n (s.pc n)
  uniq : ∀ n n' i i' e, (s.pc n).entry = some (i, e) → (s.pc n').entry = some (i', e) → n = n'
  books : Books nkeys keys s L

variable {nkeys keys} {s s' : State nthread} {L L' : Fin NBUCKET → List ℕ} {n : Fin nthread}
  {x y : Pc}

theorem Own.frame (h : Own nkeys keys s L n x) (hsize : s.size ≤ s'.size)
    (hentry : ∀ i e, x.entry = some (i, e) → s'.heap e = s.heap e ∧ ∀ j, e ∉ L' j)
    (hcrit : ∀ i, x.critical = some i → ∀ j, j = bucket (keyOf nkeys nthread keys n i) →
      s'.locks j = s.locks j ∧ s'.table j = s.table j) : Own nkeys keys s' L' n x := by
  refine ⟨h.bound, fun i e he => ?_, fun i hi => ?_, fun i e he => ?_, h.missing⟩
  · obtain ⟨hlt, -, hpair⟩ := h.fresh i e he
    obtain ⟨hheap, hnot⟩ := hentry i e he
    rw [hheap]
    exact ⟨Nat.lt_of_lt_of_le hlt hsize, hnot, hpair⟩
  · rw [(hcrit i hi _ rfl).1]
    exact h.locked i hi
  · subst he
    rw [(hcrit i rfl _ rfl).2, (hentry i e rfl).1]
    exact h.linked i e rfl

theorem Books.step (h : Books nkeys keys s L) (hx : s.pc n = x) (d : ℕ)
    (m1 m2 : Multiset (ℕ × ℕ)) (hpc : s'.pc = update s.pc n y)
    (hcalls : (s'.calls : Multiset (ℕ × ℕ)) = (s.calls : Multiset (ℕ × ℕ)) + m1)
    (hstarted : callsOf nkeys n (y.started (share nkeys nthread)) =
      callsOf nkeys n (x.started (share nkeys nthread)) + m1)
    (hentries : Ph.entries s' L' = Ph.entries s L + m2)
    (hinserted : pairsOf nkeys keys n (y.inserted (share nkeys nthread)) =
      pairsOf nkeys keys n (x.inserted (share nkeys nthread)) + m2)
    (hdone : s'.done = s.done + d)
    (hcounted : (if y.counted then 1 else 0) = (if x.counted then 1 else 0) + d)
    (hpassed : y.passed = true → ∀ n', (s.pc n').counted = true) : Books nkeys keys s' L' := by
  subst hx
  have hmono : (s.pc n).counted = true → y.counted = true := by
    intro hx
    rw [hx] at hcounted
    by_contra hy
    rw [if_neg hy, if_pos rfl] at hcounted
    omega
  refine ⟨?_, ?_, ?_, fun n' hn' k => ?_⟩
  · rw [hcalls, h.calls, hpc]
    exact (sum_update_add (fun n x => callsOf nkeys n (x.started (share nkeys nthread))) s.pc n y m1
      hstarted).symm
  · rw [hentries, h.entries, hpc]
    exact (sum_update_add (fun n x => pairsOf nkeys keys n (x.inserted (share nkeys nthread))) s.pc
      n y m2 hinserted).symm
  · rw [hdone, h.done, hpc]
    exact (sum_update_add (fun _ (x : Pc) => if x.counted then 1 else 0) s.pc n y d hcounted).symm
  · have hall : ∀ k, (s.pc k).counted = true := by
      by_cases hn : n' = n
      · subst hn
        rw [hpc, update_self] at hn'
        exact hpassed hn'
      · rw [hpc, update_of_ne hn] at hn'
        exact h.passed n' hn'
    rw [hpc]
    by_cases hk : k = n
    · subst hk
      rw [update_self]
      exact hmono (hall k)
    · rw [update_of_ne hk]
      exact hall k

theorem callsOf_succ (n : Fin nthread) (i : ℕ) : callsOf nkeys n (i + 1) =
    callsOf nkeys n i + {(share nkeys nthread * n + i, n.val)} := by
  rw [callsOf, Multiset.range_succ, Multiset.map_cons, ← Multiset.singleton_add, add_comm]
  rfl

theorem pairsOf_succ (n : Fin nthread) (i : ℕ) : pairsOf nkeys keys n (i + 1) =
    pairsOf nkeys keys n i + {(keyOf nkeys nthread keys n i, n.val)} := by
  rw [pairsOf, Multiset.range_succ, Multiset.map_cons, ← Multiset.singleton_add, add_comm]
  rfl

theorem Books.goto (h : Books nkeys keys s L) (hx : s.pc n = x) (hpc : s'.pc = update s.pc n y)
    (hcalls : s'.calls = s.calls) (hentries : Ph.entries s' L = Ph.entries s L)
    (hdone : s'.done = s.done)
    (hstarted : y.started (share nkeys nthread) = x.started (share nkeys nthread))
    (hinserted : y.inserted (share nkeys nthread) = x.inserted (share nkeys nthread))
    (hcounted : y.counted = x.counted)
    (hpassed : y.passed = true → ∀ n', (s.pc n').counted = true) : Books nkeys keys s' L := by
  refine h.step hx 0 0 0 hpc ?_ ?_ ?_ ?_ hdone ?_ hpassed
  · rw [hcalls, add_zero]
  · rw [hstarted, add_zero]
  · rw [hentries, add_zero]
  · rw [hinserted, add_zero]
  · rw [hcounted, add_zero]

theorem Inv.of_step (h : Inv nkeys keys s L) (hpc : s'.pc = update s.pc n y) (hlists : Lists s' L')
    (hown : Own nkeys keys s' L' n y) (hothers : ∀ n', n' ≠ n → Own nkeys keys s' L' n' (s.pc n'))
    (huniq : ∀ i e, y.entry = some (i, e) → (s.pc n).entry = some (i, e) ∨ s.size ≤ e)
    (hbooks : Books nkeys keys s' L') : Inv nkeys keys s' L' := by
  have hself : s'.pc n = y := by rw [hpc, update_self]
  have hother : ∀ n', n' ≠ n → s'.pc n' = s.pc n' := by
    intro n' hn
    rw [hpc, update_of_ne hn]
  -- Nobody else has the entry that `n` has now.
  have hnew : ∀ n' i i' e, n' ≠ n → y.entry = some (i, e) → (s.pc n').entry ≠ some (i', e) := by
    intro n' i i' e hn hy hn'
    rcases huniq i e hy with hx | hle
    · exact hn (h.uniq n' n i' i e hn' hx)
    · have hlt := ((h.own n').fresh i' e hn').1
      omega
  refine ⟨hlists, fun n' => ?_, fun n1 n2 i i' e h1 h2 => ?_, hbooks⟩
  · by_cases hn : n' = n
    · subst hn
      rw [hself]
      exact hown
    · rw [hother n' hn]
      exact hothers n' hn
  · by_cases hn1 : n1 = n
    · by_cases hn2 : n2 = n
      · rw [hn1, hn2]
      · rw [hn1, hself] at h1
        rw [hother n2 hn2] at h2
        exact absurd h2 (hnew n2 i i' e hn2 h1)
    · rw [hother n1 hn1] at h1
      by_cases hn2 : n2 = n
      · rw [hn2, hself] at h2
        exact absurd h1 (hnew n1 i' i e hn1 h2)
      · rw [hother n2 hn2] at h2
        exact h.uniq n1 n2 i i' e h1 h2

theorem Inv.locks_ne {i' : ℕ} {n' : Fin nthread} (h : Inv nkeys keys s L) (hn : n' ≠ n)
    (hi : (s.pc n).critical = some i) (hi' : (s.pc n').critical = some i') :
    bucket (keyOf nkeys nthread keys n' i') ≠ bucket (keyOf nkeys nthread keys n i) := by
  intro heq
  have hlock := (h.own n).locked i hi
  rw [← heq, (h.own n').locked i' hi'] at hlock
  exact hn (Option.some.inj hlock)

theorem entries_congr (h : ∀ i, ∀ e ∈ L i, (s'.heap e).pair = (s.heap e).pair) :
    entries s' L = entries s L := by
  apply Finset.sum_congr rfl
  intro i _
  exact Multiset.map_congr rfl fun e he => h i e he

section

variable (h : Inv nkeys keys s L)
include h

theorem Inv.put {junk : Option ℕ} (hpc : s.pc n = .put i) (hi : i < share nkeys nthread) :
    Inv nkeys keys ((s.alloc ⟨keyOf nkeys nthread keys n i, n, junk⟩
      (share nkeys nthread * n + i, n)).goto n (.lock i s.size)) L := by
  have hheap : ∀ e, e < s.size → update s.heap s.size
      ⟨keyOf nkeys nthread keys n i, n, junk⟩ e = s.heap e := by
    intro e he
    exact update_of_ne (Nat.ne_of_lt he) ..
  refine h.of_step rfl ⟨fun j => ?_, fun j e he => ?_, fun j e he => ?_, h.lists.nodup⟩ ?_
    (fun n' _ => ?_) ?_ (h.books.step hpc 0 {(share nkeys nthread * n + i, n.val)} 0 rfl ?_
      (callsOf_succ n i) ?_ (add_zero _).symm rfl rfl nofun)
  · refine (h.lists.chain j).congr fun e he => ?_
    exact congrArg Entry.next (hheap e (h.lists.low j e he))
  · exact Nat.lt_succ_of_lt (h.lists.low j e he)
  · show bucket (update s.heap s.size _ e).key = j
    rw [hheap e (h.lists.low j e he)]
    exact h.lists.bucket j e he
  · refine ⟨hi, fun i' e he => ?_, nofun, nofun, rfl⟩
    obtain ⟨rfl, rfl⟩ := Prod.mk.inj (Option.some.inj he)
    refine ⟨Nat.lt_succ_self _, fun j hj => ?_, ?_⟩
    · exact absurd (h.lists.low j _ hj) (Nat.lt_irrefl _)
    · show (update s.heap s.size _ s.size).pair = _
      rw [update_self]
      rfl
  · refine (h.own n').frame (Nat.le_succ _) (fun i' e he => ?_) fun _ _ _ _ => ⟨rfl, rfl⟩
    obtain ⟨hlt, hnot, -⟩ := (h.own n').fresh i' e he
    exact ⟨hheap e hlt, hnot⟩
  · intro i' e he
    obtain ⟨-, rfl⟩ := Prod.mk.inj (Option.some.inj he)
    exact .inr le_rfl
  · show (((_ :: s.calls : List (ℕ × ℕ)) : Multiset (ℕ × ℕ))) = _
    rw [← Multiset.cons_coe, ← Multiset.singleton_add, add_comm]
  · rw [add_zero]
    refine entries_congr fun j e he => ?_
    exact congrArg Entry.pair (hheap e (h.lists.low j e he))

theorem Inv.lock (hpc : s.pc n = .lock i e)
    (hfree : s.locks (bucket (keyOf nkeys nthread keys n i)) = none) :
    Inv nkeys keys ((s.setLock (bucket (keyOf nkeys nthread keys n i)) (some n)).goto n
      (.next i e)) L := by
  have hown := h.own n
  rw [hpc] at hown
  refine h.of_step rfl ⟨h.lists.chain, h.lists.low, h.lists.bucket, h.lists.nodup⟩
    ⟨hown.bound, hown.fresh, fun i' hi' => ?_, nofun, rfl⟩ (fun n' hn => ?_)
    (fun i' e' he => .inl (by rw [hpc]; exact he))
    (h.books.goto hpc rfl rfl rfl rfl rfl rfl rfl nofun)
  · cases hi'
    exact update_self ..
  · refine (h.own n').frame le_rfl (fun i' e he => ⟨rfl, ((h.own n').fresh i' e he).2.1⟩)
      fun i' hi' j hj => ⟨update_of_ne ?_ .., rfl⟩
    intro heq
    have hlock := (h.own n').locked i' hi'
    rw [← hj, heq, hfree] at hlock
    cases hlock

theorem Inv.next (hpc : s.pc n = .next i e) :
    Inv nkeys keys ((s.setNext e (s.table (bucket (keyOf nkeys nthread keys n i)))).goto n
      (.head i e)) L := by
  have hown := h.own n
  rw [hpc] at hown
  obtain ⟨hlt, hnot, hpair⟩ := hown.fresh i e rfl
  have hheap : ∀ e' o, e' ≠ e → update s.heap e { s.heap e with next := o } e' =
      s.heap e' := fun e' o he => update_of_ne he ..
  have hne : ∀ j e', e' ∈ L j → e' ≠ e := by
    rintro j e' he rfl
    exact hnot j he
  refine h.of_step rfl ⟨fun j => ?_, h.lists.low, fun j e' he => ?_, h.lists.nodup⟩
    ⟨hown.bound, fun i' e' he => ?_, fun i' hi' => ?_, fun i' e' he => ?_, rfl⟩ (fun n' hn => ?_)
    (fun i' e' he => .inl (by rw [hpc]; exact he))
    (h.books.goto hpc rfl rfl ?_ rfl rfl rfl rfl nofun)
  · refine (h.lists.chain j).congr fun e' he => ?_
    exact congrArg Entry.next (hheap e' _ (hne j e' he))
  · show bucket (update s.heap e _ e').key = j
    rw [hheap e' _ (hne j e' he)]
    exact h.lists.bucket j e' he
  · obtain ⟨rfl, rfl⟩ := Prod.mk.inj (Option.some.inj he)
    refine ⟨hlt, hnot, ?_⟩
    show (update s.heap e _ e).pair = _
    rw [update_self]
    exact hpair
  · cases hi'
    exact hown.locked i rfl
  · obtain ⟨rfl, rfl⟩ := Pc.head.inj he
    show (update s.heap e _ e).next = _
    rw [update_self]
    rfl
  · refine (h.own n').frame le_rfl (fun i' e' he => ?_) fun _ _ _ _ => ⟨rfl, rfl⟩
    refine ⟨hheap e' _ ?_, ((h.own n').fresh i' e' he).2.1⟩
    rintro rfl
    exact hn (h.uniq n' n i' i e' he (by rw [hpc]; rfl))
  · exact entries_congr fun j e' he => congrArg Entry.pair (hheap e' _ (hne j e' he))

theorem Inv.head (hpc : s.pc n = .head i e) :
    Inv nkeys keys ((s.setHead (bucket (keyOf nkeys nthread keys n i)) (some e)).goto n (.unlock i))
      (update L (bucket (keyOf nkeys nthread keys n i))
        (e :: L (bucket (keyOf nkeys nthread keys n i)))) := by
  have hown := h.own n
  rw [hpc] at hown
  obtain ⟨hlt, hnot, hpair⟩ := hown.fresh i e rfl
  have hkey : (s.heap e).key = keyOf nkeys nthread keys n i := congrArg Prod.fst hpair
  set j := bucket (keyOf nkeys nthread keys n i) with hj
  have hmem : ∀ k e', e' ∈ update L j (e :: L j) k → e' = e ∧ k = j ∨ e' ∈ L k := by
    intro k e' he
    by_cases hk : k = j
    · rw [hk, update_self] at he
      rcases List.mem_cons.mp he with rfl | he
      · exact .inl ⟨rfl, hk⟩
      · rw [hk]
        exact .inr he
    · rw [update_of_ne hk] at he
      exact .inr he
  refine h.of_step rfl ⟨fun k => ?_, fun k e' he => ?_, fun k e' he => ?_, fun k => ?_⟩
    ⟨hown.bound, nofun, fun i' hi' => ?_, nofun, rfl⟩ (fun n' hn => ?_) nofun
    (h.books.step hpc 0 0 {(keyOf nkeys nthread keys n i, n.val)} rfl (add_zero _).symm
      (add_zero _).symm ?_ (pairsOf_succ n i) rfl rfl nofun)
  · show Chain _ (update s.table j (some e) k) _
    by_cases hk : k = j
    · rw [hk, update_self, update_self]
      refine .cons ?_
      show Chain _ (s.heap e).next _
      rw [hown.linked i e rfl]
      exact h.lists.chain j
    · rw [update_of_ne hk, update_of_ne hk]
      exact h.lists.chain k
  · rcases hmem k e' he with ⟨rfl, -⟩ | he
    · exact hlt
    · exact h.lists.low k e' he
  · rcases hmem k e' he with ⟨rfl, rfl⟩ | he
    · exact congrArg bucket hkey
    · exact h.lists.bucket k e' he
  · by_cases hk : k = j
    · rw [hk, update_self, List.nodup_cons]
      exact ⟨hnot j, h.lists.nodup j⟩
    · rw [update_of_ne hk]
      exact h.lists.nodup k
  · cases hi'
    exact hown.locked i rfl
  · refine (h.own n').frame le_rfl (fun i' e' he => ⟨rfl, fun k hk => ?_⟩)
      fun i' hi' k hk => ⟨rfl, update_of_ne ?_ ..⟩
    · rcases hmem k e' hk with ⟨rfl, -⟩ | hk
      · exact hn (h.uniq n' n i' i e' he (by rw [hpc]; rfl))
      · exact ((h.own n').fresh i' e' he).2.1 k hk
    · rw [hk]
      exact h.locks_ne hn (by rw [hpc]; rfl) hi'
  · refine sum_update_add (fun _ (l : List ℕ) => (l : Multiset ℕ).map fun e => (s.heap e).pair) L j
      (e :: L j) _ ?_
    rw [← Multiset.cons_coe, Multiset.map_cons, hpair, ← Multiset.singleton_add, add_comm]

theorem Inv.unlock (hpc : s.pc n = .unlock i) :
    Inv nkeys keys ((s.setLock (bucket (keyOf nkeys nthread keys n i)) none).goto n
      (.put (i + 1))) L := by
  have hown := h.own n
  rw [hpc] at hown
  refine h.of_step rfl ⟨h.lists.chain, h.lists.low, h.lists.bucket, h.lists.nodup⟩
    ⟨hown.bound, nofun, nofun, nofun, rfl⟩ (fun n' hn => ?_) nofun
    (h.books.goto hpc rfl rfl rfl rfl rfl rfl rfl nofun)
  refine (h.own n').frame le_rfl (fun i' e he => ⟨rfl, ((h.own n').fresh i' e he).2.1⟩)
    fun i' hi' j hj => ⟨update_of_ne ?_ .., rfl⟩
  rw [hj]
  exact h.locks_ne hn (by rw [hpc]; rfl) hi'

theorem Inv.goto (hentry : y.entry = none) (hcrit : y.critical = none)
    (hbound : y.started (share nkeys nthread) ≤ share nkeys nthread) (hmissing : y.missing = 0)
    (hbooks : Books nkeys keys (s.goto n y) L) : Inv nkeys keys (s.goto n y) L := by
  have hlists := h.lists
  refine h.of_step rfl ⟨hlists.chain, hlists.low, hlists.bucket, hlists.nodup⟩
    ⟨hbound, fun i e he => ?_, fun i hi => ?_, fun i e he => ?_, hmissing⟩ (fun n' _ => ?_)
    (fun i e he => ?_) hbooks
  · rw [hentry] at he
    cases he
  · rw [hcrit] at hi
    cases hi
  · rw [he] at hcrit
    cases hcrit
  · exact (h.own n').frame le_rfl
      (fun i e he => ⟨rfl, ((h.own n').fresh i e he).2.1⟩) fun _ _ _ _ => ⟨rfl, rfl⟩
  · rw [hentry] at he
    cases he

theorem Inv.add (hpc : s.pc n = .add) :
    Inv nkeys keys ({ s with done := s.done + 1 }.goto n .spin) L := by
  have hlists := h.lists
  refine h.of_step rfl ⟨hlists.chain, hlists.low, hlists.bucket, hlists.nodup⟩
    ⟨le_rfl, nofun, nofun, nofun, rfl⟩ (fun n' _ => ?_) nofun
    (h.books.step hpc 1 0 0 rfl (add_zero _).symm (add_zero _).symm (add_zero _).symm
      (add_zero _).symm rfl rfl nofun)
  exact (h.own n').frame le_rfl
    (fun i e he => ⟨rfl, ((h.own n').fresh i e he).2.1⟩) fun _ _ _ _ => ⟨rfl, rfl⟩

/-- When `done` is the number of threads, all of them have come to the barrier. -/
theorem Inv.all_counted (hdone : nthread ≤ s.done) (n : Fin nthread) :
    (s.pc n).counted = true := by
  by_contra hn
  have hlt : s.done < nthread := by
    rw [h.books.done, ← Finset.card_filter]
    have hsub : Finset.univ.filter (fun n => (s.pc n).counted = true) ⊂ Finset.univ := by
      rw [Finset.filter_ssubset]
      exact ⟨n, Finset.mem_univ n, hn⟩
    simpa using Finset.card_lt_card hsub
  omega

end

/-- A thread that has come to the barrier has put all its keys into the table. -/
theorem inserted_of_counted {b : ℕ} (h : x.counted = true) : x.inserted b = b ∧ x.started b = b := by
  cases x <;> first | exact ⟨rfl, rfl⟩ | cases h

theorem Inv.entries_eq (h : Inv nkeys keys s L) (hall : ∀ n, (s.pc n).counted = true) :
    entries s L = ∑ n : Fin nthread, pairsOf nkeys keys n (share nkeys nthread) := by
  rw [h.books.entries]
  apply Finset.sum_congr rfl
  intro n _
  rw [(inserted_of_counted (hall n)).1]

theorem exists_share (hdvd : nthread ∣ nkeys) (hi : i < nkeys) :
    ∃ (n : Fin nthread) (j : ℕ), j < share nkeys nthread ∧ share nkeys nthread * n + j = i := by
  have hb : share nkeys nthread * nthread = nkeys := Nat.div_mul_cancel hdvd
  have hpos : 0 < share nkeys nthread := by
    by_contra h0
    rw [Nat.eq_zero_of_not_pos h0, Nat.zero_mul] at hb
    omega
  have hlt : i / share nkeys nthread < nthread := by
    rw [Nat.div_lt_iff_lt_mul hpos, Nat.mul_comm, hb]
    exact hi
  exact ⟨⟨i / share nkeys nthread, hlt⟩, i % share nkeys nthread, Nat.mod_lt _ hpos,
    Nat.div_add_mod i _⟩

theorem Inv.get_found (h : Inv nkeys keys s L) (hdvd : nthread ∣ nkeys)
    (hall : ∀ n, (s.pc n).counted = true) (hi : i < nkeys) :
    ∃ e, s.get (keys i) = some (some e) ∧ (s.heap e).key = keys i := by
  obtain ⟨n, j, hj, hnj⟩ := exists_share hdvd hi
  -- The entry that thread `n` has put into the table.
  have hmem : (keys i, n.val) ∈ entries s L := by
    rw [h.entries_eq hall, Multiset.mem_sum]
    refine ⟨n, Finset.mem_univ n, Multiset.mem_map.mpr ⟨j, Multiset.mem_range.mpr hj, ?_⟩⟩
    rw [keyOf, hnj]
  obtain ⟨k, -, hk⟩ := Multiset.mem_sum.mp hmem
  obtain ⟨e, he, hpair⟩ := Multiset.mem_map.mp hk
  have hkey : (s.heap e).key = keys i := congrArg Prod.fst hpair
  obtain rfl : bucket (keys i) = k := by
    rw [← hkey]
    exact h.lists.bucket k e he
  have hlen : (L (bucket (keys i))).length < s.size + 1 := by
    have hsub : L (bucket (keys i)) ⊆ List.range s.size :=
      fun e he => List.mem_range.mpr (h.lists.low _ e he)
    have hle := (List.subperm_of_subset (h.lists.nodup _) hsub).length_le
    rw [List.length_range] at hle
    omega
  have hfind : ((L (bucket (keys i))).find? fun e => (s.heap e).key = keys i).isSome = true := by
    rw [List.find?_isSome]
    exact ⟨e, he, by simpa using hkey⟩
  obtain ⟨e', he'⟩ := Option.isSome_iff_exists.mp hfind
  refine ⟨e', ?_, by simpa using List.find?_some he'⟩
  rw [State.get, (h.lists.chain _).search_eq hlen, he']

theorem Inv.step {t : State nthread} {a : Fin nthread × Option ℕ} (h : Inv nkeys keys s L)
    (hdvd : nthread ∣ nkeys) (hstep : step nkeys keys a s = some t) :
    ∃ L', Inv nkeys keys t L' := by
  obtain ⟨n, junk⟩ := a
  have hown := h.own n
  unfold Ph.step at hstep
  dsimp only at hstep
  cases hpc : s.pc n with
  | put i =>
    simp only [hpc] at hstep
    rw [hpc] at hown
    split_ifs at hstep with hi
    · cases hstep
      exact ⟨L, h.put hpc hi⟩
    · cases hstep
      -- The loop ends when the share has been put.
      have hb : share nkeys nthread = i := Nat.le_antisymm (Nat.le_of_not_lt hi) hown.bound
      exact ⟨L, h.goto rfl rfl le_rfl rfl (h.books.goto hpc rfl rfl rfl rfl hb hb rfl nofun)⟩
  | lock i e =>
    simp only [hpc] at hstep
    split_ifs at hstep with hfree
    cases hstep
    exact ⟨L, h.lock hpc hfree⟩
  | next i e =>
    simp only [hpc] at hstep
    cases hstep
    exact ⟨L, h.next hpc⟩
  | head i e =>
    simp only [hpc] at hstep
    cases hstep
    exact ⟨_, h.head hpc⟩
  | unlock i =>
    simp only [hpc] at hstep
    cases hstep
    exact ⟨L, h.unlock hpc⟩
  | add =>
    simp only [hpc] at hstep
    cases hstep
    exact ⟨L, h.add hpc⟩
  | spin =>
    simp only [hpc] at hstep
    cases hstep
    split_ifs with hdone
    · exact ⟨L, h⟩
    · exact ⟨L, h.goto rfl rfl le_rfl rfl (h.books.goto hpc rfl rfl rfl rfl rfl rfl rfl
        fun _ => h.all_counted (Nat.le_of_not_lt hdone))⟩
  | get i k =>
    simp only [hpc] at hstep
    rw [hpc] at hown
    have hall := h.books.passed n (by rw [hpc]; rfl)
    have hbooks (y : Pc) (hy : y.passed = true) : Books nkeys keys (s.goto n y) L := by
      have hcount : y.counted = true := by cases y <;> first | rfl | cases hy
      obtain ⟨hins, hst⟩ := inserted_of_counted (b := share nkeys nthread) hcount
      exact h.books.goto hpc rfl rfl rfl rfl hst hins hcount fun _ => hall
    split_ifs at hstep with hi
    · obtain ⟨e, hget, -⟩ := h.get_found hdvd hall hi
      rw [hget] at hstep
      cases hstep
      exact ⟨L, h.goto rfl rfl le_rfl hown.missing (hbooks _ rfl)⟩
    · cases hstep
      exact ⟨L, h.goto rfl rfl le_rfl hown.missing (hbooks _ rfl)⟩
  | finished k =>
    simp only [hpc] at hstep
    cases hstep

theorem Start.inv (h : Start s) : Inv nkeys keys s fun _ => [] := by
  refine ⟨⟨fun i => ?_, nofun, nofun, fun _ => List.nodup_nil⟩, fun n => ?_, fun n n' i i' e hn => ?_,
    ⟨?_, ?_, ?_, fun n hn => ?_⟩⟩
  · rw [h.table i]
    exact .nil
  · rw [h.pc n]
    exact ⟨Nat.zero_le _, nofun, nofun, nofun, rfl⟩
  · rw [h.pc n] at hn
    cases hn
  · rw [h.calls, Finset.sum_eq_zero]
    · rfl
    · intro n _
      rw [h.pc n]
      rfl
  · rw [Finset.sum_eq_zero, entries, Finset.sum_eq_zero]
    · exact fun _ _ => rfl
    · intro n _
      rw [h.pc n]
      rfl
  · rw [h.done, Finset.sum_eq_zero]
    intro n _
    rw [h.pc n]
    rfl
  · rw [h.pc n] at hn
    cases hn

theorem sum_shares (b t : ℕ) :
    ∑ n : Fin t, (Multiset.range b).map (fun i => b * n + i) = Multiset.range (b * t) := by
  induction t with
  | zero => rfl
  | succ t ih =>
    rw [Fin.sum_univ_castSucc, Nat.mul_succ, Multiset.range_add, ← ih]
    rfl

theorem Inv.map_calls {β : Type} (h : Inv nkeys keys s L) (hall : ∀ n, (s.pc n).counted = true)
    (f : ℕ × ℕ → β) : (s.calls : Multiset (ℕ × ℕ)).map f = ∑ n : Fin nthread,
      (Multiset.range (share nkeys nthread)).map fun i => f (share nkeys nthread * n + i, n.val) := by
  have hcalls : (s.calls : Multiset (ℕ × ℕ)) =
      ∑ n : Fin nthread, callsOf nkeys n (share nkeys nthread) := by
    rw [h.books.calls]
    apply Finset.sum_congr rfl
    intro n _
    rw [(inserted_of_counted (hall n)).2]
  rw [hcalls]
  refine (map_sum (Multiset.mapAddMonoidHom f) _ _).trans (Finset.sum_congr rfl fun n _ => ?_)
  rw [Multiset.coe_mapAddMonoidHom, callsOf, Multiset.map_map]
  rfl

end Inv

section Runs

variable {nkeys nthread : ℕ} {keys : ℕ → ℕ} {s t : State nthread}

/-- No key is lost: when a thread has passed the barrier, every key has been put into the table
once, by one thread, the buckets are finite lists of what has been put into them, and every key
is found. -/
theorem no_key_lost (hdvd : nthread ∣ nkeys) (hstart : Start s)
    (hrun : Lib.Runs (step nkeys keys) s t) (hpassed : ∃ n, (t.pc n).passed = true) :
    (t.calls.map Prod.fst).Perm (List.range nkeys) ∧
      (∃ L : Fin NBUCKET → List ℕ,
        (∀ i, Chain (fun e => (t.heap e).next) (t.table i) (L i) ∧ (L i).Nodup ∧
          ∀ e ∈ L i, bucket (t.heap e).key = i) ∧
        ∑ i, (L i : Multiset ℕ).map (fun e => ((t.heap e).key, (t.heap e).value)) =
          (t.calls : Multiset (ℕ × ℕ)).map fun c => (keys c.1, c.2)) ∧
      (∀ i < nkeys, ∃ e, t.get (keys i) = some (some e) ∧ (t.heap e).key = keys i) ∧
      ∀ n k, t.pc n = .finished k → k = 0 := by
  obtain ⟨L, h⟩ : ∃ L, Inv nkeys keys t L := by
    refine hrun.inv (I := fun t => ∃ L, Inv nkeys keys t L) (fun u a v hu _ hstep => ?_)
      ⟨_, hstart.inv⟩
    obtain ⟨L, hu⟩ := hu
    exact hu.step hdvd hstep
  obtain ⟨n, hn⟩ := hpassed
  have hall := h.books.passed n hn
  refine ⟨?_, ⟨L, fun i => ⟨h.lists.chain i, h.lists.nodup i, h.lists.bucket i⟩, ?_⟩,
    fun i hi => h.get_found hdvd hall hi, fun n k hk => ?_⟩
  · have hb : share nkeys nthread * nthread = nkeys := Nat.div_mul_cancel hdvd
    have hsum := sum_shares (share nkeys nthread) nthread
    rw [hb] at hsum
    rw [← Multiset.coe_eq_coe, ← Multiset.map_coe, h.map_calls hall]
    exact hsum
  · rw [h.map_calls hall]
    exact h.entries_eq hall
  · have hmissing := (h.own n).missing
    rw [hk] at hmissing
    exact hmissing

def empty (nthread : ℕ) : State nthread :=
  ⟨fun _ => ⟨0, 0, none⟩, 0, fun _ => none, fun _ => none, 0, fun _ => .put 0, []⟩

theorem start_empty (nthread : ℕ) : Start (empty nthread) :=
  ⟨rfl, fun _ => rfl, fun _ => rfl, rfl, fun _ => rfl, rfl⟩

/-- Two threads whose keys go into one bucket: the second one allocates its entry while the first
one has the lock. -/
theorem no_key_lost_pair : ∃ t, Lib.Runs (step 2 fun i => 3 + 5 * i) (empty 2) t ∧
    (t.calls.map Prod.fst).Perm (List.range 2) ∧
    ∀ i < 2, ∃ e, t.get (3 + 5 * i) = some (some e) ∧ (t.heap e).key = 3 + 5 * i := by
  have hrun : (execute (step 2 fun i => 3 + 5 * i)
      [(0, none), (0, none), (0, none), (1, some 0), (0, none), (0, none), (1, none), (1, none),
        (1, none), (1, none), (1, none), (1, none), (0, none), (0, none), (0, none)]
      (empty 2)).any (fun t => (t.pc 0).passed) = true := by
    decide +kernel
  obtain ⟨t, hrun, hpassed⟩ := exists_of_execute hrun
  have h := no_key_lost (by decide) (start_empty 2) hrun ⟨0, hpassed⟩
  exact ⟨t, hrun, h.1, h.2.2.1⟩

end Runs

end Xv6.Ph
