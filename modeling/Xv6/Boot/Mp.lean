import Mathlib.Order.OrderIsoNat
import Xv6.Lib.Bytes
import Xv6.Lib.Overlay

namespace Xv6.Mp
open Lib

/-- Memory as the kernel sees it, by virtual addresses. -/
abbrev Mem := UInt32 → UInt8

def NCPU : ℕ := 8

def P2V (a : UInt32) : UInt32 := a + 0x80000000

/-- `sum`, whose result is a byte. -/
def sum (mem : Mem) (addr : UInt32) (len : ℕ) : UInt8 :=
  ((List.range len).foldl (fun s i => s + (mem (addr + i.toUInt32)).toNat) 0).toUInt8

def bytesAt (mem : Mem) (p : UInt32) (n : ℕ) : List UInt8 :=
  (List.range n).map fun i => mem (p + i.toUInt32)

/-- `"_MP_"` and `"PCMP"` -/
def mpSignature : List UInt8 := [95, 77, 80, 95]
def confSignature : List UInt8 := [80, 67, 77, 80]

/-- `sizeof(struct mp)`, `sizeof(struct mpconf)`, `sizeof(struct mpproc)` and
`sizeof(struct mpioapic)`. -/
def MP : ℕ := 16
def MPCONF : UInt32 := 44
def MPPROCENTRY : UInt32 := 20
def MPIOAPICENTRY : UInt32 := 8

def mpsearch1 (mem : Mem) (a : UInt32) (len : ℕ) : Option UInt32 :=
  let addr := P2V a
  let e := addr + len.toUInt32
  let places := (List.range (len / MP)).map fun i => addr + (MP * i).toUInt32
  (places.takeWhile (· < e)).find? fun p => bytesAt mem p 4 = mpSignature && sum mem p MP = 0

def mpsearch (mem : Mem) : Option UInt32 :=
  let bda := P2V 0x400
  let p := num16 (bytesAt mem (bda + 0x0E) 2) * 16
  let mp := if p ≠ 0 then mpsearch1 mem p.toUInt32 1024
    else mpsearch1 mem ((num16 (bytesAt mem (bda + 0x13) 2) * 1024).toUInt32 - 1024) 1024
  match mp with
  | some mp => some mp
  | none => mpsearch1 mem 0xF0000 0x10000

structure Config where
  mp : UInt32
  conf : UInt32
  deriving DecidableEq

def length (mem : Mem) (conf : UInt32) : ℕ := num16 (bytesAt mem (conf + 4) 2)

def mpconfig (mem : Mem) : Option Config :=
  match mpsearch mem with
  | none => none
  | some mp =>
    let physaddr := num32 (bytesAt mem (mp + 4) 4)
    let conf := P2V physaddr.toUInt32
    if physaddr = 0 then none
    else if bytesAt mem conf 4 ≠ confSignature then none
    else if mem (conf + 6) ≠ 1 ∧ mem (conf + 6) ≠ 4 then none
    else if sum mem conf (length mem conf) ≠ 0 then none
    else some ⟨mp, conf⟩

structure Machine where
  ncpu : ℕ
  /-- `cpus[i].apicid` -/
  apicid : ℕ → UInt8
  ioapicid : UInt8
  lapic : ℕ
  ismp : Bool
  imcr : Bool

def MPPROC : UInt8 := 0
def MPBUS : UInt8 := 1
def MPIOAPIC : UInt8 := 2
def MPIOINTR : UInt8 := 3
def MPLINTR : UInt8 := 4

/-- One round of the loop: the next entry and the machine. -/
def entry (mem : Mem) (p : UInt32) (s : Machine) : UInt32 × Machine :=
  if mem p = MPPROC then
    (p + MPPROCENTRY,
      if s.ncpu < NCPU then
        { s with apicid := Function.update s.apicid s.ncpu (mem (p + 1)), ncpu := s.ncpu + 1 }
      else s)
  else if mem p = MPIOAPIC then (p + MPIOAPICENTRY, { s with ioapicid := mem (p + 1) })
  else if mem p = MPBUS ∨ mem p = MPIOINTR ∨ mem p = MPLINTR then (p + 8, s)
  -- The `break` here leaves the `switch`, and the loop goes on with the same entry.
  else (p, { s with ismp := false })

/-- The loop up to `e`, for at most `k` rounds. -/
def walk (mem : Mem) (e : UInt32) : ℕ → UInt32 → Machine → Option Machine
  | 0, _, _ => none
  | k + 1, p, s => if p < e then walk mem e k (entry mem p s).1 (entry mem p s).2 else some s

def Config.end (c : Config) (mem : Mem) : UInt32 := c.conf + (length mem c.conf).toUInt32

def Config.machine (c : Config) (mem : Mem) : Machine :=
  ⟨0, fun _ => 0, 0, num32 (bytesAt mem (c.conf + 36) 4), true, false⟩

/-- `mpinit`, with at most `k` rounds of its loop; an error is a panic. -/
def mpinit (mem : Mem) (k : ℕ) : Option (Except String Machine) :=
  match mpconfig mem with
  | none => some (.error "Expect to run on an SMP")
  | some c =>
    (walk mem (c.end mem) k (c.conf + MPCONF) (c.machine mem)).map fun s =>
      if s.ismp = false then .error "Didn't find a suitable machine"
      else .ok { s with imcr := mem (c.mp + 12) ≠ 0 }

def entrySize (type : UInt8) : Option UInt32 :=
  if type = MPPROC then some MPPROCENTRY
  else if type = MPBUS ∨ type = MPIOAPIC ∨ type = MPIOINTR ∨ type = MPLINTR then some 8
  else none

/-- The entries that begin before `e`, each behind the one before. -/
inductive Meets (mem : Mem) (e : UInt32) : UInt32 → UInt32 → Prop where
  | here {p : UInt32} : p < e → Meets mem e p p
  | next {p q n : UInt32} : p < e → entrySize (mem p) = some n → Meets mem e (p + n) q →
    Meets mem e p q

section

variable {mem : Mem} {e p q n : UInt32} {s t : Machine} {k : ℕ}

theorem Meets.lt (h : Meets mem e p q) : q < e := by
  induction h with
  | here h => exact h
  | next _ _ _ ih => exact ih

theorem Meets.trans (h : Meets mem e p q) (hn : entrySize (mem q) = some n) {r : UInt32}
    (hr : Meets mem e (q + n) r) : Meets mem e p r := by
  induction h with
  | here h => exact .next h hn hr
  | next h hm _ ih => exact .next h hm (ih hn hr)

theorem entry_known (h : entrySize (mem p) = some n) :
    (entry mem p s).1 = p + n ∧ (entry mem p s).2.ismp = s.ismp ∧
      (s.ncpu ≤ NCPU → (entry mem p s).2.ncpu ≤ NCPU) := by
  unfold entrySize at h
  unfold entry
  by_cases h0 : mem p = MPPROC
  · rw [if_pos h0] at h ⊢
    cases h
    split_ifs with hlt
    · exact ⟨rfl, rfl, fun _ => hlt⟩
    · exact ⟨rfl, rfl, id⟩
  · rw [if_neg h0] at h ⊢
    split_ifs at h with h1
    cases h
    split_ifs with h2 h3
    · exact ⟨rfl, rfl, id⟩
    · exact ⟨rfl, rfl, id⟩
    · tauto

theorem entry_unknown (h : entrySize (mem p) = none) :
    entry mem p s = (p, { s with ismp := false }) := by
  unfold entrySize at h
  unfold entry
  split_ifs at h with h0 h1
  rw [if_neg h0, if_neg (by tauto), if_neg (by tauto)]

theorem walk_known (hp : p < e) (hn : entrySize (mem p) = some n) :
    walk mem e (k + 1) p s = walk mem e k (p + n) (entry mem p s).2 := by
  rw [walk, if_pos hp, (entry_known hn).1]

theorem walk_unknown (hp : p < e) (h : entrySize (mem p) = none) (k : ℕ) (s : Machine) :
    walk mem e k p s = none := by
  induction k generalizing s with
  | zero => rfl
  | succ k ih =>
    rw [walk, if_pos hp, entry_unknown h]
    exact ih _

/-- A walk that ends has fewer rounds to go at each entry that it comes to. -/
theorem walk_at (h : Meets mem e p q) (hw : walk mem e k p s = some t) :
    ∃ j s', j ≤ k ∧ walk mem e j q s' = some t := by
  induction h generalizing k s with
  | here => exact ⟨k, s, le_rfl, hw⟩
  | next hp hn _ ih =>
    cases k with
    | zero => cases hw
    | succ k =>
      rw [walk_known hp hn] at hw
      obtain ⟨j, s', hj, hs⟩ := ih hw
      exact ⟨j, s', by omega, hs⟩

/-- The type of the entry is known, and the walk does not come back to it. -/
def Passed (mem : Mem) (e q : UInt32) : Prop :=
  ∃ n, entrySize (mem q) = some n ∧ ¬Meets mem e (q + n) q

theorem passed_of_walk (hq : q < e) (hw : walk mem e k q s = some t) : Passed mem e q := by
  induction k using Nat.strongRecOn generalizing s with
  | ind k ih =>
    cases hn : entrySize (mem q) with
    | none =>
      rw [walk_unknown hq hn] at hw
      cases hw
    | some n =>
      refine ⟨n, hn, fun hback => ?_⟩
      cases k with
      | zero => cases hw
      | succ k =>
        rw [walk_known hq hn] at hw
        obtain ⟨j, s', hj, hs⟩ := walk_at hback hw
        obtain ⟨n', hn', hno⟩ := ih j (by omega) hs
        rw [hn] at hn'
        cases hn'
        exact hno hback

def nextEntry (mem : Mem) (p : UInt32) : UInt32 := p + (entrySize (mem p)).getD 0

theorem nextEntry_known (h : entrySize (mem p) = some n) : nextEntry mem p = p + n := by
  rw [nextEntry, h, Option.getD_some]

theorem meets_iterate (h : ∀ i, (nextEntry mem)^[i] p < e)
    (hk : ∀ q, Meets mem e p q → Passed mem e q) (i : ℕ) :
    Meets mem e p ((nextEntry mem)^[i] p) := by
  induction i generalizing p with
  | zero => exact .here (h 0)
  | succ i ih =>
    obtain ⟨n, hn, -⟩ := hk p (.here (h 0))
    rw [Function.iterate_succ_apply]
    refine .next (h 0) hn ?_
    rw [← nextEntry_known hn]
    refine ih (fun j => h (j + 1)) fun q hq => hk q (.next (h 0) hn ?_)
    rwa [← nextEntry_known hn]

/-- There are finitely many addresses, so a walk that never comes back leaves the table. -/
theorem walk_leaves (hk : ∀ q, Meets mem e p q → Passed mem e q) :
    ∃ i, ¬(nextEntry mem)^[i] p < e := by
  by_contra hall
  have hall' : ∀ i, (nextEntry mem)^[i] p < e := fun i => by_contra fun h => hall ⟨i, h⟩
  obtain ⟨i, j, hlt, heq⟩ := Set.Finite.exists_lt_map_eq_of_forall_mem
    (fun i => Set.mem_univ ((nextEntry mem)^[i] p).toFin) Set.finite_univ
  -- The place after `i` rounds is met again after `j` rounds.
  have hmeet := meets_iterate hall' hk i
  obtain ⟨n, hn, hno⟩ := hk _ hmeet
  refine hno ?_
  have hafter : ∀ d, (nextEntry mem)^[d] ((nextEntry mem)^[i] p + n) =
      (nextEntry mem)^[d + (i + 1)] p := by
    intro d
    rw [Function.iterate_add_apply, Function.iterate_succ_apply', nextEntry_known hn]
  have hback : (nextEntry mem)^[j - (i + 1)] ((nextEntry mem)^[i] p + n) =
      (nextEntry mem)^[i] p := by
    rw [hafter, Nat.sub_add_cancel hlt]
    exact UInt32.toFin_inj.mp heq.symm
  have hmeets := meets_iterate (p := (nextEntry mem)^[i] p + n) (e := e)
    (fun d => by rw [hafter]; exact hall' _) (fun q hq => hk q (hmeet.trans hn hq)) (j - (i + 1))
  rwa [hback] at hmeets

theorem walk_ends {i : ℕ} (hi : ¬(nextEntry mem)^[i] p < e)
    (hk : ∀ q, Meets mem e p q → Passed mem e q) (hs : s.ncpu ≤ NCPU) :
    ∃ t, (∀ k, i < k → walk mem e k p s = some t) ∧ t.ismp = s.ismp ∧ t.ncpu ≤ NCPU := by
  induction i generalizing p s with
  | zero =>
    refine ⟨s, fun k hlt => ?_, rfl, hs⟩
    obtain ⟨k, rfl⟩ : ∃ k', k = k' + 1 := ⟨k - 1, by omega⟩
    exact if_neg hi
  | succ i ih =>
    by_cases hp : p < e
    · obtain ⟨n, hn, -⟩ := hk p (.here hp)
      obtain ⟨-, h2, h3⟩ := entry_known (s := s) hn
      rw [Function.iterate_succ_apply, nextEntry_known hn] at hi
      obtain ⟨t, hwalk, hismp, hncpu⟩ := ih hi (fun q hq => hk q (.next hp hn hq)) (h3 hs)
      refine ⟨t, fun k hlt => ?_, hismp.trans h2, hncpu⟩
      obtain ⟨k, rfl⟩ : ∃ k', k = k' + 1 := ⟨k - 1, by omega⟩
      rw [walk_known hp hn]
      exact hwalk k (by omega)
    · refine ⟨s, fun k hlt => ?_, rfl, hs⟩
      obtain ⟨k, rfl⟩ : ∃ k', k = k' + 1 := ⟨k - 1, by omega⟩
      rw [walk, if_neg hp]

theorem entrySize_le (h : entrySize (mem p) = some n) : 0 < n.toNat ∧ n.toNat ≤ 20 := by
  unfold entrySize at h
  split_ifs at h <;> cases h <;> decide

theorem Meets.le (he : e.toNat + 20 ≤ 2 ^ 32) (h : Meets mem e p q) : p.toNat ≤ q.toNat := by
  induction h with
  | here => exact le_rfl
  | next hp hn _ ih =>
    have hlt := UInt32.lt_iff_toNat_lt.mp hp
    have hsize := entrySize_le hn
    rw [UInt32.toNat_add] at ih
    omega

/-- A table that does not reach to the top of the address space is walked upwards only. -/
theorem no_return (he : e.toNat + 20 ≤ 2 ^ 32) (hq : q < e) (hn : entrySize (mem q) = some n) :
    ¬Meets mem e (q + n) q := by
  intro h
  have hle := h.le he
  have hlt := UInt32.lt_iff_toNat_lt.mp hq
  have hsize := entrySize_le hn
  rw [UInt32.toNat_add] at hle
  omega

end

def Entry (mem : Mem) (c : Config) (q : UInt32) : Prop :=
  Meets mem (c.end mem) (c.conf + MPCONF) q

/-- The walk ends, at most `NCPU` processors are registered, and the machine is accepted unless
there is an entry of an unknown type. -/
def Settles (mem : Mem) (c : Config) : Prop :=
  ∃ K r, (∀ k, K < k → mpinit mem k = some r) ∧ match r with
    | .ok s => s.ncpu ≤ NCPU ∧ ∀ q, Entry mem c q → entrySize (mem q) ≠ none
    | .error msg => msg = "Didn't find a suitable machine" ∧
        ∃ q, Entry mem c q ∧ entrySize (mem q) = none

/-- `mpinit` does what it is meant to do exactly if all entries that the walk comes to have known
types and it comes to none of them twice. -/
theorem mpinit_terminates (mem : Mem) (c : Config) (hc : mpconfig mem = some c) :
    Settles mem c ↔ ∀ q, Entry mem c q → Passed mem (c.end mem) q := by
  have hinit : ∀ k, mpinit mem k = (walk mem (c.end mem) k (c.conf + MPCONF) (c.machine mem)).map
      fun s => if s.ismp = false then .error "Didn't find a suitable machine"
        else .ok { s with imcr := mem (c.mp + 12) ≠ 0 } := by
    intro k
    unfold mpinit
    rw [hc]
  constructor
  · rintro ⟨K, r, hr, -⟩ q hq
    have hend := hr (K + 1) (Nat.lt_succ_self K)
    rw [hinit] at hend
    obtain ⟨t, ht, -⟩ := Option.map_eq_some_iff.mp hend
    obtain ⟨j, s', -, hw⟩ := walk_at hq ht
    exact passed_of_walk hq.lt hw
  · intro hk
    obtain ⟨i, hi⟩ := walk_leaves hk
    obtain ⟨t, hwalk, hismp, hncpu⟩ := walk_ends hi hk (s := c.machine mem) (Nat.zero_le _)
    refine ⟨i, .ok { t with imcr := mem (c.mp + 12) ≠ 0 }, fun k hlt => ?_, hncpu, fun q hq => ?_⟩
    · rw [hinit, hwalk k hlt, Option.map_some, if_neg]
      rw [hismp]
      nofun
    · obtain ⟨n, hn, -⟩ := hk q hq
      rw [hn]
      nofun

def firmware (checksum : UInt8) (entries : List UInt8) : Mem :=
  let bda := overlay (fun _ => 0) 0x8000040E [0x00, 0x9F]
  let mp := overlay bda 0x8009F000
    (mpSignature ++ [0x00, 0xF1, 0x09, 0x00, 1, 4, 166, 0, 0, 0, 0, 0])
  let conf := overlay mp 0x8009F100
    (confSignature ++ [(44 + entries.length).toUInt8, 0, 4, checksum] ++ List.replicate 36 0 ++
      entries)
  fun a => conf a.toNat

def oneBus : Mem := firmware 151 [MPBUS, 0, 0, 0, 0, 0, 0, 0]

theorem mpinit_terminates_bus :
    mpconfig oneBus = some ⟨0x8009F000, 0x8009F100⟩ ∧ Settles oneBus ⟨0x8009F000, 0x8009F100⟩ := by
  have hc : mpconfig oneBus = some ⟨0x8009F000, 0x8009F100⟩ := by decide +kernel
  have hend : Config.end ⟨0x8009F000, 0x8009F100⟩ oneBus = 0x8009F134 := by decide +kernel
  have hsize : entrySize (oneBus (0x8009F100 + MPCONF)) = some 8 := by decide +kernel
  refine ⟨hc, (mpinit_terminates oneBus _ hc).mpr fun q hq => ?_⟩
  unfold Entry at hq
  rw [hend] at hq ⊢
  cases hq with
  | here hlt => exact ⟨8, hsize, no_return (by decide) hlt hsize⟩
  | next _ hn hq =>
    rw [hsize] at hn
    cases hn
    -- The table ends behind the bus.
    cases hq with
    | here h | next h => exact absurd h (by decide)

def unknownEntry : Mem := firmware 147 [5, 0, 0, 0, 0, 0, 0, 0]

theorem mpinit_hangs : mpconfig unknownEntry = some ⟨0x8009F000, 0x8009F100⟩ ∧
    ∀ k, mpinit unknownEntry k = none := by
  have hc : mpconfig unknownEntry = some ⟨0x8009F000, 0x8009F100⟩ := by decide +kernel
  refine ⟨hc, fun k => ?_⟩
  unfold mpinit
  rw [hc]
  dsimp only
  rw [walk_unknown (by decide +kernel) (by decide +kernel)]
  rfl

end Xv6.Mp
