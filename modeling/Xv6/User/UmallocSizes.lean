import Xv6.User.UmallocRuns

namespace Xv6.Umalloc
open Lib Lib.Extent

variable {base n nu : ℕ} {h : Heap} {live : List Extent} {sbrk sbrk' : Sbrk}

/-- The two kernels answer alike as long as they are asked for a positive number of bytes. -/
def Alike (sbrk sbrk' : Sbrk) : Prop :=
  ∀ t rs bytes, 0 < bytes → bytes < 2 ^ 31 → sbrk' t rs bytes = sbrk t rs bytes

theorem morecore_congr (hs : Alike sbrk sbrk') (hnu : nu * HEADER < 2 ^ 31) (k : ℕ) (h : Heap) :
    morecore sbrk' k nu h = morecore sbrk k nu h := by
  unfold HEADER at hnu
  unfold morecore HEADER
  dsimp only
  rw [hs]
  · split_ifs <;> omega
  · split_ifs <;> omega

theorem mallocLoop_congr (hs : Alike sbrk sbrk') (hnu : nu * HEADER < 2 ^ 31) (k prevp p : ℕ)
    (h : Heap) : mallocLoop sbrk' nu k prevp p h = mallocLoop sbrk nu k prevp p h := by
  induction k generalizing prevp p h with
  | zero => rfl
  | succ k ih =>
    unfold mallocLoop
    simp only [morecore_congr hs hnu, ih]

theorem regions_free {k ap : ℕ} {h h' : Heap} (hr : free k ap h = some h') :
    h'.regions = h.regions := by
  unfold free at hr
  obtain ⟨p, -, hr⟩ := Option.bind_eq_some_iff.mp hr
  cases hr
  rfl

theorem regions_morecore {k p : ℕ} {h' : Heap} (hr : morecore sbrk k nu h = some (p, h')) :
    h'.regions.length = h.regions.length ∧
        sbrk h.calls h.regions ((if nu < 4096 then 4096 else nu) * HEADER % 2 ^ 32) = none ∨
      h.regions.length < h'.regions.length := by
  unfold morecore at hr
  dsimp only at hr
  split at hr
  · rename_i hno
    cases hr
    exact .inl ⟨rfl, hno⟩
  · obtain ⟨h1, hfree, hr⟩ := Option.bind_eq_some_iff.mp hr
    cases hr
    rw [regions_free hfree]
    exact .inr (Nat.lt_succ_self _)

theorem regions_mallocLoop {k prevp p r : ℕ} {h h' : Heap}
    (hr : mallocLoop sbrk nu k prevp p h = some (r, h')) :
    h.regions.length ≤ h'.regions.length := by
  induction k generalizing prevp p h with
  | zero => cases hr
  | succ k ih =>
    rw [mallocLoop] at hr
    split_ifs at hr with h1 h2 h3
    · cases hr
      exact le_rfl
    · cases hr
      exact le_rfl
    · obtain ⟨⟨q, h1⟩, hmore, hr⟩ := Option.bind_eq_some_iff.mp hr
      have hle : h.regions.length ≤ h1.regions.length := by
        rcases regions_morecore hmore with ⟨heq, -⟩ | hlt <;> omega
      dsimp only at hr
      split_ifs at hr with hq
      · cases hr
        exact hle
      · exact hle.trans (ih hr)
    · exact ih hr

/-- The bytes asked for are in the address space, all of them from the kernel and none of them
given away before. -/
def Usable (live : List Extent) (n r : ℕ) (h : Heap) : Prop :=
  r + n ≤ 2 ^ 32 ∧ ∀ x, Has 1 ⟨r, n⟩ x → Covers 1 h.regions x ∧ ¬ Covers HEADER live x

/-- `malloc` returns 0 or a block that is large enough.  The kernel is never asked for less than
one byte: what it would answer makes no difference. -/
def LargeEnough (sbrk : Sbrk) (base : ℕ) (live : List Extent) (n : ℕ) (h : Heap) : Prop :=
  ∃ r h', (∀ sbrk', Alike sbrk sbrk' → Returns (fun k => malloc sbrk' base k n h) (r, h')) ∧
    (r = 0 ∨ Usable live n r h')

theorem Ok.usable {a : ℕ} {l : List Extent} (hok : Ok base h l (⟨a, nu⟩ :: live))
    (hn : n + HEADER ≤ nu * HEADER) : Usable live n (a + HEADER) h := by
  have hH : HEADER = 8 := rfl
  have hbound := hok.layout.addr_bound (e := ⟨a, nu⟩) (by simp)
  refine ⟨?_, fun x hx => ?_⟩
  · have hhigh : a + HEADER * nu < 2 ^ 32 := hbound.2.2
    rw [Nat.mul_comm] at hn
    omega
  · have hblock : Has HEADER ⟨a, nu⟩ x := by
      simp only [Has, stop, HEADER] at hx hn ⊢
      omega
    constructor
    · exact hok.owned x ⟨_, List.mem_append_right l List.mem_cons_self, hblock⟩
    · rintro ⟨e, he, hxe⟩
      exact ((List.pairwise_cons.mp hok.layout.live).1 e he).disjoint hblock hxe

section

variable {l : List Extent} (ho : Ok base (started base h) l live)
include ho

/-- A free block is large enough: the kernel is not asked. -/
theorem largeEnough_of_fit (hn : n + HEADER ≤ unitsFor n * HEADER)
    (hfit : ∃ e ∈ l, unitsFor n ≤ e.size) : LargeEnough sbrk base live n h := by
  obtain ⟨h', l', r, hloop, hok, -⟩ := ho.mallocLoop_found unitsFor_pos hfit
  exact ⟨r + HEADER, h', fun sbrk' _ => ⟨l.length + 1, hloop sbrk'⟩, .inr (hok.usable hn)⟩

/-- No free block is large enough, and the kernel is asked for less than one byte. -/
theorem not_largeEnough_of_negative (hfull : ∀ e ∈ l, e.size < unitsFor n)
    (hneg : ∀ bytes, bytes = (if unitsFor n < 4096 then 4096 else unitsFor n) * HEADER % 2 ^ 32 →
      ¬(0 < bytes ∧ bytes < 2 ^ 31)) : ¬LargeEnough sbrk base live n h := by
  rintro ⟨r, h', hr, -⟩
  obtain ⟨bytes, hbytes⟩ : ∃ bytes,
    bytes = (if unitsFor n < 4096 then 4096 else unitsFor n) * HEADER % 2 ^ 32 := ⟨_, rfl⟩
  have hneg := hneg bytes hbytes
  -- Two kernels, one of which gives memory for such a request and one of which does not.
  let answering (a : Option ℕ) : Sbrk := fun t rs bytes =>
    if 0 < bytes ∧ bytes < 2 ^ 31 then sbrk t rs bytes else a
  have halike : ∀ a, Alike sbrk (answering a) := fun a t rs bytes h0 h1 => if_pos ⟨h0, h1⟩
  have hasked : ∀ a, answering a (started base h).calls (started base h).regions
      ((if unitsFor n < 4096 then 4096 else unitsFor n) * HEADER % 2 ^ 32) = a := by
    intro a
    rw [← hbytes]
    exact if_neg hneg
  have hrun : ∀ a, ∃ k, (morecore (answering a) k (unitsFor n) (started base h)).bind (fun q =>
      if q.1 = 0 then some (0, q.2)
        else mallocLoop (answering a) (unitsFor n) k q.1 (ptr q.2.mem q.1) q.2) =
        some (r, h') := by
    intro a
    obtain ⟨K, hK⟩ := hr _ (halike a)
    have hend := hK (l.length + (K + 1)) (by omega)
    beta_reduce at hend
    rw [malloc_eq, ho.mallocLoop_full unitsFor_pos hfull] at hend
    exact ⟨K, hend⟩
  have hsame : h'.regions = (started base h).regions := by
    obtain ⟨k, hk⟩ := hrun none
    have hmore : morecore (answering none) k (unitsFor n) (started base h) =
        some (0, { started base h with calls := (started base h).calls + 1 }) := by
      unfold morecore
      dsimp only
      rw [hasked]
    rw [hmore] at hk
    cases hk
    rfl
  obtain ⟨k, hk⟩ := hrun (some 0)
  obtain ⟨⟨p, h1⟩, hmore, hk⟩ := Option.bind_eq_some_iff.mp hk
  rcases regions_morecore hmore with ⟨-, hno⟩ | hlt
  · rw [hasked] at hno
    cases hno
  · have hle : h1.regions.length ≤ h'.regions.length := by
      dsimp only at hk
      split_ifs at hk with hp
      · cases hk
        exact le_rfl
      · exact regions_mallocLoop hk
    rw [hsame] at hle
    omega

/-- The units do not wrap around, and the kernel is asked for a positive number of bytes. -/
theorem largeEnough_of_small (hs : Fresh base sbrk) (hbase : 0 < base) (hn : Small n) :
    LargeEnough sbrk base live n h := by
  have hunits : unitsFor n * HEADER < 2 ^ 31 := by
    rw [hn.unitsFor_eq]
    exact hn
  obtain ⟨r, h', hr, ha, -⟩ := ho.mallocLoop hs hbase unitsFor_pos hunits
  refine ⟨r, h', fun sbrk' halike => ?_, ?_⟩
  · simp only [malloc_eq, mallocLoop_congr halike hunits]
    exact hr
  · rcases ha with ⟨h0, -⟩ | ⟨a, l', rfl, hok⟩
    · exact .inl h0
    · refine .inr (hok.usable ?_)
      rw [hn.unitsFor_eq]
      unfold HEADER
      omega

/-- The units wrap around to one: what is returned is 0 or a header alone. -/
theorem largeEnough_wrapped (hs : Fresh base sbrk) (hbase : 0 < base) (hn : 2 ^ 32 - 7 ≤ n)
    (hlt : n < 2 ^ 32) :
    LargeEnough sbrk base live n h ↔ l = [] ∧ Denies sbrk 1 (started base h) := by
  have hone : unitsFor n = 1 := by
    unfold unitsFor HEADER
    omega
  obtain ⟨r, h', hr, ha, hzero⟩ := ho.mallocLoop hs hbase Nat.one_pos (by decide)
  have hempty : (∀ e ∈ l, e.size < 1) ↔ l = [] := by
    refine ⟨fun hsmall => List.eq_nil_iff_forall_not_mem.mpr fun e he => ?_, fun hnil => ?_⟩
    · have hpos := ho.layout.pos e (List.mem_append_left live he)
      have := hsmall e he
      omega
    · rw [hnil]
      nofun
  rw [← hempty, ← hzero]
  have hret : ∀ sbrk', Alike sbrk sbrk' → Returns (fun k => malloc sbrk' base k n h) (r, h') := by
    intro sbrk' halike
    have hunit : 1 * HEADER < 2 ^ 31 := by decide
    simp only [malloc_eq, hone, mallocLoop_congr halike hunit]
    exact hr
  constructor
  · rintro ⟨r', h'', hr', hok⟩
    obtain ⟨rfl, rfl⟩ := Prod.mk.inj
      ((hr' sbrk fun _ _ _ _ _ => rfl).unique (hret sbrk fun _ _ _ _ _ => rfl))
    rcases hok with h0 | husable
    · exact h0
    · rcases ha with ⟨h0, -⟩ | ⟨a, l', rfl, -⟩
      · exact h0
      · have hhigh := husable.1
        unfold HEADER at hhigh
        omega
  · intro h0
    exact ⟨r, h', hret, .inl h0⟩

end

/-- When a request goes well: the units for it do not wrap around, and they are few enough for
`sbrk` or there is a free block for them.  If they wrap around, only a refusal is right. -/
def Served (sbrk : Sbrk) (l : List Extent) (n : ℕ) (h : Heap) : Prop :=
  if n < 2 ^ 32 - 7 then Small n ∨ ∃ e ∈ l, unitsFor n ≤ e.size
  else l = [] ∧ Denies sbrk 1 h

/-- `malloc` gives blocks that are large enough exactly for the requests that can be served from the
list `l` of the free blocks or by the kernel. -/
theorem malloc_large_enough {l : List Extent} (hs : Fresh base sbrk) (hbase : 0 < base)
    (ho : Ok base (started base h) l live) (hn : n < 2 ^ 32) :
    LargeEnough sbrk base live n h ↔ Served sbrk l n (started base h) := by
  unfold Served
  split_ifs with hwrap
  · have hunits : unitsFor n = (n + 7) / 8 + 1 := by
      unfold unitsFor HEADER
      omega
    by_cases hsmall : Small n
    · exact ⟨fun _ => .inl hsmall, fun _ => largeEnough_of_small ho hs hbase hsmall⟩
    by_cases hfit : ∃ e ∈ l, unitsFor n ≤ e.size
    · refine ⟨fun _ => .inr hfit, fun _ => largeEnough_of_fit ho ?_ hfit⟩
      rw [hunits]
      unfold HEADER
      omega
    · have hfull : ∀ e ∈ l, e.size < unitsFor n := fun e he =>
        Nat.lt_of_not_le fun hle => hfit ⟨e, he, hle⟩
      have hlarge : 2 ^ 31 ≤ ((n + 7) / 8 + 1) * 8 := Nat.not_lt.mp hsmall
      refine ⟨fun h => absurd h (not_largeEnough_of_negative ho hfull fun bytes hbytes => ?_),
        fun h => ?_⟩
      · rw [hunits, if_neg (by omega)] at hbytes
        unfold HEADER at hbytes
        omega
      · exact absurd h (not_or.mpr ⟨hsmall, hfit⟩)
  · exact largeEnough_wrapped ho hs hbase (by omega) hn

theorem malloc_large_enough_ten :
    LargeEnough oneRegion 8 [] 10 (Client.start fun _ => 0).heap ∧
      ¬LargeEnough oneRegion 8 [] (2 ^ 31) (Client.start fun _ => 0).heap := by
  have ho : Ok 8 (started 8 (Client.start fun _ => 0).heap) [] [] := ok_init (by decide) rfl
  constructor
  · exact (malloc_large_enough fresh_oneRegion (by decide) ho (by decide)).mpr
      (.inl (by unfold Small; decide))
  · rw [malloc_large_enough fresh_oneRegion (by decide) ho (by decide)]
    rintro (hsmall | ⟨e, he, -⟩)
    · unfold Small at hsmall
      exact absurd hsmall (by decide)
    · cases he

/-- A block for 4 GB that begins where the memory from the kernel ends, and a request for 2 GB whose
answer depends on what the kernel does with a negative number. -/
theorem malloc_wraps :
    (∀ k, ∃ h, malloc oneRegion 8 (k + 5) (2 ^ 32 - 1) (Client.start fun _ => 0).heap =
      some (36864, h) ∧ ¬ Covers 1 h.regions 36864) ∧
    ∃ sbrk, Alike oneRegion sbrk ∧ ∀ k,
      malloc sbrk 8 (k + 5) (2 ^ 31 - 8) (Client.start fun _ => 0).heap ≠
        malloc oneRegion 8 (k + 5) (2 ^ 31 - 8) (Client.start fun _ => 0).heap := by
  constructor
  · intro k
    refine ⟨_, rfl, ?_⟩
    rintro ⟨e, he, hx⟩
    obtain rfl := List.mem_singleton.mp he
    exact absurd hx.2 (by decide)
  · refine ⟨fun t rs bytes => if bytes < 2 ^ 31 then oneRegion t rs bytes else none,
      fun t rs bytes _ hlt => if_pos hlt, fun k heq => ?_⟩
    have hfst := congrArg (Option.map Prod.fst) heq
    have hno : (0 : ℕ) = 4104 := Option.some.inj hfst
    cases hno

end Xv6.Umalloc
