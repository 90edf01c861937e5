import Xv6.Lib.Overlay
import Xv6.Vm.Proc
import Xv6.Vm.Spaces

namespace Xv6.Vm
open Lib Prog Function

/-- The byte at an address below the kernel's part, if its page is present. -/
def byte (m : Mem) (d : Page) (a : ℕ) : Option UInt8 :=
  (view m d (a / PGSIZE)).bind fun x => x.2.map fun c => c.get (a % PGSIZE)

def UserPage (m : Mem) (d : Page) (v : ℕ) : Prop := ∃ w, lookup m d v = some w ∧ User w

/-- The direct map is complete and closed to users. -/
def Shut (m : Mem) (d : Page) : Prop :=
  ∀ v, Direct v → v < 2 ^ 20 → ∃ w, lookup m d v = some w ∧ ¬ User w

/-- The bytes `l` have been written to user memory from `addr` on, and nothing else has changed. -/
structure Wrote (d : Page) (addr : ℕ) (l : List UInt8) (s s' : State) : Prop
    extends Same s s' where
  calls : s'.kallocs = s.kallocs
  free : s'.freelist = s.freelist
  look : ∀ v, lookup s'.mem d v = lookup s.mem d v
  tables : ∀ i, entry s'.mem d i = entry s.mem d i
  pages : ∀ y, s'.mem y ≠ s.mem y → ∃ v w, ¬ Direct v ∧ lookup s.mem d v = some w ∧ pteAddr w = y
  bytes : byte s'.mem d = overlay (byte s.mem d) addr (l.map some)

/-- The pages in `V` are memory outside the kernel's part, and none of them is a page table or
mapped twice. -/
structure Plain (V : ℕ → Prop) (m : Mem) (d : Page) : Prop where
  outside : ∀ v, V v → ¬ Direct v
  memory : ∀ v w, V v → lookup m d v = some w → pteAddr w * PGSIZE < PHYSTOP
  dir : ∀ v w, V v → lookup m d v = some w → d ≠ pteAddr w
  table : ∀ v w i t, V v → lookup m d v = some w → entry m d i = some t → t ≠ pteAddr w
  once : ∀ v w v' w', V v → lookup m d v = some w → ¬ Direct v' → lookup m d v' = some w' →
    pteAddr w' = pteAddr w → v' = v

variable {p : Pid} {E : String → Prop} {U : Page → Prop} {s : State} {b : Books} {a : Space}
  {d : Page} {v : ℕ} {src : List UInt8}

section Write

variable {s1 s2 : State} {w addr off : ℕ} {l l' : List UInt8} {m : Mem} {V : ℕ → Prop}

theorem Wrote.refl (d : Page) (addr : ℕ) (s : State) : Wrote d addr [] s s :=
  ⟨.refl s, rfl, rfl, fun _ => rfl, fun _ => rfl, fun _ hy => absurd rfl hy,
    by rw [List.map_nil, overlay_nil]⟩

theorem Wrote.trans (h1 : Wrote d addr l s s1) (h2 : Wrote d (addr + l.length) l' s1 s2) :
    Wrote d addr (l ++ l') s s2 where
  toSame := h1.toSame.trans h2.toSame
  calls := h2.calls.trans h1.calls
  free := h2.free.trans h1.free
  look v := (h2.look v).trans (h1.look v)
  tables i := (h2.tables i).trans (h1.tables i)
  pages y hy := by
    by_cases hy1 : s1.mem y = s.mem y
    · obtain ⟨v, w, hv, hw, hwy⟩ := h2.pages y (hy1.symm ▸ hy)
      exact ⟨v, w, hv, (h1.look v).symm.trans hw, hwy⟩
    · exact h1.pages y hy1
  bytes := by
    have hlen : addr + l.length = addr + (l.map some).length := by rw [List.length_map]
    rw [h2.bytes, h1.bytes, List.map_append, hlen, overlay_append]

theorem Wrote.move {addr' : ℕ} (h : Wrote d addr l s s1) (ha : l ≠ [] → addr = addr') :
    Wrote d addr' l s s1 := by
  by_cases hl : l = []
  · subst hl
    refine ⟨h.toSame, h.calls, h.free, h.look, h.tables, h.pages, ?_⟩
    rw [h.bytes, List.map_nil, overlay_nil, overlay_nil]
  · exact ha hl ▸ h

theorem Plain.mono {W : ℕ → Prop} (h : Plain V m d) (hW : ∀ v, W v → V v) : Plain W m d :=
  ⟨fun v hv => h.outside v (hW v hv), fun v w hv => h.memory v w (hW v hv),
    fun v w hv => h.dir v w (hW v hv), fun v w i t hv => h.table v w i t (hW v hv),
    fun v w v' w' hv => h.once v w v' w' (hW v hv)⟩

theorem Plain.of_look {m' : Mem} (h : Plain V m d) (hl : ∀ v, lookup m' d v = lookup m d v)
    (ht : ∀ i, entry m' d i = entry m d i) : Plain V m' d := by
  refine ⟨h.outside, fun v w => ?_, fun v w => ?_, fun v w i t => ?_, fun v w v' w' => ?_⟩
  · rw [hl]
    exact h.memory v w
  · rw [hl]
    exact h.dir v w
  · rw [hl, ht]
    exact h.table v w i t
  · rw [hl, hl]
    exact h.once v w v' w'

theorem Shut.of_look {m' : Mem} (h : Shut m d) (hl : ∀ v, lookup m' d v = lookup m d v) :
    Shut m' d := by
  intro v hv hlt
  rw [hl]
  exact h v hv hlt

theorem UserPage.lt (h : UserPage m d v) : v < 2 ^ 20 := by
  obtain ⟨w, hw, -⟩ := h
  obtain ⟨t, ht, -⟩ := lookup_some hw
  have := entry_lt ht
  omega

theorem Shut.not_direct (h : Shut m d) (hu : UserPage m d v) : ¬ Direct v := by
  intro hv
  obtain ⟨w, hw, hnot⟩ := h v hv hu.lt
  obtain ⟨w', hw', huser⟩ := hu
  rw [hw] at hw'
  cases hw'
  exact hnot huser

theorem byte_congr {m' : Mem} {x : ℕ} (h : view m' d (x / PGSIZE) = view m d (x / PGSIZE)) :
    byte m' d x = byte m d x := by
  unfold byte
  rw [h]

section

variable (h : Plain V s.mem d) (hv : V v) (hw : lookup s.mem d v = some w)
include h hv hw

theorem Plain.view_write (c' : Bytes PGSIZE) :
    (∀ v', v' ≠ v → view (s.setPage (pteAddr w) c').mem d v' = view s.mem d v') ∧
      view (s.setPage (pteAddr w) c').mem d v = some (w, some c') ∧
      ∀ i, entry (s.setPage (pteAddr w) c').mem d i = entry s.mem d i := by
  have hlook : ∀ v', lookup (update s.mem (pteAddr w) c') d v' = lookup s.mem d v' :=
    fun v' => lookup_congr (entry_update_of_ne (h.dir v w hv hw))
      fun t ht => word_update_of_ne (h.table v w _ t hv hw ht)
  refine ⟨fun v' hv' => view_congr (hlook v') fun w' hnd' hw' => ?_, ?_,
    fun i => entry_update_of_ne (h.dir v w hv hw)⟩
  · have hne : pteAddr w' ≠ pteAddr w := fun heq => hv' (h.once v w v' w' hv hw hnd' hw' heq)
    exact update_of_ne hne _ _
  · exact view_eq_some.mpr ⟨h.outside v hv, (hlook v).trans hw, update_self _ _ _⟩

theorem Plain.wrote (hlen : off + src.length ≤ PGSIZE) :
    Wrote d (v * PGSIZE + off) src s
      (s.setPage (pteAddr w) ((s.mem (pteAddr w)).put off src)) := by
  obtain ⟨hother, hself, hentry⟩ := h.view_write hv hw ((s.mem (pteAddr w)).put off src)
  have hnd := h.outside v hv
  refine ⟨⟨rfl, rfl, rfl, rfl, rfl⟩, rfl, rfl, fun v' => ?_, hentry,
    fun y hy => ⟨v, w, hnd, hw, ?_⟩, funext fun x => ?_⟩
  · by_cases hv' : v' = v
    · subst hv'
      rw [lookup_eq_view, hself, hw]
      rfl
    · exact lookup_eq_of_view (hother v' hv')
  · by_contra hne
    exact hy (update_of_ne (Ne.symm hne) _ _)
  · have hx := Nat.div_add_mod x PGSIZE
    have hmod : x % PGSIZE < PGSIZE := Nat.mod_lt _ (by decide)
    by_cases hxv : x / PGSIZE = v
    · have hold : byte s.mem d x = some ((s.mem (pteAddr w)).get (x % PGSIZE)) := by
        unfold byte
        rw [hxv, view_some hnd hw]
        rfl
      have hnew : byte (s.setPage (pteAddr w) ((s.mem (pteAddr w)).put off src)).mem d x =
          some (((s.mem (pteAddr w)).put off src).get (x % PGSIZE)) := by
        unfold byte
        rw [hxv, hself]
        rfl
      have hpos : x = v * PGSIZE + x % PGSIZE := by rw [← hxv, Nat.mul_comm, hx]
      rw [hnew, Bytes.get_put _ _ _ _ hmod]
      split_ifs with hin
      · rw [overlay_of_mem (by omega) (by rw [List.length_map]; omega) (some 0), List.getD_map]
        congr 2
        omega
      · rcases Nat.lt_or_ge (x % PGSIZE) off with hlt | hge
        · rw [overlay_of_lt (by omega), hold]
        · rw [overlay_of_ge (by rw [List.length_map]; omega), hold]
    · rw [byte_congr (hother _ hxv)]
      rcases Nat.lt_or_gt_of_ne hxv with hlt | hgt
      · have := (Nat.div_lt_iff_lt_mul (by decide)).mp hlt
        rw [overlay_of_lt (by omega)]
      · have := (Nat.le_div_iff_mul_le (by decide)).mp hgt
        rw [Nat.succ_mul] at this
        rw [overlay_of_ge (by rw [List.length_map, Nat.add_assoc]; omega)]

theorem ends_memmove (hlen : off + src.length ≤ PGSIZE) :
    Ends p E (memmove (pteAddr w) off src) s fun _ s' =>
      Wrote d (v * PGSIZE + off) src s s' := by
  apply Ends.modify
  rw [if_pos (h.memory v w hv hw)]
  exact h.wrote hv hw hlen

end

section

variable (h : Good U s b) (hdir : b.dir a = some d)
include h hdir

theorem Good.plain : Plain (fun v => ¬ Direct v) s.mem d := by
  have hwalk : ∀ v w, ¬ Direct v → lookup s.mem d v = some w →
      (∀ a d, b.dir a = some d → d ≠ pteAddr w) ∧
        ∀ a d i t, b.dir a = some d → entry s.mem d i = some t → t ≠ pteAddr w := by
    intro v w hv hw
    exact h.not_walked (holds_user hdir hv hw) (fun _ => by rintro ⟨⟩) fun _ _ => by rintro ⟨⟩
  refine ⟨fun _ hv => hv, fun v w hv hw => (h.usable _ _ (holds_user hdir hv hw)).2,
    fun v w hv hw => (hwalk v w hv hw).1 a d hdir,
    fun v w i t hv hw ht => (hwalk v w hv hw).2 a d i t hdir ht, ?_⟩
  intro v w v' w' hv hw hv' hw' heq
  have huser' := holds_user (f := s.freelist) hdir hv' hw'
  rw [heq] at huser'
  cases h.excl _ _ _ huser' (holds_user hdir hv hw)
  rfl

/-- Writes to the user memory of one address space keep the books. -/
theorem Good.of_pages (hsame : Same s s1) (hfree : s1.freelist = s.freelist)
    (hpages : ∀ y, s1.mem y ≠ s.mem y →
      ∃ v w, ¬ Direct v ∧ lookup s.mem d v = some w ∧ pteAddr w = y) :
    Good U s1 b ∧ Apart a b s s1 := by
  have hrole : ∀ y, s1.mem y ≠ s.mem y →
      ∃ v, Holds s.mem s.freelist b (.user a v) y := by
    intro y hy
    obtain ⟨v, w, hnd, hlook, rfl⟩ := hpages y hy
    exact ⟨v, holds_user hdir hnd hlook⟩
  -- A directory or a table is no user page.
  have hword : ∀ r y j, Holds s.mem s.freelist b r y → (∀ v, r ≠ .user a v) →
      word s1.mem y j = word s.mem y j := by
    intro r y j hy hr
    have hmem : s1.mem y = s.mem y := by
      by_contra hne
      obtain ⟨v, hv⟩ := hrole y hne
      exact hr v (h.excl _ _ _ hy hv)
    unfold word
    rw [hmem]
  refine ⟨?_, h.apart hsame fun z => ?_⟩
  · unfold Good
    rw [hsame.layout, hfree]
    refine h.same h.free h.hand fun r x => holds_congr (fun a' d' i hd' => ?_)
      fun a' d' i t j hd' ht => ?_
    · exact entry_congr (hword (.dir a') d' i hd' fun _ => by rintro ⟨⟩)
    · exact entry_congr (hword (.table a' i) t j ⟨d', hd', ht⟩ fun _ => by rintro ⟨⟩)
  · by_cases hz : s1.mem z = s.mem z
    · exact .inl hz
    · obtain ⟨v, hv⟩ := hrole z hz
      exact .inr ⟨.user a v, fun hne => hne rfl, hv⟩

theorem Good.of_wrote (hw : Wrote d addr l s s1) : Good U s1 b ∧ Apart a b s s1 :=
  h.of_pages hdir hw.toSame hw.free hw.pages

end

end Write

section Copyout

variable {va : ℕ}

/-- The loop of `copyout`, where `u` finds the page. -/
def copyoutWith (u : ℕ → VmM (Option Page)) : ℕ → ℕ → List UInt8 → VmM Bool
  | 0, _, _ => return true
  | n + 1, va, src =>
    if src = [] then return true
    else do
      let va0 := PGROUNDDOWN va
      let pa0 ← u va0
      match pa0 with
      | none => return false
      | some x => do
        let k := min (PGSIZE - (va - va0)) src.length
        memmove x (va - va0) (src.take k)
        copyoutWith u n (uadd va0 PGSIZE) (src.drop k)

theorem copyoutLoop_eq (n : ℕ) : copyoutLoop p d n va src = copyoutWith (uva2ka p d) n va src := by
  induction n generalizing va src with
  | zero => rfl
  | succ n ih =>
    rw [copyoutLoop]
    simp only [ih]
    rfl

/-- `uva2ka` that stops where there is no page table. -/
def uva2kaTabled (pgdir : Page) (uva : ℕ) : VmM (Option Page) := do
  let pte ← walkpgdir pgdir uva false
  match pte with
  | none => Prog.panic "uva2ka: no page table"
  | some (t, j) => do
    let w ← Prog.read fun s => s.word t j
    return if Present w ∧ User w then some (pteAddr w) else none

/-- `copyout` that only reads entries that exist. -/
def copyoutTabled (pgdir : Page) (va : ℕ) (src : List UInt8) : VmM Bool :=
  copyoutWith (uva2kaTabled pgdir) src.length va src

theorem run_uva2ka {r : Option Page} {s t : Shared State Empty Pid}
    (h : (uva2kaTabled d va).run p s = .done r t) : (uva2ka p d va).run p s = .done r t := by
  unfold uva2kaTabled at h
  unfold uva2ka
  simp only [bind_eq, run_bind] at h ⊢
  cases hw : (walkpgdir d va false).run p s with
  | blocked | panic m =>
    rw [hw] at h
    cases h
  | done pte u =>
    rw [hw] at h
    cases pte with
    | none => cases h
    | some e => exact h

theorem run_copyoutWith {u u' : ℕ → VmM (Option Page)}
    (hu : ∀ va r s t, (u' va).run p s = .done r t → (u va).run p s = .done r t) (n : ℕ) {va : ℕ}
    {src : List UInt8} {ok : Bool} {s t : Shared State Empty Pid}
    (h : (copyoutWith u' n va src).run p s = .done ok t) :
    (copyoutWith u n va src).run p s = .done ok t := by
  induction n generalizing va src s with
  | zero => exact h
  | succ n ih =>
    unfold copyoutWith at h ⊢
    split_ifs at h ⊢ with hnil
    · exact h
    simp only [bind_eq, run_bind] at h ⊢
    cases hpage : (u' (PGROUNDDOWN va)).run p s with
    | blocked | panic m =>
      rw [hpage] at h
      cases h
    | done r s1 =>
      rw [hpage] at h
      rw [hu _ _ _ _ hpage]
      cases r with
      | none => exact h
      | some x => exact ih h

theorem run_copyout {ok : Bool} {s t : Shared State Empty Pid}
    (h : (copyoutTabled d va src).run p s = .done ok t) :
    (copyout p d va src).run p s = .done ok t := by
  unfold copyout
  rw [copyoutLoop_eq]
  exact run_copyoutWith (fun _ _ _ _ => run_uva2ka) _ h

theorem open_entry {m : Mem} {t : Page} (ht : entry m d (v / 1024) = some t) {w : ℕ}
    (hw : word m t (v % 1024) = w) :
    (if Present w ∧ User w then some (pteAddr w) else none) = none ∧ ¬ UserPage m d v ∨
      ∃ w', (if Present w ∧ User w then some (pteAddr w) else none) = some (pteAddr w') ∧
        lookup m d v = some w' ∧ User w' := by
  have hlook := lookup_of_entry ht
  rw [hw] at hlook
  by_cases hp : Present w
  · rw [if_pos hp] at hlook
    by_cases hu : User w
    · exact .inr ⟨w, if_pos ⟨hp, hu⟩, hlook, hu⟩
    · refine .inl ⟨if_neg fun hcon => hu hcon.2, ?_⟩
      rintro ⟨w', hw', huser⟩
      rw [hlook] at hw'
      cases hw'
      exact hu huser
  · rw [if_neg hp] at hlook
    refine .inl ⟨if_neg fun hcon => hp hcon.1, ?_⟩
    rintro ⟨w', hw', -⟩
    rw [hlook] at hw'
    cases hw'

theorem ends_uva2kaTabled (hva : va < 2 ^ 32)
    (hE : entry s.mem d (va / PGSIZE / 1024) = none → ∀ m, E m) :
    Ends p E (uva2kaTabled d va) s fun r s' => s = s' ∧
      entry s.mem d (va / PGSIZE / 1024) ≠ none ∧
      (r = none ∧ ¬ UserPage s.mem d (va / PGSIZE) ∨
        ∃ w, r = some (pteAddr w) ∧ lookup s.mem d (va / PGSIZE) = some w ∧ User w) := by
  refine Ends.bind (ends_walk va) ?_
  rintro r _ ⟨rfl, rfl⟩
  rw [PDX_eq hva]
  cases ht : entry s.mem d (va / PGSIZE / 1024) with
  | none => exact .panic (hE ht _)
  | some t =>
    refine Ends.bind_read (.ret ⟨rfl, ?_, open_entry ht rfl⟩)
    rintro ⟨⟩

/-- There is a page table for each page of the range up to the first one that is closed to users. -/
def Tabled (m : Mem) (d : Page) (va n : ℕ) : Prop :=
  ∀ x, va ≤ x → x < va + n → x < 2 ^ 32 →
    (∀ y, va ≤ y → y / PGSIZE < x / PGSIZE → UserPage m d (y / PGSIZE)) →
    entry m d (x / PGSIZE / 1024) ≠ none

/-- All pages that overlap the range are open to users, and it does not wrap around. -/
def Open (m : Mem) (d : Page) (va n : ℕ) : Prop :=
  va + n ≤ 2 ^ 32 ∧ ∀ x, va ≤ x → x < va + n → UserPage m d (x / PGSIZE)

theorem div_page {x : ℕ} (h : v * PGSIZE ≤ x) (h' : x < v * PGSIZE + PGSIZE) : x / PGSIZE = v := by
  rw [Nat.div_eq_iff (by decide)]
  have hpos : 0 < PGSIZE := by decide
  omega

/-- The page `v`, in which the range starts, is open to users; the rest of it starts at the next
page. -/
theorem open_iff {m m' : Mem} {n k : ℕ} (hlow : v * PGSIZE ≤ va) (hhigh : va < v * PGSIZE + PGSIZE)
    (hk : k = min (v * PGSIZE + PGSIZE - va) n) (hnext : v * PGSIZE + PGSIZE < 2 ^ 32)
    (hu : UserPage m d v) (hl : ∀ v, lookup m' d v = lookup m d v) :
    Open m' d (v * PGSIZE + PGSIZE) (n - k) ↔ Open m d va n := by
  have hiff : ∀ x, UserPage m' d x ↔ UserPage m d x := fun x => by
    unfold UserPage
    rw [hl]
  unfold Open
  simp only [hiff]
  constructor
  · rintro ⟨hle, hall⟩
    refine ⟨by omega, fun x h1 h2 => ?_⟩
    rcases Nat.lt_or_ge x (v * PGSIZE + PGSIZE) with hlt | hge
    · rw [div_page (by omega) hlt]
      exact hu
    · exact hall x hge (by omega)
  · rintro ⟨hle, hall⟩
    exact ⟨by omega, fun x h1 h2 => hall x (by omega) (by omega)⟩

theorem UserPage.entry_ne_none {m : Mem} (h : UserPage m d v) : entry m d (v / 1024) ≠ none := by
  obtain ⟨w, hw, -⟩ := h
  obtain ⟨t, ht, -⟩ := lookup_some hw
  rw [ht]
  rintro ⟨⟩

theorem tabled_iff {m m' : Mem} {n k : ℕ} (hlow : v * PGSIZE ≤ va)
    (hhigh : va < v * PGSIZE + PGSIZE) (hk : k = min (v * PGSIZE + PGSIZE - va) n)
    (hu : UserPage m d v) (hl : ∀ v, lookup m' d v = lookup m d v)
    (ht : ∀ i, entry m' d i = entry m d i) :
    Tabled m' d (v * PGSIZE + PGSIZE) (n - k) ↔ Tabled m d va n := by
  have hiff : ∀ x, UserPage m' d x ↔ UserPage m d x := fun x => by
    unfold UserPage
    rw [hl]
  unfold Tabled
  simp only [hiff, ht]
  constructor
  · intro h x h1 h2 h3 hbefore
    rcases Nat.lt_or_ge x (v * PGSIZE + PGSIZE) with hlt | hge
    · rw [div_page (by omega) hlt]
      exact hu.entry_ne_none
    · exact h x hge (by omega) h3 fun y hy1 hy2 => hbefore y (by omega) hy2
  · intro h x h1 h2 h3 hbefore
    refine h x (by omega) (by omega) h3 fun y hy1 hy2 => ?_
    rcases Nat.lt_or_ge y (v * PGSIZE + PGSIZE) with hlt | hge
    · rw [div_page (by omega) hlt]
      exact hu
    · exact hbefore y hge hy2

/-- What `copyout` has written when it returns `ok`: everything, or what lies before the first
page that is closed to users. -/
structure CopiedOut (d : Page) (va : ℕ) (src : List UInt8) (s : State) (ok : Bool) (s' : State) :
    Prop where
  wrote : ∃ k, k ≤ src.length ∧ Wrote d va (src.take k) s s' ∧ (ok = true → k = src.length) ∧
    ∀ x, va ≤ x → x < va + k → UserPage s.mem d (x / PGSIZE)
  ok_iff : ok = true ↔ Open s.mem d va src.length

theorem CopiedOut.nil (hva : va < 2 ^ 32) : CopiedOut d va [] s true s :=
  ⟨⟨0, le_rfl, .refl d va s, fun _ => rfl, fun x h1 h2 => by omega⟩,
    fun _ => ⟨hva.le, fun x h1 h2 => absurd h2 (by simpa using h1)⟩, fun _ => rfl⟩

theorem ends_copyoutWith {V : ℕ → Prop} (n : ℕ) (hn : src.length ≤ n) (hva : va < 2 ^ 32)
    (h : Plain V s.mem d)
    (hV : ∀ x, va ≤ x → x < va + src.length → UserPage s.mem d (x / PGSIZE) → V (x / PGSIZE)) :
    Ends p (fun _ => ¬ Tabled s.mem d va src.length) (copyoutWith (uva2kaTabled d) n va src) s
      fun ok s' => Tabled s.mem d va src.length ∧ CopiedOut d va src s ok s' := by
  have hsize : PGSIZE = 4096 := rfl
  have hdone : ∀ s : State, ∀ va, va < 2 ^ 32 →
      Tabled s.mem d va ([] : List UInt8).length ∧ CopiedOut d va [] s true s := by
    intro s va hva
    refine ⟨fun x h1 h2 => absurd h2 (by simpa using h1), .nil hva⟩
  induction n generalizing s va src with
  | zero =>
    obtain rfl : src = [] := List.length_eq_zero_iff.mp (by omega)
    exact .ret (hdone s va hva)
  | succ n ih =>
    refine Ends.ite (fun hnil => ?_) fun hne => ?_
    · subst hnil
      exact .ret (hdone s va hva)
    have hpos : 0 < src.length := List.length_pos_of_ne_nil hne
    have hdown : PGROUNDDOWN va ≤ va := Nat.div_mul_le_self _ _
    have hpage : PGROUNDDOWN va / PGSIZE = va / PGSIZE := Nat.mul_div_cancel _ (by decide)
    -- Nothing lies before the page in which the range starts.
    have hfirst : ∀ P : ℕ → Prop, ∀ y, va ≤ y → y / PGSIZE < va / PGSIZE → P y :=
      fun _ y h1 h2 => absurd (Nat.div_le_div_right h1) h2.not_ge
    refine Ends.bind (ends_uva2kaTabled (hdown.trans_lt hva) ?_) ?_
    · rw [hpage]
      exact fun hnone _ htab => htab va le_rfl (by omega) hva (hfirst _) hnone
    rw [hpage]
    rintro r _ ⟨rfl, htable, ⟨rfl, hno⟩ | ⟨w, rfl, hw, huw⟩⟩
    · refine .ret ⟨fun x h1 h2 h3 hbefore => ?_, ⟨0, Nat.zero_le _, .refl d va s, by rintro ⟨⟩,
        fun x h1 h2 => by omega⟩, by rintro ⟨⟩, fun hopen => ?_⟩
      · -- A later page of the range comes after this one, which is closed.
        rcases (Nat.div_le_div_right h1 : va / PGSIZE ≤ x / PGSIZE).eq_or_lt with heq | hlt
        · rwa [← heq]
        · exact absurd (hbefore va le_rfl hlt) hno
      · exact absurd (hopen.2 va le_rfl (by omega)) hno
    -- The page is one of the process, so the bytes go to it.
    set v := va / PGSIZE with hv
    set off := va - PGROUNDDOWN va with hoff
    set k := min (PGSIZE - off) src.length with hk
    have hvoff : v * PGSIZE + off = va := Nat.add_sub_cancel' hdown
    have hofflt : off < PGSIZE := by
      rw [hsize] at hvoff hv ⊢
      omega
    have huser : UserPage s.mem d v := ⟨w, hw, huw⟩
    have hVv : V v := hV va le_rfl (by omega) huser
    have hnext : v * PGSIZE + PGSIZE < 2 ^ 32 := by
      by_contra hcon
      refine h.outside v hVv (.inr ?_)
      rw [hsize] at hcon ⊢
      simp only [DEVSPACE]
      omega
    have huadd : uadd (PGROUNDDOWN va) PGSIZE = v * PGSIZE + PGSIZE := Nat.mod_eq_of_lt hnext
    have htake : (src.take k).length = k := List.length_take_of_le (Nat.min_le_right _ _)
    have hdrop : (src.drop k).length = src.length - k := List.length_drop
    -- Unless this is the last round, the next one starts where this one has stopped.
    have hgoes : 0 < (src.drop k).length → va + k = v * PGSIZE + PGSIZE := by
      intro hleft
      rw [hdrop] at hleft
      omega
    have hfit : off + (src.take k).length ≤ PGSIZE := by omega
    refine Ends.bind (ends_memmove h hVv hw hfit) ?_
    rintro _ s1 hwrote1
    rw [hvoff] at hwrote1
    rw [huadd]
    have huser1 : ∀ x, UserPage s1.mem d x ↔ UserPage s.mem d x := fun x => by
      unfold UserPage
      rw [hwrote1.look]
    have hrest := ih (show (src.drop k).length ≤ n by rw [hdrop]; omega) hnext
      (h.of_look hwrote1.look hwrote1.tables) fun x h1 h2 hx => by
        rw [hdrop] at h2
        exact hV x (by omega) (by omega) ((huser1 _).mp hx)
    have htabled : Tabled s1.mem d (v * PGSIZE + PGSIZE) (src.length - k) ↔
        Tabled s.mem d va src.length :=
      tabled_iff (by omega) (by omega) (by omega) huser hwrote1.look hwrote1.tables
    have hopen : Open s1.mem d (v * PGSIZE + PGSIZE) (src.length - k) ↔
        Open s.mem d va src.length :=
      open_iff (by omega) (by omega) (by omega) hnext huser hwrote1.look
    rw [hdrop, htabled] at hrest
    refine hrest.mono ?_
    rintro ok s2 ⟨htab, ⟨k', hk', hwrote2, hall, husers⟩, hiff⟩
    rw [hdrop] at hk' hall hiff
    rw [hopen] at hiff
    refine ⟨htab, ⟨k + k', by omega, ?_, fun hok => ?_, fun x h1 h2 => ?_⟩, hiff⟩
    · rw [List.take_add]
      refine hwrote1.trans (hwrote2.move fun hne' => ?_)
      rw [htake, hgoes]
      exact List.length_pos_of_ne_nil fun hnil => hne' (by rw [hnil, List.take_nil])
    · have := hall hok
      omega
    · rcases Nat.lt_or_ge x (v * PGSIZE + PGSIZE) with hlt | hge
      · rw [div_page (by omega) hlt]
        exact huser
      · exact (huser1 _).mp (husers x hge (by omega))

theorem ends_copyout {V : ℕ → Prop} (hva : va < 2 ^ 32) (h : Plain V s.mem d)
    (hV : ∀ x, va ≤ x → x < va + src.length → UserPage s.mem d (x / PGSIZE) → V (x / PGSIZE))
    (htab : Tabled s.mem d va src.length) :
    Ends p E (copyout p d va src) s (CopiedOut d va src s) := by
  intro o
  rcases ends_copyoutWith (p := p) _ le_rfl hva h hV o with ⟨ok, t, hrun, -, hcopied⟩ |
    ⟨-, -, hno⟩
  · exact .inl ⟨ok, t, run_copyout hrun, hcopied⟩
  · exact absurd htab hno

end Copyout

end Xv6.Vm
