import Xv6.Vm.Contents

namespace Xv6.Vm
open Lib Prog

def pageCount (sz : ℕ) : ℕ := (sz + (PGSIZE - 1)) / PGSIZE

/-- An address space with `n` user pages, their flags and their bytes. -/
structure Image (m : Mem) (d : Page) (n : ℕ) (flags : ℕ → ℕ) (g : ℕ → UInt8) : Prop where
  pages : ∀ v, v < n → ∃ x, lookup m d v = some (x * PGSIZE + flags v)
  above : ∀ v, n ≤ v → ¬ Direct v → lookup m d v = none
  bytes : ∀ x, x < n * PGSIZE → byte m d x = some (g x)
  shut : Shut m d

variable {p : Pid} {E : String → Prop} {U : Page → Prop} {s : State} {b : Books} {a : Space}
  {d : Page} {m : Mem} {n sz addr k : ℕ} {flags : ℕ → ℕ} {g : ℕ → UInt8} {l : List UInt8}

section Image

variable {s' : State} {m' : Mem} {v : ℕ}

theorem PGROUNDUP_eq_pageCount (h : sz ≤ KERNBASE) : PGROUNDUP sz = pageCount sz * PGSIZE :=
  PGROUNDUP_eq h

theorem lt_pageCount : v < pageCount sz ↔ v * PGSIZE < sz := by
  simp only [pageCount, PGSIZE]
  omega

theorem Fresh.image (h : Fresh m d) : Image m d 0 (fun _ => 7) fun _ => 0 :=
  ⟨fun _ hv => by omega, fun v _ hv => h.user v hv, fun _ hx => by omega, h.direct⟩

theorem Image.view_page (h : Image m d n flags g) (hn : n * PGSIZE ≤ KERNBASE) (hv : v < n) :
    ∃ x c, view m d v = some (x * PGSIZE + flags v, some c) := by
  obtain ⟨x, hx⟩ := h.pages v hv
  have hlow : v * PGSIZE < KERNBASE :=
    (Nat.mul_lt_mul_of_pos_right hv (by decide)).trans_le hn
  exact ⟨x, _, view_some (not_direct hlow) hx⟩

theorem Image.high (h : Image m d n flags g) (hn : n * PGSIZE ≤ KERNBASE)
    (hv : KERNBASE ≤ v * PGSIZE) (hd : ¬ Direct v) : lookup m d v = none :=
  h.above v (Nat.le_of_mul_le_mul_right (hn.trans hv) (by decide)) hd

theorem Image.wrote (h : Image s.mem d n flags g) (hw : Wrote d addr l s s') :
    Image s'.mem d n flags (overlay g addr l) := by
  refine ⟨fun v hv => ?_, fun v hv hd => ?_, fun x hx => ?_, h.shut.of_look hw.look⟩
  · rw [hw.look]
    exact h.pages v hv
  · rw [hw.look]
    exact h.above v hv hd
  · rw [hw.bytes, ← overlay_map some x]
    unfold overlay
    rw [h.bytes x hx]

theorem Image.grow {newsz : ℕ} (h : Image m d (pageCount sz) (fun _ => 7) g) (hle : sz ≤ newsz)
    (hnew : newsz < KERNBASE) (hg : ∀ x, sz ≤ x → g x = 0)
    (hz : Zeroed d (fun v => sz ≤ v * PGSIZE ∧ v * PGSIZE < newsz) m m') :
    Image m' d (pageCount newsz) (fun _ => 7) g := by
  have hsize : PGSIZE = 4096 := rfl
  refine ⟨fun v hv => ?_, fun v hv hd => ?_, fun x hx => ?_, fun v hd hlt => ?_⟩
  · rw [lt_pageCount] at hv
    by_cases hsz : sz ≤ v * PGSIZE
    · obtain ⟨x, hx⟩ := hz.new v ⟨hsz, hv⟩
      exact ⟨x, by rw [lookup_eq_view, hx]; rfl⟩
    · rw [lookup_eq_of_view (hz.other v fun hcon => hsz hcon.1)]
      exact h.pages v (lt_pageCount.mpr (Nat.lt_of_not_le hsz))
  · have hv' : ¬ v * PGSIZE < newsz := by rwa [← lt_pageCount, not_lt]
    rw [lookup_eq_of_view (hz.other v fun hcon => hv' hcon.2)]
    refine h.above v (Nat.le_of_not_lt fun hcon => hv' ?_) hd
    rw [lt_pageCount] at hcon
    omega
  · have hv : x / PGSIZE * PGSIZE < newsz :=
      lt_pageCount.mp ((Nat.div_lt_iff_lt_mul (by decide)).mpr hx)
    by_cases hsz : sz ≤ x / PGSIZE * PGSIZE
    · obtain ⟨y, hy⟩ := hz.new (x / PGSIZE) ⟨hsz, hv⟩
      unfold byte
      rw [hy, hg x (hsz.trans (Nat.div_mul_le_self _ _))]
      have hmod : x % PGSIZE < PGSIZE := Nat.mod_lt _ (by decide)
      simp [Bytes.get_of_lt _ hmod, fill]
    · rw [byte_congr (hz.other _ fun hcon => hsz hcon.1)]
      refine h.bytes x ((Nat.div_lt_iff_lt_mul (by decide)).mp (lt_pageCount.mpr ?_))
      exact Nat.lt_of_not_le hsz
  · have hv : ¬ v * PGSIZE < newsz := fun hcon => not_direct (hcon.trans hnew) hd
    rw [lookup_eq_of_view (hz.other v fun hcon => hv hcon.2)]
    exact h.shut v hd hlt

end Image

section Spent

variable {s1 s2 : State} {j : ℕ}

/-- At most `n` pages have been taken from the free list. -/
def Spent (s s' : State) (n : ℕ) : Prop := ∃ j, j ≤ n ∧ Drew s s' j

/-- One of the next `n` calls of `kalloc` fails. -/
def Scarce (s : State) (n : ℕ) : Prop := ∃ j, j < n ∧ FirstShort s j

theorem Spent.refl (s : State) : Spent s s 0 := ⟨0, le_rfl, .refl s⟩

theorem Spent.mono (h : Spent s s1 n) (hn : n ≤ j) : Spent s s1 j := by
  obtain ⟨i, hi, hdrew⟩ := h
  exact ⟨i, hi.trans hn, hdrew⟩

theorem Spent.trans (h1 : Spent s s1 n) (hdeny : s1.deny = s.deny) (h2 : Spent s1 s2 j) :
    Spent s s2 (n + j) := by
  obtain ⟨i1, hi1, hdrew1⟩ := h1
  obtain ⟨i2, hi2, hdrew2⟩ := h2
  exact ⟨i1 + i2, Nat.add_le_add hi1 hi2, hdrew1.trans hdeny hdrew2⟩

theorem Spent.wrote (h : Spent s s1 n) (hw : Wrote d addr l s1 s2) : Spent s s2 n := by
  obtain ⟨i, hi, hdrew⟩ := h
  exact ⟨i, hi, hdrew.of_eq hw.calls hw.free⟩

theorem Spent.scarce (h1 : Spent s s1 n) (hdeny : s1.deny = s.deny) (h2 : Scarce s1 j) :
    Scarce s (n + j) := by
  obtain ⟨i1, hi1, hdrew⟩ := h1
  obtain ⟨i2, hi2, hshort⟩ := h2
  exact ⟨i1 + i2, Nat.add_lt_add_of_le_of_lt hi1 hi2, hdrew.firstShort hdeny hshort⟩

theorem Scarce.mono (h : Scarce s n) (hn : n ≤ j) : Scarce s j := by
  obtain ⟨i, hi, hshort⟩ := h
  exact ⟨i, hi.trans_le hn, hshort⟩

end Spent

section Load

variable {file : List UInt8} {off : ℕ}

theorem readi_some {n : ℕ} (h : readi file off n = some l) : l = (file.drop off).take n := by
  unfold readi at h
  split_ifs at h
  exact (Option.some.inj h).symm

theorem readi_none {n : ℕ} (h : readi file off n = none) (hfile : file.length < 2 ^ 32)
    (hoff : off < 2 ^ 32) : file.length < off + n := by
  unfold readi uadd at h
  split_ifs at h with hcon
  omega

theorem ends_loadLoop {N : ℕ} (hN : N * PGSIZE ≤ KERNBASE) (hfile : file.length < 2 ^ 32) (n : ℕ)
    (h : Good U s b) (hdir : b.dir a = some d) (hi : Image s.mem d N flags g)
    (halign : addr % PGSIZE = 0) (hend : addr + k ≤ N * PGSIZE) (hn : n = pageCount k)
    (hoff : 0 < k → off < 2 ^ 32) :
    Ends p E (loadLoop d file n addr off k) s fun ok s' => Good U s' b ∧
      (∃ l, Wrote d addr l s s' ∧ (ok = true → l = (file.drop off).take k)) ∧
      (ok = false → file.length < off + k) := by
  have hsize : PGSIZE = 4096 := rfl
  induction n generalizing s addr off k g with
  | zero =>
    have hk : k = 0 := by
      unfold pageCount at hn
      rw [hsize] at hn
      omega
    subst hk
    exact .ret ⟨h, ⟨[], .refl d addr s, fun _ => (List.take_zero).symm⟩, by rintro ⟨⟩⟩
  | succ n ih =>
    have hk : 0 < k := by
      by_contra hcon
      have hk0 : k = 0 := by omega
      subst hk0
      exact absurd hn (by simp [pageCount, hsize])
    have hlt32 : addr < 2 ^ 32 := by
      have : KERNBASE < 2 ^ 32 := by decide
      omega
    have hback : addr / PGSIZE * PGSIZE = addr :=
      Nat.div_mul_cancel (Nat.dvd_of_mod_eq_zero halign)
    have hpage : addr / PGSIZE < N := (Nat.div_lt_iff_lt_mul (by decide)).mpr (by omega)
    obtain ⟨x, c, hview⟩ := hi.view_page hN hpage
    obtain ⟨hnd, hw, -⟩ := view_eq_some.mp hview
    obtain ⟨t, ht, hword, -⟩ := lookup_some hw
    refine Ends.bind (ends_walk addr) ?_
    rintro r _ ⟨rfl, rfl⟩
    rw [PDX_eq hlt32, ht]
    refine Ends.bind_read ?_
    have hread : s.word t (PTX addr) = x * PGSIZE + flags (addr / PGSIZE) := hword
    rw [hread, Nat.mod_eq_of_lt (hoff hk)]
    cases hl : readi file off (min k PGSIZE) with
    | none =>
      have hlong := readi_none hl hfile (hoff hk)
      exact .ret ⟨h, ⟨[], .refl d addr s, by rintro ⟨⟩⟩, fun _ => by omega⟩
    | some l =>
      have hl' := readi_some hl
      have hlen : l.length ≤ min k PGSIZE := by rw [hl', List.length_take]; omega
      have hfit : 0 + l.length ≤ PGSIZE := by omega
      refine Ends.bind (ends_memmove (h.plain hdir) hnd hw hfit) ?_
      rintro _ s1 hwrote1
      rw [hback, Nat.add_zero] at hwrote1
      have hgood1 := (h.of_wrote hdir hwrote1).1
      have hread' := congrArg List.length hl'
      rw [List.length_take, List.length_drop] at hread'
      refine Ends.ite (fun hcut => .ret ⟨hgood1, ⟨l, hwrote1, by rintro ⟨⟩⟩, fun _ => by omega⟩)
        fun hfull => ?_
      have hfull' : l.length = min k PGSIZE := not_not.mp hfull
      -- What has been read is in the file, so the offset does not wrap around.
      have hin : off + min k PGSIZE ≤ file.length := by omega
      rcases Nat.lt_or_ge PGSIZE k with hmore | hlast
      · rw [Nat.min_eq_right hmore.le] at hl' hfull' hin
        refine (ih hgood1 (hi.wrote hwrote1) (by rw [Nat.add_mod_right, halign]) (by omega) ?_
          fun _ => by omega).mono ?_
        · unfold pageCount at hn ⊢
          rw [hsize] at hn hmore ⊢
          omega
        · rintro ok s2 ⟨hgood2, ⟨l', hwrote2, hok⟩, hlong⟩
          refine ⟨hgood2, ⟨l ++ l', hwrote1.trans (hfull'.symm ▸ hwrote2), fun h => ?_⟩,
            fun h => by have := hlong h; omega⟩
          rw [hok h, hl', ← List.drop_drop, ← List.take_add, Nat.add_sub_cancel' hmore.le]
      · rw [Nat.min_eq_left hlast] at hl'
        obtain rfl : n = 0 := by
          unfold pageCount at hn
          rw [hsize] at hn hlast
          omega
        exact .ret ⟨hgood1, ⟨l, hwrote1, fun _ => hl'⟩, by rintro ⟨⟩⟩

theorem ends_loaduvm {N : ℕ} (hN : N * PGSIZE ≤ KERNBASE) (hfile : file.length < 2 ^ 32)
    (h : Good U s b) (hdir : b.dir a = some d) (hi : Image s.mem d N flags g)
    (halign : addr % PGSIZE = 0) (hend : addr + k ≤ N * PGSIZE) (hoff : off < 2 ^ 32) :
    Ends p E (loaduvm d addr file off k) s fun ok s' => Good U s' b ∧
      (∃ l, Wrote d addr l s s' ∧ (ok = true → l = (file.drop off).take k)) ∧
      (ok = false → file.length < off + k) :=
  Ends.ite (fun hcon => absurd halign hcon) fun _ =>
    ends_loadLoop hN hfile _ h hdir hi halign hend rfl fun _ => hoff

def headers (file : List UInt8) : ℕ → ℕ → List Proghdr
  | 0, _ => []
  | n + 1, off =>
    Proghdr.decode ((file.drop (off % 2 ^ 32)).take PROGHDR) :: headers file n (off + PROGHDR)

/-- The headers of the segments that are loaded. -/
def loadHeaders (file : List UInt8) (n off : ℕ) : List Proghdr :=
  (headers file n off).filter fun ph => ph.type = ELF_PROG_LOAD

/-- Where the last of the segments ends, from `sz` on. -/
def segmentsEnd (sz : ℕ) (l : List Proghdr) : ℕ :=
  l.foldl (fun sz ph => max sz (ph.vaddr + ph.memsz)) sz

/-- The segments, laid over `g` in their order. -/
def segmentsOver (file : List UInt8) (g : ℕ → UInt8) (l : List Proghdr) : ℕ → UInt8 :=
  l.foldl (fun g ph => overlay g ph.vaddr ((file.drop ph.off).take ph.filesz)) g

theorem le_uadd {x y : ℕ} (hx : x < 2 ^ 32) (hy : y < 2 ^ 32) (h : ¬ uadd x y < x) :
    uadd x y = x + y := by
  unfold uadd at h ⊢
  omega

structure Loaded (m : Mem) (d : Page) (sz : ℕ) (g : ℕ → UInt8) : Prop where
  le : sz ≤ KERNBASE
  image : Image m d (pageCount sz) (fun _ => 7) g
  rest : ∀ x, sz ≤ x → g x = 0

theorem pageCount_le (h : sz ≤ KERNBASE) : pageCount sz * PGSIZE ≤ KERNBASE := by
  simp only [pageCount, PGSIZE, KERNBASE] at h ⊢
  omega

theorem table_mem {newsz v : ℕ} (hnew : newsz < KERNBASE) (hv : v * PGSIZE < newsz) :
    v / 1024 ∈ Finset.range 512 := by
  rw [Finset.mem_range]
  simp only [PGSIZE, KERNBASE] at hv hnew
  omega

/-- The image grows, if there is memory for its pages and as many tables as there may be. -/
theorem ends_grow {newsz : ℕ} (h : Good U s b) (hdir : b.dir a = some d)
    (hload : Loaded s.mem d sz g) :
    Ends p E (allocuvm d sz newsz) s fun r s' => Apart a b s s' ∧ Good U s' b ∧
      (∀ v, KERNBASE ≤ v * PGSIZE → ¬ Direct v → lookup s'.mem d v = none) ∧
      (r ≠ 0 → r = max sz newsz ∧ Loaded s'.mem d r g ∧ Spent s s' (pageCount newsz + 512)) ∧
      (r = 0 → newsz = 0 ∨ KERNBASE ≤ newsz ∨ Scarce s (pageCount newsz + 512)) := by
  have hhigh : ∀ v, KERNBASE ≤ v * PGSIZE → ¬ Direct v → lookup s.mem d v = none :=
    fun v => hload.image.high (pageCount_le hload.le)
  have hpages : allocPages sz newsz ≤ pageCount newsz := by
    simp only [allocPages, pageCount, PGSIZE]
    omega
  have hvacant := vacant_le s.mem d (Finset.range 512)
  rw [Finset.card_range] at hvacant
  refine (ends_allocuvm h hdir ?_).mono ?_
  · rintro - hnew ⟨v, h1, h2, hne⟩
    refine absurd (hload.image.above v ?_ (not_direct (h2.trans hnew))) hne
    rw [← not_lt, lt_pageCount]
    omega
  rintro r s' ⟨hapart, hgood, hcase⟩
  refine ⟨hapart, hgood, fun v hv hd => ?_, fun hr => ?_, fun hr => ?_⟩
  · rcases hcase with ⟨-, -, rfl⟩ | ⟨-, -, -, rfl⟩ | ⟨hnew, -, -, -, -, hview⟩ |
      ⟨hnew, -, -, -, hzero⟩
    · exact hhigh v hv hd
    · exact hhigh v hv hd
    · rw [lookup_eq_of_view (hview v fun hcon => by omega)]
      exact hhigh v hv hd
    · rw [lookup_eq_of_view (hzero.other v fun hcon => by omega)]
      exact hhigh v hv hd
  · rcases hcase with ⟨-, rfl, -⟩ | ⟨-, hless, rfl, rfl⟩ | ⟨-, -, rfl, -⟩ |
      ⟨hnew, hle, rfl, htook, hzero⟩
    · exact absurd rfl hr
    · exact ⟨(max_eq_left hless.le).symm, hload, (Spent.refl _).mono (Nat.zero_le _)⟩
    · exact absurd rfl hr
    · obtain ⟨n, hdrew, hn⟩ := htook (Finset.range 512) fun v hv => table_mem hnew hv
      exact ⟨(max_eq_right hle).symm, ⟨hnew.le, hload.image.grow hle hnew hload.rest hzero,
        fun x hx => hload.rest x (hle.trans hx)⟩, n, by omega, hdrew⟩
  · rcases hcase with ⟨hge, -⟩ | ⟨-, hless, rfl, -⟩ | ⟨hnew, -, -, hlacks, -⟩ | ⟨-, -, rfl, -⟩
    · exact .inr (.inl hge)
    · omega
    · obtain ⟨n, hn, hshort⟩ := hlacks (Finset.range 512) fun v hv => table_mem hnew hv
      exact .inr (.inr ⟨n, by omega, hshort⟩)
    · exact .inl hr

theorem Loaded.segment {s' : State} (h : Loaded s.mem d sz g) (hw : Wrote d addr l s s')
    (hk : addr + k ≤ sz) (hl : l.length ≤ k) : Loaded s'.mem d sz (overlay g addr l) := by
  refine ⟨h.le, h.image.wrote hw, fun x hx => ?_⟩
  rw [overlay_of_ge (by omega)]
  exact h.rest x hx

structure Loadable (file : List UInt8) (ph : Proghdr) : Prop where
  fits : ph.filesz ≤ ph.memsz
  pos : 0 < ph.vaddr + ph.memsz
  aligned : ph.vaddr % PGSIZE = 0
  inFile : ph.off + ph.filesz ≤ file.length

/-- The `n` headers from `off` on are in the file, and each of the segments can be loaded. -/
structure Loads (file : List UInt8) (n off sz : ℕ) : Prop where
  headers : ∀ i, i < n → off + (i + 1) * PROGHDR ≤ file.length
  segment : ∀ ph ∈ loadHeaders file n off, Loadable file ph
  size : segmentsEnd sz (loadHeaders file n off) < KERNBASE

def segmentsCost (l : List Proghdr) : ℕ :=
  (l.map fun ph => pageCount (ph.vaddr + ph.memsz) + 512).sum

theorem le_segmentsEnd (sz : ℕ) (l : List Proghdr) : sz ≤ segmentsEnd sz l := by
  induction l generalizing sz with
  | nil => exact le_rfl
  | cons ph l ih => exact (le_max_left _ _).trans (ih _)

theorem Loads.skip (h : Loads file (n + 1) off sz)
    (hskip : loadHeaders file (n + 1) off = loadHeaders file n (off + PROGHDR)) :
    Loads file n (off + PROGHDR) sz := by
  refine ⟨fun i hi => ?_, ?_, ?_⟩
  · have := h.headers (i + 1) (by omega)
    rw [Nat.succ_mul] at this
    omega
  · rw [← hskip]
    exact h.segment
  · rw [← hskip]
    exact h.size

theorem Loads.rest {ph : Proghdr} (h : Loads file (n + 1) off sz)
    (hseg : loadHeaders file (n + 1) off = ph :: loadHeaders file n (off + PROGHDR)) :
    Loads file n (off + PROGHDR) (max sz (ph.vaddr + ph.memsz)) := by
  have hsize := h.size
  refine ⟨fun i hi => ?_, fun ph' hph' => h.segment ph' ?_, ?_⟩
  · have := h.headers (i + 1) (by omega)
    rw [Nat.succ_mul] at this
    omega
  · rw [hseg]
    exact List.mem_cons_of_mem _ hph'
  · rw [hseg] at hsize
    exact hsize

/-- What has become of the address space when `loadSegments` returns `r`. -/
structure SegmentsDone (file : List UInt8) (n off sz : ℕ) (g : ℕ → UInt8) (d : Page) (s : State)
    (r : Option ℕ) (s' : State) : Prop where
  high : ∀ v, KERNBASE ≤ v * PGSIZE → ¬ Direct v → lookup s'.mem d v = none
  loaded : ∀ sz', r = some sz' → sz' = segmentsEnd sz (loadHeaders file n off) ∧
    Loaded s'.mem d sz' (segmentsOver file g (loadHeaders file n off)) ∧
    Spent s s' (segmentsCost (loadHeaders file n off))
  failed : r = none → Loads file n off sz → Scarce s (segmentsCost (loadHeaders file n off))

theorem ends_loadSegments (hfile : file.length < 2 ^ 32) (n : ℕ) (h : Good U s b)
    (hdir : b.dir a = some d) (hload : Loaded s.mem d sz g) :
    Ends p E (loadSegments d file n off sz) s fun r s' => Apart a b s s' ∧ Good U s' b ∧
      SegmentsDone file n off sz g d s r s' := by
  induction n generalizing s off sz g with
  | zero =>
    refine .ret ⟨.refl a b s, h, fun v => hload.image.high (pageCount_le hload.le),
      fun sz' hr => ?_, by rintro ⟨⟩⟩
    cases hr
    exact ⟨rfl, hload, .refl s⟩
  | succ n ih =>
    have hfail : ∀ {s1 : State}, Apart a b s s1 → Good U s1 b →
        (∀ v, KERNBASE ≤ v * PGSIZE → ¬ Direct v → lookup s1.mem d v = none) →
        (Loads file (n + 1) off sz → Scarce s (segmentsCost (loadHeaders file (n + 1) off))) →
        Ends p E (Prog.ret none : VmM (Option ℕ)) s1 fun r s' => Apart a b s s' ∧ Good U s' b ∧
          SegmentsDone file (n + 1) off sz g d s r s' :=
      fun h1 h2 h3 h4 => .ret ⟨h1, h2, h3, (by rintro _ ⟨⟩), fun _ => h4⟩
    have hhigh : ∀ v, KERNBASE ≤ v * PGSIZE → ¬ Direct v → lookup s.mem d v = none :=
      fun v => hload.image.high (pageCount_le hload.le)
    -- The header that is read in this round.
    have hfirst : Loads file (n + 1) off sz → off + PROGHDR ≤ file.length := fun hl => by
      have := hl.headers 0 (Nat.succ_pos n)
      omega
    unfold loadSegments
    cases hl : readi file (off % 2 ^ 32) PROGHDR with
    | none =>
      refine hfail (.refl a b s) h hhigh fun hloads => ?_
      have := readi_none hl hfile (Nat.mod_lt _ (by decide))
      have := hfirst hloads
      have := Nat.mod_le off (2 ^ 32)
      omega
    | some l =>
      have hl' := readi_some hl
      have hcons : headers file (n + 1) off =
          Proghdr.decode l :: headers file n (off + PROGHDR) := by rw [headers, hl']
      have hvaddr : (Proghdr.decode l).vaddr < 2 ^ 32 := num32_lt _
      have hmemsz : (Proghdr.decode l).memsz < 2 ^ 32 := num32_lt _
      have hoff : (Proghdr.decode l).off < 2 ^ 32 := num32_lt _
      dsimp only
      generalize Proghdr.decode l = ph at hcons hvaddr hmemsz hoff ⊢
      refine Ends.ite (fun hcut => hfail (.refl a b s) h hhigh fun hloads => ?_) fun _ => ?_
      · refine absurd ?_ hcut
        have := hfirst hloads
        have := Nat.mod_le off (2 ^ 32)
        rw [hl', List.length_take, List.length_drop]
        omega
      refine Ends.ite (fun htype => ?_) fun htype => ?_
      · -- Not a segment to load.
        have hskip : loadHeaders file (n + 1) off = loadHeaders file n (off + PROGHDR) := by
          unfold loadHeaders
          rw [hcons, List.filter_cons_of_neg (by simpa using htype)]
        refine (ih h hload).mono ?_
        rintro r s1 ⟨hapart1, hgood1, hdone⟩
        refine ⟨hapart1, hgood1, hdone.high, ?_, fun hr hloads => ?_⟩
        · rw [hskip]
          exact hdone.loaded
        · rw [hskip]
          exact hdone.failed hr (hloads.skip hskip)
      have hseg : loadHeaders file (n + 1) off = ph :: loadHeaders file n (off + PROGHDR) := by
        unfold loadHeaders
        rw [hcons, List.filter_cons_of_pos (by simpa using htype)]
      have hself : Loads file (n + 1) off sz → Loadable file ph ∧ ph.vaddr + ph.memsz < KERNBASE := by
        intro hloads
        have hsize := hloads.size
        rw [hseg] at hsize
        have := le_segmentsEnd (max sz (ph.vaddr + ph.memsz)) (loadHeaders file n (off + PROGHDR))
        refine ⟨hloads.segment ph (hseg ▸ List.mem_cons_self), ?_⟩
        exact (le_max_right _ _).trans_lt (this.trans_lt hsize)
      have hcost : segmentsCost (loadHeaders file (n + 1) off) =
          pageCount (ph.vaddr + ph.memsz) + 512 +
            segmentsCost (loadHeaders file n (off + PROGHDR)) := by
        rw [hseg]
        rfl
      refine Ends.ite (fun hlong => hfail (.refl a b s) h hhigh fun hloads => ?_) fun hfile' => ?_
      · exact absurd (hself hloads).1.fits hlong.not_ge
      refine Ends.ite (fun hwrap => hfail (.refl a b s) h hhigh fun hloads => ?_) fun hwrap => ?_
      · have hkern : KERNBASE < 2 ^ 32 := by decide
        have := (hself hloads).2
        unfold uadd at hwrap
        omega
      have hadd : uadd ph.vaddr ph.memsz = ph.vaddr + ph.memsz :=
        le_uadd hvaddr hmemsz hwrap
      rw [hadd]
      refine Ends.bind (ends_grow h hdir hload) ?_
      rintro r s1 ⟨hapart1, hgood1, hhigh1, hres, hshort⟩
      refine Ends.ite (fun hr => hfail hapart1 hgood1 hhigh1 fun hloads => ?_) fun hr => ?_
      · have hok := hself hloads
        rcases hshort hr with hzero | hge | hscarce
        · exact absurd hok.1.pos (by omega)
        · exact absurd hok.2 hge.not_gt
        · exact hscarce.mono (by omega)
      obtain ⟨hmax, hload1, hspent1⟩ := hres hr
      refine Ends.ite (fun hodd => hfail hapart1 hgood1 hhigh1 fun hloads => ?_) fun halign => ?_
      · exact absurd (hself hloads).1.aligned hodd
      have hend : ph.vaddr + ph.filesz ≤ r := by
        rw [hmax]
        omega
      have hpages : r ≤ pageCount r * PGSIZE := by
        simp only [pageCount, PGSIZE]
        omega
      refine Ends.bind (ends_loaduvm (pageCount_le hload1.le) hfile hgood1 hdir hload1.image
        (not_not.mp halign) (hend.trans hpages) hoff) ?_
      rintro ok s2 ⟨hgood2, ⟨l2, hwrote, hok⟩, hcut⟩
      have hapart2 : Apart a b s s2 :=
        hapart1.trans (.refl a b) (hgood1.of_wrote hdir hwrote).2
      cases ok with
      | false =>
        refine hfail hapart2 hgood2 (fun v hv hd => ?_) fun hloads => ?_
        · rw [hwrote.look]
          exact hhigh1 v hv hd
        · exact absurd (hself hloads).1.inFile (hcut rfl).not_ge
      | true =>
        have hlen : l2.length ≤ ph.filesz := by
          rw [hok rfl, List.length_take]
          exact Nat.min_le_left _ _
        have hspent2 := hspent1.wrote hwrote
        refine (ih hgood2 (hload1.segment hwrote hend hlen)).mono ?_
        rintro r' s3 ⟨hapart3, hgood3, hdone⟩
        refine ⟨hapart2.trans (.refl a b) hapart3, hgood3, hdone.high, fun sz' hr' => ?_,
          fun hr' hloads => ?_⟩
        · obtain ⟨hsz', hload3, hspent3⟩ := hdone.loaded sz' hr'
          rw [hok rfl] at hload3
          rw [hmax] at hsz'
          rw [hcost, hseg]
          exact ⟨hsz', hload3, hspent2.trans hapart2.deny hspent3⟩
        · rw [hcost]
          refine hspent2.scarce hapart2.deny (hdone.failed hr' ?_)
          rw [hmax]
          exact hloads.rest hseg

end Load

section Args

variable {N va : ℕ}

/-- The flags of the pages of a finished image: the last but one is closed to users. -/
def stackFlags (N : ℕ) (v : ℕ) : ℕ := if v + 2 = N then 3 else 7

theorem Image.userPage_iff (h : Image m d N (stackFlags N) g) {v : ℕ} (hv : v < N) :
    UserPage m d v ↔ v + 2 ≠ N := by
  obtain ⟨x, hx⟩ := h.pages v hv
  have huser : User (x * PGSIZE + stackFlags N v) ↔ v + 2 ≠ N := by
    unfold User stackFlags PGSIZE
    split_ifs <;> omega
  rw [← huser]
  constructor
  · rintro ⟨w, hw, hu⟩
    rw [hx] at hw
    cases hw
    exact hu
  · exact fun hu => ⟨_, hx, hu⟩

/-- Where a range lies so that `copyout` finds a page table for each page it looks at. -/
def Fits (N va n : ℕ) : Prop := va + n ≤ N * PGSIZE ∨ DEVSPACE ≤ va ∧ va < 2 ^ 32

theorem Image.tabled {flags : ℕ → ℕ} (h : Image m d N flags g) (hfit : Fits N va n) :
    Tabled m d va n := by
  intro x h1 h2 h3 _ hcon
  have hnone : lookup m d (x / PGSIZE) = none := lookup_of_none hcon
  rcases hfit with hlow | ⟨hhigh, -⟩
  · obtain ⟨y, hy⟩ := h.pages (x / PGSIZE) ((Nat.div_lt_iff_lt_mul (by decide)).mpr (by omega))
    rw [hnone] at hy
    cases hy
  · have hd : Direct (x / PGSIZE) := by
      refine .inr ?_
      simp only [DEVSPACE, PGSIZE] at hhigh ⊢
      omega
    obtain ⟨w, hw, -⟩ := h.shut (x / PGSIZE) hd (by simp only [PGSIZE]; omega)
    rw [hnone] at hw
    cases hw

/-- A range that ends at the stack page, or a few bytes below it, is open to users if it lies in
that page. -/
theorem Image.open_iff (h : Image m d (k + 2) (stackFlags (k + 2)) g)
    (hN : (k + 2) * PGSIZE ≤ KERNBASE) (hn : 0 < n) (hfit : Fits (k + 2) va n)
    (hend : va + n ≤ (k + 2) * PGSIZE → (k + 1) * PGSIZE < va + n + 4) :
    Open m d va n ↔ (k + 1) * PGSIZE ≤ va ∧ va + n ≤ (k + 2) * PGSIZE := by
  have hsize : PGSIZE = 4096 := rfl
  have h1 : (k + 1) * PGSIZE = k * PGSIZE + PGSIZE := Nat.succ_mul _ _
  have h2 : (k + 2) * PGSIZE = (k + 1) * PGSIZE + PGSIZE := Nat.succ_mul _ _
  constructor
  · intro hopen
    rcases hfit with hlow | ⟨hdev, hlt⟩
    · refine ⟨?_, hlow⟩
      by_contra hcon
      -- The last byte in the guard page.
      have hguard : min (va + n - 1) ((k + 1) * PGSIZE - 1) / PGSIZE = k :=
        div_page (by have := hend hlow; omega) (by omega)
      have huser := hopen.2 (min (va + n - 1) ((k + 1) * PGSIZE - 1)) (by omega) (by omega)
      rw [hguard, h.userPage_iff (by omega)] at huser
      exact huser rfl
    · refine absurd (.inr ?_) (h.shut.not_direct (hopen.2 va le_rfl (by omega)))
      simp only [DEVSPACE, PGSIZE] at hdev ⊢
      omega
  · rintro ⟨hlow, hhigh⟩
    refine ⟨hhigh.trans (hN.trans (by decide)), fun x hx1 hx2 => ?_⟩
    rw [div_page (v := k + 1) (by omega) (by omega), h.userPage_iff (by omega)]
    omega

theorem ends_copyout_stack {src : List UInt8} (hN : (k + 2) * PGSIZE ≤ KERNBASE) (h : Good U s b)
    (hdir : b.dir a = some d) (hi : Image s.mem d (k + 2) (stackFlags (k + 2)) g)
    (hsrc : 0 < src.length) (hfit : Fits (k + 2) va src.length)
    (hend : va + src.length ≤ (k + 2) * PGSIZE → (k + 1) * PGSIZE < va + src.length + 4) :
    Ends p E (copyout p d va src) s fun ok s' => Good U s' b ∧ Apart a b s s' ∧
      (∀ v, lookup s'.mem d v = lookup s.mem d v) ∧
      (ok = true → (k + 1) * PGSIZE ≤ va ∧ va + src.length ≤ (k + 2) * PGSIZE ∧
        Image s'.mem d (k + 2) (stackFlags (k + 2)) (overlay g va src)) ∧
      (ok = false → ¬ ((k + 1) * PGSIZE ≤ va ∧ va + src.length ≤ (k + 2) * PGSIZE)) := by
  have hva : va < 2 ^ 32 := by
    have : KERNBASE < 2 ^ 32 := by decide
    rcases hfit with h | h <;> omega
  have hopen := hi.open_iff hN hsrc hfit hend
  refine (ends_copyout hva (h.plain hdir) (fun _ _ _ hx => hi.shut.not_direct hx)
    (hi.tabled hfit)).mono ?_
  rintro ok s' ⟨⟨n, -, hwrote, hall, -⟩, hiff⟩
  rw [hopen] at hiff
  obtain ⟨hgood, hapart⟩ := h.of_wrote hdir hwrote
  refine ⟨hgood, hapart, hwrote.look, fun hok => ?_, fun hok hcon => ?_⟩
  · obtain rfl := hall hok
    rw [List.take_length] at hwrote
    obtain ⟨hlow, hhigh⟩ := hiff.mp hok
    exact ⟨hlow, hhigh, hi.wrote hwrote⟩
  · rw [hiff.mpr hcon] at hok
    cases hok

def padded (n : ℕ) : ℕ := (n + 3) / 4 * 4

theorem padded_bounds (n : ℕ) : n ≤ padded n ∧ padded n < n + 4 := by
  unfold padded
  omega

def argBytes (argv : List Str) : ℕ := (argv.map fun str => padded (str.length + 1)).sum

/-- The strings stand one below the other, from `sp` downwards. -/
def Pushed (g : ℕ → UInt8) : ℕ → List Str → List ℕ → Prop
  | _, [], [] => True
  | sp, str :: argv, q :: ptrs =>
    q % 4 = 0 ∧ q + padded (str.length + 1) = sp ∧ Reads g q (str ++ [0]) ∧ Pushed g q argv ptrs
  | _, _, _ => False

theorem words_length (l : List ℕ) : (words l).length = 4 * l.length := by
  induction l with
  | nil => rfl
  | cons w l ih =>
    show (le32 w ++ words l).length = _
    rw [List.length_append, ih, le32_length, List.length_cons]
    omega

/-- Where a string goes: below the stack pointer, or beyond the kernel's part if it is long. -/
theorem push_place {sp : ℕ} (hN : (k + 2) * PGSIZE ≤ KERNBASE) (hlow : (k + 1) * PGSIZE ≤ sp)
    (hhigh : sp ≤ (k + 2) * PGSIZE) (h4 : sp % 4 = 0) (hn : n ≤ (k + 1) * PGSIZE + 2 ^ 25)
    (hpos : 0 < n) :
    usub sp n / 4 * 4 + padded n = sp ∨
      sp < n ∧ DEVSPACE ≤ usub sp n / 4 * 4 ∧ usub sp n / 4 * 4 < 2 ^ 32 := by
  have hkern : KERNBASE = 2 ^ 31 := rfl
  have hdev : DEVSPACE = 2 ^ 32 - 2 ^ 25 := rfl
  rw [hkern] at hN
  rw [hdev]
  have hmod : n % 2 ^ 32 = n := Nat.mod_eq_of_lt (by omega)
  unfold usub padded
  rw [hmod]
  omega

/-- The state of the stack after the arguments have been pushed. -/
structure Stacked (g : ℕ → UInt8) (low argc sp : ℕ) (ustack : List ℕ) (argv : List Str) (esp : ℕ)
    (ptrs : List ℕ) : Prop where
  strings : Pushed g sp argv ptrs
  block : Reads g esp (words ([0xffffffff, argc + argv.length, esp + 12] ++ (ustack ++ ptrs) ++ [0]))
  room : esp + 4 * (argc + argv.length + 4) + argBytes argv = sp
  low : low ≤ esp
  count : argc + argv.length ≤ MAXARG

theorem ends_pushArgs (hN : (k + 2) * PGSIZE ≤ KERNBASE) (argv : List Str) {argc sp : ℕ}
    {ustack : List ℕ} (h : Good U s b) (hdir : b.dir a = some d)
    (hi : Image s.mem d (k + 2) (stackFlags (k + 2)) g) (hlow : (k + 1) * PGSIZE ≤ sp)
    (hhigh : sp ≤ (k + 2) * PGSIZE) (h4 : sp % 4 = 0) (hargc : ustack.length = argc)
    (hmax : argc ≤ MAXARG) (hshort : ∀ str ∈ argv, str.length + 1 ≤ (k + 1) * PGSIZE + 2 ^ 25) :
    Ends p E (pushArgs p d argc sp ustack argv) s fun r s' => Good U s' b ∧ Apart a b s s' ∧
      (∀ v, lookup s'.mem d v = lookup s.mem d v) ∧
      (∀ esp, r = some esp → ∃ g' ptrs, Image s'.mem d (k + 2) (stackFlags (k + 2)) g' ∧
        Stacked g' ((k + 1) * PGSIZE) argc sp ustack argv esp ptrs ∧
        ∀ x, x < (k + 1) * PGSIZE ∨ sp ≤ x → g' x = g x) ∧
      (r = none → argc + argv.length ≤ MAXARG →
        sp < (k + 1) * PGSIZE + 4 * (argc + argv.length + 4) + argBytes argv) := by
  have hpage : 4096 ≤ (k + 1) * PGSIZE := by
    rw [Nat.succ_mul]
    exact Nat.le_add_left _ _
  induction argv generalizing s argc sp ustack g with
  | nil =>
    have hmax' : argc ≤ 32 := hmax
    have hkern : KERNBASE = 2 ^ 31 := rfl
    have hargs : usub sp ((argc + 1) * 4) = sp - (argc + 1) * 4 := by
      unfold usub
      omega
    have hesp : usub sp ((3 + argc + 1) * 4) = sp - (3 + argc + 1) * 4 := by
      unfold usub
      omega
    have hlen : (words ([0xffffffff, argc, usub sp ((argc + 1) * 4)] ++ ustack ++ [0])).length =
        4 * (argc + 4) := by
      rw [words_length]
      simp [hargc]
    unfold pushArgs
    rw [hesp]
    refine Ends.bind (ends_copyout_stack hN h hdir hi (by rw [hlen]; omega)
      (by rw [hlen]; exact .inl (by omega)) (by rw [hlen]; omega)) ?_
    rw [hlen]
    rintro ok s1 ⟨hgood, hapart, hlook, htrue, hfalse⟩
    cases ok with
    | false =>
      refine .ret ⟨hgood, hapart, hlook, by rintro _ ⟨⟩, fun _ _ => ?_⟩
      have := hfalse rfl
      simp only [argBytes, List.length_nil, List.map_nil, List.sum_nil]
      omega
    | true =>
      obtain ⟨h1, h2, himage⟩ := htrue rfl
      refine .ret ⟨hgood, hapart, hlook, fun esp hr => ?_, by rintro ⟨⟩⟩
      obtain rfl : sp - (3 + argc + 1) * 4 = esp := Option.some.inj hr
      refine ⟨_, [], himage, ⟨trivial, ?_, ?_, h1, by simpa using hmax⟩, fun x hx => ?_⟩
      · have heq : [0xffffffff, argc + ([] : List Str).length, sp - (3 + argc + 1) * 4 + 12] ++
            (ustack ++ []) ++ [0] = [0xffffffff, argc, usub sp ((argc + 1) * 4)] ++ ustack ++ [0] := by
          rw [hargs, List.append_nil, List.length_nil, Nat.add_zero,
            show sp - (3 + argc + 1) * 4 + 12 = sp - (argc + 1) * 4 by omega]
        rw [heq]
        exact reads_overlay
      · simp [argBytes]
        omega
      · rcases hx with hx | hx
        · rw [overlay_of_lt (by omega)]
        · rw [overlay_of_ge (by rw [hlen]; omega)]
  | cons str argv ih =>
    obtain ⟨hstr, hrest⟩ := List.forall_mem_cons.mp hshort
    have hcount : argc + 1 + argv.length = argc + (str :: argv).length := by
      rw [List.length_cons]
      omega
    have hbytes : argBytes (str :: argv) = padded (str.length + 1) + argBytes argv := rfl
    refine Ends.ite (fun hmany => .ret ⟨h, .refl a b s, fun _ => rfl, by rintro _ ⟨⟩,
      fun _ hargs => ?_⟩) fun hless => ?_
    · have hmany' : MAXARG ≤ argc := hmany
      omega
    have hlen : (str ++ [0]).length = str.length + 1 := by rw [List.length_append]; rfl
    have hplace := push_place hN hlow hhigh h4 hstr (Nat.succ_pos _)
    have hq4 : usub sp (str.length + 1) / 4 * 4 % 4 = 0 := Nat.mul_mod_left _ _
    obtain ⟨hpad, hpad'⟩ := padded_bounds (str.length + 1)
    have hdev : KERNBASE < DEVSPACE := by decide
    generalize usub sp (str.length + 1) / 4 * 4 = q at hplace hq4 ⊢
    have hfit : Fits (k + 2) q (str ++ [0]).length := by
      rw [hlen]
      exact hplace.imp (fun hq => by omega) And.right
    refine Ends.bind (ends_copyout_stack hN h hdir hi (by omega) hfit (by omega)) ?_
    rw [hlen]
    rintro ok s1 ⟨hgood1, hapart1, hlook1, htrue, hfalse⟩
    cases ok with
    | false =>
      refine .ret ⟨hgood1, hapart1, hlook1, by rintro _ ⟨⟩, fun _ _ => ?_⟩
      have := hfalse rfl
      rw [hbytes]
      omega
    | true =>
      obtain ⟨hq1, hq2, himage1⟩ := htrue rfl
      -- The string is in the stack page, so the stack pointer has not wrapped around.
      have hq : q + padded (str.length + 1) = sp := hplace.resolve_right fun hcon => by omega
      refine (ih hgood1 himage1 hq1 (by omega) hq4 (by rw [List.length_append, hargc]; rfl)
        (Nat.lt_of_not_le hless) hrest).mono ?_
      rintro r s2 ⟨hgood2, hapart2, hlook2, hres, hfull⟩
      rw [hcount] at hfull
      refine ⟨hgood2, hapart1.trans (.refl a b) hapart2,
        fun v => (hlook2 v).trans (hlook1 v), fun esp hr => ?_, fun hr hargs => ?_⟩
      rotate_left
      · have := hfull hr hargs
        rw [hbytes]
        omega
      obtain ⟨g', ptrs, himage2, hst, hsame⟩ := hres esp hr
      refine ⟨g', q :: ptrs, himage2, ⟨⟨hq4, hq, ?_, hst.strings⟩, ?_, ?_, hst.low, ?_⟩,
        fun x hx => ?_⟩
      · refine reads_overlay.congr fun x hx1 _ => hsame x (.inr hx1)
      · have hblock := hst.block
        rw [hcount, List.append_assoc ustack] at hblock
        exact hblock
      · have hroom := hst.room
        rw [hcount] at hroom
        rw [hbytes]
        omega
      · have := hst.count
        omega
      · rcases hx with hx | hx
        · rw [hsame x (.inl hx), overlay_of_lt (by omega)]
        · rw [hsame x (.inr (by omega)), overlay_of_ge (by omega)]

end Args

end Xv6.Vm
