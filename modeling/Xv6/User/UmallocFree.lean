import Xv6.User.Umalloc

namespace Xv6.Umalloc
open Lib Extent

variable {m m' : Mem} {as : List ℕ} {l pre post live : List Extent} {e p : Extent} {base : ℕ}

section Headers

variable {a b v : ℕ} {bs : List ℕ}

/-- Only bytes of the headers at the addresses `as` may differ. -/
def Touches (as : List ℕ) (m m' : Mem) : Prop :=
  ∀ x, (∀ a ∈ as, x < a ∨ a + HEADER ≤ x) → m'.get x = m.get x

theorem Touches.trans {m'' : Mem} (h : Touches as m m') (h' : Touches bs m' m'') :
    Touches (as ++ bs) m m'' := by
  intro x hx
  rw [h' x fun a ha => hx a (List.mem_append_right as ha),
    h x fun a ha => hx a (List.mem_append_left bs ha)]

theorem Touches.mono (h : Touches as m m') (hs : ∀ a ∈ as, a ∈ bs) : Touches bs m m' :=
  fun x hx => h x fun a ha => hx a (hs a ha)

theorem touches_setPtr (m : Mem) (a v : ℕ) : Touches [a] m (setPtr m a v) := by
  intro x hx
  rcases hx a List.mem_cons_self with h | h
  · exact Bytes.get_put_of_lt m _ h
  · exact Bytes.get_put_of_ge m _ (by unfold HEADER at h; rw [le32_length]; omega)

theorem touches_setSize (m : Mem) (a v : ℕ) : Touches [a] m (setSize m a v) := by
  intro x hx
  rcases hx a List.mem_cons_self with h | h
  · exact Bytes.get_put_of_lt m _ (by omega)
  · exact Bytes.get_put_of_ge m _ (by unfold HEADER at h; rw [le32_length]; omega)

theorem get32_congr {o : ℕ} (h : ∀ x, o ≤ x → x < o + 4 → m'.get x = m.get x) :
    m'.get32 o = m.get32 o := by
  unfold Bytes.get32 Bytes.slice
  congr 1
  apply List.map_congr_left
  intro i hi
  have := List.mem_range.mp hi
  exact h _ (by omega) (by omega)

theorem header_congr (h : ∀ x, b ≤ x → x < b + HEADER → m'.get x = m.get x) :
    ptr m' b = ptr m b ∧ size m' b = size m b := by
  have hH : HEADER = 8 := rfl
  exact ⟨get32_congr fun x h1 h2 => h x h1 (by omega),
    get32_congr fun x h1 h2 => h x (by omega) (by omega)⟩

theorem Touches.header (h : Touches as m m') (hb : ∀ a ∈ as, a + HEADER ≤ b ∨ b + HEADER ≤ a) :
    ptr m' b = ptr m b ∧ size m' b = size m b := by
  refine header_congr fun x h1 h2 => h x fun a ha => ?_
  have := hb a ha
  omega

theorem ptr_setPtr (ha : a + HEADER ≤ 2 ^ 32) (hv : v < 2 ^ 32) : ptr (setPtr m a v) a = v :=
  Bytes.get32_put32 m (by unfold HEADER at ha; omega) hv

theorem size_setPtr (m : Mem) (a v : ℕ) : size (setPtr m a v) a = size m a :=
  Bytes.get32_put32_of_disjoint m (.inr le_rfl)

theorem size_setSize (ha : a + HEADER ≤ 2 ^ 32) (hv : v < 2 ^ 32) : size (setSize m a v) a = v :=
  Bytes.get32_put32 m (by unfold HEADER at ha; omega) hv

theorem ptr_setSize (m : Mem) (a v : ℕ) : ptr (setSize m a v) a = ptr m a :=
  Bytes.get32_put32_of_disjoint m (.inl le_rfl)

end Headers

/-- Both halves of `free`: the block at `x` leads to the one at `y`, or they become one. -/
def attach (m : Mem) (x y : ℕ) : Mem :=
  if hadd x (size m x) = y then
    let m := setSize m x (size m x + size m y)
    setPtr m x (ptr m y)
  else setPtr m x y

theorem touches_attach (m : Mem) (x y : ℕ) : Touches [x] m (attach m x y) := by
  unfold attach
  split_ifs
  · exact ((touches_setSize m x _).trans (touches_setPtr _ x _)).mono fun a ha => by simpa using ha
  · exact touches_setPtr m x y

/-- The memory has the free blocks `l` with their links, up to `base`. -/
structure Listed (m : Mem) (l : List Extent) (base : ℕ) : Prop where
  links : Links (ptr m) (l.map addr) base
  size : ∀ e ∈ l, size m e.addr = e.size

variable {a c : List Extent}

theorem Listed.tail (h : Listed m (e :: l) base) : Listed m l base :=
  ⟨h.links.tail, fun f hf => h.size f (List.mem_cons_of_mem e hf)⟩

theorem Listed.congr (h : Listed m l base)
    (hl : ∀ e ∈ l, ptr m' e.addr = ptr m e.addr ∧ Umalloc.size m' e.addr = Umalloc.size m e.addr) :
    Listed m' l base := by
  refine ⟨h.links.congr fun x hx => ?_, fun e he => ?_⟩
  · obtain ⟨e, he, rfl⟩ := List.mem_map.mp hx
    exact (hl e he).1
  · rw [(hl e he).2, h.size e he]

theorem Listed.touches (h : Listed m l base) (ht : Touches as m m')
    (hl : ∀ e ∈ l, ∀ a ∈ as, a + HEADER ≤ e.addr ∨ e.addr + HEADER ≤ a) : Listed m' l base :=
  h.congr fun e he => ht.header (hl e he)

def first (l : List Extent) (base : ℕ) : ℕ := ((l.map addr).head?).getD base

theorem Listed.ptr_eq (h : Listed m (e :: l) base) : ptr m e.addr = first l base := by
  cases l with
  | nil => exact Links.singleton.mp h.links
  | cons f l => exact (Links.cons_cons.mp h.links).1

theorem Listed.cons (h : Listed m l base) (hp : ptr m e.addr = first l base)
    (hs : Umalloc.size m e.addr = e.size) : Listed m (e :: l) base := by
  refine ⟨?_, fun f hf => ?_⟩
  · cases l with
    | nil => exact Links.singleton.mpr hp
    | cons f l => exact Links.cons_cons.mpr ⟨hp, h.links⟩
  · rcases List.mem_cons.mp hf with rfl | hf
    · exact hs
    · exact h.size f hf

theorem hadd_eq (h : e.stop HEADER < 2 ^ 32) : hadd e.addr e.size = e.stop HEADER :=
  Nat.mod_eq_of_lt h

theorem listed_attach (h : Listed m l base) (hsize : size m e.addr = e.size) (hbase : base < 2 ^ 32)
    (haddr : e.addr + HEADER ≤ 2 ^ 32) (hstop : e.stop HEADER < 2 ^ 32)
    (hl : ∀ f ∈ l, e.stop HEADER ≤ f.addr ∧ e.addr + HEADER ≤ f.addr ∧ f.stop HEADER < 2 ^ 32 ∧ f.addr < 2 ^ 32)
    (hnil : l = [] → e.stop HEADER ≠ base) :
    Listed (attach m e.addr (first l base)) (join HEADER e l) base := by
  have hsame : Listed (attach m e.addr (first l base)) l base :=
    h.touches (touches_attach m _ _) fun f hf a ha => by
      rw [List.mem_singleton.mp ha]
      exact .inl (hl f hf).2.1
  cases l with
  | nil =>
    have hne : hadd e.addr (size m e.addr) ≠ base := by
      rw [hsize, hadd_eq hstop]
      exact hnil rfl
    have hm : attach m e.addr (first [] base) = setPtr m e.addr base := if_neg hne
    rw [hm] at hsame ⊢
    exact hsame.cons (ptr_setPtr haddr hbase) (by rw [size_setPtr, hsize])
  | cons f l =>
    obtain ⟨hle, happart, hfstop, hflt⟩ := hl f List.mem_cons_self
    rw [join]
    by_cases hs : e.stop HEADER = f.addr
    · have hadd' : hadd e.addr (size m e.addr) = f.addr := by
        rw [hsize, hadd_eq hstop, hs]
      have hm : attach m e.addr (first (f :: l) base) = setPtr
          (setSize m e.addr (size m e.addr + size m f.addr)) e.addr
          (ptr (setSize m e.addr (size m e.addr + size m f.addr)) f.addr) := if_pos hadd'
      have hsum : e.size + f.size < 2 ^ 32 := by
        unfold stop HEADER at *
        omega
      have hptr : ptr (setSize m e.addr (size m e.addr + size m f.addr)) f.addr = first l base := by
        rw [((touches_setSize m e.addr _).header fun a ha => ?_).1, h.ptr_eq]
        rw [List.mem_singleton.mp ha]
        exact .inl happart
      rw [if_pos hs]
      rw [hm] at hsame ⊢
      refine hsame.tail.cons (e := ⟨e.addr, e.size + f.size⟩) ?_ ?_
      · exact (ptr_setPtr haddr (Bytes.get32_lt _ _)).trans hptr
      · rw [size_setPtr, size_setSize haddr, hsize, h.size f List.mem_cons_self]
        rwa [hsize, h.size f List.mem_cons_self]
    · have hne : hadd e.addr (size m e.addr) ≠ f.addr := by
        rw [hsize, hadd_eq hstop]
        exact hs
      have hm : attach m e.addr (first (f :: l) base) = setPtr m e.addr f.addr := if_neg hne
      rw [if_neg hs]
      rw [hm] at hsame ⊢
      exact hsame.cons (ptr_setPtr haddr hflt) (by rw [size_setPtr, hsize])

/-- The loop of `free` ends at `p`. -/
def Stops (m : Mem) (bp p : ℕ) : Prop :=
  bp > p ∧ bp < ptr m p ∨ p ≥ ptr m p ∧ (bp > p ∨ bp < ptr m p)

theorem freeLoop_eq {bp p q k : ℕ} (hl : Links (ptr m) as p) (has : ∀ a ∈ as, ¬ Stops m bp a)
    (hp : Stops m bp p) (hq : (as ++ [p]).head? = some q) (hk : as.length < k) :
    freeLoop m bp k q = some p := by
  induction as generalizing q k with
  | nil =>
    obtain rfl : p = q := Option.some.inj hq
    obtain ⟨k, rfl⟩ := Nat.exists_eq_succ_of_ne_zero (Nat.ne_of_gt hk)
    rw [freeLoop]
    rcases hp with hp | hp
    · rw [if_pos hp]
    · rw [if_pos hp, ite_self]
  | cons a as ih =>
    obtain rfl : a = q := Option.some.inj hq
    obtain ⟨k, rfl⟩ := Nat.exists_eq_succ_of_ne_zero (Nat.ne_of_gt (Nat.zero_lt_of_lt hk))
    have ha := has a List.mem_cons_self
    rw [freeLoop, if_neg fun h => ha (.inl h), if_neg fun h => ha (.inr h)]
    refine ih hl.tail (fun b hb => has b (List.mem_cons_of_mem a hb)) ?_ (Nat.lt_of_succ_lt_succ hk)
    cases as with
    | nil => exact congrArg some (Links.singleton.mp hl).symm
    | cons b as => exact congrArg some (Links.cons_cons.mp hl).1.symm

theorem Listed.ptr_of_append (h : Listed m (a ++ e :: c) base) : Listed m (e :: c) base := by
  refine ⟨?_, fun f hf => h.size f (List.mem_append_right a hf)⟩
  have hl := h.links
  rw [List.map_append, List.map_cons] at hl
  exact (Links.append_cons.mp hl).2

/-- The blocks from one on are replaced, and those in front of it are as before. -/
theorem Listed.replace {d : List Extent} {e' : Extent} (h : Listed m (a ++ e :: c) base)
    (h' : Listed m' (e' :: d) base) (haddr : e'.addr = e.addr) (ht : Touches as m m')
    (ha : ∀ f ∈ a, ∀ x ∈ as, x + HEADER ≤ f.addr ∨ f.addr + HEADER ≤ x) :
    Listed m' (a ++ e' :: d) base := by
  have hlinks := h.links
  rw [List.map_append, List.map_cons] at hlinks
  refine ⟨?_, fun f hf => ?_⟩
  · rw [List.map_append, List.map_cons]
    refine Links.append_cons.mpr ⟨?_, h'.links⟩
    rw [haddr]
    refine (Links.append_cons.mp hlinks).1.congr fun x hx => ?_
    obtain ⟨f, hf, rfl⟩ := List.mem_map.mp hx
    exact (ht.header (ha f hf)).1
  · rcases List.mem_append.mp hf with hf | hf
    · rw [(ht.header (ha f hf)).2, h.size f (List.mem_append_left _ hf)]
    · exact h'.size f hf

section Place

variable {bp : ℕ}

theorem stops_iff (h : Listed m (pre ++ p :: post) base)
    (hsort : (pre ++ p :: post).Pairwise fun e f => e.addr < f.addr)
    (hbase : ∀ e ∈ pre ++ p :: post, base ≤ e.addr) (hp : p.addr < bp)
    (hpost : ∀ f ∈ post, bp < f.addr) {e : Extent} (he : e ∈ pre ++ p :: post) :
    Stops m bp e.addr ↔ e = p := by
  have hp0 := hbase p (List.mem_append_right pre List.mem_cons_self)
  rcases List.mem_append.mp he with hpre | hmem
  · -- In front of the place: the next block is still below `bp`.
    have hlt : e.addr < p.addr :=
      (List.pairwise_append.mp hsort).2.2 e hpre p List.mem_cons_self
    obtain ⟨a, c, rfl⟩ := List.append_of_mem hpre
    rw [List.append_assoc, List.cons_append] at h hsort
    obtain ⟨hc, -⟩ := List.pairwise_cons.mp (List.pairwise_append.mp hsort).2.1
    have hnext : ∃ g, ptr m e.addr = g ∧ e.addr < g ∧ g ≤ p.addr := by
      rw [h.ptr_of_append.ptr_eq]
      cases c with
      | nil => exact ⟨p.addr, rfl, hlt, le_rfl⟩
      | cons g c =>
        have hsort' := (List.pairwise_cons.mp (List.pairwise_append.mp hsort).2.1).2
        refine ⟨g.addr, rfl, hc g List.mem_cons_self, Nat.le_of_lt ?_⟩
        exact (List.pairwise_cons.mp hsort').1 p (List.mem_append_right c List.mem_cons_self)
    obtain ⟨g, hg, hlt', hle⟩ := hnext
    constructor
    · intro hstop
      unfold Stops at hstop
      omega
    · rintro rfl
      omega
  · rcases List.mem_cons.mp hmem with rfl | hmem
    · refine ⟨fun _ => rfl, fun _ => ?_⟩
      have hptr := h.ptr_of_append.ptr_eq
      unfold Stops
      rw [hptr]
      cases post with
      | nil => exact .inr ⟨hp0, .inl hp⟩
      | cons f post => exact .inl ⟨hp, hpost f List.mem_cons_self⟩
    · -- Behind the place: the next block is higher, or the first one.
      have hlt := hpost e hmem
      obtain ⟨a, c, rfl⟩ := List.append_of_mem hmem
      have h' : Listed m ((pre ++ p :: a) ++ e :: c) base := by simpa using h
      have hptr := h'.ptr_of_append.ptr_eq
      constructor
      · intro hstop
        unfold Stops at hstop
        rw [hptr] at hstop
        cases c with
        | nil =>
          have hbase' : first [] base = base := rfl
          omega
        | cons g c =>
          have hsort' : ((pre ++ p :: a) ++ e :: g :: c).Pairwise fun e f => e.addr < f.addr := by
            simpa using hsort
          have hlt' := (List.pairwise_cons.mp (List.pairwise_append.mp hsort').2.1).1 g
            List.mem_cons_self
          have hg : first (g :: c) base = g.addr := rfl
          omega
      · rintro rfl
        omega

theorem freeLoop_place (h : Listed m (pre ++ p :: post) base)
    (hhead : ((pre ++ p :: post).map addr).head? = some base)
    (hstop : ∀ e ∈ pre ++ p :: post, Stops m bp e.addr ↔ e = p) {q k : ℕ}
    (hq : q ∈ (pre ++ p :: post).map addr) (hk : (pre ++ p :: post).length ≤ k) :
    freeLoop m bp k q = some p.addr := by
  obtain ⟨l1, l2, hsplit⟩ := List.append_of_mem hq
  have hl := h.links
  rw [hsplit] at hl hhead
  have hrot := hl.rotate hhead
  have hlen : (q :: (l2 ++ l1)).length ≤ k := by
    have := congrArg List.length hsplit
    simp only [List.length_map, List.length_append, List.length_cons] at this hk ⊢
    omega
  have hmem : ∀ a, a ∈ q :: (l2 ++ l1) ↔ a ∈ (pre ++ p :: post).map addr := by
    intro a
    rw [hsplit]
    simp only [List.mem_append, List.mem_cons]
    tauto
  have hpmem : p.addr ∈ q :: (l2 ++ l1) := by
    rw [hmem]
    exact List.mem_map_of_mem (List.mem_append_right pre List.mem_cons_self)
  obtain ⟨as, bs, heq, hnot⟩ := List.eq_append_cons_of_mem hpmem
  rw [heq] at hrot hlen
  refine freeLoop_eq (Links.append_cons.mp hrot).1 (fun a ha hs => ?_) ?_ ?_ ?_
  · have ha' : a ∈ q :: (l2 ++ l1) := by
      rw [heq]
      exact List.mem_append_left _ ha
    obtain ⟨e, he, rfl⟩ := List.mem_map.mp ((hmem a).mp ha')
    rw [hstop e he] at hs
    exact hnot (hs ▸ ha)
  · exact (hstop p (List.mem_append_right pre List.mem_cons_self)).mpr rfl
  · have := congrArg List.head? heq
    rw [List.head?_cons] at this
    rw [this]
    cases as <;> rfl
  · simp only [List.length_append, List.length_cons] at hlen
    omega

end Place

/-- The free blocks `l` and the blocks `live` that the program has: between two free blocks there is
another one, and no byte is in two blocks. -/
structure Layout (base : ℕ) (l live : List Extent) : Prop where
  gapped : Gapped HEADER l
  pos : ∀ e ∈ l ++ live, 0 < e.size
  bound : ∀ x, Covers HEADER (l ++ live) x → base + HEADER ≤ x ∧ x + 1 < 2 ^ 32
  apart : ∀ x, Covers HEADER l x → ¬ Covers HEADER live x
  live : live.Pairwise (Extent.Apart HEADER)

/-- The header `base` is in front of the free blocks, with size 0. -/
def withBase (base : ℕ) (l : List Extent) : List Extent := ⟨base, 0⟩ :: l

/-- The heap is in order, with the free blocks `l` and the blocks `live` of the program. -/
structure Ok (base : ℕ) (h : Heap) (l live : List Extent) : Prop where
  layout : Layout base l live
  listed : Listed h.mem (withBase base l) base
  size : ∀ e ∈ live, size h.mem e.addr = e.size
  freep : h.freep ∈ (withBase base l).map addr
  owned : ∀ x, Covers HEADER (l ++ live) x → Covers 1 h.regions x
  units : HEADER * units (l ++ live) = units h.regions

section Layout

variable {f : Extent} {x : ℕ}

theorem covers_withBase (base : ℕ) : Covers HEADER (withBase base l) x ↔ Covers HEADER l x := by
  rw [withBase, covers_cons]
  refine or_iff_right fun hx => ?_
  simp only [Has, stop, Nat.mul_zero] at hx
  omega

theorem units_withBase (base : ℕ) (l : List Extent) :
    Extent.units (withBase base l) = Extent.units l := by
  rw [withBase, units_cons, Nat.zero_add]

section

variable (h : Layout base l live)
include h

theorem Layout.addr_bound (he : e ∈ l ++ live) :
    base + HEADER ≤ e.addr ∧ e.addr + HEADER ≤ e.stop HEADER ∧ e.stop HEADER < 2 ^ 32 := by
  have hpos := h.pos e he
  have hstop : e.stop HEADER = e.addr + 8 * e.size := rfl
  have hfirst := h.bound e.addr ⟨e, he, le_rfl, by omega⟩
  have hlast := h.bound (e.stop HEADER - 1) ⟨e, he, by omega, by omega⟩
  unfold HEADER at *
  omega

theorem Layout.apart_of_mem (he : e ∈ l) (hf : f ∈ live) :
    e.Apart HEADER f := by
  refine apart_of_disjoint (by decide) (h.pos e (List.mem_append_left _ he))
    (h.pos f (List.mem_append_right _ hf)) fun x hx hx' => ?_
  exact h.apart x ⟨e, he, hx⟩ ⟨f, hf, hx'⟩

theorem Layout.gapped_withBase : Gapped HEADER (withBase base l) := by
  refine List.pairwise_cons.mpr ⟨fun e he => ?_, h.gapped⟩
  have := (h.addr_bound (List.mem_append_left live he)).1
  simp only [stop, Nat.mul_zero]
  unfold HEADER at this
  omega

theorem Layout.sorted :
    (withBase base l).Pairwise fun e f => e.addr < f.addr :=
  h.gapped_withBase.imp fun hef => Nat.lt_of_le_of_lt (Nat.le_add_right _ _) hef

/-- The header of a free block and that of a block of the program do not overlap. -/
theorem Layout.header_apart (he : e ∈ withBase base l) (hf : f ∈ live) :
    e.addr + HEADER ≤ f.addr ∨ f.addr + HEADER ≤ e.addr := by
  have hf' := h.addr_bound (List.mem_append_right l hf)
  rcases List.mem_cons.mp he with rfl | he
  · exact .inl hf'.1
  · have he' := h.addr_bound (List.mem_append_left live he)
    have := h.apart_of_mem he hf
    unfold Extent.Apart at this
    omega

theorem Layout.header_le {a c : List Extent}
    (hsplit : withBase base l = a ++ e :: c) (hf : f ∈ c) : e.addr + HEADER ≤ f.addr := by
  have hgap := h.gapped_withBase
  rw [hsplit] at hgap
  have hlt := (List.pairwise_cons.mp (List.pairwise_append.mp hgap).2.1).1 f hf
  cases a with
  | nil =>
    cases hsplit
    exact (h.addr_bound (List.mem_append_left live hf)).1
  | cons g a =>
    obtain ⟨-, rfl⟩ := List.cons.inj hsplit
    have he := h.addr_bound (e := e)
      (List.mem_append_left live (List.mem_append_right a List.mem_cons_self))
    omega

end

end Layout

section Free

variable {h : Heap} {b : Extent} {l' : List Extent}

theorem free_eq {k : ℕ} (hb : b.addr < 2 ^ 32)
    (hloop : freeLoop h.mem b.addr k h.freep = some p.addr) (hapart : p.addr + HEADER ≤ b.addr) :
    free k (b.addr + HEADER) h = some { h with
      mem := attach (attach h.mem b.addr (ptr h.mem p.addr)) p.addr b.addr, freep := p.addr } := by
  have hbp : (b.addr + HEADER + (2 ^ 32 - HEADER)) % 2 ^ 32 = b.addr := by
    unfold HEADER
    omega
  have hsame : ∀ v, ptr (setSize h.mem b.addr v) p.addr = ptr h.mem p.addr := by
    intro v
    refine ((touches_setSize h.mem b.addr v).header fun a ha => ?_).1
    rw [List.mem_singleton.mp ha]
    exact .inr hapart
  have hfirst : attach h.mem b.addr (ptr h.mem p.addr) =
      if hadd b.addr (size h.mem b.addr) = ptr h.mem p.addr then
        setPtr (setSize h.mem b.addr (size h.mem b.addr + size h.mem (ptr h.mem p.addr))) b.addr
          (ptr (setSize h.mem b.addr (size h.mem b.addr + size h.mem (ptr h.mem p.addr)))
            (ptr (setSize h.mem b.addr (size h.mem b.addr + size h.mem (ptr h.mem p.addr))) p.addr))
      else setPtr h.mem b.addr (ptr h.mem p.addr) := by
    rw [hsame]
    rfl
  unfold free
  simp only [hbp, hloop]
  rw [hfirst]
  rfl

structure Placed (base : ℕ) (l pre : List Extent) (p b : Extent) (post : List Extent) : Prop where
  split : withBase base l = pre ++ p :: post
  stop : p.stop HEADER ≤ b.addr
  header : p.addr + HEADER ≤ b.addr
  post : ∀ f ∈ post, b.stop HEADER ≤ f.addr

theorem Layout.exists_placed (ho : Layout base l (b :: live)) :
    ∃ pre p post, Placed base l pre p b post := by
  have hb := ho.addr_bound (List.mem_append_right l List.mem_cons_self)
  have hbase : base < b.addr := by
    unfold HEADER at hb
    omega
  obtain ⟨pre, p, post, hsplit, -, hp, hpost⟩ := exists_place ho.sorted hbase
  have hsplit : withBase base l = pre ++ p :: post := hsplit
  have hmem : ∀ f ∈ p :: post, f = ⟨base, 0⟩ ∨ f ∈ l := by
    intro f hf
    have : f ∈ withBase base l := by
      rw [hsplit]
      exact List.mem_append_right pre hf
    exact List.mem_cons.mp this
  refine ⟨pre, p, post, hsplit, ?_, ?_, fun f hf => ?_⟩
  · rcases hmem p List.mem_cons_self with rfl | hpl
    · exact Nat.le_of_lt hbase
    · have := ho.addr_bound (List.mem_append_left (b :: live) hpl)
      have := ho.apart_of_mem hpl List.mem_cons_self
      unfold Extent.Apart at this
      omega
  · have hpm : p ∈ withBase base l := by
      rw [hsplit]
      exact List.mem_append_right pre List.mem_cons_self
    have := ho.header_apart hpm List.mem_cons_self
    unfold HEADER at *
    omega
  · have hle := hpost f hf
    rcases hmem f (List.mem_cons_of_mem p hf) with rfl | hfl
    · exact absurd hle (Nat.not_le_of_lt hbase)
    · have := ho.addr_bound (List.mem_append_left (b :: live) hfl)
      have := ho.apart_of_mem hfl List.mem_cons_self
      unfold Extent.Apart at this
      unfold HEADER at *
      omega

theorem Placed.exists_withBase (h : Placed base l pre p b post) :
    ∃ l', pre ++ join HEADER p (join HEADER b post) = withBase base l' := by
  have hsplit := h.split
  cases pre with
  | nil =>
    cases hsplit
    obtain ⟨size, rest, heq, -⟩ := join_eq HEADER b l
    refine ⟨join HEADER b l, ?_⟩
    have hne : (⟨base, 0⟩ : Extent).stop HEADER ≠ b.addr := by
      have hlt : base + 8 ≤ b.addr := h.header
      simp only [Extent.stop, Nat.mul_zero]
      omega
    rw [heq, List.nil_append, join, if_neg hne]
    rfl
  | cons e pre =>
    obtain ⟨rfl, -⟩ := List.cons.inj hsplit
    exact ⟨_, rfl⟩

theorem Placed.listed (h : Placed base l pre p b post) {m : Mem} (ho : Layout base l (b :: live))
    (hm : Listed m (withBase base l) base) (hb : size m b.addr = b.size) :
    Listed (attach (attach m b.addr (ptr m p.addr)) p.addr b.addr)
      (pre ++ join HEADER p (join HEADER b post)) base := by
  have hH : HEADER = 8 := rfl
  have hbb := ho.addr_bound (List.mem_append_right l List.mem_cons_self)
  have hmem : ∀ f ∈ post, f ∈ l := by
    intro f hf
    have hf' : f ∈ withBase base l := by
      rw [h.split]
      exact List.mem_append_right pre (List.mem_cons_of_mem p hf)
    rcases List.mem_cons.mp hf' with rfl | hfl
    · have h1 := h.post _ hf
      have h2 : b.stop HEADER ≤ base := h1
      omega
    · exact hfl
  have hpostb : ∀ f ∈ post, f.stop HEADER < 2 ^ 32 ∧ f.addr < 2 ^ 32 := by
    intro f hf
    have := ho.addr_bound (List.mem_append_left (b :: live) (hmem f hf))
    omega
  rw [h.split] at hm
  have hp : ptr m p.addr = first post base := hm.ptr_of_append.ptr_eq
  have hpsize : size m p.addr = p.size :=
    hm.size p (List.mem_append_right pre List.mem_cons_self)
  rw [hp]
  -- The block leads to the list behind it.
  have h1 : Listed (attach m b.addr (first post base)) (join HEADER b post) base := by
    refine listed_attach hm.ptr_of_append.tail hb (by omega) (by omega) hbb.2.2 ?_ ?_
    · intro f hf
      exact ⟨h.post f hf, Nat.le_trans hbb.2.1 (h.post f hf), hpostb f hf⟩
    · intro _
      omega
  obtain ⟨size1, rest1, hjoin, -⟩ := join_eq HEADER b post
  have hfirst : first (join HEADER b post) base = b.addr := by
    rw [hjoin]
    rfl
  have hbpos : 0 < b.size := ho.pos b (List.mem_append_right l List.mem_cons_self)
  have hpos : ∀ f ∈ join HEADER b post, 0 < f.size :=
    pos_join hbpos fun f hf => ho.pos f (List.mem_append_left _ (hmem f hf))
  have hbpost : ∀ f ∈ post, b.addr ≤ f.addr := fun f hf =>
    Nat.le_trans (Nat.le_add_right _ _) (h.post f hf)
  -- The block in front leads to the new one.
  have h2 : Listed (attach (attach m b.addr (first post base)) p.addr
      (first (join HEADER b post) base)) (join HEADER p (join HEADER b post)) base := by
    have hstop := h.stop
    have hheader := h.header
    refine listed_attach h1 ?_ (by omega) (by omega) (by omega) (fun f hf => ?_) ?_
    · rw [((touches_attach m b.addr _).header fun a ha => ?_).2, hpsize]
      rw [List.mem_singleton.mp ha]
      exact .inr hheader
    · have hf1 := le_addr_of_join (Nat.le_refl b.addr) hbpost f hf
      have hf2 := stop_lt_of_join hbb.2.2 (fun f hf => (hpostb f hf).1) f hf
      have hf3 := hpos f hf
      have hf4 : f.stop HEADER = f.addr + 8 * f.size := rfl
      exact ⟨by omega, by omega, hf2, by omega⟩
    · intro hnil
      rw [hjoin] at hnil
      cases hnil
  rw [hfirst] at h2
  -- The blocks in front of them are as before.
  have htouch := (touches_attach m b.addr (first post base)).trans
    (touches_attach (attach m b.addr (first post base)) p.addr b.addr)
  have hpre : ∀ e ∈ pre, ∀ a ∈ [b.addr] ++ [p.addr], a + HEADER ≤ e.addr ∨ e.addr + HEADER ≤ a := by
    intro e he a ha
    obtain ⟨c, d, rfl⟩ := List.append_of_mem he
    have hsplit : withBase base l = c ++ e :: (d ++ p :: post) := by
      rw [h.split, List.append_assoc, List.cons_append]
    have hle := ho.header_le hsplit (List.mem_append_right d List.mem_cons_self)
    have hheader := h.header
    right
    rcases List.mem_append.mp ha with ha | ha
    · rw [List.mem_singleton.mp ha]
      omega
    · rw [List.mem_singleton.mp ha]
      exact hle
  obtain ⟨size2, rest2, hjoin2, -⟩ := join_eq HEADER p (join HEADER b post)
  rw [hjoin2] at h2 ⊢
  exact hm.replace h2 rfl htouch hpre

theorem Placed.covers (h : Placed base l pre p b post)
    (hl : pre ++ join HEADER p (join HEADER b post) = withBase base l') (x : ℕ) :
    Covers HEADER l' x ↔ Covers HEADER l x ∨ b.Has HEADER x := by
  rw [← covers_withBase base, ← hl, covers_insert, ← h.split, covers_withBase]

theorem Placed.layout (h : Placed base l pre p b post) (ho : Layout base l (b :: live))
    (hl : pre ++ join HEADER p (join HEADER b post) = withBase base l') : Layout base l' live := by
  have hH : HEADER = 8 := rfl
  have hgap := ho.gapped_withBase
  rw [h.split] at hgap
  have hgap' := hgap.insert h.stop h.post
  rw [hl] at hgap'
  obtain ⟨hbase, hgapped⟩ := List.pairwise_cons.mp hgap'
  have hcov := h.covers hl
  have hbpos : 0 < b.size := ho.pos b (List.mem_append_right l List.mem_cons_self)
  have hold : ∀ e ∈ pre ++ p :: post, base < e.addr → 0 < e.size := by
    intro e he hlt
    rw [← h.split] at he
    rcases List.mem_cons.mp he with rfl | he
    · exact absurd hlt (Nat.lt_irrefl _)
    · exact ho.pos e (List.mem_append_left _ he)
  refine ⟨hgapped, fun e he => ?_, fun x hx => ?_, fun x hx hlive => ?_,
    (List.pairwise_cons.mp ho.live).2⟩
  · rcases List.mem_append.mp he with he | he
    · have hlt : base < e.addr := Nat.lt_of_le_of_lt (Nat.le_add_right _ _) (hbase e he)
      have hmem : e ∈ pre ++ join HEADER p (join HEADER b post) := by
        rw [hl]
        exact List.mem_cons_of_mem _ he
      rcases List.mem_append.mp hmem with hmem | hmem
      · exact hold e (List.mem_append_left _ hmem) hlt
      · obtain ⟨size, rest, heq, hsize, hrest⟩ := join_eq HEADER p (join HEADER b post)
        rw [heq] at hmem
        rcases List.mem_cons.mp hmem with rfl | hmem
        · have := hold p (List.mem_append_right pre List.mem_cons_self) hlt
          exact Nat.lt_of_lt_of_le this hsize
        · refine pos_join hbpos (fun f hf => ?_) e (hrest e hmem)
          refine hold f (List.mem_append_right pre (List.mem_cons_of_mem p hf)) ?_
          have h1 := h.post f hf
          have h2 := ho.addr_bound (List.mem_append_right l List.mem_cons_self)
          omega
    · exact ho.pos e (List.mem_append_right l (List.mem_cons_of_mem b he))
  · apply ho.bound
    rw [covers_append, hcov] at hx
    rw [covers_append, covers_cons]
    tauto
  · rcases (hcov x).mp hx with hx | hx
    · exact ho.apart x hx (covers_cons.mpr (.inr hlive))
    · obtain ⟨e, he, hex⟩ := hlive
      exact ((List.pairwise_cons.mp ho.live).1 e he).disjoint hx hex

theorem Ok.free (ho : Ok base h l (b :: live)) :
    ∃ h' l', (∀ k, l.length < k → Umalloc.free k (b.addr + HEADER) h = some h') ∧
      Ok base h' l' live ∧ h'.calls = h.calls ∧ h'.regions = h.regions ∧
      ∃ e ∈ l', b.size ≤ e.size := by
  obtain ⟨pre, p, post, hpl⟩ := ho.layout.exists_placed
  obtain ⟨l', hl'⟩ := hpl.exists_withBase
  have hb := ho.layout.addr_bound (List.mem_append_right l List.mem_cons_self)
  have hH : HEADER = 8 := rfl
  have hlisted := hpl.listed ho.layout ho.listed (ho.size b List.mem_cons_self)
  rw [hl'] at hlisted
  have hlayout := hpl.layout ho.layout hl'
  have hcov := hpl.covers hl'
  have hp : p ∈ withBase base l := by
    rw [hpl.split]
    exact List.mem_append_right pre List.mem_cons_self
  refine ⟨{ h with
    mem := attach (attach h.mem b.addr (ptr h.mem p.addr)) p.addr b.addr, freep := p.addr }, l',
    fun k hk => ?_, ⟨hlayout, hlisted, fun e he => ?_, ?_, fun x hx => ?_, ?_⟩, rfl, rfl, ?_⟩
  · have hlist := ho.listed
    have hfreep := ho.freep
    have hsort := ho.layout.sorted
    have hhead : ((withBase base l).map addr).head? = some base := rfl
    have hlen : (withBase base l).length = l.length + 1 := rfl
    rw [hpl.split] at hlist hfreep hsort hhead hlen
    refine free_eq (by omega)
      (freeLoop_place hlist hhead (fun e he => ?_) hfreep (by omega)) hpl.header
    refine stops_iff hlist hsort (fun e he => ?_) (by have := hpl.header; omega) (fun f hf => ?_) he
    · rw [← hpl.split] at he
      rcases List.mem_cons.mp he with rfl | he
      · exact le_rfl
      · have := ho.layout.addr_bound (List.mem_append_left (b :: live) he)
        omega
    · have := hpl.post f hf
      omega
  · have htouch := (touches_attach h.mem b.addr (ptr h.mem p.addr)).trans
      (touches_attach (attach h.mem b.addr (ptr h.mem p.addr)) p.addr b.addr)
    rw [(htouch.header fun a ha => ?_).2, ho.size e (List.mem_cons_of_mem b he)]
    rcases List.mem_append.mp ha with ha | ha
    · rw [List.mem_singleton.mp ha]
      have h1 := (List.pairwise_cons.mp ho.layout.live).1 e he
      have h2 := ho.layout.addr_bound (List.mem_append_right l (List.mem_cons_of_mem b he))
      unfold Extent.Apart at h1
      omega
    · rw [List.mem_singleton.mp ha]
      exact ho.layout.header_apart hp (List.mem_cons_of_mem b he)
  · rw [← hl']
    obtain ⟨size, rest, heq, -⟩ := join_eq HEADER p (join HEADER b post)
    rw [heq, List.map_append]
    exact List.mem_append_right _ List.mem_cons_self
  · apply ho.owned
    rw [covers_append, hcov] at hx
    rw [covers_append, covers_cons]
    tauto
  · have hunits : Extent.units l' = Extent.units l + b.size := by
      rw [← units_withBase base l', ← hl', units_insert, ← hpl.split, units_withBase]
    rw [← ho.units, units_append, units_append, units_cons, hunits, Nat.add_assoc]
  · obtain ⟨e, he, hsize⟩ := exists_mem_insert HEADER pre post p b
    rw [hl'] at he
    rcases List.mem_cons.mp he with rfl | he
    · have := ho.layout.pos b (List.mem_append_right l List.mem_cons_self)
      exact absurd hsize (Nat.not_le_of_lt this)
    · exact ⟨e, he, hsize⟩

end Free

end Xv6.Umalloc
