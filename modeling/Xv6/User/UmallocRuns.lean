import Xv6.User.UmallocFree

namespace Xv6.Umalloc
open Lib Extent

variable {base n k : ℕ} {h : Heap} {live l : List Extent} {sbrk : Sbrk}

section Take

variable {a c : List Extent} {e : Extent} {m : Mem} {p : Extent} {d : List Extent}

theorem covers_take (hn : n ≤ e.size) (x : ℕ) :
    Covers HEADER (a ++ (front n e ++ c) ++ back HEADER n e :: live) x ↔
      Covers HEADER (a ++ e :: c ++ live) x := by
  simp only [covers_append, covers_cons, ← covers_front hn]
  tauto

theorem Layout.take (ho : Layout base (a ++ e :: c) live) (hn : n ≤ e.size) (hpos : 0 < n) :
    Layout base (a ++ (front n e ++ c)) (back HEADER n e :: live) := by
  have hmem : e ∈ a ++ e :: c := List.mem_append_right a List.mem_cons_self
  have hback : ∀ x, (back HEADER n e).Has HEADER x → e.Has HEADER x := fun x hx =>
    (covers_front hn).mp (.inr hx)
  refine ⟨ho.gapped.front hn, fun f hf => ?_, fun x hx => ho.bound x ((covers_take hn x).mp hx),
    fun x hx hx' => ?_, List.pairwise_cons.mpr ⟨fun f hf => ?_, ho.live⟩⟩
  · simp only [List.mem_append, List.mem_cons] at hf
    rcases hf with (hf | hf | hf) | rfl | hf
    · exact ho.pos f (by simp [hf])
    · exact (mem_front (w := HEADER) hf hn).2.2
    · exact ho.pos f (by simp [hf])
    · exact hpos
    · exact ho.pos f (by simp [hf])
  · rw [covers_append, covers_append] at hx
    rcases covers_cons.mp hx' with hx' | hlive
    · -- The block is not among the free ones any more.
      obtain ⟨-, hec, hcross⟩ := List.pairwise_append.mp ho.gapped
      have hex := hback x hx'
      unfold Has at hex
      rcases hx with ⟨f, hf, hfx⟩ | hx | ⟨f, hf, hfx⟩
      · have := hcross f hf e List.mem_cons_self
        unfold Has at hfx
        omega
      · exact front_apart hn hx hx'
      · have := (List.pairwise_cons.mp hec).1 f hf
        unfold Has at hfx
        omega
    · refine ho.apart x ?_ hlive
      rw [covers_append, covers_cons, ← covers_front hn]
      tauto
  · refine apart_of_disjoint (by decide) hpos (ho.pos f (List.mem_append_right _ hf))
      fun x hx => (ho.apart_of_mem hmem hf).disjoint (hback x hx)

/-- The memory after `malloc` has taken `n` units of the block at `p`. -/
def takeMem (m : Mem) (n prevp p : ℕ) : Mem :=
  if size m p = n then setPtr m prevp (ptr m p)
  else setSize (setSize m p (size m p - n)) (hadd p (size m p - n)) n

theorem mallocLoop_take {prevp p : ℕ} (hp : p + HEADER ≤ 2 ^ 32) (hn : n ≤ size h.mem p) :
    mallocLoop sbrk n (k + 1) prevp p h = some (hadd (hadd p (size h.mem p - n)) 1,
      { h with mem := takeMem h.mem n prevp p, freep := prevp }) := by
  have hH : HEADER = 8 := rfl
  rw [mallocLoop, if_pos hn]
  unfold takeMem
  by_cases hs : size h.mem p = n
  · have hp0 : hadd p (size h.mem p - n) = p := by
      unfold hadd
      rw [hs, Nat.sub_self]
      omega
    rw [if_pos hs, if_pos hs, hp0]
  · have hlt : size h.mem p - n < 2 ^ 32 := Nat.lt_of_le_of_lt (Nat.sub_le _ _) (Bytes.get32_lt _ _)
    rw [if_neg hs, if_neg hs]
    simp only [size_setSize hp hlt]

theorem hadd_back (hn : n ≤ e.size) (he : e.stop HEADER < 2 ^ 32) :
    hadd e.addr (e.size - n) = (back HEADER n e).addr := by
  apply Nat.mod_eq_of_lt
  unfold stop HEADER at *
  omega

theorem touches_take (hsize : size m e.addr = e.size) (hn : n ≤ e.size)
    (he : e.stop HEADER < 2 ^ 32) :
    Touches [p.addr, e.addr, (back HEADER n e).addr] m (takeMem m n p.addr e.addr) := by
  unfold takeMem
  rw [hsize, hadd_back hn he]
  split_ifs
  · exact (touches_setPtr m p.addr _).mono fun x hx => by simp_all
  · exact ((touches_setSize m e.addr _).trans (touches_setSize _ _ n)).mono fun x hx => by simp_all

theorem listed_take (hm : Listed m (d ++ p :: e :: c) base) (hn : n ≤ e.size)
    (hhead : ∀ f ∈ d, f.addr + HEADER ≤ p.addr) (hpe : p.addr + HEADER ≤ e.addr)
    (he : e.stop HEADER < 2 ^ 32) (hc : ∀ f ∈ c, e.stop HEADER ≤ f.addr) (hpos : 0 < n) :
    Listed (takeMem m n p.addr e.addr) (d ++ p :: (front n e ++ c)) base := by
  have hH : HEADER = 8 := rfl
  have hstop : e.stop HEADER = e.addr + 8 * e.size := rfl
  have hsize : size m e.addr = e.size := hm.size e (by simp)
  have hlast := hm.ptr_of_append
  unfold takeMem front
  rw [hsize, hadd_back hn he]
  split_ifs with hs
  · -- The block in front leads to the one behind.
    have htouch := touches_setPtr m p.addr (ptr m e.addr)
    refine hm.replace (Listed.cons ?_ ?_ ?_) rfl htouch fun f hf x hx => ?_
    · refine hlast.tail.tail.touches htouch fun f hf x hx => .inl ?_
      rw [List.mem_singleton.mp hx]
      have := hc f hf
      omega
    · exact (ptr_setPtr (by omega) (Bytes.get32_lt _ _)).trans hlast.tail.ptr_eq
    · rw [size_setPtr]
      exact hm.size p (by simp)
    · rw [List.mem_singleton.mp hx]
      exact .inr (hhead f hf)
  · have hback : (back HEADER n e).addr = e.addr + 8 * (e.size - n) := rfl
    have htouch := (touches_setSize m e.addr (e.size - n)).trans
      (touches_setSize (setSize m e.addr (e.size - n)) (back HEADER n e).addr n)
    have hfar : ∀ x, x + HEADER ≤ e.addr → ∀ y ∈ [e.addr] ++ [(back HEADER n e).addr],
        y + HEADER ≤ x ∨ x + HEADER ≤ y := by
      intro x hx y hy
      simp only [List.cons_append, List.nil_append, List.mem_cons, List.not_mem_nil,
        or_false] at hy
      omega
    have hsame := (touches_setSize (setSize m e.addr (e.size - n)) (back HEADER n e).addr n).header
      (b := e.addr) fun x hx => by
        rw [List.mem_singleton.mp hx]
        omega
    rw [List.append_cons] at hm ⊢
    refine hm.replace (Listed.cons (e := ⟨e.addr, e.size - n⟩) ?_ ?_ ?_) rfl htouch
      fun f hf => hfar f.addr ?_
    · refine hlast.tail.tail.touches htouch fun f hf x hx => .inl ?_
      have := hc f hf
      simp only [List.cons_append, List.nil_append, List.mem_cons, List.not_mem_nil,
        or_false] at hx
      omega
    · rw [hsame.1, ptr_setSize]
      exact hlast.tail.ptr_eq
    · rw [hsame.2]
      exact size_setSize (by omega) (by omega)
    · rcases List.mem_append.mp hf with hf | hf
      · have := hhead f hf
        omega
      · rw [List.mem_singleton.mp hf]
        exact hpe

theorem size_take (hsize : size m e.addr = e.size) (hn : n ≤ e.size) (he : e.stop HEADER < 2 ^ 32)
    (hpe : p.addr + HEADER ≤ e.addr) (hpos : 0 < n) :
    size (takeMem m n p.addr e.addr) (back HEADER n e).addr = n := by
  have hH : HEADER = 8 := rfl
  have hstop : e.stop HEADER = e.addr + 8 * e.size := rfl
  have hback : (back HEADER n e).addr = e.addr + 8 * (e.size - n) := rfl
  unfold takeMem
  rw [hsize, hadd_back hn he]
  split_ifs with hs
  · have haddr : (back HEADER n e).addr = e.addr := by omega
    rw [haddr, ((touches_setPtr m p.addr _).header fun x hx => ?_).2, hsize, hs]
    rw [List.mem_singleton.mp hx]
    exact .inl hpe
  · exact size_setSize (by omega) (by omega)

theorem Ok.take (ho : Ok base h (a ++ e :: c) live) (hn : n ≤ e.size) (hpos : 0 < n)
    (hsplit : withBase base a = d ++ [p]) :
    Ok base { h with mem := takeMem h.mem n p.addr e.addr, freep := p.addr }
      (a ++ (front n e ++ c)) (back HEADER n e :: live) := by
  have hH : HEADER = 8 := rfl
  have hmem : e ∈ a ++ e :: c := by simp
  have hall : withBase base (a ++ e :: c) = d ++ p :: e :: c := by
    rw [withBase, ← List.cons_append, ← withBase, hsplit, List.append_assoc]
    rfl
  have hall' : withBase base (a ++ e :: c) = (d ++ [p]) ++ e :: c := by
    rw [hall, List.append_cons]
  have hp : p ∈ withBase base (a ++ e :: c) := by
    rw [hall]
    simp
  obtain ⟨hlow, hlen, hhigh⟩ := ho.layout.addr_bound (List.mem_append_left live hmem)
  have hsize : Umalloc.size h.mem e.addr = e.size :=
    ho.listed.size e (List.mem_cons_of_mem _ hmem)
  have hstop : e.stop HEADER = e.addr + 8 * e.size := rfl
  have hback : (back HEADER n e).addr = e.addr + 8 * (e.size - n) := rfl
  have htouch := touches_take (p := p) hsize hn hhigh
  have hpe : p.addr + HEADER ≤ e.addr := ho.layout.header_le hall (by simp)
  refine ⟨ho.layout.take hn hpos, ?_, fun f hf => ?_, ?_, fun x hx => ?_, ?_⟩
  · have hgap := ho.layout.gapped_withBase
    rw [hall'] at hgap
    have hlisted := ho.listed
    rw [hall] at hlisted
    have hnew : withBase base (a ++ (front n e ++ c)) = d ++ p :: (front n e ++ c) := by
      rw [withBase, ← List.cons_append, ← withBase, hsplit, List.append_assoc]
      rfl
    rw [hnew]
    refine listed_take hlisted hn (fun f hf => ?_) hpe hhigh (fun f hf => ?_) hpos
    · obtain ⟨d1, d2, rfl⟩ := List.append_of_mem hf
      refine ho.layout.header_le (a := d1) (c := d2 ++ p :: e :: c) ?_ (by simp)
      rw [hall, List.append_assoc, List.cons_append]
    · have := (List.pairwise_cons.mp (List.pairwise_append.mp hgap).2.1).1 f hf
      omega
  · rcases List.mem_cons.mp hf with rfl | hf
    · exact size_take hsize hn hhigh hpe hpos
    · have hapart := ho.layout.apart_of_mem hmem hf
      have hf' := ho.layout.addr_bound (List.mem_append_right _ hf)
      have hpf := ho.layout.header_apart hp hf
      rw [(htouch.header fun x hx => ?_).2, ho.size f hf]
      unfold Extent.Apart at hapart
      simp only [List.mem_cons, List.not_mem_nil, or_false] at hx
      omega
  · have hp' : p ∈ withBase base a := by
      rw [hsplit]
      simp
    rw [withBase, ← List.cons_append, ← withBase]
    exact List.mem_map_of_mem (List.mem_append_left _ hp')
  · exact ho.owned x ((covers_take hn x).mp hx)
  · have hunits := units_front hn
    have hsum := ho.units
    have hb : (back HEADER n e).size = n := rfl
    simp only [units_append, units_cons] at hsum ⊢
    rw [← hsum, hb]
    congr 1
    omega

theorem Ok.exists_take {z : ℕ} (ho : Ok base h l live) (hz : z ∈ (withBase base l).map addr)
    (hp : ptr h.mem z ≠ base) :
    ∃ a c d p e, l = a ++ e :: c ∧ withBase base a = d ++ [p] ∧ p.addr = z ∧
      e.addr = ptr h.mem z := by
  obtain ⟨l1, l2, hsplit⟩ := ho.listed.links.exists_next hz hp
  obtain ⟨d, c, hdc, -, hc⟩ := List.map_eq_append_iff.mp hsplit
  obtain ⟨p, c, rfl, hpz, hc⟩ := List.map_eq_cons_iff.mp hc
  obtain ⟨e, c, rfl, hez, -⟩ := List.map_eq_cons_iff.mp hc
  cases d with
  | nil =>
    cases hdc
    exact ⟨[], c, [], _, e, rfl, rfl, hpz, hez⟩
  | cons b d =>
    cases hdc
    exact ⟨d ++ [p], c, ⟨base, 0⟩ :: d, p, e, by simp, rfl, hpz, hez⟩

theorem Ok.mallocLoop_fits {z : ℕ} (ho : Ok base h l live) (hz : z ∈ (withBase base l).map addr)
    (hn : n ≤ Umalloc.size h.mem (ptr h.mem z)) (hpos : 0 < n) :
    ∃ h' l' r,
      (∀ sbrk k, mallocLoop sbrk n (k + 1) z (ptr h.mem z) h = some (r + HEADER, h')) ∧
      Ok base h' l' (⟨r, n⟩ :: live) ∧ h'.calls = h.calls ∧ h'.regions = h.regions := by
  have hH : HEADER = 8 := rfl
  have hbase : Umalloc.size h.mem base = 0 := ho.listed.size ⟨base, 0⟩ List.mem_cons_self
  obtain ⟨a, c, d, p, e, rfl, hd, rfl, hez⟩ := ho.exists_take hz fun hp => by
    rw [hp, hbase] at hn
    omega
  have hmem : e ∈ a ++ e :: c := by simp
  have hsize := ho.listed.size e (List.mem_cons_of_mem _ hmem)
  obtain ⟨-, hlen, hhigh⟩ := ho.layout.addr_bound (List.mem_append_left live hmem)
  rw [← hez, hsize] at hn
  have hback : (back HEADER n e).addr + 8 * n = e.stop HEADER := stop_back hn
  refine ⟨_, _, _, fun sbrk k => ?_, ho.take hn hpos hd, rfl, rfl⟩
  have hadd1 : hadd (back HEADER n e).addr 1 = (back HEADER n e).addr + HEADER := by
    unfold hadd
    omega
  rw [← hez, mallocLoop_take (by omega) (by rw [hsize]; exact hn), hsize, hadd_back hn hhigh, hadd1]
  rfl

end Take

section Search

theorem mallocLoop_skip {p a : ℕ} {as : List ℕ} (hl : Links (ptr h.mem) (a :: as) p)
    (has : ∀ b ∈ as, size h.mem b < n ∧ b ≠ h.freep) :
    ∃ z ∈ a :: as, ptr h.mem z = p ∧ ∀ sbrk k,
      mallocLoop sbrk n (as.length + k) a (ptr h.mem a) h = mallocLoop sbrk n k z p h := by
  induction as generalizing a with
  | nil =>
    have ha := Links.singleton.mp hl
    refine ⟨a, List.mem_cons_self, ha, fun _ k => ?_⟩
    rw [ha, List.length_nil, Nat.zero_add]
  | cons b as ih =>
    obtain ⟨hab, hl⟩ := Links.cons_cons.mp hl
    obtain ⟨hsize, hfreep⟩ := has b List.mem_cons_self
    obtain ⟨z, hz, hzp, heq⟩ := ih hl fun c hc => has c (List.mem_cons_of_mem b hc)
    refine ⟨z, List.mem_cons_of_mem a hz, hzp, fun sbrk k => ?_⟩
    rw [List.length_cons, Nat.add_right_comm, hab, mallocLoop, if_neg (Nat.not_le_of_lt hsize),
      if_neg hfreep]
    exact heq sbrk k

theorem Ok.exists_ring (ho : Ok base h l live) :
    ∃ ring, Links (ptr h.mem) (h.freep :: ring) h.freep ∧
      (h.freep :: ring).Perm ((withBase base l).map addr) ∧ h.freep ∉ ring := by
  obtain ⟨l1, l2, hsplit⟩ := List.append_of_mem ho.freep
  have hl := ho.listed.links
  have hhead : ((withBase base l).map addr).head? = some base := rfl
  have hnodup : ((withBase base l).map addr).Nodup := by
    apply List.Pairwise.map addr _ ho.layout.sorted
    intro e f hef
    exact Nat.ne_of_lt hef
  have hperm : (h.freep :: (l2 ++ l1)).Perm ((withBase base l).map addr) := by
    rw [hsplit]
    exact (List.perm_append_comm.cons _).trans List.perm_middle.symm
  rw [hsplit] at hl hhead
  refine ⟨l2 ++ l1, hl.rotate hhead, hperm, ?_⟩
  exact (List.nodup_cons.mp (hperm.nodup_iff.mpr hnodup)).1

theorem Ok.mallocLoop_found (ho : Ok base h l live) (hpos : 0 < n) (hfit : ∃ e ∈ l, n ≤ e.size) :
    ∃ h' l' r, (∀ sbrk k, l.length < k →
        mallocLoop sbrk n k h.freep (ptr h.mem h.freep) h = some (r + HEADER, h')) ∧
      Ok base h' l' (⟨r, n⟩ :: live) ∧ h'.calls = h.calls ∧ h'.regions = h.regions := by
  obtain ⟨ring, hlinks, hperm, hnot⟩ := ho.exists_ring
  have hmem : ∀ x, x ∈ ring ++ [h.freep] ↔ x ∈ (withBase base l).map addr := by
    intro x
    rw [← hperm.mem_iff, List.mem_append, List.mem_singleton, List.mem_cons, or_comm]
  -- The first such block on the way.
  obtain ⟨e, he, hsize⟩ := hfit
  have hex : ((ring ++ [h.freep]).find? fun x => n ≤ Umalloc.size h.mem x).isSome := by
    rw [List.find?_isSome]
    refine ⟨e.addr, (hmem e.addr).mpr (List.mem_map_of_mem (List.mem_cons_of_mem _ he)), ?_⟩
    rw [ho.listed.size e (List.mem_cons_of_mem _ he)]
    exact decide_eq_true hsize
  obtain ⟨p, hfind⟩ := Option.isSome_iff_exists.mp hex
  obtain ⟨hp, as, bs, hsplit, has⟩ := List.find?_eq_some_iff_append.mp hfind
  have hp : n ≤ Umalloc.size h.mem p := of_decide_eq_true hp
  have hpre : as <+: ring := by
    have hsub : as <+: ring ++ [h.freep] := ⟨p :: bs, hsplit.symm⟩
    rcases List.prefix_concat_iff.mp hsub with heq | hpre
    · rw [heq] at hsplit
      have := congrArg List.length hsplit
      simp only [List.length_append, List.length_cons] at this
      omega
    · exact hpre
  have hlen : as.length ≤ l.length := by
    have hring := hperm.length_eq
    have hle := hpre.length_le
    simp only [List.length_cons, List.length_map, withBase] at hring
    omega
  have hupto : Links (ptr h.mem) (h.freep :: as) p :=
    hlinks.upto (congrArg (List.cons h.freep) hsplit)
  obtain ⟨z, hz, rfl, hskip⟩ := mallocLoop_skip hupto fun b hb =>
    ⟨by simpa using has b hb, fun hb' => hnot (hpre.subset (hb' ▸ hb))⟩
  have hz' : z ∈ (withBase base l).map addr := by
    rw [← hperm.mem_iff]
    rcases List.mem_cons.mp hz with rfl | hz
    · exact List.mem_cons_self
    · exact List.mem_cons_of_mem _ (hpre.subset hz)
  obtain ⟨h', l', r, hloop, hok⟩ := ho.mallocLoop_fits hz' hp hpos
  refine ⟨h', l', r, fun sbrk k hk => ?_, hok⟩
  obtain ⟨j, rfl⟩ : ∃ j, k = as.length + (j + 1) := ⟨k - as.length - 1, by omega⟩
  rw [hskip]
  exact hloop sbrk j

/-- Every block is too small: the search comes back to `freep` and asks for memory. -/
theorem Ok.mallocLoop_full (ho : Ok base h l live) (hpos : 0 < n) (hfull : ∀ e ∈ l, e.size < n)
    (k : ℕ) : mallocLoop sbrk n (l.length + (k + 1)) h.freep (ptr h.mem h.freep) h =
      (morecore sbrk k n h).bind fun (p, h) =>
        if p = 0 then some (0, h) else mallocLoop sbrk n k p (ptr h.mem p) h := by
  obtain ⟨ring, hlinks, hperm, hnot⟩ := ho.exists_ring
  have hsmall : ∀ b ∈ h.freep :: ring, Umalloc.size h.mem b < n := by
    intro b hb
    obtain ⟨e, he, rfl⟩ := List.mem_map.mp (hperm.mem_iff.mp hb)
    rw [ho.listed.size e he]
    rcases List.mem_cons.mp he with rfl | he
    · exact hpos
    · exact hfull e he
  obtain ⟨z, -, -, hskip⟩ := mallocLoop_skip hlinks fun b hb =>
    ⟨hsmall b (List.mem_cons_of_mem _ hb), fun hb' => hnot (hb' ▸ hb)⟩
  have hlen : ring.length = l.length := by
    have := hperm.length_eq
    simp only [List.length_cons, List.length_map, withBase] at this
    omega
  have hlast := hsmall _ List.mem_cons_self
  rw [← hlen, hskip, mallocLoop, if_neg (Nat.not_le_of_lt hlast), if_pos rfl]
  rfl

end Search

section Grow

/-- What the kernel gives is above the static header, and none of it was given before.  The end of
the region is an address as well. -/
def Fresh (base : ℕ) (sbrk : Sbrk) : Prop :=
  ∀ t rs bytes a, 0 < bytes → bytes < 2 ^ 31 → sbrk t rs bytes = some a →
    base + HEADER ≤ a ∧ a + bytes < 2 ^ 32 ∧ ∀ x, Has 1 ⟨a, bytes⟩ x → ¬ Covers 1 rs x

theorem has_region (a nu x : ℕ) : Has 1 ⟨a, nu * HEADER⟩ x ↔ Has HEADER ⟨a, nu⟩ x := by
  simp only [Has, stop, Nat.one_mul, Nat.mul_comm nu]

theorem Ok.grow {a nu : ℕ} (ho : Ok base h l live) (hnu : 0 < nu)
    (hlow : base + HEADER ≤ a) (hhigh : a + nu * HEADER < 2 ^ 32)
    (hfresh : ∀ x, Has 1 ⟨a, nu * HEADER⟩ x → ¬ Covers 1 h.regions x) :
    Ok base { h with mem := setSize h.mem a nu, calls := h.calls + 1,
                     regions := ⟨a, nu * HEADER⟩ :: h.regions } l (⟨a, nu⟩ :: live) := by
  have hH : HEADER = 8 := rfl
  have hhigh' : a + nu * 8 < 2 ^ 32 := hhigh
  have hnew : ∀ x, Has HEADER ⟨a, nu⟩ x → ¬ Covers HEADER (l ++ live) x := fun x hx hx' =>
    hfresh x ((has_region a nu x).mpr hx) (ho.owned x hx')
  have hlayout : Layout base l (⟨a, nu⟩ :: live) := by
    refine ⟨ho.layout.gapped, fun e he => ?_, fun x hx => ?_, fun x hx hx' => ?_,
      List.pairwise_cons.mpr ⟨fun f hf => ?_, ho.layout.live⟩⟩
    · rcases List.mem_append.mp he with he | he
      · exact ho.layout.pos e (List.mem_append_left _ he)
      · rcases List.mem_cons.mp he with rfl | he
        · exact hnu
        · exact ho.layout.pos e (List.mem_append_right _ he)
    · rw [covers_append, covers_cons] at hx
      rcases hx with hx | hx | hx
      · exact ho.layout.bound x (covers_append.mpr (.inl hx))
      · have hx : a ≤ x ∧ x < a + 8 * nu := hx
        omega
      · exact ho.layout.bound x (covers_append.mpr (.inr hx))
    · rcases covers_cons.mp hx' with hx' | hx'
      · exact hnew x hx' (covers_append.mpr (.inl hx))
      · exact ho.layout.apart x hx hx'
    · refine apart_of_disjoint (by decide) hnu (ho.layout.pos f (List.mem_append_right _ hf))
        fun x hx hx' => hnew x hx (covers_append.mpr (.inr ⟨f, hf, hx'⟩))
  refine ⟨hlayout, ?_, fun e he => ?_, ho.freep, fun x hx => ?_, ?_⟩
  · refine ho.listed.touches (touches_setSize h.mem a nu) fun e he x hx => ?_
    rw [List.mem_singleton.mp hx]
    exact (hlayout.header_apart he List.mem_cons_self).symm
  · rcases List.mem_cons.mp he with rfl | he
    · exact size_setSize (by omega) (by omega)
    · have hapart := (List.pairwise_cons.mp hlayout.live).1 e he
      have he' := hlayout.addr_bound (List.mem_append_right l (List.mem_cons_of_mem _ he))
      have ha := hlayout.addr_bound (List.mem_append_right l List.mem_cons_self)
      rw [((touches_setSize h.mem a nu).header fun x hx => ?_).2, ho.size e he]
      rw [List.mem_singleton.mp hx]
      unfold Extent.Apart at hapart
      have ha' : a + 8 ≤ stop HEADER ⟨a, nu⟩ := ha.2.1
      have hapart : stop HEADER ⟨a, nu⟩ ≤ e.addr ∨ e.stop HEADER ≤ a := hapart
      omega
  · rw [covers_cons, has_region]
    have hold := ho.owned x
    rw [covers_append] at hx hold
    rw [covers_cons] at hx
    tauto
  · have hunits := ho.units
    simp only [units_append, units_cons] at hunits ⊢
    rw [← hunits, hH]
    omega

/-- `f` returns `x` if it is given enough steps. -/
def Returns {α : Type} (f : ℕ → Option α) (x : α) : Prop := ∃ K, ∀ k, K ≤ k → f k = some x

theorem Returns.unique {α : Type} {f : ℕ → Option α} {x y : α} (hx : Returns f x)
    (hy : Returns f y) : x = y := by
  obtain ⟨K, hx⟩ := hx
  obtain ⟨K', hy⟩ := hy
  have heq := hx (max K K') (Nat.le_max_left _ _)
  rw [hy _ (Nat.le_max_right _ _)] at heq
  exact (Option.some.inj heq).symm

theorem Ok.freep_ne (hbase : 0 < base) (ho : Ok base h l live) : h.freep ≠ 0 := by
  obtain ⟨f, hf, hfreep⟩ := List.mem_map.mp ho.freep
  rw [← hfreep]
  rcases List.mem_cons.mp hf with rfl | hf
  · exact Nat.ne_of_gt hbase
  · have := (ho.layout.addr_bound (List.mem_append_left live hf)).1
    omega

/-- The kernel has no memory for a call of `morecore`. -/
def Denies (sbrk : Sbrk) (n : ℕ) (h : Heap) : Prop :=
  sbrk h.calls h.regions ((if n < 4096 then 4096 else n) * HEADER) = none

theorem Ok.morecore (hs : Fresh base sbrk) (hbase : 0 < base) (ho : Ok base h l live)
    (hn : n * HEADER < 2 ^ 31) :
    (Denies sbrk n h ∧ ∃ h', (∀ k, morecore sbrk k n h = some (0, h')) ∧ Ok base h' l live) ∨
      ¬Denies sbrk n h ∧ ∃ h' l', (∀ k, l.length < k → morecore sbrk k n h = some (h'.freep, h')) ∧
        h'.freep ≠ 0 ∧ Ok base h' l' live ∧ ∃ e ∈ l', n ≤ e.size := by
  have hH : HEADER = 8 := rfl
  obtain ⟨nu, hnu⟩ : ∃ nu, nu = if n < 4096 then 4096 else n := ⟨_, rfl⟩
  unfold Denies
  have hle : n ≤ nu ∧ 0 < nu ∧ nu * HEADER < 2 ^ 31 := by
    rw [hH] at hn ⊢
    split_ifs at hnu <;> omega
  have hbytes : nu * HEADER % 2 ^ 32 = nu * HEADER := Nat.mod_eq_of_lt (by omega)
  unfold Umalloc.morecore
  simp only [← hnu, hbytes]
  cases ha : sbrk h.calls h.regions (nu * HEADER) with
  | none =>
    exact .inl ⟨rfl, _, fun _ => rfl, ho.layout, ho.listed, ho.size, ho.freep, ho.owned, ho.units⟩
  | some a =>
    refine .inr ⟨nofun, ?_⟩
    obtain ⟨hlow, hhigh, hfresh⟩ := hs _ _ _ a (Nat.mul_pos hle.2.1 (by decide)) hle.2.2 ha
    have hhigh' : a + nu * 8 < 2 ^ 32 := hhigh
    obtain ⟨h', l', hfree, hok, -, -, e, he, hsize⟩ := (ho.grow hle.2.1 hlow hhigh hfresh).free
    have hadd1 : hadd a 1 = a + HEADER := Nat.mod_eq_of_lt (by omega)
    refine ⟨h', l', fun k hk => ?_, ?_, hok, e, he, Nat.le_trans hle.1 hsize⟩
    · have hfree := hfree k hk
      simp only [hadd1] at hfree ⊢
      rw [hfree]
      rfl
    · exact hok.freep_ne hbase

/-- `malloc` has returned `r`: a null pointer, or the address behind the header of a new block. -/
def Answer (base n : ℕ) (live : List Extent) (r : ℕ) (h : Heap) : Prop :=
  r = 0 ∧ (∃ l, Ok base h l live) ∨
    ∃ a l, r = a + HEADER ∧ Ok base h l (⟨a, n⟩ :: live)

theorem Ok.mallocLoop (hs : Fresh base sbrk) (hbase : 0 < base) (ho : Ok base h l live)
    (hpos : 0 < n) (hn : n * HEADER < 2 ^ 31) :
    ∃ r h', Returns (fun k => mallocLoop sbrk n k h.freep (ptr h.mem h.freep) h) (r, h') ∧
      Answer base n live r h' ∧ (r = 0 ↔ (∀ e ∈ l, e.size < n) ∧ Denies sbrk n h) := by
  have hne : ∀ r, r + HEADER ≠ 0 := fun r => Nat.succ_ne_zero _
  by_cases hfit : ∃ e ∈ l, n ≤ e.size
  · obtain ⟨h', l', r, hloop, hok, -⟩ := ho.mallocLoop_found hpos hfit
    refine ⟨r + HEADER, h', ⟨l.length + 1, hloop sbrk⟩, .inr ⟨r, l', rfl, hok⟩,
      fun h0 => absurd h0 (hne r), fun hfull => ?_⟩
    obtain ⟨e, he, hle⟩ := hfit
    exact absurd (hfull.1 e he) (Nat.not_lt.mpr hle)
  -- The search comes back to where it began.
  have hfull : ∀ e ∈ l, e.size < n := fun e he => Nat.lt_of_not_le fun hle => hfit ⟨e, he, hle⟩
  have hsplit : ∀ {k}, l.length + 1 ≤ k → ∃ j, k = l.length + (j + 1) := fun {k} hk =>
    ⟨k - l.length - 1, by omega⟩
  rcases ho.morecore hs hbase hn with
    ⟨hno, h', hmore, hok⟩ | ⟨hyes, h', l', hmore, hfreep, hok, hlarge⟩
  · refine ⟨0, h', ⟨l.length + 1, fun k hk => ?_⟩, .inl ⟨rfl, l, hok⟩,
      fun _ => ⟨hfull, hno⟩, fun _ => rfl⟩
    obtain ⟨j, rfl⟩ := hsplit hk
    beta_reduce
    rw [ho.mallocLoop_full hpos hfull, hmore]
    rfl
  · obtain ⟨h'', l'', r, hloop, hok', -⟩ := hok.mallocLoop_found hpos hlarge
    refine ⟨r + HEADER, h'', ⟨l.length + 1 + (l.length + 1) + l'.length, fun k hk => ?_⟩,
      .inr ⟨r, l'', rfl, hok'⟩, fun h0 => absurd h0 (hne r), fun hd => absurd hd.2 hyes⟩
    obtain ⟨j, rfl⟩ := hsplit (Nat.le_trans (by omega) hk)
    beta_reduce
    rw [ho.mallocLoop_full hpos hfull, hmore j (by omega)]
    exact (if_neg hfreep).trans (hloop sbrk j (by omega))

end Grow

section Runs

/-- Bytes that `malloc` can be asked for: the units for them fit in a call of `sbrk`. -/
def Small (n : ℕ) : Prop := ((n + HEADER - 1) / HEADER + 1) * HEADER < 2 ^ 31

theorem unitsFor_pos : 0 < unitsFor n := Nat.succ_pos _

theorem Small.unitsFor_eq (hn : Small n) : unitsFor n = (n + HEADER - 1) / HEADER + 1 := by
  unfold Small HEADER at hn
  unfold unitsFor HEADER
  rw [Nat.mod_eq_of_lt (by omega)]

/-- The first call of `malloc` sets up the list with the static header alone. -/
theorem ok_init (hbase : base + HEADER ≤ 2 ^ 32) (hreg : h.regions = []) :
    Ok base { h with mem := setSize (setPtr h.mem base base) base 0, freep := base } [] [] := by
  have hlt : base < 2 ^ 32 := by
    unfold HEADER at hbase
    omega
  refine ⟨⟨.nil, nofun, fun x hx => ?_, fun x hx => ?_, .nil⟩, ⟨?_, fun e he => ?_⟩, nofun,
    List.mem_cons_self, fun x hx => ?_, ?_⟩
  · obtain ⟨e, he, -⟩ := hx
    cases he
  · obtain ⟨e, he, -⟩ := hx
    cases he
  · apply Links.singleton.mpr
    rw [ptr_setSize]
    exact ptr_setPtr hbase hlt
  · obtain rfl := List.mem_singleton.mp he
    exact size_setSize hbase (by decide)
  · obtain ⟨e, he, -⟩ := hx
    cases he
  · rw [hreg]
    rfl

def Untouched (h : Heap) (live : List Extent) : Prop := h.freep = 0 ∧ h.regions = [] ∧ live = []

def InOrder (base : ℕ) (h : Heap) (live : List Extent) : Prop :=
  Untouched h live ∨ ∃ l, Ok base h l live

def started (base : ℕ) (h : Heap) : Heap :=
  if h.freep = 0 then { h with mem := setSize (setPtr h.mem base base) base 0, freep := base }
  else h

theorem InOrder.started (hbase : 0 < base) (hhigh : base + HEADER ≤ 2 ^ 32)
    (ho : InOrder base h live) : ∃ l, Ok base (started base h) l live := by
  unfold Umalloc.started
  rcases ho with ⟨hfreep, hreg, rfl⟩ | ⟨l, ho⟩
  · rw [if_pos hfreep]
    exact ⟨[], ok_init hhigh hreg⟩
  · rw [if_neg (ho.freep_ne hbase)]
    exact ⟨l, ho⟩

theorem malloc_eq (k : ℕ) : malloc sbrk base k n h = mallocLoop sbrk (unitsFor n) k
    (started base h).freep (ptr (started base h).mem (started base h).freep) (started base h) := rfl

theorem InOrder.malloc (hs : Fresh base sbrk) (hbase : 0 < base) (hhigh : base + HEADER ≤ 2 ^ 32)
    (ho : InOrder base h live) (hn : Small n) :
    ∃ r h', Returns (fun k => malloc sbrk base k n h) (r, h') ∧
      Answer base (unitsFor n) live r h' := by
  obtain ⟨l, hok⟩ := ho.started hbase hhigh
  have hunits : unitsFor n * HEADER < 2 ^ 31 := by
    rw [hn.unitsFor_eq]
    exact hn
  obtain ⟨r, h', hr, ha, -⟩ := hok.mallocLoop hs hbase unitsFor_pos hunits
  simp only [malloc_eq]
  exact ⟨r, h', hr, ha⟩

theorem Ok.perm {live' : List Extent} (ho : Ok base h l live) (hp : live.Perm live') :
    Ok base h l live' := by
  have hmem : ∀ e, e ∈ l ++ live' ↔ e ∈ l ++ live := by
    intro e
    rw [List.mem_append, List.mem_append, hp.mem_iff]
  have hcov : ∀ x, Covers HEADER (l ++ live') x ↔ Covers HEADER (l ++ live) x := by
    intro x
    unfold Extent.Covers
    simp only [hmem]
  refine ⟨⟨ho.layout.gapped, fun e he => ho.layout.pos e ((hmem e).mp he),
    fun x hx => ho.layout.bound x ((hcov x).mp hx), fun x hx hx' => ?_, ?_⟩, ho.listed,
    fun e he => ho.size e (hp.mem_iff.mpr he), ho.freep,
    fun x hx => ho.owned x ((hcov x).mp hx), ?_⟩
  · obtain ⟨e, he, hex⟩ := hx'
    exact ho.layout.apart x hx ⟨e, hp.mem_iff.mpr he, hex⟩
  · exact hp.pairwise ho.layout.live fun h => h.symm
  · have hsum : Extent.units live' = Extent.units live := ((hp.map Extent.size).sum_eq).symm
    rw [← ho.units, units_append, units_append, hsum]

theorem Ok.write {m : Mem} (ho : Ok base h l live)
    (hm : ∀ e ∈ withBase base l ++ live, ∀ x, e.addr ≤ x → x < e.addr + HEADER →
      m.get x = h.mem.get x) : Ok base { h with mem := m } l live := by
  refine ⟨ho.layout, ho.listed.congr fun e he => ?_, fun e he => ?_, ho.freep, ho.owned, ho.units⟩
  · exact header_congr (hm e (List.mem_append_left _ he))
  · exact (header_congr (hm e (List.mem_append_right _ he))).2.trans (ho.size e he)

/-- The program: its heap, and the bytes it has been given and not freed. -/
structure Client where
  heap : Heap
  live : List Extent

def block (b : Extent) : Extent := ⟨b.addr - HEADER, unitsFor b.size⟩

/-- What the program must not write: the static header, and the heap apart from its own bytes. -/
def Client.Guarded (base : ℕ) (c : Client) (x : ℕ) : Prop :=
  Has 1 ⟨base, HEADER⟩ x ∨ Covers 1 c.heap.regions x ∧ ¬ Covers 1 c.live x

inductive Step (sbrk : Sbrk) (base : ℕ) (c : Client) : Client → Prop where
  | malloc {n r : ℕ} {h : Heap} : Small n →
      Returns (fun k => malloc sbrk base k n c.heap) (r, h) →
      Step sbrk base c ⟨h, if r = 0 then c.live else ⟨r, n⟩ :: c.live⟩
  | free {b : Extent} {h : Heap} : b ∈ c.live → Returns (fun k => free k b.addr c.heap) h →
      Step sbrk base c ⟨h, c.live.erase b⟩
  | write {m : Mem} : (∀ x, c.Guarded base x → m.get x = c.heap.mem.get x) →
      Step sbrk base c ⟨{ c.heap with mem := m }, c.live⟩

/-- The heap is in order, and the bytes of the program lie in its blocks behind the headers. -/
structure Client.Sound (base : ℕ) (c : Client) : Prop where
  order : InOrder base c.heap (c.live.map block)
  addr : ∀ b ∈ c.live, (block b).addr + HEADER = b.addr
  has : ∀ b ∈ c.live, ∀ x, b.Has 1 x → (block b).Has HEADER x

variable {c c' : Client}

theorem Client.Sound.answer {r : ℕ} (hc : c.Sound base) (hn : Small n)
    (ha : Answer base (unitsFor n) (c.live.map block) r h) :
    Client.Sound base ⟨h, if r = 0 then c.live else ⟨r, n⟩ :: c.live⟩ := by
  rcases ha with ⟨rfl, l, hok⟩ | ⟨a, l, rfl, hok⟩
  · exact ⟨.inr ⟨l, hok⟩, hc.addr, hc.has⟩
  · have hH : HEADER = 8 := rfl
    have hne : a + HEADER ≠ 0 := Nat.succ_ne_zero _
    have hblock : block ⟨a + HEADER, n⟩ = ⟨a, unitsFor n⟩ := by
      rw [block, Nat.add_sub_cancel]
    rw [if_neg hne]
    refine ⟨.inr ⟨l, ?_⟩, fun b hb => ?_, fun b hb x hx => ?_⟩
    · rw [List.map_cons, hblock]
      exact hok
    · rcases List.mem_cons.mp hb with rfl | hb
      · rw [hblock]
      · exact hc.addr b hb
    · rcases List.mem_cons.mp hb with rfl | hb
      · rw [hblock, hn.unitsFor_eq]
        simp only [Has, stop, hH] at hx ⊢
        omega
      · exact hc.has b hb x hx

theorem Client.Sound.free {b : Extent} (hc : c.Sound base) (hb : b ∈ c.live) :
    ∃ h', Returns (fun k => Umalloc.free k b.addr c.heap) h' ∧
      Client.Sound base ⟨h', c.live.erase b⟩ := by
  rcases hc.order with ⟨-, -, hnil⟩ | ⟨l, hok⟩
  · rw [List.map_eq_nil_iff.mp hnil] at hb
    cases hb
  · obtain ⟨h', l', hfree, hok', -⟩ := (hok.perm ((List.perm_cons_erase hb).map block)).free
    rw [hc.addr b hb] at hfree
    refine ⟨h', ⟨l.length + 1, hfree⟩, .inr ⟨l', hok'⟩, fun d hd => ?_, fun d hd => ?_⟩
    · exact hc.addr d (List.mem_of_mem_erase hd)
    · exact hc.has d (List.mem_of_mem_erase hd)

theorem Client.Sound.write {m : Mem} (hc : c.Sound base)
    (hm : ∀ x, c.Guarded base x → m.get x = c.heap.mem.get x) :
    Client.Sound base ⟨{ c.heap with mem := m }, c.live⟩ := by
  refine ⟨?_, hc.addr, hc.has⟩
  rcases hc.order with huntouched | ⟨l, hok⟩
  · exact .inl huntouched
  refine .inr ⟨l, hok.write fun e he x hlow hhigh => hm x ?_⟩
  rcases List.mem_cons.mp he with rfl | he
  · left
    simp only [Has, stop, Nat.one_mul]
    exact ⟨hlow, hhigh⟩
  -- The header of a block is in the heap, and no byte of it was given to the program.
  have hx : e.Has HEADER x := ⟨hlow, Nat.lt_of_lt_of_le hhigh (hok.layout.addr_bound he).2.1⟩
  refine .inr ⟨hok.owned x ⟨e, he, hx⟩, ?_⟩
  rintro ⟨b, hb, hbx⟩
  have hbx' := hc.has b hb x hbx
  rcases List.mem_append.mp he with he | he
  · exact (hok.layout.apart_of_mem he (List.mem_map_of_mem hb)).disjoint hx hbx'
  · obtain ⟨d, hd, rfl⟩ := List.mem_map.mp he
    by_cases hdb : d = b
    · rw [hdb, hc.addr b hb] at hhigh
      exact Nat.not_le_of_lt hhigh hbx.1
    · have : Std.Symm fun b d => (block b).Apart HEADER (block d) := ⟨fun _ _ h => h.symm⟩
      have hpair := List.pairwise_map.mp hok.layout.live
      exact (hpair.forall hd hb hdb).disjoint hx hbx'

theorem Client.Sound.step (hs : Fresh base sbrk) (hbase : 0 < base) (hhigh : base + HEADER ≤ 2 ^ 32)
    (hc : c.Sound base) (hstep : Step sbrk base c c') : c'.Sound base := by
  cases hstep with
  | malloc hn hr =>
    obtain ⟨r, h', hr', ha⟩ := hc.order.malloc hs hbase hhigh hn
    obtain ⟨rfl, rfl⟩ := Prod.mk.inj (hr.unique hr')
    exact hc.answer hn ha
  | free hb hr =>
    obtain ⟨h', hr', hc'⟩ := hc.free hb
    rw [hr.unique hr']
    exact hc'
  | write hm => exact hc.write hm

def Client.start (m : Mem) : Client := ⟨⟨m, 0, 0, []⟩, []⟩

/-- Whatever the program asks for, gives back and writes, the free blocks are a circular list in the
order of their addresses, all the memory from the kernel is in a free block or in one of the
program, and the next call of `malloc` or `free` ends. -/
theorem heap_in_order (hs : Fresh base sbrk) (hbase : 0 < base) (hhigh : base + HEADER ≤ 2 ^ 32)
    {m : Mem} (hrun : Relation.ReflTransGen (Step sbrk base) (.start m) c) :
    c.Sound base ∧
      (∀ n, Small n → ∃ r h, Returns (fun k => malloc sbrk base k n c.heap) (r, h)) ∧
      ∀ b ∈ c.live, ∃ h, Returns (fun k => free k b.addr c.heap) h := by
  have hc : c.Sound base := by
    induction hrun with
    | refl => exact ⟨.inl ⟨rfl, rfl, rfl⟩, nofun, nofun⟩
    | tail _ hstep ih => exact ih.step hs hbase hhigh hstep
  refine ⟨hc, fun n hn => ?_, fun b hb => ?_⟩
  · obtain ⟨r, h, hr, -⟩ := hc.order.malloc hs hbase hhigh hn
    exact ⟨r, h, hr⟩
  · obtain ⟨h, hr, -⟩ := hc.free hb
    exact ⟨h, hr⟩

def oneRegion : Sbrk := fun _ rs _ => if rs = [] then some 4096 else none

theorem fresh_oneRegion : Fresh 8 oneRegion := by
  intro t rs bytes a hpos hlt ha
  unfold oneRegion at ha
  split_ifs at ha with hrs
  cases ha
  subst hrs
  refine ⟨by decide, by omega, fun x _ hx => ?_⟩
  obtain ⟨e, he, -⟩ := hx
  cases he

/-- Ten bytes at the end of the first region. -/
theorem heap_in_order_ten : ∃ c : Client, c.live = [⟨36848, 10⟩] ∧ c.Sound 8 ∧
    (∀ n, Small n → ∃ r h, Returns (fun k => malloc oneRegion 8 k n c.heap) (r, h)) ∧
    ∀ b ∈ c.live, ∃ h, Returns (fun k => free k b.addr c.heap) h := by
  have hsmall : Small 10 := by
    unfold Small
    decide
  have hten : ∀ k, (malloc oneRegion 8 (k + 5) 10 (Client.start fun _ => 0).heap).map Prod.fst =
      some 36848 := fun _ => rfl
  have hstart : Client.Sound 8 (.start fun _ => 0) := ⟨.inl ⟨rfl, rfl, rfl⟩, nofun, nofun⟩
  obtain ⟨r, h, hr, -⟩ := hstart.order.malloc fresh_oneRegion (by decide) (by decide) hsmall
  have hrun := Relation.ReflTransGen.single (Step.malloc hsmall hr)
  obtain ⟨K, hK⟩ := hr
  have hr : r = 36848 :=
    Option.some.inj ((congrArg (Option.map Prod.fst) (hK (K + 5) (by omega))).symm.trans (hten K))
  subst hr
  exact ⟨_, rfl, heap_in_order fresh_oneRegion (by decide) (by decide) hrun⟩

end Runs

end Xv6.Umalloc
