import Xv6.Vm.Image

namespace Xv6.Vm
open Lib Prog

def segments (file : List UInt8) : List Proghdr :=
  let elf := Elfhdr.decode (file.take ELFHDR)
  loadHeaders file elf.phnum elf.phoff

/-- The size of the image: the segments, a guard page and the stack. -/
def imageSize (file : List UInt8) : ℕ := (pageCount (segmentsEnd 0 (segments file)) + 2) * PGSIZE

/-- No string is so long that `exec` looks for a place for it in the part of the address space that
has no page tables. -/
def Short (file : List UInt8) (argv : List Str) : Prop :=
  ∀ str ∈ argv, str.length + 1 ≤ imageSize file - PGSIZE + 2 ^ 25

/-- A program that can be loaded, with arguments for which there is room on the stack page. -/
structure Executable (file : List UInt8) (argv : List Str) : Prop where
  header : ELFHDR ≤ file.length
  magic : (Elfhdr.decode (file.take ELFHDR)).magic = ELF_MAGIC
  headers : ∀ i, i < (Elfhdr.decode (file.take ELFHDR)).phnum →
    (Elfhdr.decode (file.take ELFHDR)).phoff + (i + 1) * PROGHDR ≤ file.length
  segment : ∀ ph ∈ segments file, Loadable file ph
  size : imageSize file < KERNBASE
  count : argv.length ≤ MAXARG
  room : 4 * (argv.length + 4) + argBytes argv ≤ PGSIZE

/-- As many pages as the segments and the stack can take. -/
def imageCost (file : List UInt8) : ℕ :=
  segmentsCost (segments file) + (imageSize file / PGSIZE + 512)

/-- The segments over zeros, a guard page that is closed to users, and the arguments. -/
structure Built (file : List UInt8) (argv : List Str) (m : Mem) (d : Page) (esp : ℕ)
    (g : ℕ → UInt8) (ptrs : List ℕ) : Prop where
  le : imageSize file ≤ KERNBASE
  image : Image m d (imageSize file / PGSIZE) (stackFlags (imageSize file / PGSIZE)) g
  below : ∀ x, x < imageSize file - PGSIZE → g x = segmentsOver file (fun _ => 0) (segments file) x
  stack : Stacked g (imageSize file - PGSIZE) 0 (imageSize file) [] argv esp ptrs

variable {p : Pid} {E : String → Prop} {U : Page → Prop} {s : State} {b : Books} {file : List UInt8}
  {argv : List Str}

section Image

variable {a : Space} {d : Page} {m m' : Mem} {g : ℕ → UInt8}

theorem Image.of_view {N : ℕ} {flags : ℕ → ℕ} (h : Image m d N flags g)
    (hv : ∀ v, view m' d v = view m d v) : Image m' d N flags g := by
  refine ⟨fun v hlt => ?_, fun v hge hd => ?_, fun x hx => ?_, ?_⟩
  · rw [lookup_eq_of_view (hv v)]
    exact h.pages v hlt
  · rw [lookup_eq_of_view (hv v)]
    exact h.above v hge hd
  · rw [byte_congr (hv _)]
    exact h.bytes x hx
  · exact h.shut.of_look fun v => lookup_eq_of_view (hv v)

theorem hidden_seven (x : ℕ) : hidden (x * PGSIZE + 7) = x * PGSIZE + 3 := by
  have huser : User (x * PGSIZE + 7) := by
    unfold User PGSIZE
    omega
  unfold hidden
  rw [if_pos huser]
  rfl

theorem Image.hide {k x : ℕ} {c : Bytes PGSIZE} (h : Image m d (k + 2) (fun _ => 7) g)
    (hk : k * PGSIZE < KERNBASE) (hold : view m d k = some (x * PGSIZE + 7, some c))
    (hself : view m' d k = some (hidden (x * PGSIZE + 7), some c))
    (hother : ∀ v, v ≠ k → view m' d v = view m d v) :
    Image m' d (k + 2) (stackFlags (k + 2)) g := by
  refine ⟨fun v hv => ?_, fun v hv hd => ?_, fun y hy => ?_, fun v hd hlt => ?_⟩
  · by_cases hvk : v = k
    · subst hvk
      refine ⟨x, ?_⟩
      rw [lookup_eq_view, hself, hidden_seven]
      simp [stackFlags]
    · rw [lookup_eq_of_view (hother v hvk), stackFlags, if_neg (by omega)]
      exact h.pages v hv
  · rw [lookup_eq_of_view (hother v (by omega))]
    exact h.above v hv hd
  · rw [← h.bytes y hy]
    by_cases hyk : y / PGSIZE = k
    · unfold byte
      rw [hyk, hself, hold]
      rfl
    · exact byte_congr (hother _ hyk)
  · have hvk : v ≠ k := by
      rintro rfl
      exact not_direct hk hd
    rw [lookup_eq_of_view (hother v hvk)]
    exact h.shut v hd hlt

theorem Loaded.round {sz : ℕ} (h : Loaded m d sz g) : Loaded m d (pageCount sz * PGSIZE) g := by
  have hround : pageCount (pageCount sz * PGSIZE) = pageCount sz := by
    simp only [pageCount, PGSIZE]
    omega
  have hle : sz ≤ pageCount sz * PGSIZE := by
    simp only [pageCount, PGSIZE]
    omega
  refine ⟨pageCount_le h.le, ?_, fun x hx => h.rest x (hle.trans hx)⟩
  rw [hround]
  exact h.image

theorem Executable.loads (h : Executable file argv) :
    Loads file (Elfhdr.decode (file.take ELFHDR)).phnum (Elfhdr.decode (file.take ELFHDR)).phoff
      0 := by
  refine ⟨h.headers, h.segment, ?_⟩
  have hsize := h.size
  show segmentsEnd 0 (segments file) < KERNBASE
  simp only [imageSize, pageCount, PGSIZE] at hsize
  omega

theorem ends_loadImage (hfile : file.length < 2 ^ 32) (h : Good U s b) (hdir : b.dir a = some d)
    (hfresh : Fresh s.mem d) (hshort : Short file argv) :
    Ends p E (loadImage p d file (Elfhdr.decode (file.take ELFHDR)) argv) s fun r s' =>
      Apart a b s s' ∧ Good U s' b ∧
      (∀ v, KERNBASE ≤ v * PGSIZE → ¬ Direct v → lookup s'.mem d v = none) ∧
      (∀ sz esp, r = some (sz, esp) →
        sz = imageSize file ∧ ∃ g ptrs, Built file argv s'.mem d esp g ptrs) ∧
      (r = none → Executable file argv → Scarce s (imageCost file)) := by
  have hload : Loaded s.mem d 0 fun _ => 0 := ⟨Nat.zero_le _, hfresh.image, fun _ _ => rfl⟩
  refine Ends.bind (ends_loadSegments hfile _ h hdir hload) ?_
  rintro r s1 ⟨hapart1, hgood1, hdone⟩
  cases r with
  | none =>
    refine .ret ⟨hapart1, hgood1, hdone.high, by rintro _ _ ⟨⟩, fun _ hex => ?_⟩
    exact (hdone.failed rfl hex.loads).mono (Nat.le_add_right _ _)
  | some sz =>
    obtain ⟨hsz, hload1, hspent⟩ := hdone.loaded sz rfl
    set k := pageCount sz with hk
    have hsize : imageSize file = (k + 2) * PGSIZE := by
      rw [hk, hsz]
      rfl
    have hstack : imageSize file - PGSIZE = (k + 1) * PGSIZE := by
      rw [hsize, Nat.succ_mul (k + 1)]
      exact Nat.add_sub_cancel _ _
    have hpages : imageSize file / PGSIZE = k + 2 := by
      rw [hsize]
      exact Nat.mul_div_cancel _ (by decide)
    have hcount : pageCount ((k + 2) * PGSIZE) = k + 2 := by
      simp only [pageCount, PGSIZE]
      omega
    have htop : PGROUNDUP sz = k * PGSIZE := PGROUNDUP_eq_pageCount hload1.le
    have hle : k * PGSIZE ≤ KERNBASE := pageCount_le hload1.le
    have hnew : uadd (k * PGSIZE) (2 * PGSIZE) = (k + 2) * PGSIZE := by
      have : KERNBASE = 2 ^ 31 := rfl
      have : PGSIZE = 4096 := rfl
      unfold uadd
      rw [Nat.mod_eq_of_lt (by omega), Nat.add_mul]
    show Ends p E ((allocuvm d (PGROUNDUP sz) (uadd (PGROUNDUP sz) (2 * PGSIZE))).bind _) s1 _
    rw [htop, hnew]
    refine Ends.bind (ends_grow hgood1 hdir hload1.round) ?_
    rintro r s2 ⟨hapart2, hgood2, hhigh2, hres2, hshort2⟩
    have hapart2' := hapart1.trans (.refl a b) hapart2
    refine Ends.ite (fun hr => .ret ⟨hapart2', hgood2, hhigh2, by rintro _ _ ⟨⟩, fun _ hex => ?_⟩)
      fun hr => ?_
    · rcases hshort2 hr with hzero | hge | hscarce
      · simp only [PGSIZE] at hzero
        omega
      · rw [← hsize] at hge
        exact absurd hex.size hge.not_gt
      · rw [hcount, ← hpages] at hscarce
        exact hspent.scarce hapart1.deny hscarce
    obtain ⟨hmax, hload2, -⟩ := hres2 hr
    obtain rfl : r = (k + 2) * PGSIZE := by
      rw [hmax]
      exact max_eq_right (Nat.mul_le_mul_right _ (by omega))
    have himage2 : Image s2.mem d (k + 2) (fun _ => 7)
        (segmentsOver file (fun _ => 0) (segments file)) := by
      rw [← hcount]
      exact hload2.image
    have hguard : ((k + 2) * PGSIZE - 2 * PGSIZE) / PGSIZE = k := by
      rw [← Nat.sub_mul]
      exact Nat.mul_div_cancel _ (by decide)
    have hkern : (k + 2) * PGSIZE ≤ KERNBASE := hload2.le
    have hklow : k * PGSIZE < KERNBASE :=
      (Nat.mul_lt_mul_of_pos_right (by omega) (by decide)).trans_le hkern
    obtain ⟨x, c, hview⟩ := himage2.view_page hkern (v := k) (by omega)
    refine Ends.bind (ends_clearpteu hgood2 hdir ?_ (by rw [hguard]; exact hview)) ?_
    · have : KERNBASE < 2 ^ 32 := by decide
      omega
    rw [hguard]
    rintro _ s3 ⟨hapart3, hgood3, hself, hother⟩
    have himage3 := himage2.hide hklow hview hself hother
    have hapart3' := hapart2'.trans (.refl a b) hapart3
    refine Ends.bind (ends_pushArgs hkern argv hgood3 hdir himage3 ?_ le_rfl ?_ rfl (Nat.zero_le _)
      ?_) ?_
    · exact Nat.mul_le_mul_right _ (by omega)
    · simp only [PGSIZE]
      omega
    · rw [← hstack]
      exact hshort
    rintro r s4 ⟨hgood4, hapart4, hlook4, hres4, hfull⟩
    refine .ret ⟨hapart3'.trans (.refl a b) hapart4, hgood4, fun v hv hd => ?_,
      fun sz' esp hr' => ?_, fun hr' hex => ?_⟩
    · rw [hlook4]
      exact himage3.high hkern hv hd
    rotate_left
    · -- The arguments of an executable fit.
      have hroom := hex.room
      have hlow := hfull (Option.map_eq_none_iff.mp hr') (by have := hex.count; omega)
      rw [Nat.succ_mul (k + 1)] at hlow
      omega
    · obtain ⟨esp', rfl, heq⟩ := Option.map_eq_some_iff.mp hr'
      cases heq
      obtain ⟨g', ptrs, himage4, hstacked, hsame⟩ := hres4 esp rfl
      refine ⟨hsize.symm, g', ptrs, hsize.trans_le hkern, ?_, fun x hx => ?_, ?_⟩
      · rw [hpages]
        exact himage4
      · rw [hstack] at hx
        exact hsame x (.inl hx)
      · rw [hstack, hsize]
        exact hstacked

end Image

section Exec

variable {d0 : Page} {path : Str}

/-- The image has taken the place of the old address space. -/
structure Replaced (U : Page → Prop) (b : Books) (p : Pid) (path : Str) (file : List UInt8)
    (argv : List Str) (d d₀ : Page) (esp : ℕ) (s s' : State) : Prop where
  good : ∃ U', Good U' s' (b.setDir (.proc p) (some d)) ∧
    ((∀ v, KERNBASE ≤ v * PGSIZE → ¬ Direct v → lookup s.mem d₀ v = none) → U' = U)
  built : ∃ g ptrs, Built file argv s'.mem d esp g ptrs
  proc : s'.proc = Function.update s.proc p
    { s.proc p with
      name := progName path
      pgdir := some d
      sz := imageSize file
      tf := { (s.proc p).tf with eip := elfEntry (file.take ELFHDR), esp := esp } }
  pipe : s'.pipe = s.pipe
  kpgdir : s'.kpgdir = s.kpgdir
  layout : s'.layout = s.layout
  deny : s'.deny = s.deny
  other : ∀ a, a ≠ .new → a ≠ .proc p → ∀ d', b.dir a = some d' →
    ∀ v, view s'.mem d' v = view s.mem d' v

theorem Good.setProc {q : Pid} {x : Proc} (h : Good U s b) : Good U (s.setProc q x) b := h

theorem swap_books {d : Page} (hnew : b.dir .new = none) :
    { (b.setDir .new (some d)).setDir (.proc p) none with
      dir := fun c => ((b.setDir .new (some d)).setDir (.proc p) none).dir
        (Equiv.swap .new (.proc p) c) } = b.setDir (.proc p) (some d) := by
  have hdir : ∀ c, ((b.setDir .new (some d)).setDir (.proc p) none).dir
      (Equiv.swap .new (.proc p) c) = (b.setDir (.proc p) (some d)).dir c := by
    intro c
    by_cases hc : c = .new
    · subst hc
      rw [Equiv.swap_apply_left, Books.setDir_self, Books.setDir_of_ne _ _ (by rintro ⟨⟩), hnew]
    · by_cases hp : c = .proc p
      · subst hp
        rw [Equiv.swap_apply_right, Books.setDir_of_ne _ _ (by rintro ⟨⟩), Books.setDir_self,
          Books.setDir_self]
      · rw [Equiv.swap_apply_of_ne_of_ne hc hp, Books.setDir_of_ne _ _ hp, Books.setDir_of_ne _ _ hc,
          Books.setDir_of_ne _ _ hp]
  show Books.mk _ _ _ _ = Books.mk _ _ _ _
  congr 1
  exact funext hdir

theorem ends_exec (hfile : file.length < 2 ^ 32) (h : Good U s b) (hnew : b.dir .new = none)
    (hdir : b.dir (.proc p) = some d0) (hpgdir : (s.proc p).pgdir = some d0)
    (hshort : Short file argv) :
    Ends p E (exec p path (some file) argv) s fun ok s' =>
      ok = false ∧ Good U s' b ∧ Apart .new b s s' ∧
          (Executable file argv → Scarce s (65 + imageCost file)) ∨
        ok = true ∧ ∃ d esp, Replaced U b p path file argv d d0 esp s s' := by
  have hfail : ¬ Executable file argv → Ends p E (Prog.ret false : VmM Bool) s fun ok s' =>
      ok = false ∧ Good U s' b ∧ Apart .new b s s' ∧
          (Executable file argv → Scarce s (65 + imageCost file)) ∨
        ok = true ∧ ∃ d esp, Replaced U b p path file argv d d0 esp s s' :=
    fun hno => .ret (.inl ⟨rfl, h, .refl _ _ _, fun hex => absurd hex hno⟩)
  unfold exec
  dsimp only
  cases hl : readi file 0 ELFHDR with
  | none =>
    refine hfail fun hex => ?_
    have := readi_none hl hfile (by decide)
    have := hex.header
    omega
  | some l =>
    obtain rfl : l = file.take ELFHDR := readi_some hl
    refine Ends.ite (fun hcon => hfail fun hex => ?_) fun _ => ?_
    · exact hcon.elim (fun hlen => hlen (List.length_take_of_le hex.header))
        fun hmagic => hmagic hex.magic
    refine Ends.bind (ends_setupkvm h hnew) ?_
    rintro r s1 ⟨hapart1, ⟨rfl, hgood1, n, hn, hfirst⟩ | ⟨d, rfl, -, hgood1, hdrew, hfresh, -⟩⟩
    · exact .ret (.inl ⟨rfl, hgood1, hapart1, fun _ => ⟨n, by omega, hfirst⟩⟩)
    refine Ends.bind (ends_loadImage hfile hgood1 (Books.setDir_self _ _ _) hfresh hshort) ?_
    rintro r s2 ⟨hapart2, hgood2, hhigh, hres, hscarce⟩
    have hapart : Apart .new b s s2 := hapart1.trans (.setDir _ _ _) hapart2
    rcases r with _ | ⟨sz, esp⟩
    · -- The new address space is freed.
      refine Ends.bind (ends_freevm hgood2 (Books.setDir_self _ _ _)) ?_
      rintro _ s3 ⟨hapart3, U', hgood3, hsame⟩
      obtain rfl := hsame hhigh
      rw [setDir_back hnew] at hgood3
      refine .ret (.inl ⟨rfl, hgood3, hapart.trans (.setDir _ _ _) hapart3, fun hex => ?_⟩)
      exact Spent.scarce ⟨65, le_rfl, hdrew⟩ hapart1.deny (hscarce rfl hex)
    · obtain ⟨rfl, g, ptrs, hbuilt⟩ := hres sz esp rfl
      refine Ends.bind_read (Ends.bind_modify ?_)
      rw [hapart.proc, hpgdir]
      have hold : (b.setDir .new (some d)).dir (.proc p) = some d0 :=
        (Books.setDir_of_ne _ _ (by rintro ⟨⟩)).trans hdir
      refine Ends.bind (ends_freevm hgood2.setProc hold) ?_
      rintro _ s3 ⟨hapart3, U', hgood3, hsame⟩
      have hswap := hgood3.swap .new (.proc p)
      rw [swap_books hnew] at hswap
      have hview3 : ∀ v, view s3.mem d v = view s2.mem d v :=
        hapart3.view_eq (by rintro ⟨⟩) (Books.setDir_self _ _ _)
      refine .ret (.inr ⟨rfl, d, esp, ⟨U', hswap, fun hnone => hsame fun v hv hd => ?_⟩,
        ⟨g, ptrs, hbuilt.le, hbuilt.image.of_view hview3, hbuilt.below, hbuilt.stack⟩,
        ?_, ?_, ?_, ?_, ?_, fun a hanew hap d' hd' v => ?_⟩)
      · rw [← hnone v hv hd]
        exact lookup_eq_of_view (hapart.view_eq (by rintro ⟨⟩) hdir v)
      · rw [hapart3.proc]
        show Function.update s2.proc p _ = _
        rw [hapart.proc]
      · exact hapart3.pipe.trans hapart.pipe
      · exact hapart3.kpgdir.trans hapart.kpgdir
      · exact hapart3.layout.trans hapart.layout
      · exact hapart3.deny.trans hapart.deny
      · rw [hapart3.view_eq hap ((Books.setDir_of_ne _ _ hanew).trans hd')]
        exact hapart.view_eq hanew hd' v

end Exec

end Xv6.Vm
