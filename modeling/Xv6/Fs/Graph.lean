import Xv6.Lib.Tally
import Xv6.Param

namespace Xv6
open Lib Function

/-- `cell (d, k)` is the inode that entry `k` of `d` links to, if it counts as a link.  Entry 0 is
`.` and entry 1 is `..`. -/
structure Graph where
  type : ℕ → ℤ
  nlink : ℕ → ℤ
  cell : ℕ × ℕ → Option ℕ
  up : ℕ → ℕ

namespace Graph

/-- The counts are exact and the directories form a tree, from which removed directories are cut
off. -/
structure Exact (G : Graph) : Prop where
  finite : Finitely G.cell
  dir : ∀ d k, G.type d ≠ T_DIR → G.cell (d, k) = none
  dot : ∀ d, G.cell (d, 0) = none
  dotdot : ∀ d, G.type d = T_DIR → G.cell (d, 1) = if 0 < G.nlink d then some (G.up d) else none
  root : G.type ROOTINO = T_DIR ∧ 0 < G.nlink ROOTINO ∧ G.up ROOTINO = ROOTINO
  nlink : ∀ n, G.type n ≠ 0 → G.nlink n = tally G.cell n
  free : ∀ n, G.type n = 0 → tally G.cell n = 0
  removed : ∀ d k, G.nlink d = 0 → 2 ≤ k → G.cell (d, k) = none
  parent : ∀ d k x, 2 ≤ k → G.cell (d, k) = some x → G.type x = T_DIR → x ≠ ROOTINO ∧
    G.up x = d ∧ ∀ j, 2 ≤ j → G.cell (d, j) = some x → j = k
  named : ∀ x, G.type x = T_DIR → G.nlink x ≠ 0 → x ≠ ROOTINO →
    ∃ k, 2 ≤ k ∧ G.cell (G.up x, k) = some x

variable {G G' : Graph} {d k n x : ℕ}

theorem dir_ne_zero : T_DIR ≠ 0 := by decide

/-- The cells and the counts where a directory `x` is entered in `d`, or removed from it. -/
theorem cells_of_pair (hne : x ≠ d) {a b : Option ℕ} {u v : ℤ}
    (hnlink : G'.nlink = update (update G.nlink x u) d v)
    (hcell : G'.cell = update (update G.cell (x, 1) a) (d, k) b) :
    (G'.cell (x, 1) = a ∧ G'.cell (d, k) = b ∧
      ∀ p, p ≠ (x, 1) → p ≠ (d, k) → G'.cell p = G.cell p) ∧
    G'.nlink x = u ∧ G'.nlink d = v ∧ ∀ y, y ≠ x → y ≠ d → G'.nlink y = G.nlink y := by
  have hpd : (x, 1) ≠ (d, k) := by
    rintro ⟨⟩
    exact hne rfl
  rw [hnlink, hcell]
  refine ⟨⟨?_, update_self .., fun p hp1 hp2 => ?_⟩, ?_, update_self .., fun y hyx hyd => ?_⟩
  · rw [update_of_ne hpd, update_self]
  · rw [update_of_ne hp2, update_of_ne hp1]
  · rw [update_of_ne hne, update_self]
  · rw [update_of_ne hyd, update_of_ne hyx]

namespace Exact

section

variable (h : G.Exact)
include h

theorem cited {p : ℕ × ℕ} (hp : G.cell p = some x) :
    G.type x ≠ 0 ∧ 1 ≤ G.nlink x := by
  have hpos := tally_pos h.finite hp
  have ht : G.type x ≠ 0 := by
    intro h0
    have := h.free x h0
    omega
  refine ⟨ht, ?_⟩
  rw [h.nlink x ht]
  omega

theorem nlink_nonneg (hx : G.type x ≠ 0) : 0 ≤ G.nlink x := by
  rw [h.nlink x hx]
  omega

theorem nlink_pos (hk : 2 ≤ k) (hc : G.cell (d, k) = some x) :
    G.type d = T_DIR ∧ 0 < G.nlink d := by
  have ht : G.type d = T_DIR := by
    by_contra hne
    rw [h.dir d k hne] at hc
    cases hc
  have h0 : G.nlink d ≠ 0 := by
    intro h0
    rw [h.removed d k h0 hk] at hc
    cases hc
  have hnn := h.nlink_nonneg (x := d) (by rw [ht]; exact dir_ne_zero)
  exact ⟨ht, by omega⟩

theorem up_linked (ht : G.type x = T_DIR) (hnl : G.nlink x ≠ 0) :
    G.type (G.up x) = T_DIR ∧ 0 < G.nlink (G.up x) := by
  by_cases hx : x = ROOTINO
  · subst hx
    rw [h.root.2.2]
    exact ⟨h.root.1, h.root.2.1⟩
  · obtain ⟨k, hk, hc⟩ := h.named x ht hnl hx
    exact h.nlink_pos hk hc

/-- In an inode without links `..` does not count, and there are no other entries. -/
theorem cell_removed (hnl : G.nlink n = 0) (k : ℕ) : G.cell (n, k) = none := by
  by_cases ht : G.type n = T_DIR
  · obtain rfl | rfl | hk : k = 0 ∨ k = 1 ∨ 2 ≤ k := by omega
    · exact h.dot n
    · rw [h.dotdot n ht, if_neg (by omega)]
    · exact h.removed n k hnl hk
  · exact h.dir n k ht

/-- An inode that has no entries and that no entry links to may change its type. -/
theorem retype {type : ℤ} (hroot : ROOTINO ≠ x) (hcells : ∀ k, G.cell (x, k) = none)
    (hx : tally G.cell x = 0) (htype : G'.type = update G.type x type)
    (hnlink : G'.nlink = update G.nlink x 0) (hcell : G'.cell = G.cell)
    (hup : ∀ y, y ≠ x → G'.up y = G.up y) : G'.Exact := by
  have hno : ∀ p, G.cell p ≠ some x := (tally_eq_zero h.finite).mp hx
  have hother : ∀ y, y ≠ x → G'.type y = G.type y ∧ G'.nlink y = G.nlink y := fun y hy => by
    rw [htype, hnlink, update_of_ne hy, update_of_ne hy]
    exact ⟨rfl, rfl⟩
  have hself : G'.nlink x = 0 := by rw [hnlink, update_self]
  refine ⟨hcell ▸ h.finite, fun d k hd => ?_, fun d => hcell ▸ h.dot d, fun d hd => ?_, ?_,
    fun m hm => ?_, fun m hm => ?_, fun d k hd hk => ?_, fun d k y hk hc hy => ?_,
    fun y hy hnl hne => ?_⟩
  · rw [hcell]
    by_cases hdx : d = x
    · rw [hdx]
      exact hcells k
    · rw [(hother d hdx).1] at hd
      exact h.dir d k hd
  · rw [hcell]
    by_cases hdx : d = x
    · subst hdx
      rw [hcells, hself, if_neg (by decide)]
    · rw [(hother d hdx).1] at hd
      rw [(hother d hdx).2, hup d hdx]
      exact h.dotdot d hd
  · rw [(hother _ hroot).1, (hother _ hroot).2, hup _ hroot]
    exact h.root
  · rw [hcell]
    by_cases hmx : m = x
    · subst hmx
      rw [hself, hx]
      rfl
    · rw [(hother m hmx).1] at hm
      rw [(hother m hmx).2]
      exact h.nlink m hm
  · rw [hcell]
    by_cases hmx : m = x
    · rw [hmx, hx]
    · rw [(hother m hmx).1] at hm
      exact h.free m hm
  · rw [hcell]
    by_cases hdx : d = x
    · rw [hdx]
      exact hcells k
    · rw [(hother d hdx).2] at hd
      exact h.removed d k hd hk
  · rw [hcell] at hc ⊢
    have hyx : y ≠ x := by
      rintro rfl
      exact hno _ hc
    rw [(hother y hyx).1] at hy
    rw [hup y hyx]
    exact h.parent d k y hk hc hy
  · have hyx : y ≠ x := by
      rintro rfl
      exact hnl hself
    rw [(hother y hyx).1] at hy
    rw [(hother y hyx).2] at hnl
    rw [hup y hyx, hcell]
    exact h.named y hy hnl hne

theorem release (hnl : G.nlink n = 0) (hn : G.type n ≠ 0)
    (htype : G'.type = update G.type n 0) (hnlink : G'.nlink = G.nlink)
    (hcell : G'.cell = G.cell) (hup : ∀ y, y ≠ n → G'.up y = G.up y) : G'.Exact := by
  have hroot : ROOTINO ≠ n := by
    rintro rfl
    have := h.root.2.1
    omega
  have hzero := h.nlink n hn
  exact h.retype hroot (h.cell_removed hnl) (by omega) htype
    (by rw [hnlink, ← hnl, update_eq_self]) hcell hup

theorem alloc {type : ℤ} (hx : G.type x = 0) (htype : G'.type = update G.type x type)
    (hnlink : G'.nlink = update G.nlink x 0) (hcell : G'.cell = G.cell)
    (hup : ∀ y, y ≠ x → G'.up y = G.up y) : G'.Exact := by
  have hdir : T_DIR ≠ G.type x := hx ▸ dir_ne_zero
  exact h.retype (by rintro rfl; exact hdir h.root.1.symm) (fun k => h.dir x k hdir.symm)
    (h.free x hx) htype hnlink hcell hup

/-- Entries come and go, and only those for `x` and its `..` among them concern directories. -/
theorem of_entries (hroot : x ≠ ROOTINO) (htype : G'.type = G.type)
    (hup : ∀ y, G.type y = T_DIR → G'.up y = G.up y) (hfinite : Finitely G'.cell)
    (hdir : ∀ e j, G.type e ≠ T_DIR → G'.cell (e, j) = none)
    (hlow : ∀ e j, j < 2 → (e, j) ≠ (x, 1) → G'.cell (e, j) = G.cell (e, j))
    (hdotdot : G.type x = T_DIR → G'.cell (x, 1) = if 0 < G'.nlink x then some (G.up x) else none)
    (hpos : ∀ y, G.type y = T_DIR → y ≠ x → (0 < G'.nlink y ↔ 0 < G.nlink y))
    (hcount : ∀ m, (tally G'.cell m : ℤ) - tally G.cell m = G'.nlink m - G.nlink m)
    (hfree : ∀ m, G.type m = 0 → G'.nlink m = G.nlink m)
    (hremoved : ∀ e j, G'.nlink e = 0 → 2 ≤ j → G'.cell (e, j) = none)
    (hhigh : ∀ e j y, 2 ≤ j → G.type y = T_DIR → y ≠ x →
      (G'.cell (e, j) = some y ↔ G.cell (e, j) = some y))
    (hparent : G.type x = T_DIR → ∀ e j, 2 ≤ j → G'.cell (e, j) = some x →
      G.up x = e ∧ ∀ i, 2 ≤ i → G'.cell (e, i) = some x → i = j)
    (hnamed : G.type x = T_DIR → G'.nlink x ≠ 0 → ∃ j, 2 ≤ j ∧ G'.cell (G.up x, j) = some x) :
    G'.Exact := by
  have hnlink : ∀ m, G.type m ≠ 0 → G'.nlink m = tally G'.cell m := by
    intro m hm
    have := h.nlink m hm
    have := hcount m
    omega
  refine ⟨hfinite, fun e j he => hdir e j (htype ▸ he), fun e => ?_, fun e he => ?_, ?_,
    fun m hm => hnlink m (htype ▸ hm), fun m hm => ?_, hremoved, fun e j y hj hc hy => ?_,
    fun y hy hny hyroot => ?_⟩
  · rw [hlow e 0 (by decide) (by rintro ⟨⟩), h.dot]
  · rw [htype] at he
    rw [hup e he]
    by_cases hex : e = x
    · subst hex
      exact hdotdot he
    · rw [hlow e 1 (by decide) (by rintro ⟨⟩; exact hex rfl), h.dotdot e he]
      simp only [hpos e he hex]
  · rw [htype, hup _ h.root.1, hpos _ h.root.1 hroot.symm]
    exact h.root
  · rw [htype] at hm
    have := h.free m hm
    have := hcount m
    have := hfree m hm
    omega
  · rw [htype] at hy
    rw [hup y hy]
    by_cases hyx : y = x
    · subst hyx
      exact ⟨hroot, hparent hy e j hj hc⟩
    · obtain ⟨h1, h2, h3⟩ := h.parent e j y hj ((hhigh e j y hj hy hyx).mp hc) hy
      exact ⟨h1, h2, fun i hi hci => h3 i hi ((hhigh e i y hi hy hyx).mp hci)⟩
  · rw [htype] at hy
    rw [hup y hy]
    by_cases hyx : y = x
    · subst hyx
      exact hnamed hy hny
    · have hy0 : G.type y ≠ 0 := hy ▸ dir_ne_zero
      have hpos' := hpos y hy hyx
      have := hnlink y hy0
      obtain ⟨j, hj, hcj⟩ := h.named y hy (by omega) hyroot
      exact ⟨j, hj, (hhigh _ j y hj hy hyx).mpr hcj⟩

theorem ne_root (hx : G.type x ≠ T_DIR) : x ≠ ROOTINO := by
  rintro rfl
  exact hx h.root.1

theorem attach (hd : G.type d = T_DIR) (hnl : 0 < G.nlink d) (hx : G.type x ≠ T_DIR)
    (hx0 : G.type x ≠ 0) (hk : 2 ≤ k) (hc : G.cell (d, k) = none) (htype : G'.type = G.type)
    (hnlink : G'.nlink = update G.nlink x (G.nlink x + 1))
    (hcell : G'.cell = update G.cell (d, k) (some x))
    (hup : ∀ y, G.type y = T_DIR → G'.up y = G.up y) : G'.Exact := by
  have hnl' : ∀ y, y ≠ x → G'.nlink y = G.nlink y := fun y hy => by
    rw [hnlink, update_of_ne hy]
  have hcell' : ∀ p, p ≠ (d, k) → G'.cell p = G.cell p := fun p hp => by
    rw [hcell, update_of_ne hp]
  refine h.of_entries (h.ne_root hx) htype hup (hcell ▸ h.finite.update _ _) (fun e j he => ?_)
    (fun e j hj _ => ?_) (fun hx' => absurd hx' hx) (fun y _ hyx => by rw [hnl' y hyx])
    (fun m => ?_) (fun m hm => hnl' m ?_) (fun e j he hj => ?_) (fun e j y hj hy hyx => ?_)
    (fun hx' => absurd hx' hx) (fun hx' => absurd hx' hx)
  · rw [hcell' _ (by rintro ⟨⟩; exact he hd)]
    exact h.dir e j he
  · exact hcell' _ (by rintro ⟨⟩; omega)
  · rw [hcell, tally_set h.finite hc, hnlink]
    by_cases hmx : m = x
    · subst hmx
      rw [if_pos rfl, update_self]
      omega
    · rw [if_neg hmx, update_of_ne hmx]
      omega
  · rintro rfl
    exact hx0 hm
  · have hex : e ≠ x := by
      rintro rfl
      have := h.nlink_nonneg hx0
      rw [hnlink, update_self] at he
      omega
    rw [hnl' e hex] at he
    rw [hcell' _ (by rintro ⟨⟩; omega)]
    exact h.removed e j he hj
  · by_cases hp : (e, j) = (d, k)
    · rw [hp, hc, hcell, update_self]
      exact iff_of_false (fun he => hyx (Option.some.inj he).symm) (by rintro ⟨⟩)
    · rw [hcell' _ hp]

theorem detach (hx : G.type x ≠ T_DIR) (hk : 2 ≤ k) (hc : G.cell (d, k) = some x)
    (htype : G'.type = G.type) (hnlink : G'.nlink = update G.nlink x (G.nlink x - 1))
    (hcell : G'.cell = update G.cell (d, k) none)
    (hup : ∀ y, G.type y = T_DIR → G'.up y = G.up y) : G'.Exact := by
  have hnl' : ∀ y, y ≠ x → G'.nlink y = G.nlink y := fun y hy => by
    rw [hnlink, update_of_ne hy]
  have hcell' : ∀ p, p ≠ (d, k) → G'.cell p = G.cell p := fun p hp => by
    rw [hcell, update_of_ne hp]
  have hsub : ∀ p, G.cell p = none → G'.cell p = none := by
    intro p hp
    rwa [hcell' p (by rintro rfl; rw [hp] at hc; cases hc)]
  refine h.of_entries (h.ne_root hx) htype hup (hcell ▸ h.finite.update _ _)
    (fun e j he => hsub _ (h.dir e j he)) (fun e j hj _ => hcell' _ (by rintro ⟨⟩; omega))
    (fun hx' => absurd hx' hx) (fun y _ hyx => by rw [hnl' y hyx])
    (fun m => ?_) (fun m hm => hnl' m ?_) (fun e j he hj => ?_) (fun e j y hj hy hyx => ?_)
    (fun hx' => absurd hx' hx) (fun hx' => absurd hx' hx)
  · have htm := tally_clear (a := m) h.finite hc
    rw [hcell, hnlink]
    by_cases hmx : m = x
    · subst hmx
      rw [if_pos rfl] at htm
      rw [update_self]
      omega
    · rw [if_neg hmx] at htm
      rw [update_of_ne hmx]
      omega
  · rintro rfl
    exact (h.cited hc).1 hm
  · by_cases hex : e = x
    · subst hex
      exact hsub _ (h.dir e j hx)
    · rw [hnl' e hex] at he
      exact hsub _ (h.removed e j he hj)
  · by_cases hp : (e, j) = (d, k)
    · rw [hp, hc, hcell, update_self]
      exact iff_of_false (by rintro ⟨⟩) fun he => hyx (Option.some.inj he).symm
    · rw [hcell' _ hp]

theorem attachDir (hd : G.type d = T_DIR) (hnl : 0 < G.nlink d) (hx : G.type x = T_DIR)
    (hx0 : G.nlink x = 0) (hxd : G.up x = d) (hk : 2 ≤ k) (hc : G.cell (d, k) = none)
    (htype : G'.type = G.type) (hnlink : G'.nlink = update (update G.nlink x 1) d (G.nlink d + 1))
    (hcell : G'.cell = update (update G.cell (x, 1) (some d)) (d, k) (some x))
    (hup : ∀ y, G.type y = T_DIR → G'.up y = G.up y) : G'.Exact := by
  have hne : x ≠ d := by
    rintro rfl
    omega
  have hno : ∀ p, G.cell p ≠ some x := by
    refine (tally_eq_zero h.finite).mp ?_
    have := h.nlink x (hx ▸ dir_ne_zero)
    omega
  have hroot : x ≠ ROOTINO := by
    rintro rfl
    have := h.root.2.1
    omega
  have hc1 : G.cell (x, 1) = none := by
    rw [h.dotdot x hx, if_neg (by omega)]
  obtain ⟨⟨hcx, hcd, hcell'⟩, hnx, hnd, hnl'⟩ := cells_of_pair hne hnlink hcell
  have hbehind : ∀ e j, 2 ≤ j → (e, j) ≠ (x, 1) := by
    rintro e j hj ⟨⟩
    omega
  have htally : ∀ m, tally G'.cell m =
      tally G.cell m + (if m = d then 1 else 0) + if m = x then 1 else 0 := fun m => by
    rw [hcell, tally_set (h.finite.update _ _) (by rw [update_of_ne (hbehind d k hk)]; exact hc),
      tally_set h.finite hc1]
  refine h.of_entries hroot htype hup (hcell ▸ (h.finite.update _ _).update _ _) (fun e j he => ?_)
    (fun e j hj hp => hcell' _ hp (by rintro ⟨⟩; omega)) (fun _ => ?_) (fun y hy hyx => ?_)
    (fun m => ?_) (fun m hm => ?_) (fun e j he hj => ?_) (fun e j y hj hy hyx => ?_)
    (fun _ e j hj hce => ?_) fun _ _ => ⟨k, hk, hxd ▸ hcd⟩
  · rw [hcell' _ (by rintro ⟨⟩; exact he hx) (by rintro ⟨⟩; exact he hd)]
    exact h.dir e j he
  · rw [hcx, hnx, hxd, if_pos (by decide)]
  · by_cases hyd : y = d
    · subst hyd
      omega
    · rw [hnl' y hyx hyd]
  · rw [htally]
    by_cases hmx : m = x
    · subst hmx
      rw [hnx, hx0, if_neg hne, if_pos rfl]
      omega
    · by_cases hmd : m = d
      · subst hmd
        rw [hnd, if_pos rfl, if_neg hmx]
        omega
      · rw [hnl' m hmx hmd, if_neg hmd, if_neg hmx]
        omega
  · refine hnl' m ?_ ?_
    · rintro rfl
      exact dir_ne_zero (hx.symm.trans hm)
    · rintro rfl
      exact dir_ne_zero (hd.symm.trans hm)
  · have hex : e ≠ x := by
      rintro rfl
      omega
    have hed : e ≠ d := by
      rintro rfl
      omega
    rw [hnl' e hex hed] at he
    rw [hcell' _ (hbehind e j hj) (by rintro ⟨⟩; exact hed rfl)]
    exact h.removed e j he hj
  · by_cases hp : (e, j) = (d, k)
    · rw [hp, hcd, hc]
      exact iff_of_false (fun he => hyx (Option.some.inj he).symm) (by rintro ⟨⟩)
    · rw [hcell' _ (hbehind e j hj) hp]
  · -- The new entry is the only one for `x`.
    have hplace : ∀ e i, 2 ≤ i → G'.cell (e, i) = some x → (e, i) = (d, k) := by
      intro e i hi hci
      by_contra hp
      rw [hcell' _ (hbehind e i hi) hp] at hci
      exact hno _ hci
    obtain ⟨rfl, rfl⟩ := Prod.mk.inj (hplace e j hj hce)
    exact ⟨hxd, fun i hi hci => (Prod.mk.inj (hplace e i hi hci)).2⟩

theorem nlink_empty (hk : 2 ≤ k) (hc : G.cell (d, k) = some x)
    (hx : G.type x = T_DIR) (hempty : ∀ j, 2 ≤ j → G.cell (x, j) = none) : G.nlink x = 1 := by
  obtain ⟨hroot, hup, hone⟩ := h.parent d k x hk hc hx
  rw [h.nlink x (h.cited hc).1, tally_eq_one hc]
  · rfl
  rintro ⟨e, j⟩ he
  have het : G.type e = T_DIR := by
    by_contra hne
    rw [h.dir e j hne] at he
    cases he
  obtain rfl | rfl | hj : j = 0 ∨ j = 1 ∨ 2 ≤ j := by omega
  · rw [h.dot] at he
    cases he
  · -- A child has an entry in `x`, and the root is its own parent.
    rw [h.dotdot e het] at he
    split_ifs at he with hnl
    · have hex := Option.some.inj he
      by_cases her : e = ROOTINO
      · rw [her, h.root.2.2] at hex
        exact absurd hex.symm hroot
      · obtain ⟨i, hi, hci⟩ := h.named e het (by omega) her
        rw [hex, hempty i hi] at hci
        cases hci
  · obtain ⟨-, hup', -⟩ := h.parent e j x hj he hx
    obtain rfl : e = d := hup'.symm.trans hup
    rw [hone j hj he]

theorem cell_up (hk : 2 ≤ k) (hc : G.cell (d, k) = some x)
    (hx : G.type x = T_DIR) : G.cell (x, 1) = some d := by
  have hpos := (h.cited hc).2
  rw [h.dotdot x hx, if_pos (by omega), (h.parent d k x hk hc hx).2.1]

theorem two_le_nlink (hne : x ≠ d) (hk : 2 ≤ k) (hc : G.cell (d, k) = some x)
    (hx : G.type x = T_DIR) : 2 ≤ G.nlink d := by
  obtain ⟨hd, hnl⟩ := h.nlink_pos hk hc
  have hc1 := h.cell_up hk hc hx
  have htwo : 2 ≤ tally G.cell d := by
    by_cases hdr : d = ROOTINO
    · refine two_le_tally h.finite (i := (x, 1)) (j := (d, 1)) ?_ hc1 ?_
      · rintro ⟨⟩
        exact hne rfl
      · rw [h.dotdot d hd, if_pos hnl, hdr, h.root.2.2]
    · obtain ⟨j, hj, hcj⟩ := h.named d hd (by omega) hdr
      refine two_le_tally h.finite (i := (x, 1)) (j := (G.up d, j)) ?_ hc1 hcj
      rintro ⟨⟩
      omega
  have := h.nlink d (by rw [hd]; exact dir_ne_zero)
  omega

theorem detachDir (hne : x ≠ d) (hk : 2 ≤ k) (hc : G.cell (d, k) = some x)
    (hx : G.type x = T_DIR) (hempty : ∀ j, 2 ≤ j → G.cell (x, j) = none)
    (htype : G'.type = G.type)
    (hnlink : G'.nlink = update (update G.nlink x (G.nlink x - 1)) d (G.nlink d - 1))
    (hcell : G'.cell = update (update G.cell (x, 1) none) (d, k) none)
    (hup : ∀ y, G.type y = T_DIR → G'.up y = G.up y) : G'.Exact := by
  obtain ⟨hroot, hxd, hone⟩ := h.parent d k x hk hc hx
  obtain ⟨hd, hnl⟩ := h.nlink_pos hk hc
  have hx1 := h.nlink_empty hk hc hx hempty
  have hc1 := h.cell_up hk hc hx
  have hd2 := h.two_le_nlink hne hk hc hx
  obtain ⟨⟨hcx, hcd, hcell'⟩, hnx, hnd, hnl'⟩ := cells_of_pair hne hnlink hcell
  have hbehind : ∀ e j, 2 ≤ j → (e, j) ≠ (x, 1) := by
    rintro e j hj ⟨⟩
    omega
  have hsub : ∀ p, G.cell p = none → G'.cell p = none := by
    intro p hp
    rwa [hcell' p (by rintro rfl; rw [hp] at hc1; cases hc1)
      (by rintro rfl; rw [hp] at hc; cases hc)]
  have htally : ∀ m, tally G'.cell m + (if m = x then 1 else 0) + (if m = d then 1 else 0) =
      tally G.cell m := fun m => by
    have h1 := tally_clear (a := m) h.finite hc1
    have h2 := tally_clear (a := m) (h.finite.update (x, 1) none) (i := (d, k)) (b := x)
      (by rw [update_of_ne (hbehind d k hk)]; exact hc)
    rw [hcell]
    omega
  refine h.of_entries hroot htype hup (hcell ▸ (h.finite.update _ _).update _ _)
    (fun e j he => hsub _ (h.dir e j he)) (fun e j hj hp => hcell' _ hp (by rintro ⟨⟩; omega))
    (fun _ => ?_) (fun y hy hyx => ?_) (fun m => ?_) (fun m hm => ?_) (fun e j he hj => ?_)
    (fun e j y hj hy hyx => ?_) (fun _ e j hj hce => ?_) fun _ hnl' => absurd ?_ hnl'
  · rw [hcx, hnx, if_neg (by omega)]
  · by_cases hyd : y = d
    · subst hyd
      omega
    · rw [hnl' y hyx hyd]
  · have htm := htally m
    by_cases hmx : m = x
    · subst hmx
      rw [if_neg hne, if_pos rfl] at htm
      omega
    · by_cases hmd : m = d
      · subst hmd
        rw [if_pos rfl, if_neg hmx] at htm
        omega
      · rw [if_neg hmd, if_neg hmx] at htm
        rw [hnl' m hmx hmd]
        omega
  · refine hnl' m ?_ ?_
    · rintro rfl
      exact dir_ne_zero (hx.symm.trans hm)
    · rintro rfl
      exact dir_ne_zero (hd.symm.trans hm)
  · by_cases hex : e = x
    · subst hex
      exact hsub _ (hempty j hj)
    · have hed : e ≠ d := by
        rintro rfl
        omega
      rw [hnl' e hex hed] at he
      exact hsub _ (h.removed e j he hj)
  · by_cases hp : (e, j) = (d, k)
    · rw [hp, hcd, hc]
      exact iff_of_false (by rintro ⟨⟩) fun he => hyx (Option.some.inj he).symm
    · rw [hcell' _ (hbehind e j hj) hp]
  · -- The entry for `x` was the only one.
    have hp : (e, j) ≠ (d, k) := by
      rintro ⟨⟩
      rw [hcd] at hce
      cases hce
    rw [hcell' _ (hbehind e j hj) hp] at hce
    obtain ⟨-, hup', -⟩ := h.parent e j x hj hce hx
    obtain rfl : e = d := hup'.symm.trans hxd
    exact absurd (congrArg (Prod.mk e) (hone j hj hce)) hp
  · omega

end

end Exact

end Graph

end Xv6
