import Mathlib.Algebra.BigOperators.Group.List.Basic
import Mathlib.Algebra.GroupWithZero.Nat

namespace Xv6.Lib

structure Extent where
  addr : ℕ
  size : ℕ
  deriving DecidableEq

namespace Extent

variable {w : ℕ} {e f : Extent} {l : List Extent} {x : ℕ}

def stop (w : ℕ) (e : Extent) : ℕ := e.addr + w * e.size

def Has (w : ℕ) (e : Extent) (x : ℕ) : Prop := e.addr ≤ x ∧ x < e.stop w

def Covers (w : ℕ) (l : List Extent) (x : ℕ) : Prop := ∃ e ∈ l, e.Has w x

def units (l : List Extent) : ℕ := (l.map size).sum

def Gapped (w : ℕ) (l : List Extent) : Prop := l.Pairwise fun e f => e.stop w < f.addr

def Apart (w : ℕ) (e f : Extent) : Prop := e.stop w ≤ f.addr ∨ f.stop w ≤ e.addr

def join (w : ℕ) (e : Extent) : List Extent → List Extent
  | [] => [e]
  | f :: l => if e.stop w = f.addr then ⟨e.addr, e.size + f.size⟩ :: l else e :: f :: l

theorem covers_cons : Covers w (e :: l) x ↔ e.Has w x ∨ Covers w l x := by simp [Covers]

theorem covers_append {l' : List Extent} :
    Covers w (l ++ l') x ↔ Covers w l x ∨ Covers w l' x := by
  simp [Covers, or_and_right, exists_or]

theorem units_cons : units (e :: l) = e.size + units l := by simp [units]

theorem units_append {l' : List Extent} : units (l ++ l') = units l + units l' := by simp [units]

theorem Apart.symm (h : e.Apart w f) : f.Apart w e := Or.symm h

theorem apart_of_disjoint (hw : 0 < w) (he : 0 < e.size) (hf : 0 < f.size)
    (h : ∀ x, e.Has w x → ¬ f.Has w x) : e.Apart w f := by
  have h1 : 0 < w * e.size := Nat.mul_pos hw he
  have h2 : 0 < w * f.size := Nat.mul_pos hw hf
  unfold Has stop at h
  unfold Apart stop
  by_contra hno
  by_cases hle : e.addr ≤ f.addr
  · exact h f.addr ⟨hle, by omega⟩ ⟨Nat.le_refl _, by omega⟩
  · exact h e.addr ⟨Nat.le_refl _, by omega⟩ ⟨by omega, by omega⟩

theorem Apart.disjoint (h : e.Apart w f) (he : e.Has w x) : ¬ f.Has w x := by
  unfold Apart at h
  unfold Has at *
  omega

theorem exists_place {a : ℕ} (h : (e :: l).Pairwise fun e f => e.addr < f.addr) (he : e.addr < a) :
    ∃ pre p post, e :: l = pre ++ p :: post ∧ (∀ f ∈ pre, f.addr < p.addr) ∧ p.addr < a ∧
      ∀ f ∈ post, a ≤ f.addr := by
  induction l generalizing e with
  | nil => exact ⟨[], e, [], rfl, nofun, he, nofun⟩
  | cons f l ih =>
    obtain ⟨hef, hfl⟩ := List.pairwise_cons.mp h
    by_cases hf : f.addr < a
    · obtain ⟨pre, p, post, heq, hpre, hp, hpost⟩ := ih hfl hf
      refine ⟨e :: pre, p, post, by rw [heq, List.cons_append], fun g hg => ?_, hp, hpost⟩
      rcases List.mem_cons.mp hg with rfl | hg
      · exact hef p (by rw [heq]; exact List.mem_append_right pre List.mem_cons_self)
      · exact hpre g hg
    · refine ⟨[], e, f :: l, rfl, nofun, he, fun g hg => ?_⟩
      rcases List.mem_cons.mp hg with rfl | hg
      · omega
      · have := (List.pairwise_cons.mp hfl).1 g hg
        omega

theorem units_join : units (join w e l) = e.size + units l := by
  cases l with
  | nil => rfl
  | cons f l =>
    rw [join]
    split_ifs
    · rw [units_cons, units_cons, Nat.add_assoc]
    · rw [units_cons]

theorem has_merge (h : e.stop w = f.addr) :
    Has w ⟨e.addr, e.size + f.size⟩ x ↔ e.Has w x ∨ f.Has w x := by
  unfold Has stop at *
  simp only [Nat.mul_add]
  omega

theorem covers_join : Covers w (join w e l) x ↔ e.Has w x ∨ Covers w l x := by
  cases l with
  | nil => simp [join, Covers]
  | cons f l =>
    rw [join]
    split_ifs with h
    · rw [covers_cons, covers_cons, has_merge h, or_assoc]
    · rw [covers_cons]

theorem join_eq (w : ℕ) (e : Extent) (l : List Extent) :
    ∃ size rest, join w e l = ⟨e.addr, size⟩ :: rest ∧ e.size ≤ size ∧ ∀ f ∈ rest, f ∈ l := by
  cases l with
  | nil => exact ⟨e.size, [], rfl, Nat.le_refl _, fun _ hf => hf⟩
  | cons f l =>
    rw [join]
    split_ifs
    · exact ⟨_, l, rfl, Nat.le_add_right _ _, fun _ => List.mem_cons_of_mem f⟩
    · exact ⟨e.size, f :: l, rfl, Nat.le_refl _, fun _ hf => hf⟩

theorem Gapped.join (h : Gapped w l) (he : ∀ f ∈ l, e.stop w ≤ f.addr) :
    Gapped w (Extent.join w e l) := by
  cases l with
  | nil => exact List.pairwise_singleton _ _
  | cons f l =>
    obtain ⟨hf, hl⟩ := List.pairwise_cons.mp h
    have hef := he f List.mem_cons_self
    rw [Extent.join]
    split_ifs with hstop
    · refine List.pairwise_cons.mpr ⟨fun g hg => ?_, hl⟩
      have := hf g hg
      unfold stop at *
      simp only [Nat.mul_add]
      omega
    · refine List.pairwise_cons.mpr ⟨fun g hg => ?_, h⟩
      rcases List.mem_cons.mp hg with rfl | hg
      · omega
      · have := hf g hg
        unfold stop at *
        omega

theorem pos_join (he : 0 < e.size) (hl : ∀ f ∈ l, 0 < f.size) : ∀ f ∈ join w e l, 0 < f.size := by
  obtain ⟨size, rest, heq, hsize, hrest⟩ := join_eq w e l
  intro f hf
  rw [heq] at hf
  rcases List.mem_cons.mp hf with rfl | hf
  · exact Nat.lt_of_lt_of_le he hsize
  · exact hl f (hrest f hf)

theorem le_addr_of_join {a : ℕ} (he : a ≤ e.addr) (hl : ∀ f ∈ l, a ≤ f.addr) :
    ∀ f ∈ join w e l, a ≤ f.addr := by
  obtain ⟨size, rest, heq, -, hrest⟩ := join_eq w e l
  intro f hf
  rw [heq] at hf
  rcases List.mem_cons.mp hf with rfl | hf
  · exact he
  · exact hl f (hrest f hf)

theorem stop_lt_of_join {a : ℕ} (he : e.stop w < a) (hl : ∀ f ∈ l, f.stop w < a) :
    ∀ f ∈ join w e l, f.stop w < a := by
  intro f hf
  cases l with
  | nil =>
    rw [List.mem_singleton.mp hf]
    exact he
  | cons g l =>
    rw [join] at hf
    split_ifs at hf with hstop
    · rcases List.mem_cons.mp hf with rfl | hf
      · have hg := hl g List.mem_cons_self
        unfold stop at *
        simp only [Nat.mul_add]
        omega
      · exact hl f (List.mem_cons_of_mem g hf)
    · rcases List.mem_cons.mp hf with rfl | hf
      · exact he
      · exact hl f hf

section Insert

variable {pre post : List Extent} {p b : Extent}

theorem covers_insert : Covers w (pre ++ join w p (join w b post)) x ↔
    Covers w (pre ++ p :: post) x ∨ b.Has w x := by
  rw [covers_append, covers_join, covers_join, covers_append, covers_cons]
  tauto

theorem units_insert :
    units (pre ++ join w p (join w b post)) = units (pre ++ p :: post) + b.size := by
  rw [units_append, units_join, units_join, units_append, units_cons]
  omega

theorem Gapped.insert (h : Gapped w (pre ++ p :: post)) (hp : p.stop w ≤ b.addr)
    (hb : ∀ f ∈ post, b.stop w ≤ f.addr) :
    Gapped w (pre ++ Extent.join w p (Extent.join w b post)) := by
  obtain ⟨hpre, hpost, hcross⟩ := List.pairwise_append.mp h
  have hbp : b.addr ≤ b.stop w := Nat.le_add_right _ _
  have hpp : p.addr ≤ p.stop w := Nat.le_add_right _ _
  have hbpost : ∀ f ∈ post, b.addr ≤ f.addr := fun f hf => Nat.le_trans hbp (hb f hf)
  have hstop : ∀ f ∈ Extent.join w b post, p.stop w ≤ f.addr :=
    le_addr_of_join hp fun f hf => Nat.le_trans hp (hbpost f hf)
  refine List.pairwise_append.mpr ⟨hpre, ?_, fun e he f hf => ?_⟩
  · exact Gapped.join (Gapped.join (List.pairwise_cons.mp hpost).2 hb) hstop
  · have hle := le_addr_of_join (Nat.le_refl p.addr)
      (fun f hf => Nat.le_trans hpp (hstop f hf)) f hf
    exact Nat.lt_of_lt_of_le (hcross e he p List.mem_cons_self) hle

theorem exists_mem_insert (w : ℕ) (pre post : List Extent) (p b : Extent) :
    ∃ e ∈ pre ++ join w p (join w b post), b.size ≤ e.size := by
  obtain ⟨size, rest, heq, hsize, -⟩ := join_eq w b post
  rw [heq, join]
  split_ifs
  · exact ⟨⟨p.addr, p.size + size⟩, List.mem_append_right pre List.mem_cons_self,
      Nat.le_trans hsize (Nat.le_add_left _ _)⟩
  · exact ⟨⟨b.addr, size⟩, List.mem_append_right pre (List.mem_cons_of_mem p List.mem_cons_self),
      hsize⟩

end Insert

section Cut

variable {a c : List Extent} {n : ℕ}

def back (w n : ℕ) (e : Extent) : Extent := ⟨e.addr + w * (e.size - n), n⟩

/-- What is left in front of the last `n` units. -/
def front (n : ℕ) (e : Extent) : List Extent :=
  if e.size = n then [] else [⟨e.addr, e.size - n⟩]

theorem stop_back (hn : n ≤ e.size) : (back w n e).stop w = e.stop w := by
  simp only [back, stop]
  rw [Nat.add_assoc, ← Nat.mul_add, Nat.sub_add_cancel hn]

theorem mem_front {f : Extent} (hf : f ∈ front n e) (hn : n ≤ e.size) :
    f.addr = e.addr ∧ f.stop w = (back w n e).addr ∧ 0 < f.size := by
  unfold front at hf
  split_ifs at hf with hsize
  · cases hf
  · obtain rfl := List.mem_singleton.mp hf
    exact ⟨rfl, rfl, Nat.sub_pos_of_lt (by omega)⟩

theorem units_front (hn : n ≤ e.size) : units (front n e) + n = e.size := by
  unfold front
  split_ifs with hsize
  · exact (Nat.zero_add n).trans hsize.symm
  · exact Nat.sub_add_cancel hn

theorem covers_front (hn : n ≤ e.size) :
    Covers w (front n e) x ∨ (back w n e).Has w x ↔ e.Has w x := by
  unfold front
  split_ifs with hsize
  · have hback : back w n e = e := by
      rw [back, ← hsize, Nat.sub_self, Nat.mul_zero, Nat.add_zero]
    rw [hback]
    simp [Covers]
  · have hmerge := has_merge (e := ⟨e.addr, e.size - n⟩) (f := back w n e) (x := x)
      (rfl : stop w ⟨e.addr, e.size - n⟩ = (back w n e).addr)
    have hsum : e.size - n + (back w n e).size = e.size := Nat.sub_add_cancel hn
    rw [hsum] at hmerge
    rw [hmerge, covers_cons]
    simp [Covers]

theorem front_apart (hn : n ≤ e.size) (hx : Covers w (front n e) x) : ¬ (back w n e).Has w x := by
  obtain ⟨f, hf, hfx⟩ := hx
  exact Apart.disjoint (.inl (Nat.le_of_eq (mem_front hf hn).2.1)) hfx

theorem Gapped.front (h : Gapped w (a ++ e :: c)) (hn : n ≤ e.size) :
    Gapped w (a ++ (front n e ++ c)) := by
  obtain ⟨ha, hec, hcross⟩ := List.pairwise_append.mp h
  obtain ⟨hec, hc⟩ := List.pairwise_cons.mp hec
  refine List.pairwise_append.mpr ⟨ha, List.pairwise_append.mpr ⟨?_, hc, ?_⟩, ?_⟩
  · unfold Extent.front
    split_ifs
    · exact List.Pairwise.nil
    · exact List.pairwise_singleton _ _
  · intro f hf g hg
    have hstop : f.stop w ≤ e.stop w := by
      rw [(mem_front (w := w) hf hn).2.1, ← stop_back hn]
      exact Nat.le_add_right _ _
    exact Nat.lt_of_le_of_lt hstop (hec g hg)
  · intro f hf g hg
    rcases List.mem_append.mp hg with hg | hg
    · rw [(mem_front (w := w) hg hn).1]
      exact hcross f hf e List.mem_cons_self
    · exact hcross f hf g (List.mem_cons_of_mem e hg)

end Cut

end Extent

end Xv6.Lib
