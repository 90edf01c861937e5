import Mathlib.Data.List.Basic
import Mathlib.Tactic.Ring
import Mathlib.Tactic.NormNum

namespace Xv6.Lib

abbrev Bytes (n : ℕ) := Fin n → UInt8

namespace Bytes

variable {n : ℕ}

/-- The byte at index `i`, zero outside the array. -/
def get (b : Bytes n) (i : ℕ) : UInt8 := if h : i < n then b ⟨i, h⟩ else 0

/-- Copy `src` into the array from offset `o` on. -/
def put (b : Bytes n) (o : ℕ) (src : List UInt8) : Bytes n := fun j =>
  if o ≤ j.val ∧ j.val < o + src.length then src.getD (j.val - o) 0 else b j

def slice (b : Bytes n) (o m : ℕ) : List UInt8 := (List.range m).map fun i => b.get (o + i)

section

variable (b : Bytes n)
include b

theorem get_of_lt {i : ℕ} (h : i < n) : b.get i = b ⟨i, h⟩ := by
  simp [get, h]

theorem get_of_le {i : ℕ} (h : n ≤ i) : b.get i = 0 := by
  simp [get, Nat.not_lt.mpr h]

theorem get_put (o : ℕ) (src : List UInt8) (i : ℕ) (hi : i < n) :
    (b.put o src).get i = if o ≤ i ∧ i < o + src.length then src.getD (i - o) 0 else b.get i := by
  simp [get, put, hi]

theorem get_put_of_lt {o i : ℕ} (src : List UInt8) (h : i < o) :
    (b.put o src).get i = b.get i := by
  by_cases hi : i < n
  · rw [get_put b o src i hi, if_neg (by omega)]
  · rw [get_of_le _ (by omega), get_of_le _ (by omega)]

theorem get_put_of_ge {o i : ℕ} (src : List UInt8) (h : o + src.length ≤ i) :
    (b.put o src).get i = b.get i := by
  by_cases hi : i < n
  · rw [get_put b o src i hi, if_neg (by omega)]
  · rw [get_of_le _ (by omega), get_of_le _ (by omega)]

theorem get_put_of_mem {o i : ℕ} (src : List UInt8) (hi : i < n)
    (h1 : o ≤ i) (h2 : i < o + src.length) : (b.put o src).get i = src.getD (i - o) 0 := by
  rw [get_put b o src i hi, if_pos ⟨h1, h2⟩]

@[simp] theorem slice_length (o m : ℕ) : (b.slice o m).length = m := by
  simp [slice]

theorem slice_put (o : ℕ) (src : List UInt8) (h : o + src.length ≤ n) :
    (b.put o src).slice o src.length = src := by
  apply List.ext_getElem (by simp)
  intro i h1 h2
  simp only [slice, List.getElem_map, List.getElem_range]
  rw [get_put_of_mem b src (by omega) (by omega) (by omega)]
  simp [h2]

theorem slice_put_of_disjoint {o o' m : ℕ} (src : List UInt8)
    (h : o' + m ≤ o ∨ o + src.length ≤ o') : (b.put o src).slice o' m = b.slice o' m := by
  apply List.map_congr_left
  intro i hi
  have him : i < m := List.mem_range.mp hi
  rcases h with h | h
  · exact get_put_of_lt b src (by omega)
  · exact get_put_of_ge b src (by omega)

end

end Bytes

def le16 (v : ℕ) : List UInt8 := [UInt8.ofNat v, UInt8.ofNat (v / 256)]

def le32 (v : ℕ) : List UInt8 :=
  [UInt8.ofNat v, UInt8.ofNat (v / 256), UInt8.ofNat (v / 65536), UInt8.ofNat (v / 16777216)]

@[simp] theorem le16_length (v : ℕ) : (le16 v).length = 2 := rfl

@[simp] theorem le32_length (v : ℕ) : (le32 v).length = 4 := rfl

def num16 (l : List UInt8) : ℕ := (l.getD 0 0).toNat + 256 * (l.getD 1 0).toNat

def num32 (l : List UInt8) : ℕ :=
  (l.getD 0 0).toNat + 256 * (l.getD 1 0).toNat + 65536 * (l.getD 2 0).toNat +
    16777216 * (l.getD 3 0).toNat

theorem num16_le16 (v : ℕ) (l : List UInt8) : num16 (le16 v ++ l) = v % 65536 := by
  simp only [num16, le16, List.cons_append, List.nil_append, List.getD_cons_zero,
    List.getD_cons_succ, UInt8.toNat_ofNat']
  omega

theorem num32_le32 (v : ℕ) (l : List UInt8) : num32 (le32 v ++ l) = v % 4294967296 := by
  simp only [num32, le32, List.cons_append, List.nil_append, List.getD_cons_zero,
    List.getD_cons_succ, UInt8.toNat_ofNat']
  omega

theorem num32_lt (l : List UInt8) : num32 l < 4294967296 := by
  have h (x : UInt8) : x.toNat < 256 := x.toNat_lt
  have h0 := h (l.getD 0 0)
  have h1 := h (l.getD 1 0)
  have h2 := h (l.getD 2 0)
  have h3 := h (l.getD 3 0)
  unfold num32
  omega

namespace Bytes

variable {n : ℕ}

def get32 (b : Bytes n) (o : ℕ) : ℕ := num32 (b.slice o 4)

def put32 (b : Bytes n) (o v : ℕ) : Bytes n := b.put o (le32 v)

theorem get32_put32_mod (b : Bytes n) {o v : ℕ} (h : o + 4 ≤ n) :
    (b.put32 o v).get32 o = v % 4294967296 := by
  have hs : (b.put o (le32 v)).slice o 4 = le32 v := slice_put b o (le32 v) h
  have hn := num32_le32 v []
  rw [List.append_nil] at hn
  rw [get32, put32, hs, hn]

theorem get32_put32 (b : Bytes n) {o v : ℕ} (h : o + 4 ≤ n) (hv : v < 4294967296) :
    (b.put32 o v).get32 o = v := by
  rw [get32_put32_mod b h, Nat.mod_eq_of_lt hv]

theorem get32_put_of_disjoint (b : Bytes n) {o o' : ℕ} (src : List UInt8)
    (h : o' + 4 ≤ o ∨ o + src.length ≤ o') : (b.put o src).get32 o' = b.get32 o' := by
  rw [get32, slice_put_of_disjoint b src h, get32]

theorem get32_put32_of_disjoint (b : Bytes n) {o o' v : ℕ} (h : o' + 4 ≤ o ∨ o + 4 ≤ o') :
    (b.put32 o v).get32 o' = b.get32 o' :=
  get32_put_of_disjoint b (le32 v) h

theorem get32_lt (b : Bytes n) (o : ℕ) : b.get32 o < 4294967296 := num32_lt _

end Bytes

end Xv6.Lib
