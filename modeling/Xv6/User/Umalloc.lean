import Xv6.Lib.Bytes
import Xv6.Lib.Links
import Xv6.Lib.Extents

namespace Xv6.Umalloc
open Lib

abbrev Mem := Bytes (2 ^ 32)

def ptr (m : Mem) (p : ℕ) : ℕ := m.get32 p

def size (m : Mem) (p : ℕ) : ℕ := m.get32 (p + 4)

def setPtr (m : Mem) (p v : ℕ) : Mem := m.put32 p v

def setSize (m : Mem) (p v : ℕ) : Mem := m.put32 (p + 4) v

/-- `sizeof(Header)` -/
def HEADER : ℕ := 8

/-- `p + n` for a pointer to headers. -/
def hadd (p n : ℕ) : ℕ := (p + HEADER * n) % 2 ^ 32

/-- The static variables of `umalloc.c` live in `mem` and `freep`; the kernel has given the process
the `regions`, in `calls` calls of `sbrk`. -/
structure Heap where
  mem : Mem
  freep : ℕ
  calls : ℕ
  regions : List Extent

/-- What `sbrk` answers to its call number `t` for `k` bytes; `none` is -1. -/
abbrev Sbrk := ℕ → List Extent → ℕ → Option ℕ

def freeLoop (m : Mem) (bp : ℕ) : ℕ → ℕ → Option ℕ
  | 0, _ => none
  | k + 1, p =>
    if bp > p ∧ bp < ptr m p then some p
    else if p ≥ ptr m p ∧ (bp > p ∨ bp < ptr m p) then some p
    else freeLoop m bp k (ptr m p)

def free (k ap : ℕ) (h : Heap) : Option Heap := do
  let bp := (ap + (2 ^ 32 - HEADER)) % 2 ^ 32
  let p ← freeLoop h.mem bp k h.freep
  let m := h.mem
  let m :=
    if hadd bp (size m bp) = ptr m p then
      let m := setSize m bp (size m bp + size m (ptr m p))
      setPtr m bp (ptr m (ptr m p))
    else setPtr m bp (ptr m p)
  let m :=
    if hadd p (size m p) = bp then
      let m := setSize m p (size m p + size m bp)
      setPtr m p (ptr m bp)
    else setPtr m p bp
  return { h with mem := m, freep := p }

/-- `morecore`; the result 0 is a null pointer. -/
def morecore (sbrk : Sbrk) (k nu : ℕ) (h : Heap) : Option (ℕ × Heap) :=
  let nu := if nu < 4096 then 4096 else nu
  let bytes := nu * HEADER % 2 ^ 32
  match sbrk h.calls h.regions bytes with
  | none => some (0, { h with calls := h.calls + 1 })
  | some p => do
    let h := { h with calls := h.calls + 1, regions := ⟨p, bytes⟩ :: h.regions }
    let h := { h with mem := setSize h.mem p nu }
    let h ← free k (hadd p 1) h
    return (h.freep, h)

def mallocLoop (sbrk : Sbrk) (nunits : ℕ) : ℕ → ℕ → ℕ → Heap → Option (ℕ × Heap)
  | 0, _, _, _ => none
  | k + 1, prevp, p, h =>
    if size h.mem p ≥ nunits then
      if size h.mem p = nunits then
        some (hadd p 1, { h with mem := setPtr h.mem prevp (ptr h.mem p), freep := prevp })
      else
        let m := setSize h.mem p (size h.mem p - nunits)
        let p := hadd p (size m p)
        let m := setSize m p nunits
        some (hadd p 1, { h with mem := m, freep := prevp })
    else if p = h.freep then do
      let (p, h) ← morecore sbrk k nunits h
      if p = 0 then return (0, h)
      else mallocLoop sbrk nunits k p (ptr h.mem p) h
    else mallocLoop sbrk nunits k p (ptr h.mem p) h

/-- The number of units for `nbytes` bytes and a header. -/
def unitsFor (nbytes : ℕ) : ℕ := (nbytes + HEADER - 1) % 2 ^ 32 / HEADER + 1

/-- `malloc`; `base` is the address of the static header. -/
def malloc (sbrk : Sbrk) (base k nbytes : ℕ) (h : Heap) : Option (ℕ × Heap) :=
  let nunits := unitsFor nbytes
  let h :=
    if h.freep = 0 then { h with mem := setSize (setPtr h.mem base base) base 0, freep := base }
    else h
  mallocLoop sbrk nunits k h.freep (ptr h.mem h.freep) h

end Xv6.Umalloc
