import Xv6.User.Grep

namespace Xv6.Grep

inductive Item where
  /-- Any number of a character, or of any characters if it is a dot. -/
  | many (c : UInt8)
  | any
  | char (c : UInt8)
  /-- The end of the text. -/
  | stop
  deriving DecidableEq

def single (c : UInt8) : Item := if c = dot then .any else .char c

def items : List UInt8 → List Item
  | [] => []
  | [c] => if c = dollar then [.stop] else [single c]
  | c :: d :: re => if d = star then .many c :: items re else single c :: items (d :: re)

/-- The item stands for `w`, with `rest` behind it. -/
def Item.Means (w rest : List UInt8) : Item → Prop
  | many c => ∀ x ∈ w, x = c ∨ c = dot
  | any => ∃ x, w = [x]
  | char c => w = [c]
  | stop => w = [] ∧ rest = []

/-- The items together stand for `w`. -/
def Means : List Item → List UInt8 → List UInt8 → Prop
  | [], w, _ => w = []
  | i :: is, w, rest => ∃ u v, w = u ++ v ∧ i.Means u (v ++ rest) ∧ Means is v rest

def Begins (is : List Item) (text : List UInt8) : Prop :=
  ∃ w rest, text = w ++ rest ∧ Means is w rest

section

variable {is : List Item} {text : List UInt8} {c : UInt8}

theorem begins_nil (text : List UInt8) : Begins [] text := ⟨[], text, rfl, rfl⟩

theorem begins_cons {i : Item} :
    Begins (i :: is) text ↔ ∃ u t, text = u ++ t ∧ i.Means u t ∧ Begins is t := by
  constructor
  · rintro ⟨w, rest, rfl, u, v, rfl, hi, his⟩
    exact ⟨u, v ++ rest, List.append_assoc u v rest, hi, v, rest, rfl, his⟩
  · rintro ⟨u, t, rfl, hi, v, rest, rfl, his⟩
    exact ⟨u ++ v, rest, (List.append_assoc u v rest).symm, u, v, rfl, hi, his⟩

theorem single_means {w rest : List UInt8} :
    (single c).Means w rest ↔ ∃ x, w = [x] ∧ (c = dot ∨ c = x) := by
  unfold single
  split_ifs with h
  · exact ⟨fun ⟨x, hx⟩ => ⟨x, hx, .inl h⟩, fun ⟨x, hx, _⟩ => ⟨x, hx⟩⟩
  · constructor
    · intro hw
      exact ⟨c, hw, .inr rfl⟩
    · rintro ⟨x, rfl, hc | rfl⟩
      · exact absurd hc h
      · rfl

theorem begins_single : Begins (single c :: is) text ↔
    ∃ x t, text = x :: t ∧ (c = dot ∨ c = x) ∧ Begins is t := by
  rw [begins_cons]
  constructor
  · rintro ⟨u, t, rfl, hu, his⟩
    obtain ⟨x, rfl, hx⟩ := single_means.mp hu
    exact ⟨x, t, rfl, hx, his⟩
  · rintro ⟨x, t, rfl, hx, his⟩
    exact ⟨[x], t, rfl, single_means.mpr ⟨x, rfl, hx⟩, his⟩

/-- `matchstar` finds a number of characters after which the rest of the pattern matches. -/
theorem matchstar_iff (f : List UInt8 → Bool) (c : UInt8) (text : List UInt8) :
    matchstar f c text = true ↔
      ∃ u t, text = u ++ t ∧ (∀ x ∈ u, x = c ∨ c = dot) ∧ f t = true := by
  induction text with
  | nil =>
    constructor
    · intro h
      exact ⟨[], [], rfl, nofun, h⟩
    · rintro ⟨u, t, heq, -, ht⟩
      obtain ⟨rfl, rfl⟩ := List.append_eq_nil_iff.mp heq.symm
      exact ht
  | cons y text ih =>
    rw [matchstar, Bool.or_eq_true, Bool.and_eq_true, ih, Bool.or_eq_true, decide_eq_true_iff,
      decide_eq_true_iff]
    constructor
    · rintro (h | ⟨hy, u, t, rfl, hu, ht⟩)
      · exact ⟨[], y :: text, rfl, nofun, h⟩
      · refine ⟨y :: u, t, rfl, fun x hx => ?_, ht⟩
        rcases List.mem_cons.mp hx with rfl | hx
        · exact hy
        · exact hu x hx
    · rintro ⟨u, t, heq, hu, ht⟩
      cases u with
      | nil =>
        obtain rfl : y :: text = t := heq
        exact .inl ht
      | cons x u =>
        cases heq
        exact .inr ⟨hu y List.mem_cons_self, u, t, rfl,
          fun x hx => hu x (List.mem_cons_of_mem y hx), ht⟩

theorem begins_stop : Begins [.stop] text ↔ text = [] := by
  rw [begins_cons]
  constructor
  · rintro ⟨u, t, rfl, ⟨rfl, rfl⟩, -⟩
    rfl
  · rintro rfl
    exact ⟨[], [], rfl, ⟨rfl, rfl⟩, begins_nil []⟩

theorem matchhere_stop : matchhere [dollar] text = text.isEmpty := if_pos rfl

theorem matchhere_char_nil (hc : c ≠ dollar) : matchhere [c] [] = false := if_neg hc

theorem matchhere_char_cons (hc : c ≠ dollar) {y : UInt8} :
    matchhere [c] (y :: text) = (c = dot || c = y) := if_neg hc

theorem matchhere_many {re : List UInt8} :
    matchhere (c :: star :: re) text = matchstar (matchhere re) c text := if_pos rfl

theorem matchhere_next_nil {re : List UInt8} {d : UInt8} (hd : d ≠ star) :
    matchhere (c :: d :: re) [] = false := if_neg hd

theorem matchhere_next_cons {re : List UInt8} {d y : UInt8} (hd : d ≠ star) :
    matchhere (c :: d :: re) (y :: text) = ((c = dot || c = y) && matchhere (d :: re) text) :=
  if_neg hd

theorem matchhere_iff (re text : List UInt8) :
    matchhere re text = true ↔ Begins (items re) text := by
  induction re using items.induct generalizing text with
  | case1 =>
    rw [matchhere, items]
    exact ⟨fun _ => begins_nil text, fun _ => rfl⟩
  | case2 => rw [matchhere_stop, items, if_pos rfl, begins_stop, List.isEmpty_iff]
  | case3 c hc =>
    rw [items, if_neg hc, begins_single]
    cases text with
    | nil =>
      rw [matchhere_char_nil hc]
      exact ⟨nofun, nofun⟩
    | cons y text =>
      rw [matchhere_char_cons hc, Bool.or_eq_true, decide_eq_true_iff, decide_eq_true_iff]
      constructor
      · intro hy
        exact ⟨y, text, rfl, hy, begins_nil text⟩
      · rintro ⟨x, t, heq, hx, -⟩
        obtain ⟨rfl, -⟩ := List.cons.inj heq
        exact hx
  | case4 c re ih =>
    rw [matchhere_many, items, if_pos rfl, matchstar_iff, begins_cons]
    simp only [ih]
    rfl
  | case5 c d re hd ih =>
    rw [items, if_neg hd, begins_single]
    cases text with
    | nil =>
      rw [matchhere_next_nil hd]
      exact ⟨nofun, nofun⟩
    | cons y text =>
      rw [matchhere_next_cons hd, Bool.and_eq_true, Bool.or_eq_true, decide_eq_true_iff,
        decide_eq_true_iff, ih]
      constructor
      · rintro ⟨hy, hre⟩
        exact ⟨y, text, rfl, hy, hre⟩
      · rintro ⟨x, t, heq, hx, ht⟩
        cases heq
        exact ⟨hx, ht⟩

/-- The loop of `match` tries the text and what is left of it after each character. -/
theorem matchAnywhere_iff (re text : List UInt8) :
    matchAnywhere re text = true ↔ ∃ pre t, text = pre ++ t ∧ Begins (items re) t := by
  induction text with
  | nil =>
    rw [matchAnywhere, matchhere_iff]
    constructor
    · intro h
      exact ⟨[], [], rfl, h⟩
    · rintro ⟨pre, t, heq, ht⟩
      obtain ⟨rfl, rfl⟩ := List.append_eq_nil_iff.mp heq.symm
      exact ht
  | cons y text ih =>
    rw [matchAnywhere, Bool.or_eq_true, matchhere_iff, ih]
    constructor
    · rintro (h | ⟨pre, t, rfl, ht⟩)
      · exact ⟨[], y :: text, rfl, h⟩
      · exact ⟨y :: pre, t, rfl, ht⟩
    · rintro ⟨pre, t, heq, ht⟩
      cases pre with
      | nil =>
        obtain rfl : y :: text = t := heq
        exact .inl ht
      | cons x pre =>
        cases heq
        exact .inr ⟨pre, t, rfl, ht⟩

/-- `match` finds out whether the text has a piece that the pattern stands for, at its beginning if
the pattern begins with `^`. -/
theorem match_language (re text : List UInt8) :
    matchText re text = true ↔
      if re.head? = some caret then ∃ w rest, text = w ++ rest ∧ Means (items re.tail) w rest
      else ∃ pre w rest, text = pre ++ (w ++ rest) ∧ Means (items re) w rest := by
  have hany : matchAnywhere re text = true ↔
      ∃ pre w rest, text = pre ++ (w ++ rest) ∧ Means (items re) w rest := by
    rw [matchAnywhere_iff]
    constructor
    · rintro ⟨pre, t, rfl, w, rest, rfl, h⟩
      exact ⟨pre, w, rest, rfl, h⟩
    · rintro ⟨pre, w, rest, rfl, h⟩
      exact ⟨pre, w ++ rest, rfl, w, rest, rfl, h⟩
  cases re with
  | nil => exact hany
  | cons c re =>
    rw [matchText]
    by_cases hc : c = caret
    · rw [if_pos hc, if_pos (by rw [hc]; rfl)]
      exact matchhere_iff re text
    · have hhead : (c :: re).head? ≠ some caret := fun h => hc (Option.some.inj h)
      rw [if_neg hc, if_neg hhead]
      exact hany

/-- `a$*.` on `xab`: the dollar is a character here, and there is none of it. -/
example : matchText [97, dollar, star, dot] [120, 97, 98] = true := by decide

end

end Xv6.Grep
