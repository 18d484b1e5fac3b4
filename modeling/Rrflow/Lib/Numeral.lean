import Mathlib

/-!
Digits behind the point.

A list of digits is read as a fraction below one. Zeros behind the digits do not change it,
and fractions are ordered as their digits are at the first place where they differ.
-/

namespace Numeral

open List

variable {b : Nat}

/-- The number with some digits, the most significant one first. -/
def value (digits : List (Fin b)) : Nat := Nat.ofDigits b (digits.reverse.map Fin.val)

def fraction : List (Fin b) → ℚ
  | [] => 0
  | digit :: rest => (digit.val + fraction rest) / b

variable [NeZero b] {digits others : List (Fin b)}

theorem base_pos : (0 : ℚ) < b := Nat.cast_pos.mpr (Nat.pos_of_neZero b)

theorem fraction_mem (digits : List (Fin b)) : 0 ≤ fraction digits ∧ fraction digits < 1 := by
  induction digits with
  | nil => exact ⟨le_refl _, zero_lt_one⟩
  | cons digit rest ih =>
    have hdigit : (digit.val : ℚ) + 1 ≤ b := by exact_mod_cast digit.isLt
    rw [fraction, div_lt_one base_pos]
    exact ⟨div_nonneg (add_nonneg (Nat.cast_nonneg _) ih.1) base_pos.le, by linarith [ih.2]⟩

theorem fraction_eq (digits : List (Fin b)) :
    fraction digits * b ^ digits.length = value digits := by
  induction digits with
  | nil => simp [fraction, value]
  | cons digit rest ih =>
    rw [fraction, length_cons, pow_succ', div_mul_eq_mul_div, mul_left_comm,
      mul_div_cancel_left₀ _ base_pos.ne', add_mul, ih]
    simp [value, Nat.ofDigits_append, add_comm, mul_comm]

theorem fraction_dropWhile (digits : List (Fin b)) :
    fraction (digits.dropWhile (· = 0)) * b ^ (digits.dropWhile (· = 0)).length =
      fraction digits * b ^ digits.length := by
  induction digits with
  | nil => rfl
  | cons digit rest ih =>
    rw [dropWhile_cons]
    split
    · next hzero =>
      rw [ih, fraction, of_decide_eq_true hzero, Fin.val_zero, Nat.cast_zero, zero_add,
        length_cons, pow_succ', ← mul_assoc, div_mul_cancel₀ _ base_pos.ne']
    · rfl

theorem fraction_concat_zero (digits : List (Fin b)) : fraction (digits ++ [0]) = fraction digits := by
  induction digits with
  | nil => simp [fraction]
  | cons digit rest ih => rw [cons_append, fraction, ih, fraction]

theorem fraction_rdropWhile (digits : List (Fin b)) :
    fraction (digits.rdropWhile (· = 0)) = fraction digits := by
  induction digits using List.reverseRecOn with
  | nil => rfl
  | append_singleton digits digit ih =>
    by_cases hzero : digit = 0
    · rw [rdropWhile_concat_pos _ _ _ (by simpa using hzero), ih, hzero, fraction_concat_zero]
    · rw [rdropWhile_concat_neg _ _ _ (by simpa using hzero)]

/-- A fraction without a leading zero is not below the first place. -/
theorem le_fraction {digit : Fin b} {rest : List (Fin b)} (h : digit ≠ 0) :
    1 / (b : ℚ) ≤ fraction (digit :: rest) := by
  have hdigit : (1 : ℚ) ≤ digit.val := by
    exact_mod_cast Nat.one_le_iff_ne_zero.mpr (Fin.val_ne_zero_iff.mpr h)
  exact div_le_div_of_nonneg_right (by linarith [(fraction_mem rest).1]) base_pos.le

theorem fraction_head_tail (digits : List (Fin b)) :
    fraction digits = ((digits.headD 0).val + fraction digits.tail) / b := by
  cases digits <;> simp [fraction]

theorem compare_fractions {d e : Fin b} {x y : ℚ} (hx : 0 ≤ x ∧ x < 1) (hy : 0 ≤ y ∧ y < 1) :
    compare ((d.val + x) / b) ((e.val + y) / b) = (compare d e).then (compare x y) := by
  rcases lt_trichotomy d e with hlt | rfl | hgt
  · have hstep : (d.val : ℚ) + 1 ≤ e.val := by exact_mod_cast hlt
    rw [compare_lt_iff_lt.mpr hlt, Ordering.lt_then, compare_lt_iff_lt]
    exact div_lt_div_of_pos_right (by linarith [hx.2, hy.1]) base_pos
  · rw [compare_eq_iff_eq.mpr rfl, Ordering.eq_then, ← cmp_eq_compare, ← cmp_eq_compare,
      div_eq_mul_inv, div_eq_mul_inv, cmp_mul_pos_right (inv_pos.mpr base_pos), cmp_add_left]
  · have hstep : (e.val : ℚ) + 1 ≤ d.val := by exact_mod_cast hgt
    rw [compare_gt_iff_gt.mpr hgt, Ordering.gt_then, compare_gt_iff_gt]
    exact div_lt_div_of_pos_right (by linarith [hy.2, hx.1]) base_pos

/-- What the first of some comparisons says that tells a difference. -/
def firstDifference (orders : List Ordering) : Ordering := (orders.find? (· ≠ .eq)).getD .eq

theorem firstDifference_cons (order : Ordering) (orders : List Ordering) :
    firstDifference (order :: orders) = order.then (firstDifference orders) := by
  cases order <;> rfl

theorem firstDifference_digits {n : Nat} (h : digits.length ≤ n) (h' : others.length ≤ n) :
    firstDifference ((List.range n).map fun i => compare (digits.getD i 0) (others.getD i 0)) =
      compare (fraction digits) (fraction others) := by
  induction n generalizing digits others with
  | zero =>
    rw [length_eq_zero_iff.mp (Nat.le_zero.mp h), length_eq_zero_iff.mp (Nat.le_zero.mp h')]
    exact (compare_eq_iff_eq.mpr rfl).symm
  | succ n ih =>
    have hhead (l : List (Fin b)) : l.getD 0 0 = l.headD 0 := by cases l <;> rfl
    have htail (l : List (Fin b)) (i : Nat) : l.getD (i + 1) 0 = l.tail.getD i 0 := by
      cases l <;> simp
    rw [range_succ_eq_map, map_cons, map_map, firstDifference_cons, fraction_head_tail digits,
      fraction_head_tail others, compare_fractions (fraction_mem _) (fraction_mem _), hhead, hhead,
      ← ih (by rw [length_tail]; omega) (by rw [length_tail]; omega)]
    simp only [Function.comp_def, htail]

end Numeral
