import Rrflow.Kernel.Data
import Rrflow.Lib.Numeral

/-!
Conditions on the properties of a vector, and what decimal bounds mean.

A decimal is a text. For a comparison its digits are written without the zeros around
them, with the exponent that this leaves, and decimals of one sign are compared by the
magnitude of their first digit and then digit by digit. Zero has no first digit: it is
kept as the digit nought with the magnitude of the units, which is above that of every
number below one.
-/

namespace Rrflow.Vector

open Kernel Checks List Numeral

/-! ### Decimals -/

abbrev Digits := List (Fin 10)

def digit? (c : Char) : Option (Fin 10) :=
  if h : 48 ≤ c.toNat ∧ c.toNat ≤ 57 then some ⟨c.toNat - 48, by omega⟩ else none

/-- What a decimal text says. -/
structure DecimalText where
  negative : Bool
  whole : Digits
  fraction : Digits
  exponent : Int
  deriving DecidableEq

/-- A decimal without the zeros around its digits. -/
structure DecimalParts where
  negative : Bool
  digits : Digits
  exponent : Int
  deriving DecidableEq

def DecimalParts.zero : DecimalParts := { negative := false, digits := [0], exponent := 0 }

def splitSign : List Char → Bool × List Char
  | '-' :: rest => (true, rest)
  | '+' :: rest => (false, rest)
  | text => (false, text)

def signed (negative : Bool) (n : Nat) : Int := if negative then -n else n

/-- An integer with an optional sign. Numbers that do not fit in 64 bits are beyond the
bound on exponents. -/
def parseInteger (text : List Char) : Option Int := do
  let (negative, text) := splitSign text
  let digits : Digits ← text.mapM digit?
  guard (digits ≠ [])
  return signed negative (Numeral.value digits)

def isExponentMark (c : Char) : Bool := c = 'e' || c = 'E'

def maxDecimalExponent : Nat := 1000000

def splitExponent (value : List Char) : Option (List Char × Int) :=
  match value.dropWhile (!isExponentMark ·) with
  | [] => some (value, 0)
  | _ :: text => do
    guard (text.any isExponentMark = false)
    let exponent ← parseInteger text
    guard (exponent.natAbs ≤ maxDecimalExponent)
    return (value.takeWhile (!isExponentMark ·), exponent)

def splitPoint (mantissa : List Char) : Option (List Char × List Char) :=
  match mantissa.splitOn '.' with
  | [whole] => some (whole, [])
  | [whole, fraction] => some (whole, fraction)
  | _ => none

def decimalText (value : List Char) : Option DecimalText := do
  let (mantissa, exponent) ← splitExponent value
  let (negative, mantissa) := splitSign mantissa
  let (whole, fraction) ← splitPoint mantissa
  guard (whole ≠ [] ∨ fraction ≠ [])
  let whole ← whole.mapM digit?
  let fraction ← fraction.mapM digit?
  return { negative, whole, fraction, exponent }

def DecimalText.parts (text : DecimalText) : DecimalParts :=
  let digits := (text.whole ++ text.fraction).dropWhile (· = 0)
  if digits = [] then .zero
  else
    let kept := digits.rdropWhile (· = 0)
    { negative := text.negative, digits := kept
      exponent := text.exponent - text.fraction.length + (digits.length - kept.length : Nat) }

def decimalParts (value : String) : Option DecimalParts :=
  (decimalText value.toList).map (·.parts)

namespace DecimalParts

/-- The place of the first digit. -/
def magnitude (parts : DecimalParts) : Int := parts.digits.length + parts.exponent

def compareDigits (left right : Digits) : Ordering :=
  firstDifference ((List.range (max left.length right.length)).map fun i =>
    compare (left.getD i 0) (right.getD i 0))

/-- How numbers of one sign are compared. -/
def compareAbsolute (left right : DecimalParts) : Ordering :=
  (compare left.magnitude right.magnitude).then (compareDigits left.digits right.digits)

def compareParts (left right : DecimalParts) : Ordering :=
  if left.digits = [0] ∧ right.digits = [0] then .eq
  else if left.negative ≠ right.negative then if left.negative then .lt else .gt
  else if left.negative then (left.compareAbsolute right).swap else left.compareAbsolute right

end DecimalParts

def compareDecimal (left right : String) : Option Ordering := do
  let left ← decimalParts left
  let right ← decimalParts right
  return left.compareParts right

def compareValues : RuntimeValue → RuntimeValue → Option Ordering
  | .integer left, .integer right => some (compare left right)
  | .unsigned left, .unsigned right => some (compare left right)
  | .integer left, .unsigned right =>
    if left < 0 then some .lt else some (compare left.toNat right)
  | .unsigned left, .integer right =>
    (if right < 0 then some .lt else some (compare right.toNat left)).map .swap
  | .decimal left, .decimal right => compareDecimal left right
  | .string left, .string right => some (compare left right)
  | _, _ => none

def isOrderable : RuntimeValue → Bool
  | .integer _ | .unsigned _ | .string _ => true
  | .decimal text => (decimalParts text).isSome
  | _ => false

inductive FilterOperator
  | equals (value : RuntimeValue)
  | notEquals (value : RuntimeValue)
  | in_ (values : List RuntimeValue)
  | range (gt gte lt lte : Option RuntimeValue)
  | exists_ (value : Bool)

structure FilterCondition where
  property : String
  operator : FilterOperator

namespace FilterCondition

def validateRange (gt gte lt lte : Option RuntimeValue) : Except Error Unit := do
  ensure (¬(gt.isSome ∧ gte.isSome))
    (.invalidRuntime "vector range filter cannot set both gt and gte")
  ensure (¬(lt.isSome ∧ lte.isSome))
    (.invalidRuntime "vector range filter cannot set both lt and lte")
  ensure (¬(gt.isNone ∧ gte.isNone ∧ lt.isNone ∧ lte.isNone))
    (.invalidRuntime "vector range filter must declare a bound")
  ensure ([gt, gte, lt, lte].all fun bound => bound.all isOrderable)
    (.invalidRuntime "vector range bounds must be integer, unsigned, decimal, or string")
  match gt.or gte, lt.or lte with
  | some lower, some upper =>
    match compareValues lower upper with
    | none => .error (.invalidRuntime "vector range bounds use incompatible value types")
    | some ordering =>
      ensure (¬(ordering = .gt ∨ ordering = .eq ∧ (gt.isSome ∨ lt.isSome)))
        (.invalidRuntime "vector range lower bound must precede its upper bound")
  | _, _ => .ok ()

def validate (condition : FilterCondition) : Except Error Unit := do
  validateText "vector filter property" condition.property
  match condition.operator with
  | .in_ values =>
    ensure (¬values.isEmpty) (.invalidRuntime "vector in filter must contain at least one value")
  | .range gt gte lt lte => validateRange gt gte lt lte
  | _ => .ok ()

def inRange (gt gte lt lte : Option RuntimeValue) (actual : RuntimeValue) : Bool :=
  gt.all (fun bound => compareValues actual bound = some .gt)
    && gte.all (fun bound => (compareValues actual bound).any (· ≠ .lt))
    && lt.all (fun bound => compareValues actual bound = some .lt)
    && lte.all (fun bound => (compareValues actual bound).any (· ≠ .gt))

def matches_ (condition : FilterCondition) (properties : RuntimeProperties) : Bool :=
  let actual := properties.find? condition.property
  match condition.operator with
  | .equals value => actual = some value
  | .notEquals value => actual.any (· ≠ value)
  | .in_ values => actual.any (· ∈ values)
  | .exists_ value => actual.isSome = value
  | .range gt gte lt lte => actual.any (inRange gt gte lt lte)

end FilterCondition

/-! ### How a decimal is written -/

def digitChar (digit : Fin 10) : Char := Char.ofNat (48 + digit)

/-- A sign before some text. A number that is not negative needs none. -/
def Signed (negative : Bool) (body text : List Char) : Prop :=
  if negative then text = '-' :: body else text = body ∨ text = '+' :: body

/-- No exponent, or one within the bound. -/
def Exponent (exponent : Int) (text : List Char) : Prop :=
  text = [] ∧ exponent = 0 ∨ ∃ negative, ∃ digits : Digits, ∃ body, digits ≠ [] ∧
    Signed negative (digits.map digitChar) body ∧ (text = 'e' :: body ∨ text = 'E' :: body) ∧
    exponent = signed negative (Numeral.value digits) ∧ exponent.natAbs ≤ maxDecimalExponent

/-- A sign, digits around a point that may be left out behind them, and an exponent. -/
def Writes (text : List Char) (written : DecimalText) : Prop :=
  ∃ mantissa point exponent, text = mantissa ++ exponent ∧
    Signed written.negative (written.whole.map digitChar ++ point) mantissa ∧
    (point = [] ∧ written.fraction = [] ∨ point = '.' :: written.fraction.map digitChar) ∧
    (written.whole ≠ [] ∨ written.fraction ≠ []) ∧ Exponent written.exponent exponent

theorem notMem_of_digits {digits : Digits} {c : Char} (h : c ∈ digits.map digitChar) :
    c ∉ ['-', '+', '.', 'e', 'E'] := by
  have hall : ∀ digit, digitChar digit ∉ ['-', '+', '.', 'e', 'E'] := by decide
  obtain ⟨digit, -, rfl⟩ := mem_map.mp h
  exact hall digit

theorem digit?_eq_some {c : Char} {digit : Fin 10} : digit? c = some digit ↔ c = digitChar digit := by
  constructor
  · unfold digit?
    split
    · rintro ⟨⟩
      rw [digitChar, Nat.add_sub_cancel' (by omega), Char.ofNat_toNat]
    · nofun
  · rintro rfl
    revert digit
    decide

theorem mapM_digit?_eq_some {text : List Char} {digits : Digits} :
    text.mapM digit? = some digits ↔ text = digits.map digitChar := by
  induction text generalizing digits with
  | nil => cases digits <;> simp
  | cons c text ih =>
    simp only [mapM_cons, Option.bind_eq_bind, Option.bind_eq_some_iff, digit?_eq_some, ih]
    cases digits <;> simp

theorem signed_of_splitSign {negative : Bool} {body text : List Char}
    (h : splitSign text = (negative, body)) : Signed negative body text := by
  unfold splitSign at h
  split at h <;> cases h <;> simp [Signed]

theorem Signed.splitSign_eq {negative : Bool} {body text : List Char}
    (h : Signed negative body text) (hbody : ∀ c ∈ body.head?, c ≠ '-' ∧ c ≠ '+') :
    splitSign text = (negative, body) := by
  cases negative with
  | true =>
    obtain rfl : text = '-' :: body := h
    rfl
  | false =>
    obtain rfl | rfl : text = body ∨ text = '+' :: body := by simpa [Signed] using h
    · unfold splitSign
      split <;> simp_all
    · rfl

theorem Signed.mem {negative : Bool} {body text : List Char} (h : Signed negative body text)
    {c : Char} (hc : c ∈ text) : c ∈ body ∨ c = '-' ∨ c = '+' := by
  cases negative <;> simp only [Signed, Bool.false_eq_true, if_true, if_false] at h
  · rcases h with rfl | rfl
    · exact .inl hc
    · exact (mem_cons.mp hc).symm.imp_right .inr
  · subst h
    exact (mem_cons.mp hc).symm.imp_right .inl

theorem parseInteger_eq_some {text : List Char} {n : Int} : parseInteger text = some n ↔
    ∃ negative, ∃ digits : Digits, digits ≠ [] ∧ Signed negative (digits.map digitChar) text ∧
      n = signed negative (Numeral.value digits) := by
  simp only [parseInteger, Option.bind_eq_bind, Option.bind_eq_some_iff, mapM_digit?_eq_some,
    Option.guard_eq_some', Option.pure_def, Option.some.injEq]
  constructor
  · rintro ⟨digits, hdigits, _, hne, rfl⟩
    exact ⟨_, digits, hne, signed_of_splitSign (Prod.ext rfl hdigits), rfl⟩
  · rintro ⟨negative, digits, hne, hsigned, rfl⟩
    rw [hsigned.splitSign_eq]
    · exact ⟨digits, rfl, (), hne, rfl⟩
    · intro c hc
      have := notMem_of_digits (mem_of_head? hc)
      simp_all

theorem exponent_of_splitExponent {text mantissa : List Char} {n : Int}
    (h : splitExponent text = some (mantissa, n)) : ∃ mark, text = mantissa ++ mark ∧
      Exponent n mark := by
  have hparts := takeWhile_append_dropWhile (p := (!isExponentMark ·)) (l := text)
  unfold splitExponent at h
  split at h
  · obtain ⟨rfl, rfl⟩ := Prod.mk.inj (Option.some.inj h)
    exact ⟨[], (append_nil _).symm, .inl ⟨rfl, rfl⟩⟩
  · next c body hmark =>
    simp only [Option.bind_eq_bind, Option.bind_eq_some_iff, Option.guard_eq_some',
      parseInteger_eq_some, Option.pure_def, Option.some.injEq, Prod.mk.injEq] at h
    obtain ⟨_, -, _, ⟨negative, digits, hne, hsigned, rfl⟩, _, hbound, rfl, rfl⟩ := h
    have hc := head?_dropWhile_not (!isExponentMark ·) text
    rw [hmark] at hc hparts
    simp [isExponentMark] at hc
    exact ⟨_, hparts.symm, .inr ⟨negative, digits, body, hne, hsigned,
      by simpa [or_iff_not_imp_left] using hc, rfl, hbound⟩⟩

theorem splitExponent_eq {mantissa mark : List Char} {n : Int} (h : Exponent n mark)
    (hmantissa : ∀ c ∈ mantissa, isExponentMark c = false) :
    splitExponent (mantissa ++ mark) = some (mantissa, n) := by
  have hall : ∀ c ∈ mantissa, (!isExponentMark c) = true := by simpa using hmantissa
  unfold splitExponent
  rw [dropWhile_append_of_pos hall, takeWhile_append_of_pos hall]
  rcases h with ⟨rfl, rfl⟩ | ⟨negative, digits, body, hne, hsigned, hmark, rfl, hbound⟩
  · simp
  · have hbody : body.any isExponentMark = false := by
      rw [any_eq_false]
      intro c hc
      rcases hsigned.mem hc with hc | rfl | rfl
      · have := notMem_of_digits hc
        simp_all [isExponentMark]
      · decide
      · decide
    have hparse := parseInteger_eq_some.mpr ⟨negative, digits, hne, hsigned, rfl⟩
    rcases hmark with rfl | rfl <;>
      simp [isExponentMark, hbody, hparse, hbound] 

theorem point_of_splitPoint {text whole fraction : List Char}
    (h : splitPoint text = some (whole, fraction)) :
    ∃ point, text = whole ++ point ∧ (point = [] ∧ fraction = [] ∨ point = '.' :: fraction) := by
  have hjoin : ['.'].intercalate (text.splitOn '.') = text := intercalate_splitOn '.'
  unfold splitPoint at h
  split at h
  · next hparts =>
    obtain ⟨rfl, rfl⟩ := Prod.mk.inj (Option.some.inj h)
    rw [hparts] at hjoin
    exact ⟨[], by simpa [intercalate] using hjoin.symm, .inl ⟨rfl, rfl⟩⟩
  · next hparts =>
    obtain ⟨rfl, rfl⟩ := Prod.mk.inj (Option.some.inj h)
    rw [hparts] at hjoin
    exact ⟨_, by simpa [intercalate] using hjoin.symm, .inr rfl⟩
  · cases h

theorem splitPoint_eq {whole fraction : Digits} {point : List Char}
    (h : point = [] ∧ fraction = [] ∨ point = '.' :: fraction.map digitChar) :
    splitPoint (whole.map digitChar ++ point) =
      some (whole.map digitChar, fraction.map digitChar) := by
  have hfree (digits : Digits) : ∀ c ∈ digits.map digitChar, (c == '.') = false := by
    intro c hc
    have := notMem_of_digits hc
    simp_all
  unfold splitPoint splitOn
  rcases h with ⟨rfl, rfl⟩ | rfl
  · rw [append_nil, splitOnP_eq_singleton (hfree whole)]
    rfl
  · rw [splitOnP_append_cons_of_forall_mem (hfree whole) _ rfl, splitOnP_eq_singleton (hfree fraction)]

/-- The texts that are accepted are those of decimals. -/
theorem decimalText_eq_some {text : List Char} {written : DecimalText} :
    decimalText text = some written ↔ Writes text written := by
  simp only [decimalText, Option.bind_eq_bind, Option.bind_eq_some_iff, Option.guard_eq_some',
    mapM_digit?_eq_some, Option.pure_def, Option.some.injEq, Prod.exists]
  constructor
  · rintro ⟨mantissa, exponent, hexponent, whole, fraction, hpoint, _, hne, whole, rfl, fraction,
      rfl, rfl⟩
    obtain ⟨mark, rfl, hmark⟩ := exponent_of_splitExponent hexponent
    obtain ⟨point, hbody, hpoint⟩ := point_of_splitPoint hpoint
    refine ⟨mantissa, point, mark, rfl, signed_of_splitSign (Prod.ext rfl hbody), ?_, ?_, hmark⟩
    · simpa using hpoint
    · simpa using hne
  · rintro ⟨mantissa, point, mark, rfl, hsigned, hpoint, hne, hmark⟩
    have hbody : ∀ c ∈ written.whole.map digitChar ++ point, c ∉ ['-', '+', 'e', 'E'] := by
      intro c hc
      have hdigits : c = '.' ∨ ∃ digits : Digits, c ∈ digits.map digitChar := by
        rcases mem_append.mp hc with hc | hc
        · exact .inr ⟨_, hc⟩
        · rcases hpoint with ⟨rfl, -⟩ | rfl
          · cases hc
          · exact (mem_cons.mp hc).imp_right fun hc => ⟨_, hc⟩
      rcases hdigits with rfl | ⟨digits, hc⟩
      · decide
      · have := notMem_of_digits hc
        simp_all
    have hsplit := hsigned.splitSign_eq fun c hc => by
      have := hbody c (mem_of_head? hc)
      simp_all
    refine ⟨mantissa, written.exponent, splitExponent_eq hmark fun c hc => ?_, ?_⟩
    · rcases hsigned.mem hc with hc | rfl | rfl
      · have := hbody c hc
        simp_all [isExponentMark]
      · decide
      · decide
    · rw [hsplit]
      exact ⟨_, _, splitPoint_eq hpoint, (), by simpa using hne, _, rfl, _, rfl, rfl⟩

/-! ### The numbers that decimals denote -/

def DecimalText.value (text : DecimalText) : ℚ :=
  (if text.negative then -1 else 1) * (Numeral.value (text.whole ++ text.fraction) *
    10 ^ (text.exponent - text.fraction.length))

variable (parts : DecimalParts)

namespace DecimalParts

def absolute : ℚ := Numeral.fraction parts.digits * 10 ^ parts.magnitude

def value : ℚ := (if parts.negative then -1 else 1) * parts.absolute

/-- The first digit is not a zero. -/
def Leading : Prop := ∃ digit rest, digit ≠ 0 ∧ parts.digits = digit :: rest

def Normal : Prop := parts = .zero ∨ parts.Leading

end DecimalParts

open DecimalParts

theorem DecimalText.normal_parts (text : DecimalText) : text.parts.Normal := by
  unfold parts
  dsimp only
  split
  · exact .inl rfl
  · next hne =>
    obtain ⟨digit, rest, hdigits⟩ := exists_cons_of_ne_nil hne
    have hdigit : digit ≠ 0 := by
      have hhead := head?_dropWhile_not (fun d : Fin 10 => (d = 0 : Bool))
        (text.whole ++ text.fraction)
      simpa [hdigits] using hhead
    rw [hdigits]
    cases hkept : (digit :: rest).rdropWhile (fun d => (d = 0 : Bool)) with
    | nil =>
      rw [rdropWhile_eq_nil_iff] at hkept
      exact absurd (of_decide_eq_true (hkept digit mem_cons_self)) hdigit
    | cons first kept =>
      have hprefix := rdropWhile_prefix (fun d => (d = 0 : Bool)) (digit :: rest)
      rw [hkept, cons_prefix_cons] at hprefix
      exact .inr ⟨first, kept, hprefix.1 ▸ hdigit, rfl⟩

theorem DecimalText.value_parts (text : DecimalText) : text.parts.value = text.value := by
  have hdrop := (fraction_dropWhile (text.whole ++ text.fraction)).trans (fraction_eq _)
  unfold parts value
  dsimp only
  rw [← hdrop]
  split
  · next hnil => simp [DecimalParts.value, absolute, hnil, Numeral.fraction, zero]
  · have hle := ( rdropWhile_prefix (fun d => (d = 0 : Bool))
      ((text.whole ++ text.fraction).dropWhile (· = 0))).length_le
    simp only [DecimalParts.value, absolute, magnitude, fraction_rdropWhile]
    rw [← add_assoc, add_right_comm, ← Nat.cast_add, Nat.add_sub_cancel' hle,
      zpow_add₀ (by norm_num), zpow_natCast, mul_assoc (Numeral.fraction _)]
    rfl

/-- One number is zero and the other between zero and one. -/
def Confused (x y : ℚ) : Prop := x = 0 ∧ 0 < y ∧ y < 1 ∨ y = 0 ∧ 0 < x ∧ x < 1

open Classical in
/-- The order of two numbers as it comes out. -/
noncomputable def shown (x y : ℚ) : Ordering :=
  if Confused x y then (compare x y).swap else compare x y

/-- Negative numbers are not confused. -/
theorem shown_of_neg {x y : ℚ} (h : x < 0 ∨ y < 0) : shown x y = compare x y := by
  refine if_neg ?_
  rintro (hxy | hxy) <;> rcases h with h | h <;> linarith [hxy.1, hxy.2.1]

namespace DecimalParts

variable {left right : DecimalParts}

theorem absolute_lt : parts.absolute < 10 ^ parts.magnitude :=
  mul_lt_of_lt_one_left (zpow_pos (by norm_num) _) (fraction_mem parts.digits).2

theorem Leading.le_absolute (h : left.Leading) :
    (10 : ℚ) ^ (left.magnitude - 1) ≤ left.absolute := by
  obtain ⟨digit, rest, hdigit, hdigits⟩ := h
  have hle : 1 / ((10 : ℕ) : ℚ) ≤ Numeral.fraction (digit :: rest) := le_fraction hdigit
  rw [zpow_sub_one₀ (by norm_num), mul_comm, absolute, hdigits, ← one_div]
  exact mul_le_mul_of_nonneg_right hle (zpow_nonneg (by norm_num) _)

theorem Leading.absolute_pos (h : left.Leading) : 0 < left.absolute :=
  (zpow_pos (by norm_num) _).trans_le h.le_absolute

theorem absolute_zero : absolute .zero = 0 := by simp [absolute, zero, Numeral.fraction]

theorem compareDigits_eq (h : left.magnitude = right.magnitude) :
    compareDigits left.digits right.digits = compare left.absolute right.absolute := by
  rw [compareDigits, firstDifference_digits (le_max_left _ _) (le_max_right _ _), absolute,
    absolute, h, ← cmp_eq_compare, ← cmp_eq_compare, cmp_mul_pos_right (zpow_pos (by norm_num) _)]

/-- The magnitude of zero is above that of the numbers below one. -/
theorem Leading.magnitude_lt_zero_iff (h : left.Leading) :
    left.magnitude < magnitude .zero ↔ left.absolute < 1 := by
  rw [show magnitude .zero = 0 + 1 from rfl, Int.lt_add_one_iff]
  constructor
  · intro hle
    calc left.absolute < 10 ^ left.magnitude := left.absolute_lt
      _ ≤ 10 ^ (0 : Int) := zpow_le_zpow_right₀ (by norm_num) hle
      _ = 1 := zpow_zero _
  · intro hlt
    have hpow := h.le_absolute.trans_lt hlt
    rw [← zpow_zero (10 : ℚ), zpow_lt_zpow_iff_right₀ (by norm_num)] at hpow
    omega

/-- A greater magnitude belongs to the greater number, but for zero. -/
theorem absolute_lt_of_magnitude_lt (hleft : left.Normal) (hright : right.Normal)
    (hclear : ¬Confused left.absolute right.absolute) (h : left.magnitude < right.magnitude) :
    left.absolute < right.absolute := by
  rcases hright with rfl | hright
  · rcases hleft with rfl | hleft
    · exact absurd h (lt_irrefl _)
    · exact absurd (.inr ⟨absolute_zero, hleft.absolute_pos, hleft.magnitude_lt_zero_iff.mp h⟩)
        hclear
  · calc left.absolute < 10 ^ left.magnitude := left.absolute_lt
      _ ≤ 10 ^ (right.magnitude - 1) := zpow_le_zpow_right₀ (by norm_num) (by omega)
      _ ≤ right.absolute := hright.le_absolute

theorem compareAbsolute_eq (hleft : left.Normal) (hright : right.Normal) :
    left.compareAbsolute right = shown left.absolute right.absolute := by
  rw [compareAbsolute, shown]
  split
  · next hconfused =>
    rcases hconfused with ⟨hzero, hpos, hlt⟩ | ⟨hzero, hpos, hlt⟩
    · obtain rfl := hleft.resolve_right fun h => h.absolute_pos.ne' hzero
      have hright := hright.resolve_left fun h => hpos.ne' (h ▸ absolute_zero)
      rw [compare_gt_iff_gt.mpr (hright.magnitude_lt_zero_iff.mpr hlt), hzero,
        compare_lt_iff_lt.mpr hpos]
      rfl
    · obtain rfl := hright.resolve_right fun h => h.absolute_pos.ne' hzero
      have hleft := hleft.resolve_left fun h => hpos.ne' (h ▸ absolute_zero)
      rw [compare_lt_iff_lt.mpr (hleft.magnitude_lt_zero_iff.mpr hlt), hzero,
        compare_gt_iff_gt.mpr hpos]
      rfl
  · next hclear =>
    rcases lt_trichotomy left.magnitude right.magnitude with hlt | heq | hgt
    · rw [compare_lt_iff_lt.mpr hlt, Ordering.lt_then, eq_comm, compare_lt_iff_lt]
      exact absolute_lt_of_magnitude_lt hleft hright hclear hlt
    · rw [compare_eq_iff_eq.mpr heq, Ordering.eq_then]
      exact compareDigits_eq heq
    · rw [compare_gt_iff_gt.mpr hgt, Ordering.gt_then, eq_comm, compare_gt_iff_gt]
      exact absolute_lt_of_magnitude_lt hright hleft (fun h => hclear h.symm) hgt

theorem compareParts_eq (hleft : left.Normal) (hright : right.Normal) :
    left.compareParts right = shown left.value right.value := by
  have hnonneg (parts : DecimalParts) : 0 ≤ parts.absolute :=
    mul_nonneg (fraction_mem _).1 (zpow_nonneg (by norm_num) _)
  -- a number with a sign is not zero
  have hsigned {parts : DecimalParts} (h : parts.Normal) (hsign : parts.negative = true) :
      0 < parts.absolute := by
    rcases h with rfl | h
    · cases hsign
    · exact h.absolute_pos
  have habsolute := compareAbsolute_eq hleft hright
  unfold compareParts value
  by_cases hzero : left.digits = [0] ∧ right.digits = [0]
  · have heq {parts : DecimalParts} (h : parts.digits = [0]) : parts.absolute = 0 := by
      simp [absolute, h, Numeral.fraction]
    simp [hzero, heq hzero.1, heq hzero.2, shown]
  rw [if_neg hzero]
  cases hl : left.negative <;> cases hr : right.negative <;>
    simp only [Bool.false_eq_true, Bool.true_eq_false, ne_eq, not_true_eq_false, not_false_eq_true,
      if_true, if_false, one_mul, neg_mul]
  · exact habsolute
  · have hneg : -right.absolute < 0 := neg_neg_iff_pos.mpr (hsigned hright hr)
    rw [shown_of_neg (.inr hneg), eq_comm, compare_gt_iff_gt]
    exact hneg.trans_le (hnonneg left)
  · have hneg : -left.absolute < 0 := neg_neg_iff_pos.mpr (hsigned hleft hl)
    rw [shown_of_neg (.inl hneg), eq_comm, compare_lt_iff_lt]
    exact hneg.trans_le (hnonneg right)
  · have hpos := hsigned hleft hl
    have hpos' := hsigned hright hr
    have hswap : cmp (-left.absolute) (-right.absolute) = cmp right.absolute left.absolute :=
      StrictAnti.cmp_map_eq (fun _ _ => neg_lt_neg) ..
    rw [habsolute, shown_of_neg (.inl (neg_neg_iff_pos.mpr hpos)), shown, if_neg,
      ← cmp_eq_compare, ← cmp_eq_compare, cmp_swap, hswap]
    rintro (h | h) <;> linarith [h.1]

end DecimalParts

/-! ### Conditions on decimals -/

/-- A text writes a decimal, and the decimal is a number. -/
def Denotes (text : String) (x : ℚ) : Prop :=
  ∃ written, Writes text.toList written ∧ written.value = x

variable {a b : String} {x y : ℚ}

theorem isSome_decimalParts_iff {text : String} :
    (decimalParts text).isSome ↔ ∃! x, Denotes text x := by
  rw [decimalParts, Option.isSome_map, Option.isSome_iff_exists]
  simp only [Denotes, ← decimalText_eq_some]
  constructor
  · rintro ⟨written, hwritten⟩
    refine ⟨_, ⟨written, hwritten, rfl⟩, ?_⟩
    rintro _ ⟨other, hother, rfl⟩
    rw [Option.some.inj (hwritten.symm.trans hother)]
  · rintro ⟨_, ⟨written, hwritten, -⟩, -⟩
    exact ⟨written, hwritten⟩

theorem compareDecimal_eq (ha : Denotes a x) (hb : Denotes b y) :
    compareDecimal a b = some (shown x y) := by
  obtain ⟨left, hleft, rfl⟩ := ha
  obtain ⟨right, hright, rfl⟩ := hb
  rw [← decimalText_eq_some] at hleft hright
  simp [compareDecimal, decimalParts, hleft, hright, ← DecimalText.value_parts,
    compareParts_eq left.normal_parts right.normal_parts]

theorem Denotes.isOrderable (h : Denotes a x) : isOrderable (.decimal a) = true := by
  obtain ⟨written, hwritten, -⟩ := h
  simp [Vector.isOrderable, decimalParts, decimalText_eq_some.mpr hwritten]

theorem Confused.compare_eq (h : Confused x y) : compare x y = if 0 < x then .gt else .lt := by
  rcases h with ⟨rfl, hpos, -⟩ | ⟨rfl, hpos, -⟩
  · rw [if_neg (lt_irrefl _), compare_lt_iff_lt]
    exact hpos
  · rw [if_pos hpos, compare_gt_iff_gt]
    exact hpos

theorem shown_eq_compare_iff : shown x y = compare x y ↔ ¬Confused x y := by
  unfold shown
  split
  · next h =>
    rw [h.compare_eq]
    split <;> simp [h]
  · next h => simp [h]

inductive Bound
  | gt | gte | lt | lte
  deriving DecidableEq

def Bound.isLower : Bound → Bool
  | .gt | .gte => true
  | .lt | .lte => false

/-- The orders of a value to the limit that a bound admits. -/
def Bound.admits : Bound → Ordering → Bool
  | .gt, order => order = .gt
  | .gte, order => order ≠ .lt
  | .lt, order => order = .lt
  | .lte, order => order ≠ .gt

variable (bounds : Bound → Option String) (limits : Bound → ℚ)

/-- The range whose bounds are some decimals. -/
def rangeOf : FilterOperator :=
  .range ((bounds .gt).map .decimal) ((bounds .gte).map .decimal) ((bounds .lt).map .decimal)
    ((bounds .lte).map .decimal)

/-- All bounds but those that are confused with a value admit it, and the confused ones are
there and on one side. -/
structure Misjudged (x : ℚ) : Prop where
  confused : ∃ bound, (bounds bound).isSome ∧ Confused x (limits bound)
  rest : ∀ bound, (bounds bound).isSome → ¬Confused x (limits bound) →
    bound.admits (compare x (limits bound)) = true
  side : ∀ bound other, (bounds bound).isSome → Confused x (limits bound) →
    (bounds other).isSome → Confused x (limits other) → bound.isLower = other.isLower

theorem matches_rangeOf_iff {bounds : Bound → Option String} {limits : Bound → ℚ}
    (ha : Denotes a x) (h : ∀ bound text, bounds bound = some text → Denotes text (limits bound))
    {property : String} {properties : RuntimeProperties}
    (hfind : properties.find? property = some (.decimal a)) :
    FilterCondition.matches_ ⟨property, rangeOf bounds⟩ properties = true ↔
      ∀ bound, (bounds bound).isSome → bound.admits (shown x (limits bound)) = true := by
  have hbound (bound : Bound) (test : Option Ordering → Bool)
      (htest : ∀ order, test (some order) = bound.admits order) :
      ((bounds bound).map RuntimeValue.decimal).all (fun limit =>
        test (compareValues (.decimal a) limit)) = true ↔
        ((bounds bound).isSome → bound.admits (shown x (limits bound)) = true) := by
    cases hlimit : bounds bound with
    | none => simp
    | some text => simp [compareValues, compareDecimal_eq ha (h bound text hlimit), htest]
  simp only [FilterCondition.matches_, hfind, rangeOf, Option.any_some, FilterCondition.inRange,
    Bool.and_eq_true]
  rw [hbound .gt (· = some .gt) (by simp [Bound.admits]),
    hbound .gte (·.any (· ≠ .lt)) (by simp [Bound.admits]),
    hbound .lt (· = some .lt) (by simp [Bound.admits]),
    hbound .lte (·.any (· ≠ .gt)) (by simp [Bound.admits])]
  constructor
  · rintro ⟨⟨⟨hgt, hgte⟩, hlt⟩, hlte⟩ (_ | _ | _ | _)
    exacts [hgt, hgte, hlt, hlte]
  · intro hall
    exact ⟨⟨⟨hall .gt, hall .gte⟩, hall .lt⟩, hall .lte⟩

/-- A confused bound admits what it should refuse, and the other way round. -/
theorem Bound.admits_shown (bound : Bound) (h : Confused x y) :
    bound.admits (shown x y) = !bound.admits (compare x y) ∧
      bound.admits (compare x y) = (bound.isLower == decide (0 < x)) := by
  rw [shown, if_pos h, h.compare_eq]
  by_cases hpos : 0 < x <;> cases bound <;> simp [hpos, admits, isLower]

theorem admits_iff_not_misjudged :
    ((∀ bound, (bounds bound).isSome → bound.admits (shown x (limits bound)) = true) ↔
      ∀ bound, (bounds bound).isSome → bound.admits (compare x (limits bound)) = true) ↔
    ¬Misjudged bounds limits x := by
  have hclear (bound : Bound) (h : ¬Confused x (limits bound)) :
      shown x (limits bound) = compare x (limits bound) := shown_eq_compare_iff.mpr h
  have hflip (bound : Bound) (h : Confused x (limits bound)) := bound.admits_shown h
  constructor
  · -- confused bounds on one side are right or wrong together
    rintro hiff ⟨⟨first, hfirst, hconfused⟩, hrest, hside⟩
    have hsame : ∀ bound, (bounds bound).isSome → Confused x (limits bound) →
        bound.admits (compare x (limits bound)) = first.admits (compare x (limits first)) := by
      intro bound hbound h
      rw [(hflip bound h).2, (hflip first hconfused).2, hside bound first hbound h hfirst hconfused]
    cases hadmits : first.admits (compare x (limits first)) with
    | true =>
      have hall := hiff.mpr fun bound hbound => by
        by_cases h : Confused x (limits bound)
        · rw [hsame bound hbound h, hadmits]
        · exact hrest bound hbound h
      have hfalse := hall first hfirst
      rw [(hflip first hconfused).1, hadmits] at hfalse
      cases hfalse
    | false =>
      have hall := hiff.mp fun bound hbound => by
        by_cases h : Confused x (limits bound)
        · rw [(hflip bound h).1, hsame bound hbound h, hadmits]
          rfl
        · rw [hclear bound h]
          exact hrest bound hbound h
      rw [hall first hfirst] at hadmits
      cases hadmits
  · intro hnot
    by_contra hiff
    refine hnot ⟨?_, ?_, ?_⟩
    · grind
    · grind
    · grind

/-- A lower and an upper bound. -/
def between (lower upper : Bound) (a b : String) (bound : Bound) : Option String :=
  if bound = lower then some a else if bound = upper then some b else none

theorem validate_between_iff (ha : Denotes a x) (hb : Denotes b y) {lower upper : Bound}
    (hlower : lower.isLower = true) (hupper : upper.isLower = false) {property : String}
    (hproperty : validateText "vector filter property" property = .ok ()) :
    FilterCondition.validate ⟨property, rangeOf (between lower upper a b)⟩ = .ok () ↔
      shown x y = .lt ∨ shown x y = .eq ∧ lower = .gte ∧ upper = .lte := by
  have hcompare := compareDecimal_eq ha hb
  rw [FilterCondition.validate, hproperty, ok_bind]
  cases lower <;> cases hlower <;> cases upper <;> cases hupper <;> cases hshown : shown x y <;>
    simp [rangeOf, between, FilterCondition.validateRange, bind_eq_ok, compareValues,
      ha.isOrderable, hb.isOrderable, hcompare, hshown]

/-- The texts that are accepted are those that denote a number. Decimals are compared as
their numbers unless one is zero and the other between zero and one; a range condition holds
on its interval unless such pairs misjudge the value; and a range of two bounds is accepted
as it should be unless they are such a pair. -/
theorem decimal_filters_exact_iff :
    (∀ text, (decimalParts text).isSome ↔ ∃! x, Denotes text x) ∧
    (∀ a b x y, Denotes a x → Denotes b y →
      (compareDecimal a b = some (compare x y) ↔ ¬Confused x y)) ∧
    (∀ a x bounds limits property (properties : RuntimeProperties), Denotes a x →
      (∀ bound text, bounds bound = some text → Denotes text (limits bound)) →
      properties.find? property = some (.decimal a) →
      ((FilterCondition.matches_ ⟨property, rangeOf bounds⟩ properties = true ↔
          ∀ bound, (bounds bound).isSome → bound.admits (compare x (limits bound)) = true) ↔
        ¬Misjudged bounds limits x)) ∧
    ∀ a b x y lower upper property, Denotes a x → Denotes b y → lower.isLower = true →
      upper.isLower = false → validateText "vector filter property" property = .ok () →
      ((FilterCondition.validate ⟨property, rangeOf (between lower upper a b)⟩ = .ok () ↔
          x < y ∨ x = y ∧ lower = .gte ∧ upper = .lte) ↔ ¬Confused x y) := by
  refine ⟨fun _ => isSome_decimalParts_iff, ?_, ?_, ?_⟩
  · intro a b x y ha hb
    rw [compareDecimal_eq ha hb, Option.some.injEq, shown_eq_compare_iff]
  · intro a x bounds limits property properties ha hbounds hfind
    rw [matches_rangeOf_iff ha hbounds hfind]
    exact admits_iff_not_misjudged bounds limits
  · intro a b x y lower upper property ha hb hlower hupper hproperty
    rw [validate_between_iff ha hb hlower hupper hproperty]
    by_cases hconfused : Confused x y
    · have hne : x ≠ y := by
        rintro rfl
        rcases hconfused with h | h <;> linarith [h.1, h.2.1]
      rw [shown, if_pos hconfused]
      rcases hne.lt_or_gt with hlt | hgt
      · simp [compare_lt_iff_lt.mpr hlt, hlt, hconfused]
      · simp [compare_gt_iff_gt.mpr hgt, hgt.not_gt, hne, hconfused]
    · rw [shown_eq_compare_iff.mpr hconfused, compare_lt_iff_lt, compare_eq_iff_eq]
      simp [hconfused]

theorem denotes_half : Denotes "0.5" (1 / 2) :=
  ⟨⟨false, [0], [5], 0⟩, decimalText_eq_some.mp (by decide +kernel), by
    norm_num [DecimalText.value, Numeral.value, Nat.ofDigits]⟩

/-- Half and one are told apart, and one may be above half in a range. -/
theorem decimal_filters_exact_half : Denotes "1.0" 1 ∧
    compareDecimal "0.5" "1.0" = some (compare (1 / 2 : ℚ) 1) ∧
    FilterCondition.validate ⟨"width", rangeOf (between .gt .lte "0.5" "1.0")⟩ = .ok () := by
  have hone : Denotes "1.0" 1 :=
    ⟨⟨false, [1], [0], 0⟩, decimalText_eq_some.mp (by decide +kernel), by
      norm_num [DecimalText.value, Numeral.value, Nat.ofDigits]⟩
  have hclear : ¬Confused (1 / 2) 1 := by norm_num [Confused]
  obtain ⟨-, hcompare, -, hvalidate⟩ := decimal_filters_exact_iff
  refine ⟨hone, (hcompare _ _ _ _ denotes_half hone).mpr hclear, ?_⟩
  refine ((hvalidate _ _ _ _ .gt .lte "width" denotes_half hone rfl rfl (by decide)).mpr hclear).mpr ?_
  norm_num

/-- Zero comes out above one half, also in a range. -/
theorem zero_above_half : Denotes "0" 0 ∧ Denotes "0.5" (1 / 2) ∧
    compareDecimal "0" "0.5" = some .gt ∧
    FilterCondition.matches_ ⟨"width", .range (some (.decimal "0.5")) none none none⟩
      (.ofList [("width", .decimal "0")]) = true := by
  refine ⟨⟨⟨false, [0], [], 0⟩, decimalText_eq_some.mp (by decide +kernel), ?_⟩, denotes_half,
    by decide +kernel, by decide +kernel⟩
  norm_num [DecimalText.value, Numeral.value, Nat.ofDigits]

end Rrflow.Vector
