import Mathlib.Algebra.Group.Int.Defs
import Mathlib.Algebra.Group.Nat.Defs
import Mathlib.Data.List.TakeWhile
import JustApi.Lib.Text

/-! # 64-bit floating point

What reading and comparing an `f64` needs: its value, without the sign of a zero and
without what a NaN carries. -/
namespace JustApi.Lib.Float64

/-- A number is so many times `2^-1074`; finite ones have less than `2^2098` of these
units, and an infinity has that many. -/
inductive F64 where
  | nan
  | number (units : Int)
  deriving DecidableEq, Repr

namespace F64

def zero : F64 := .number 0

def one : F64 := .number (2 ^ 1074)

def infinity : F64 := .number (2 ^ 2098)

def neg : F64 → F64
  | .nan => .nan
  | .number units => .number (-units)

/-- The value of a number, in units. -/
def value : F64 → Int
  | .nan => 0
  | .number units => units

def compareUnits (a b : Int) : Ordering := if a < b then .lt else if b < a then .gt else .eq

/-- `partial_cmp` -/
def partialCmp : F64 → F64 → Option Ordering
  | .number a, .number b => some (compareUnits a b)
  | _, _ => none

/-- `a <= b`, false of a NaN. -/
def le (a b : F64) : Bool := (a.partialCmp b).any Ordering.isLE

theorem compareUnits_eq_lt {a b : Int} : compareUnits a b = .lt ↔ a < b := by
  unfold compareUnits
  by_cases hlt : a < b
  · simp [hlt]
  · by_cases hgt : b < a <;> simp [hlt, hgt]

theorem compareUnits_eq_eq {a b : Int} : compareUnits a b = .eq ↔ a = b := by
  unfold compareUnits
  by_cases hlt : a < b
  · rw [if_pos hlt]
    exact iff_of_false Ordering.noConfusion (by omega)
  · rw [if_neg hlt]
    by_cases hgt : b < a
    · rw [if_pos hgt]
      exact iff_of_false Ordering.noConfusion (by omega)
    · rw [if_neg hgt]
      exact iff_of_true rfl (by omega)

theorem compareUnits_swap (a b : Int) : (compareUnits a b).swap = compareUnits b a := by
  unfold compareUnits
  by_cases hlt : a < b
  · rw [if_pos hlt, if_neg (by omega), if_pos hlt]
    rfl
  · rw [if_neg hlt]
    by_cases hgt : b < a
    · rw [if_pos hgt, if_pos hgt]
      rfl
    · rw [if_neg hgt, if_neg hgt, if_neg hlt]
      rfl

theorem compareUnits_isLE {a b : Int} : (compareUnits a b).isLE ↔ a ≤ b := by
  rw [Ordering.isLE_iff_eq_lt_or_eq_eq, compareUnits_eq_lt, compareUnits_eq_eq]
  omega

/-! ## Reading -/

/-- The nearest integer, of two the even one. -/
def roundHalfEven (num den : Nat) : Nat :=
  let down := num / den
  let rest := num % den
  if 2 * rest < den ∨ 2 * rest = den ∧ down % 2 = 0 then down else down + 1

/-- The `f64` nearest to so many units: 53 bits, from the first that is not zero. -/
def nearest (num den : Nat) : F64 :=
  let shift := (num / den).log2 - 52
  let units := roundHalfEven num (den * 2 ^ shift) * 2 ^ shift
  if units < 2 ^ 2098 then .number units else infinity

def ofScientific (mantissa : Nat) (exponent : Int) : F64 :=
  nearest (mantissa * 2 ^ 1074 * 10 ^ exponent.toNat) (10 ^ (-exponent).toNat)

/-- The bits of the nearest `f64`. A significand rounded up to `2^53` raises the exponent. -/
def bitsOfNat (n : Nat) : UInt64 :=
  if n = 0 then 0
  else
    let significand := if n.log2 ≤ 52 then n * 2 ^ (52 - n.log2)
      else roundHalfEven n (2 ^ (n.log2 - 52))
    .ofNat ((n.log2 + 1023) * 2 ^ 52 + (significand - 2 ^ 52))

/-- `as f64`, for an integer. -/
def bitsOfInt (i : Int) : UInt64 :=
  if i < 0 then 0x8000000000000000 + bitsOfNat i.natAbs else bitsOfNat i.natAbs

example : bitsOfInt 3 = 0x4008000000000000 ∧ bitsOfInt (2 ^ 64 - 1) = 0x43F0000000000000 ∧
    bitsOfInt (-2) = 0xC000000000000000 := by
  decide +kernel

/-- The value of a finite `f64`, in units. -/
def unitsOfBits (bits : UInt64) : Int :=
  let exponent := bits.toNat / 2 ^ 52 % 2 ^ 11
  let fraction := bits.toNat % 2 ^ 52
  let magnitude : Nat := if exponent = 0 then fraction else (2 ^ 52 + fraction) * 2 ^ (exponent - 1)
  if bits.toNat < 2 ^ 63 then magnitude else -magnitude

example : unitsOfBits 0x3FD0000000000000 = 2 ^ 1072 ∧ unitsOfBits 0x8000000000000001 = -1 ∧
    unitsOfBits (bitsOfInt (-3)) = -3 * 2 ^ 1074 := by
  decide +kernel

/-- A sign, if there is one, and what follows it. -/
def takeSign : List Char → Bool × List Char
  | '+' :: rest => (false, rest)
  | '-' :: rest => (true, rest)
  | cs => (false, cs)

def digitsValue (digits : List Char) : Nat := Nat.ofDigitChars 10 digits 0

/-- What follows the digits. -/
def parseExponent : List Char → Option Int
  | [] => some 0
  | e :: rest =>
    let (negative, digits) := takeSign rest
    if (e = 'e' ∨ e = 'E') ∧ digits ≠ [] ∧ digits.all Char.isDigit then
      some (if negative then -(digitsValue digits) else digitsValue digits)
    else none

def parseNumber (cs : List Char) : Option F64 :=
  let whole := cs.takeWhile Char.isDigit
  let (fraction, rest) :=
    match cs.dropWhile Char.isDigit with
    | '.' :: rest => (rest.takeWhile Char.isDigit, rest.dropWhile Char.isDigit)
    | rest => ([], rest)
  if whole ++ fraction = [] then none
  else (parseExponent rest).map fun exponent =>
    ofScientific (digitsValue (whole ++ fraction)) (exponent - fraction.length)

def parseMagnitude (cs : List Char) : Option F64 :=
  let lower := cs.map Char.toLower
  if lower = "inf".toList ∨ lower = "infinity".toList then some infinity
  else if lower = "nan".toList then some .nan
  else parseNumber cs

/-- `f64::from_str` -/
def parse (cs : List Char) : Option F64 :=
  let (negative, rest) := takeSign cs
  (parseMagnitude rest).map fun magnitude => if negative then magnitude.neg else magnitude

example : parse "0.25".toList = some (.number (2 ^ 1072)) ∧ parse "1E-400".toList = some zero ∧
    parse "-infinity".toList = some infinity.neg ∧ parse "1.".toList = some one ∧
    parse ".".toList = none := by
  decide +kernel

/-! ## Integers of 64 bits -/

section Large

variable {n : Nat}

/-- Rounded to a multiple of `2^11`, which takes 53 bits of the 64. -/
theorem bitsOfNat_large (hlow : 2 ^ 63 ≤ n) (hhigh : n < 2 ^ 64) :
    (bitsOfNat n).toNat = 1085 * 2 ^ 52 + roundHalfEven n (2 ^ 11) ∧
      2 ^ 52 ≤ roundHalfEven n (2 ^ 11) ∧ roundHalfEven n (2 ^ 11) ≤ 2 ^ 53 := by
  have hlog : n.log2 = 63 := (Nat.log2_eq_iff (by omega)).mpr ⟨hlow, hhigh⟩
  have hround : 2 ^ 52 ≤ roundHalfEven n (2 ^ 11) ∧ roundHalfEven n (2 ^ 11) ≤ 2 ^ 53 := by
    unfold roundHalfEven
    dsimp only
    split <;> omega
  have hfits : (63 + 1023) * 2 ^ 52 + (roundHalfEven n (2 ^ 11) - 2 ^ 52) < UInt64.size := by
    rw [UInt64.size]
    omega
  refine ⟨?_, hround⟩
  rw [bitsOfNat, if_neg (by omega), hlog]
  dsimp only
  rw [if_neg (by omega), UInt64.toNat_ofNat_of_lt' hfits]
  omega

theorem unitsOfBits_large (hlow : 2 ^ 63 ≤ n) (hhigh : n < 2 ^ 64) :
    unitsOfBits (bitsOfNat n) = (roundHalfEven n (2 ^ 11) * 2 ^ 1085 : Nat) := by
  obtain ⟨hbits, hmin, hmax⟩ := bitsOfNat_large hlow hhigh
  rw [unitsOfBits, hbits, if_pos (by omega)]
  generalize roundHalfEven n (2 ^ 11) = significand at hmin hmax
  rcases Nat.lt_or_eq_of_le hmax with hlt | rfl
  · have hexponent : (1085 * 2 ^ 52 + significand) / 2 ^ 52 % 2 ^ 11 = 1086 := by omega
    have hfraction : (1085 * 2 ^ 52 + significand) % 2 ^ 52 = significand - 2 ^ 52 := by omega
    rw [hexponent, hfraction, if_neg (by omega), Nat.add_sub_cancel' hmin]
  · -- rounded up to the next exponent
    have hexponent : (1085 * 2 ^ 52 + 2 ^ 53) / 2 ^ 52 % 2 ^ 11 = 1087 := by decide
    have hfraction : (1085 * 2 ^ 52 + 2 ^ 53) % 2 ^ 52 = 0 := by decide
    rw [hexponent, hfraction, if_neg (by omega), Nat.add_zero, Nat.pow_add_one 2 52, Nat.mul_assoc,
      Nat.mul_comm 2, ← Nat.pow_add_one]

theorem roundHalfEven_mul_iff {num den : Nat} (hden : 0 < den) :
    roundHalfEven num den * den = num ↔ den ∣ num := by
  constructor
  · exact fun h => ⟨_, (h.symm.trans (Nat.mul_comm _ _))⟩
  · intro hdvd
    have hrest : num % den = 0 := Nat.mod_eq_zero_of_dvd hdvd
    rw [roundHalfEven, hrest, if_pos (.inl hden), Nat.div_mul_cancel hdvd]

theorem one_value : one.value = ((2 ^ 1074 : Nat) : Int) := by
  rw [Int.natCast_pow]
  rfl

/-- From `2^63` to `2^64`, the multiples of `2^11` have a float. -/
theorem unitsOfBits_bitsOfNat_iff (hlow : 2 ^ 63 ≤ n) (hhigh : n < 2 ^ 64) :
    unitsOfBits (bitsOfNat n) = n * one.value ↔ 2 ^ 11 ∣ n := by
  have hshift (k : Nat) : k * 2 ^ 1085 = k * 2 ^ 11 * 2 ^ 1074 := by
    rw [Nat.mul_assoc, ← Nat.pow_add]
  rw [unitsOfBits_large hlow hhigh, one_value, ← Int.natCast_mul, Int.ofNat_inj, hshift,
    Nat.mul_right_cancel_iff (Nat.two_pow_pos 1074), roundHalfEven_mul_iff (Nat.two_pow_pos 11)]

end Large

/-! ## Decimal numbers -/

section Decimal

variable {cs whole fraction : List Char}

/-- A digit, or the point. -/
def isDecimalChar (c : Char) : Bool := c.isDigit || c = '.'

theorem toLower_decimalChar {c : Char} (h : isDecimalChar c) : c.toLower = c := by
  have hle : c.val ≤ '9'.val := by
    rw [isDecimalChar, Bool.or_eq_true, Char.isDigit, Bool.and_eq_true, decide_eq_true_iff,
      decide_eq_true_iff, decide_eq_true_iff] at h
    rcases h with h | rfl
    · exact h.2
    · decide
  unfold Char.toLower
  split
  · rename_i hupper
    exact absurd (UInt32.le_trans hupper.1 hle) (by decide)
  · rfl

theorem parseMagnitude_decimal (hcs : ∀ c ∈ cs, isDecimalChar c) :
    parseMagnitude cs = parseNumber cs := by
  have hlower : cs.map Char.toLower = cs := by
    rw [List.map_congr_left fun c hc => toLower_decimalChar (hcs c hc), List.map_id']
  have hword : ∀ word : List Char, (∃ c ∈ word, ¬ isDecimalChar c) → cs ≠ word := by
    intro word h he
    obtain ⟨c, hc, hno⟩ := h
    exact hno (hcs c (he ▸ hc))
  simp only [parseMagnitude, hlower]
  rw [if_neg, if_neg]
  · exact hword _ ⟨'n', by decide, by decide⟩
  · rw [not_or]
    exact ⟨hword _ ⟨'i', by decide, by decide⟩, hword _ ⟨'i', by decide, by decide⟩⟩

theorem takeSign_decimal (hcs : ∀ c ∈ cs, isDecimalChar c) : takeSign cs = (false, cs) := by
  unfold takeSign
  split
  · exact absurd (hcs '+' List.mem_cons_self) (by decide)
  · exact absurd (hcs '-' List.mem_cons_self) (by decide)
  · rfl

theorem nearest_number (num den : Nat) : ∃ v, nearest num den = .number v := by
  unfold nearest
  dsimp only
  split
  · exact ⟨_, rfl⟩
  · exact ⟨_, rfl⟩

theorem ofScientific_number (mantissa : Nat) (exponent : Int) :
    ∃ v, ofScientific mantissa exponent = .number v := nearest_number _ _

/-- Digits with at most one point are read as a number. -/
theorem parse_decimal (hcs : cs = whole ++ '.' :: fraction ∨ cs = whole ∧ fraction = [])
    (hdigits : ∀ c ∈ whole ++ fraction, c.isDigit) (hne : whole ++ fraction ≠ []) :
    ∃ v, parse cs = some (.number v) := by
  have hwhole : ∀ c ∈ whole, c.isDigit := fun c hc => hdigits c (List.mem_append_left _ hc)
  have hfraction : ∀ c ∈ fraction, c.isDigit := fun c hc => hdigits c (List.mem_append_right _ hc)
  have hchars : ∀ c ∈ cs, isDecimalChar c := by
    intro c hc
    have hcases : c.isDigit ∨ c = '.' := by
      rcases hcs with rfl | ⟨rfl, -⟩
      · rcases List.mem_append.mp hc with hc | hc
        · exact .inl (hwhole c hc)
        · rcases List.mem_cons.mp hc with hc | hc
          · exact .inr hc
          · exact .inl (hfraction c hc)
      · exact .inl (hwhole c hc)
    rw [isDecimalChar, Bool.or_eq_true, decide_eq_true_iff]
    exact hcases
  have hnumber : parseNumber cs =
      some (ofScientific (digitsValue (whole ++ fraction)) (0 - fraction.length)) := by
    rcases hcs with rfl | ⟨rfl, rfl⟩
    · have hsplit : (whole ++ '.' :: fraction).takeWhile Char.isDigit = whole ∧
          (whole ++ '.' :: fraction).dropWhile Char.isDigit = '.' :: fraction := by
        rw [List.takeWhile_append_of_pos hwhole, List.dropWhile_append_of_pos hwhole,
          List.takeWhile_cons_of_neg (by decide), List.dropWhile_cons_of_neg (by decide),
          List.append_nil]
        exact ⟨rfl, rfl⟩
      simp only [parseNumber, hsplit, List.takeWhile_eq_self_iff.mpr hfraction,
        List.dropWhile_eq_nil_iff.mpr hfraction]
      rw [if_neg hne]
      rfl
    · rw [List.append_nil] at hne
      simp only [parseNumber, List.takeWhile_eq_self_iff.mpr hwhole,
        List.dropWhile_eq_nil_iff.mpr hwhole, List.append_nil]
      rw [if_neg hne]
      rfl
  obtain ⟨v, hv⟩ := ofScientific_number (digitsValue (whole ++ fraction)) (0 - fraction.length)
  refine ⟨v, ?_⟩
  rw [parse, takeSign_decimal hchars]
  dsimp only
  rw [parseMagnitude_decimal hchars, hnumber, hv]
  rfl

end Decimal

end F64

end JustApi.Lib.Float64
