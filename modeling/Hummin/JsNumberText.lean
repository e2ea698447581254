/-
Reading number literals, and that the text of a double reads as that double.
The text is found by a search; a double is a multiple of the smallest one, so
the search ends at the latest when the decimal is exact.
-/
import Hummin.JsNumber
import Mathlib.Data.Rat.Cast.Order
import Mathlib.Tactic.Linarith
import Mathlib.Tactic.Positivity
import Mathlib.Tactic.FieldSimp

namespace Hummin

open List Option

/-! ### Number literals -/

/-- An infinity, as a magnitude that no finite double has. -/
def infinite : ℚ := 2 ^ 1024

def roundNumber (magnitude : ℚ) : ℚ :=
  (roundDouble magnitude).getD infinite

def isExponentUnit (unit : UInt16) : Bool :=
  unit == exponentUnit || unit == 69

/-- The digits after a point, if there is one. -/
def readFraction : JsString → Option (JsString × JsString)
  | [] => some ([], [])
  | unit :: rest =>
    if unit = pointUnit then
      let digits := rest.takeWhile isDigitUnit
      if digits.isEmpty then none
      else some (digits, rest.dropWhile isDigitUnit)
    else some ([], unit :: rest)

def readUnsigned (text : JsString) : Option (Nat × JsString) :=
  let digits := text.takeWhile isDigitUnit
  if digits.isEmpty then none
  else some (decimalValue digits, text.dropWhile isDigitUnit)

def readSigned : JsString → Option (ℤ × JsString)
  | [] => none
  | unit :: rest =>
    if unit = minusUnit then
      (readUnsigned rest).map fun read => (-(read.1 : ℤ), read.2)
    else if unit = plusUnit then
      (readUnsigned rest).map fun read => ((read.1 : ℤ), read.2)
    else (readUnsigned (unit :: rest)).map fun read => ((read.1 : ℤ), read.2)

/-- The power of ten, if there is one. -/
def readScale : JsString → Option (ℤ × JsString)
  | [] => some (0, [])
  | unit :: rest =>
    if isExponentUnit unit then readSigned rest else some (0, unit :: rest)

/-- More than one digit, the first of them zero. -/
def hasLeadingZero (digits : JsString) : Bool :=
  decide (1 < digits.length) && digits.head? == some (digitUnit 0)

def readMagnitude (text : JsString) : Option (ℚ × JsString) :=
  let whole := text.takeWhile isDigitUnit
  if whole.isEmpty || hasLeadingZero whole then none
  else do
    let fraction ← readFraction (text.dropWhile isDigitUnit)
    let scale ← readScale fraction.2
    some (roundNumber (decimalValue (whole ++ fraction.1) *
      (10 : ℚ) ^ (scale.1 - (fraction.1.length : ℤ))), scale.2)

/-- A number literal and what follows it; the magnitude is rounded. -/
def readNumber : JsString → Option (ℚ × JsString)
  | [] => none
  | unit :: rest =>
    if unit = minusUnit then
      (readMagnitude rest).map fun read => (-read.1, read.2)
    else readMagnitude (unit :: rest)

def noDigit (text : JsString) : Bool :=
  text.head?.all fun unit => !isDigitUnit unit

/-- What follows cannot belong to a number before it. -/
def stopsNumber (text : JsString) : Bool :=
  text.head?.all fun unit =>
    !isDigitUnit unit && unit != pointUnit && !isExponentUnit unit

/-! ### Doubles as multiples of the smallest one -/

variable {value : ℚ}

theorem exists_multiple_of_isDouble (hpos : 0 < value) (hdouble : IsDouble value) :
    ∃ count : ℕ, 0 < count ∧ value = count * (2 : ℚ) ^ (-1074 : ℤ) := by
  rw [IsDouble, abs_of_pos hpos, roundDouble] at hdouble
  split at hdouble
  · have heq := some.inj hdouble
    have hplace : -1074 ≤ lastPlace value := le_max_right _ _
    obtain ⟨shift, hshift⟩ := Int.eq_ofNat_of_zero_le
      (show 0 ≤ lastPlace value + 1074 by omega)
    have hsplit : (2 : ℚ) ^ lastPlace value =
        2 ^ shift * (2 : ℚ) ^ (-1074 : ℤ) := by
      rw [show lastPlace value = (shift : ℤ) + (-1074 : ℤ) by omega,
        zpow_add₀ (by norm_num), zpow_natCast]
    set rounded := roundHalfEven (value / 2 ^ lastPlace value)
    have hrounded : 0 < rounded := by
      have : (0 : ℚ) < rounded * (2 : ℚ) ^ lastPlace value := by
        rw [heq]
        exact hpos
      have hplacePos : (0 : ℚ) < (2 : ℚ) ^ lastPlace value :=
        zpow_pos (by norm_num) _
      exact_mod_cast pos_of_mul_pos_left this hplacePos.le
    have hcount : 0 < rounded.toNat := by omega
    refine ⟨rounded.toNat * 2 ^ shift, Nat.mul_pos hcount (by positivity), ?_⟩
    rw [← heq, hsplit]
    have hcast : ((rounded.toNat : ℤ) : ℚ) = rounded := by
      rw [Int.toNat_of_nonneg hrounded.le]
    generalize (2 : ℚ) ^ (-1074 : ℤ) = unit
    push_cast at hcast ⊢
    rw [hcast]
    ring
  · simp at hdouble

theorem lt_of_isDouble (hpos : 0 < value) (hdouble : IsDouble value) : value < 2 ^ 1024 := by
  rw [IsDouble, abs_of_pos hpos, roundDouble] at hdouble
  split at hdouble
  next hlt =>
    rw [some.inj hdouble] at hlt
    rwa [abs_of_pos hpos] at hlt
  · simp at hdouble

/-- The decimal exponent of a positive double. -/
theorem log_bounds_of_isDouble (hpos : 0 < value) (hdouble : IsDouble value) :
    -324 ≤ Int.log 10 value ∧ Int.log 10 value ≤ 308 := by
  constructor
  · rw [← Int.zpow_le_iff_le_log (by norm_num) hpos]
    obtain ⟨count, hcount, rfl⟩ := exists_multiple_of_isDouble hpos hdouble
    have hone : (1 : ℚ) ≤ count := by exact_mod_cast hcount
    have hsmall : ((10 : ℕ) : ℚ) ^ (-324 : ℤ) ≤ (2 : ℚ) ^ (-1074 : ℤ) := by
      have hnat : (2 : ℕ) ^ 1074 ≤ 10 ^ 324 := by
        calc (2 : ℕ) ^ 1074 = (2 ^ 179) ^ 6 := pow_mul 2 179 6
          _ ≤ (10 ^ 54) ^ 6 := Nat.pow_le_pow_left (by norm_num) 6
          _ = 10 ^ 324 := (pow_mul 10 54 6).symm
      have hcast := (Nat.cast_le (α := ℚ)).mpr hnat
      rw [Nat.cast_pow, Nat.cast_pow, Nat.cast_ofNat] at hcast
      rw [zpow_neg, zpow_neg, zpow_ofNat, zpow_ofNat]
      exact inv_anti₀ (pow_pos (by norm_num) _) hcast
    calc ((10 : ℕ) : ℚ) ^ (-324 : ℤ) ≤ 1 * (2 : ℚ) ^ (-1074 : ℤ) := by
          rw [one_mul]
          exact hsmall
      _ ≤ count * (2 : ℚ) ^ (-1074 : ℤ) := by
          apply mul_le_mul_of_nonneg_right hone
          exact zpow_nonneg (by norm_num) _
  have hlt := lt_of_isDouble hpos hdouble
  have hlog : Int.log 10 value < 309 := by
    rw [← Int.lt_zpow_iff_log_lt (by norm_num) hpos]
    have hnat : (2 : ℕ) ^ 1024 < 10 ^ 309 := by decide +kernel
    have hcast := (Nat.cast_lt (α := ℚ)).mpr hnat
    rw [Nat.cast_pow, Nat.cast_pow, Nat.cast_ofNat] at hcast
    rw [zpow_ofNat]
    exact hlt.trans hcast
  omega

/-! ### The shortest decimal -/

variable {fits : Nat → Bool}

theorem chooseDecimal_eq_some {low found : Nat}
    {below above : ℚ} (hfound : chooseDecimal fits low below above = some found) :
    fits found = true ∧ (found = low ∨ found = low + 1) := by
  rw [chooseDecimal] at hfound
  split at hfound
  next hlow _ =>
    cases hfound
    exact ⟨hlow, Or.inl rfl⟩
  next _ hhigh =>
    cases hfound
    exact ⟨hhigh, Or.inr rfl⟩
  · simp at hfound
  rename_i hlow hhigh
  have hcase : found = low ∨ found = low + 1 := by
    split at hfound
    · exact Or.inl (some.inj hfound).symm
    split at hfound
    · exact Or.inr (some.inj hfound).symm
    split at hfound
    · exact Or.inl (some.inj hfound).symm
    · exact Or.inr (some.inj hfound).symm
  refine ⟨?_, hcase⟩
  rcases hcase with rfl | rfl
  · exact hlow
  · exact hhigh

theorem exists_chooseDecimal {low : Nat} (hfits : fits low = true) (below above : ℚ) :
    ∃ found, chooseDecimal fits low below above = some found := by
  rw [chooseDecimal, hfits]
  cases fits (low + 1) with
  | false => exact ⟨low, rfl⟩
  | true =>
    simp only
    split
    · exact ⟨low, rfl⟩
    split
    · exact ⟨low + 1, rfl⟩
    split
    · exact ⟨low, rfl⟩
    · exact ⟨low + 1, rfl⟩

theorem nearestDecimal_eq_some {exponent : ℤ} {digits found : Nat}
    (hfound : nearestDecimal value exponent digits = some found) :
    roundDouble (found * (10 : ℚ) ^ (exponent - digits)) = some value ∧
      (found = ⌊value / (10 : ℚ) ^ (exponent - digits)⌋.toNat ∨
        found = ⌊value / (10 : ℚ) ^ (exponent - digits)⌋.toNat + 1) := by
  rw [nearestDecimal] at hfound
  obtain ⟨hfits, hcase⟩ := chooseDecimal_eq_some hfound
  exact ⟨of_decide_eq_true hfits, hcase⟩

/-- Where the decimal below is exact, one is found. -/
theorem exists_nearestDecimal {exponent : ℤ} {digits : Nat}
    (hround : roundDouble value = some value)
    (hexact : (⌊value / (10 : ℚ) ^ (exponent - digits)⌋.toNat : ℚ) *
      (10 : ℚ) ^ (exponent - digits) = value) :
    ∃ found, nearestDecimal value exponent digits = some found := by
  rw [nearestDecimal]
  apply exists_chooseDecimal
  apply decide_eq_true
  rw [hexact, hround]

variable {find : Nat → Option Nat}

theorem searchDigits_eq_some {fuel start : Nat} {digits found : Nat}
    (hfound : searchDigits find fuel start = some (digits, found)) :
    start ≤ digits ∧ find digits = some found := by
  induction fuel generalizing start with
  | zero => simp [searchDigits] at hfound
  | succ fuel ih =>
    rw [searchDigits] at hfound
    split at hfound
    next here hhere =>
      cases hfound
      exact ⟨le_rfl, hhere⟩
    · obtain ⟨hle, hdigits⟩ := ih hfound
      exact ⟨by omega, hdigits⟩

theorem exists_searchDigits {fuel start digits : Nat}
    (hstart : start ≤ digits) (hfuel : digits < start + fuel) {found : Nat}
    (hfound : find digits = some found) : ∃ result, searchDigits find fuel start = some result := by
  induction fuel generalizing start with
  | zero => omega
  | succ fuel ih =>
    rw [searchDigits]
    cases hhere : find start with
    | some here => exact ⟨_, rfl⟩
    | none =>
      have hne : start ≠ digits := by
        rintro rfl
        rw [hhere] at hfound
        simp at hfound
      exact ih (by omega) (by omega)

/-- A double is exact with 1074 decimals after the point. -/
theorem floor_exact_of_isDouble (hpos : 0 < value) (hdouble : IsDouble value) :
    (⌊value / (10 : ℚ) ^ (-1074 : ℤ)⌋.toNat : ℚ) * (10 : ℚ) ^ (-1074 : ℤ) = value := by
  obtain ⟨count, -, hvalue⟩ := exists_multiple_of_isDouble hpos hdouble
  have hten : (10 : ℚ) ^ (-1074 : ℤ) ≠ 0 := zpow_ne_zero _ (by norm_num)
  have hsplit : (2 : ℚ) ^ (-1074 : ℤ) = 5 ^ 1074 * (10 : ℚ) ^ (-1074 : ℤ) := by
    have hfive : (5 : ℚ) ^ 1074 * (5 : ℚ) ^ (-1074 : ℤ) = 1 := by
      rw [zpow_neg, zpow_ofNat, mul_inv_cancel₀ (pow_ne_zero _ (by norm_num))]
    rw [show (10 : ℚ) = 5 * 2 by norm_num, mul_zpow, ← mul_assoc, hfive, one_mul]
  have hinteger : value / (10 : ℚ) ^ (-1074 : ℤ) = ((count * 5 ^ 1074 : ℕ) : ℚ) := by
    rw [div_eq_iff hten, hvalue, hsplit, Nat.cast_mul, Nat.cast_pow]
    rw [mul_assoc, Nat.cast_ofNat]
  rw [hinteger, Int.floor_natCast, Int.toNat_natCast, ← hinteger, div_mul_cancel₀ _ hten]

variable {number digits : Nat}

theorem length_decimal (hdigits : 0 < digits)
    (hlow : 10 ^ (digits - 1) ≤ number) (hhigh : number < 10 ^ digits) :
    (decimal number).length = digits := by
  have hne : number ≠ 0 := by
    rintro rfl
    simp at hlow
  rw [decimal, if_neg hne, length_map, length_reverse]
  have hle := (Nat.digits_length_le_iff (by norm_num) number).mpr hhigh
  have hlt := (Nat.lt_digits_length_iff (by norm_num) number).mpr hlow
  omega

/-- The decimal below a positive value has the digits asked for. -/
theorem floor_bounds (hpos : 0 < value) {digits : Nat} (hdigits : 0 < digits) :
    10 ^ (digits - 1) ≤
        ⌊value / (10 : ℚ) ^ (Int.log 10 value + 1 - digits)⌋.toNat ∧
      ⌊value / (10 : ℚ) ^ (Int.log 10 value + 1 - digits)⌋.toNat <
        10 ^ digits := by
  set unit := (10 : ℚ) ^ (Int.log 10 value + 1 - digits) with hunit
  have hunitPos : 0 < unit := zpow_pos (by norm_num) _
  have hquotient : 0 ≤ value / unit := (div_pos hpos hunitPos).le
  have hlow : ((10 ^ (digits - 1) : ℕ) : ℚ) ≤ value / unit := by
    rw [le_div_iff₀ hunitPos, Nat.cast_pow, Nat.cast_ofNat, ← zpow_natCast, hunit,
      ← zpow_add₀ (by norm_num)]
    have hself := Int.zpow_log_le_self (R := ℚ) (show 1 < 10 by norm_num) hpos
    rw [Nat.cast_ofNat] at hself
    convert hself using 2
    omega
  have hhigh : value / unit < ((10 ^ digits : ℕ) : ℚ) := by
    rw [div_lt_iff₀ hunitPos, Nat.cast_pow, Nat.cast_ofNat, ← zpow_natCast, hunit,
      ← zpow_add₀ (by norm_num)]
    have hself := Int.lt_zpow_succ_log_self (R := ℚ) (show 1 < 10 by norm_num) value
    rw [Nat.cast_ofNat] at hself
    convert hself using 2
    omega
  have hfloor : 0 ≤ ⌊value / unit⌋ := Int.floor_nonneg.mpr hquotient
  constructor
  · have hle : ((10 ^ (digits - 1) : ℕ) : ℤ) ≤ ⌊value / unit⌋ := by
      rw [Int.le_floor]
      exact_mod_cast hlow
    omega
  have hlt : ⌊value / unit⌋ < ((10 ^ digits : ℕ) : ℤ) := by
    rw [Int.floor_lt]
    exact_mod_cast hhigh
  omega

/-- The digits of a positive double: a number without a leading zero whose
decimal rounds to the double. -/
theorem significand_spec (hpos : 0 < value) (hdouble : IsDouble value) :
    ∃ number, 0 < number ∧ (significand value).1 = decimal number ∧
      roundDouble (number * (10 : ℚ) ^
        ((significand value).2 - ((decimal number).length : ℤ))) = some value := by
  have hround : roundDouble value = some value := by
    rwa [IsDouble, abs_of_pos hpos] at hdouble
  obtain ⟨hlogLow, hlogHigh⟩ := log_bounds_of_isDouble hpos hdouble
  obtain ⟨enough, henough⟩ := Int.eq_ofNat_of_zero_le
    (show 0 ≤ Int.log 10 value + 1 + 1074 by omega)
  have hplaces : Int.log 10 value + 1 - (enough : ℤ) = -1074 := by
    omega
  obtain ⟨exact, hexact⟩ : ∃ found,
      nearestDecimal value (Int.log 10 value + 1) enough = some found := by
    apply exists_nearestDecimal hround
    rw [hplaces]
    exact floor_exact_of_isDouble hpos hdouble
  obtain ⟨⟨digits, found⟩, hsearch⟩ := exists_searchDigits
    (show 1 ≤ enough by omega) (show enough < 1 + 1400 by omega) hexact
  obtain ⟨hone, hnear⟩ := searchDigits_eq_some hsearch
  obtain ⟨hfits, hcase⟩ := nearestDecimal_eq_some hnear
  obtain ⟨hlow, hhigh⟩ := floor_bounds hpos hone
  have hplace : significand value =
      placeDigits (Int.log 10 value + 1) (some (digits, found)) :=
    congrArg (placeDigits _) hsearch
  rw [hplace, placeDigits]
  split
  next hten =>
    refine ⟨1, Nat.one_pos, rfl, ?_⟩
    rw [← hfits, hten]
    congr 1
    have hlength : (decimal 1).length = 1 := by decide
    have hpower : ((10 ^ digits : ℕ) : ℚ) = (10 : ℚ) ^ (digits : ℤ) := by
      rw [Nat.cast_pow, zpow_natCast]
      rfl
    rw [hlength, hpower, ← zpow_add₀ (show (10 : ℚ) ≠ 0 by norm_num)]
    simp only [Nat.cast_one, one_mul]
    congr 1
    omega
  next hten =>
    have hbound : 10 ^ (digits - 1) ≤ found ∧ found < 10 ^ digits := by
      rcases hcase with rfl | rfl <;> omega
    have hlength := length_decimal hone hbound.1 hbound.2
    refine ⟨found, ?_, rfl, ?_⟩
    · exact lt_of_lt_of_le (by positivity) hbound.1
    rw [hlength]
    exact hfits

/-! ### Reading the layout -/

theorem takeWhile_digits {digits rest : JsString}
    (hdigits : ∀ unit ∈ digits, isDigitUnit unit = true) (hrest : noDigit rest = true) :
    (digits ++ rest).takeWhile isDigitUnit = digits ∧
      (digits ++ rest).dropWhile isDigitUnit = rest := by
  rw [takeWhile_append_of_pos hdigits, dropWhile_append_of_pos hdigits]
  cases rest with
  | nil => simp
  | cons unit rest =>
    simp only [noDigit, head?_cons, all_some, Bool.not_eq_true']
      at hrest
    simp [hrest]

theorem readUnsigned_append {digits rest : JsString}
    (hdigits : ∀ unit ∈ digits, isDigitUnit unit = true) (hne : digits ≠ [])
    (hrest : noDigit rest = true) :
    readUnsigned (digits ++ rest) = some (decimalValue digits, rest) := by
  obtain ⟨htake, hdrop⟩ := takeWhile_digits hdigits hrest
  simp [readUnsigned, htake, hdrop, hne]

variable {found : Nat} {text : JsString}

theorem readFraction_none (hpoint : text.head? ≠ some pointUnit) :
    readFraction text = some ([], text) := by
  cases text with
  | nil => rfl
  | cons unit rest =>
    have hne : unit ≠ pointUnit := fun heq => hpoint (by rw [heq]; rfl)
    rw [readFraction, if_neg hne]

theorem readFraction_append {digits rest : JsString}
    (hdigits : ∀ unit ∈ digits, isDigitUnit unit = true) (hne : digits ≠ [])
    (hrest : noDigit rest = true) :
    readFraction (pointUnit :: (digits ++ rest)) = some (digits, rest) := by
  obtain ⟨htake, hdrop⟩ := takeWhile_digits hdigits hrest
  simp [readFraction, htake, hdrop, hne]

theorem readScale_none (hexponent : text.head?.all (fun unit => !isExponentUnit unit) = true) :
    readScale text = some (0, text) := by
  cases text with
  | nil => rfl
  | cons unit rest =>
    simp only [head?_cons, all_some, Bool.not_eq_true'] at hexponent
    rw [readScale, hexponent]
    rfl

/-- The exponent as `layoutDigits` writes it. -/
theorem readScale_append (scale : ℤ) {rest : JsString}
    (hrest : noDigit rest = true) :
    readScale (exponentUnit :: (if scale < 0 then minusUnit else plusUnit) ::
      (decimal scale.natAbs ++ rest)) = some (scale, rest) := by
  have hread := readUnsigned_append
    (fun unit hunit => isDigitUnit_of_mem_decimal hunit)
    (decimal_ne_nil scale.natAbs) hrest
  rw [readScale, if_pos (by decide), readSigned]
  split
  next hneg =>
    rw [if_pos rfl, hread, decimalValue_decimal]
    simp only [map_some, some.injEq, Prod.mk.injEq, and_true]
    omega
  rename_i hneg
  rw [if_neg (by decide), if_pos rfl, hread, decimalValue_decimal]
  simp only [map_some, some.injEq, Prod.mk.injEq, and_true]
  omega

theorem readMagnitude_append {whole text fraction rest rest' : JsString}
    {scale : ℤ} (hwhole : ∀ unit ∈ whole, isDigitUnit unit = true)
    (hne : whole ≠ []) (hlead : hasLeadingZero whole = false) (htext : noDigit text = true)
    (hfraction : readFraction text = some (fraction, rest))
    (hscale : readScale rest = some (scale, rest')) :
    readMagnitude (whole ++ text) = some (roundNumber (decimalValue (whole ++ fraction) *
        (10 : ℚ) ^ (scale - (fraction.length : ℤ))), rest') := by
  obtain ⟨htake, hdrop⟩ := takeWhile_digits hwhole htext
  simp [readMagnitude, htake, hdrop, hne, hlead, hfraction, hscale]

theorem decimalValue_append (front back : JsString) :
    decimalValue (front ++ back) = decimalValue front * 10 ^ back.length + decimalValue back := by
  have hfold : ∀ (units : JsString) (start : Nat),
      units.foldl (fun value unit => value * 10 + (unit.toNat - 48)) start =
        start * 10 ^ units.length +
          units.foldl (fun value unit => value * 10 + (unit.toNat - 48)) 0 := by
    intro units
    induction units with
    | nil => simp
    | cons unit rest ih =>
      intro start
      rw [foldl_cons, foldl_cons, ih (start * 10 + _), ih (0 * 10 + _), length_cons, pow_succ]
      ring
  rw [decimalValue, foldl_append, hfold back]
  rfl

theorem decimalValue_zeros (count : Nat) : decimalValue (zeros count) = 0 := by
  induction count with
  | zero => rfl
  | succ count ih =>
    rw [zeros, replicate_succ, ← singleton_append, decimalValue_append]
    rw [zeros] at ih
    rw [ih]
    simp [decimalValue, digitUnit]

theorem isDigitUnit_of_mem_zeros {count : Nat} {unit : UInt16}
    (hunit : unit ∈ zeros count) : isDigitUnit unit = true := by
  rw [eq_of_mem_replicate hunit]
  decide

theorem head_decimal_ne_zero (hpos : 0 < number) : (decimal number).head? ≠ some (digitUnit 0) := by
  have hne : Nat.digits 10 number ≠ [] := Nat.digits_ne_nil_iff_ne_zero.mpr hpos.ne'
  rw [decimal, if_neg hpos.ne', head?_map, head?_reverse, getLast?_eq_some_getLast hne, map_some]
  intro heq
  refine Nat.getLast_digit_ne_zero 10 hpos.ne' ?_
  exact digitUnit_injOn (Nat.digits_lt_base (by norm_num)
    (getLast_mem hne)) (by norm_num) (some.inj heq)

theorem hasLeadingZero_eq_false {digits : JsString} (hhead : digits.head? ≠ some (digitUnit 0)) :
    hasLeadingZero digits = false := by
  simp [hasLeadingZero, hhead]

variable {rest : JsString}

theorem stopsNumber_spec (hstop : stopsNumber rest = true) :
    noDigit rest = true ∧ rest.head? ≠ some pointUnit ∧
      rest.head?.all (fun unit => !isExponentUnit unit) = true := by
  cases rest with
  | nil => simp [noDigit]
  | cons unit rest =>
    simp only [stopsNumber, head?_cons, all_some, Bool.and_eq_true, bne_iff_ne, ne_eq] at hstop
    simp [noDigit, hstop.1.1, hstop.1.2, hstop.2]

/-- Each of the four layouts reads as its digits with the point in place. -/
theorem readMagnitude_layoutDigits (hpos : 0 < number)
    (position : ℤ) {rest : JsString} (hstop : stopsNumber rest = true) :
    readMagnitude (layoutDigits (decimal number) position ++ rest) =
      some (roundNumber (number *
        (10 : ℚ) ^ (position - ((decimal number).length : ℤ))), rest) := by
  obtain ⟨hdigit, hpoint, hexponent⟩ := stopsNumber_spec hstop
  have hdigits : ∀ unit ∈ decimal number, isDigitUnit unit = true :=
    fun unit hunit => isDigitUnit_of_mem_decimal hunit
  have hne := decimal_ne_nil number
  have hhead := head_decimal_ne_zero hpos
  have hvalue := decimalValue_decimal number
  have hpointDigit : ∀ text, noDigit (pointUnit :: text) = true := fun _ => rfl
  have hexponentDigit : ∀ text, noDigit (exponentUnit :: text) = true :=
    fun _ => rfl
  generalize decimal number = digits at hdigits hne hhead hvalue ⊢
  have hcount : 0 < digits.length := length_pos_of_ne_nil hne
  have htakeDigits : ∀ count, ∀ unit ∈ digits.take count,
      isDigitUnit unit = true :=
    fun count unit hunit => hdigits unit (mem_of_mem_take hunit)
  have hdropDigits : ∀ count, ∀ unit ∈ digits.drop count,
      isDigitUnit unit = true :=
    fun count unit hunit => hdigits unit (mem_of_mem_drop hunit)
  have htakeHead : ∀ count, 0 < count →
      digits.take count ≠ [] ∧ (digits.take count).head? ≠ some (digitUnit 0) := by
    intro count hcount
    cases digits with
    | nil => exact absurd rfl hne
    | cons unit digits =>
      cases count with
      | zero => omega
      | succ count => simpa using hhead
  rw [layoutDigits]
  split
  · -- an integer with zeros behind its digits
    rename_i hplain
    obtain ⟨more, hmore⟩ := Int.eq_ofNat_of_zero_le
      (show 0 ≤ position - digits.length by omega)
    have hzeros : position.toNat - digits.length = more := by omega
    have hwhole : ∀ unit ∈ digits ++ zeros more, isDigitUnit unit = true := by
      exact forall_mem_append.mpr ⟨hdigits, fun unit hunit => isDigitUnit_of_mem_zeros hunit⟩
    have hlead : hasLeadingZero (digits ++ zeros more) = false := by
      apply hasLeadingZero_eq_false
      rwa [head?_append_of_ne_nil _ hne]
    rw [hzeros, readMagnitude_append hwhole (by simp [hne]) hlead hdigit
      (readFraction_none hpoint) (readScale_none hexponent)]
    rw [append_nil, decimalValue_append, decimalValue_zeros, hvalue]
    simp only [zeros, length_replicate, length_nil]
    rw [show position - (digits.length : ℤ) = (more : ℤ) by omega, zpow_natCast]
    push_cast
    simp
  split
  · -- the point between the digits
    rename_i hlong hinside
    obtain ⟨front, hfront⟩ := Int.eq_ofNat_of_zero_le hinside.1.le
    have hlt : front < digits.length := by omega
    obtain ⟨hfrontNe, hfrontHead⟩ := htakeHead front (by omega)
    have hdropNe : digits.drop front ≠ [] := by
      simpa using hlt
    rw [show position.toNat = front by omega, append_assoc, cons_append,
      readMagnitude_append (htakeDigits front) hfrontNe
        (hasLeadingZero_eq_false hfrontHead) (hpointDigit _)
        (readFraction_append (hdropDigits front) hdropNe hdigit)
        (readScale_none hexponent), take_append_drop, hvalue,
      length_drop]
    congr 5
    omega
  split
  · -- zeros between the point and the digits
    rename_i hlong hinside hsmall
    obtain ⟨more, hmore⟩ := Int.eq_ofNat_of_zero_le
      (show 0 ≤ -position by omega)
    have hfraction : ∀ unit ∈ zeros more ++ digits,
        isDigitUnit unit = true := by
      exact forall_mem_append.mpr ⟨fun unit hunit => isDigitUnit_of_mem_zeros hunit, hdigits⟩
    have hzero : ∀ unit ∈ [digitUnit 0], isDigitUnit unit = true :=
      forall_units (by decide)
    rw [show (-position).toNat = more by omega, cons_append,
      cons_append, ← singleton_append,
      readMagnitude_append hzero (by simp) (by decide) (hpointDigit _)
        (readFraction_append hfraction (by simp [hne]) hdigit)
        (readScale_none hexponent), decimalValue_append, decimalValue_append,
      decimalValue_zeros, hvalue]
    simp only [zeros, length_append, length_replicate]
    have hdigitZero : decimalValue [digitUnit 0] = 0 := by decide
    rw [hdigitZero]
    push_cast
    rw [show (0 : ℤ) - ((more : ℤ) + digits.length) =
      position - digits.length by omega]
    simp
  -- one digit, the rest of them behind the point, and an exponent
  split
  next hone =>
    rw [append_assoc, cons_append, cons_append,
      readMagnitude_append hdigits hne (hasLeadingZero_eq_false hhead)
        (hexponentDigit _)
        (readFraction_none (by simp [exponentUnit, pointUnit]))
        (readScale_append (position - 1) hdigit), append_nil, hvalue,
      hone]
    simp
  rename_i hmany
  obtain ⟨hfrontNe, hfrontHead⟩ := htakeHead 1 Nat.one_pos
  have hdropNe : digits.drop 1 ≠ [] := by
    rw [ne_eq, drop_eq_nil_iff]
    omega
  rw [append_assoc, append_assoc, cons_append, cons_append, cons_append,
    readMagnitude_append (htakeDigits 1) hfrontNe
      (hasLeadingZero_eq_false hfrontHead) (hpointDigit _)
      (readFraction_append (hdropDigits 1) hdropNe (hexponentDigit _))
      (readScale_append (position - 1) hdigit), take_append_drop,
    hvalue, length_drop]
  congr 5
  omega

theorem roundNumber_zero : roundNumber 0 = 0 := by
  have hround : roundDouble 0 = some 0 := by
    simp [roundDouble, roundHalfEven]
  rw [roundNumber, hround]
  rfl

/-- A magnitude starts with a digit, so it has no sign. -/
theorem readNumber_of_readMagnitude {read : ℚ × JsString}
    (hread : readMagnitude text = some read) : readNumber text = some read := by
  cases text with
  | nil => simp [readMagnitude] at hread
  | cons unit rest =>
    have hne : unit ≠ minusUnit := by
      rintro rfl
      rw [readMagnitude, takeWhile_cons_of_neg (by decide)] at hread
      simp at hread
    rw [readNumber, if_neg hne, hread]

/-- The text of a double reads as the double. -/
theorem readNumber_numberText (hdouble : IsDouble value)
    {rest : JsString} (hstop : stopsNumber rest = true) :
    readNumber (numberText value ++ rest) = some (value, rest) := by
  rw [numberText]
  split
  next hzero =>
    subst hzero
    obtain ⟨hdigit, hpoint, hexponent⟩ := stopsNumber_spec hstop
    have hread : readMagnitude ([digitUnit 0] ++ rest) = _ :=
      readMagnitude_append (forall_units (by decide)) (by simp) (by decide) hdigit
        (readFraction_none hpoint) (readScale_none hexponent)
    rw [readNumber_of_readMagnitude hread]
    have hvalue : decimalValue ([digitUnit 0] ++ []) = 0 := by decide
    rw [hvalue, Nat.cast_zero, zero_mul, roundNumber_zero]
  rename_i hne
  have hmagnitude : 0 < |value| := abs_pos.mpr hne
  have hdouble' : IsDouble |value| := by
    rw [IsDouble, abs_abs]
    exact hdouble
  obtain ⟨number, hpos, hdigits, hround⟩ :=
    significand_spec hmagnitude hdouble'
  have hread : readMagnitude
      (layoutDigits (significand |value|).1 (significand |value|).2 ++ rest) =
        some (|value|, rest) := by
    rw [hdigits, readMagnitude_layoutDigits hpos _ hstop, roundNumber, hround]
    rfl
  simp only
  split
  next hneg =>
    rw [cons_append, readNumber, if_pos rfl, hread]
    simp [abs_of_neg hneg]
  next hneg =>
    rw [readNumber_of_readMagnitude hread, abs_of_nonneg (not_lt.mp hneg)]

end Hummin
