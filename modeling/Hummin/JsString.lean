/-
JavaScript strings as lists of UTF-16 code units, with the decimal text of a
natural number and the array-index reading of a property name.
-/
import Mathlib.Data.Nat.Digits.Lemmas

namespace Hummin

open List

/-- A JavaScript string: its UTF-16 code units, lone surrogates included. -/
abbrev JsString := List UInt16

instance : LawfulBEq JsString :=
  inferInstanceAs (LawfulBEq (List UInt16))

/-- The string of characters below U+10000, one code unit each. -/
def js (text : List Char) : JsString :=
  text.map fun char => char.val.toUInt16

/-- The code unit of a decimal digit. -/
def digitUnit (digit : Nat) : UInt16 :=
  UInt16.ofNat (48 + digit)

/-- The decimal text of a natural number. -/
def decimal (n : Nat) : JsString :=
  if n = 0 then [digitUnit 0]
  else (Nat.digits 10 n).reverse.map digitUnit

/-- The value of a run of digit code units, most significant first. -/
def decimalValue (text : JsString) : Nat :=
  text.foldl (fun value unit => value * 10 + (unit.toNat - 48)) 0

def isDigitUnit (unit : UInt16) : Bool :=
  48 ≤ unit.toNat && unit.toNat ≤ 57

/-- The array index a property name spells: `"0"`, or digits without a leading
zero whose value is below the largest array length. -/
def arrayIndex (name : JsString) : Option Nat :=
  match name with
  | [] => none
  | first :: rest =>
    if 10 < name.length then none
    else if name = [48] then some 0
    else if first.toNat < 49 ∨ 57 < first.toNat then none
    else if ¬ rest.all isDigitUnit then none
    else if decimalValue name < 4294967295 then some (decimalValue name)
    else none

theorem digitUnit_toNat {digit : Nat} (hdigit : digit < 10) :
    (digitUnit digit).toNat = 48 + digit := by
  simp only [digitUnit, UInt16.toNat_ofNat']
  omega

theorem digitUnit_injOn {first second : Nat} (hfirst : first < 10)
    (hsecond : second < 10) (heq : digitUnit first = digitUnit second) : first = second := by
  have hnat := congrArg UInt16.toNat heq
  rw [digitUnit_toNat hfirst, digitUnit_toNat hsecond] at hnat
  omega

theorem isDigitUnit_digitUnit {digit : Nat} (hdigit : digit < 10) :
    isDigitUnit (digitUnit digit) = true := by
  simp [isDigitUnit, digitUnit_toNat hdigit]
  omega

theorem decimal_ne_nil (n : Nat) : decimal n ≠ [] := by
  unfold decimal
  split
  · simp
  next hn =>
    simpa using Nat.digits_ne_nil_iff_ne_zero.mpr hn

/-- Every code unit of a decimal text is a digit. -/
theorem isDigitUnit_of_mem_decimal {n : Nat} {unit : UInt16}
    (hunit : unit ∈ decimal n) : isDigitUnit unit = true := by
  unfold decimal at hunit
  split at hunit
  · simp only [mem_singleton] at hunit
    rw [hunit]
    exact isDigitUnit_digitUnit (by omega)
  simp only [mem_map, mem_reverse] at hunit
  obtain ⟨digit, hdigit, rfl⟩ := hunit
  exact isDigitUnit_digitUnit (Nat.digits_lt_base (by omega) hdigit)

theorem foldl_digitUnit (digits : List Nat) (hdigits : ∀ d ∈ digits, d < 10)
    (start : Nat) :
    (digits.map digitUnit).foldl
        (fun value unit => value * 10 + (unit.toNat - 48)) start =
      digits.foldl (fun value digit => value * 10 + digit) start := by
  induction digits generalizing start with
  | nil => rfl
  | cons digit rest ih =>
    have hdigit := hdigits digit mem_cons_self
    simp only [map_cons, foldl_cons, digitUnit_toNat hdigit, Nat.add_sub_cancel_left]
    exact ih (fun d hd => hdigits d (mem_cons_of_mem _ hd)) _

theorem foldl_reverse_eq_ofDigits (digits : List Nat) :
    digits.reverse.foldl (fun value digit => value * 10 + digit) 0 =
      Nat.ofDigits 10 digits := by
  induction digits with
  | nil => rfl
  | cons digit rest ih =>
    rw [reverse_cons, foldl_append, ih]
    simp only [foldl_cons, foldl_nil, Nat.ofDigits_cons]
    ring

/-- Reading a decimal text gives the number back. -/
theorem decimalValue_decimal (n : Nat) : decimalValue (decimal n) = n := by
  unfold decimal
  split
  next hn =>
    subst hn
    decide
  have hdigits : ∀ d ∈ (Nat.digits 10 n).reverse, d < 10 := fun d hd =>
    Nat.digits_lt_base (by omega) (mem_reverse.mp hd)
  rw [decimalValue, foldl_digitUnit _ hdigits, foldl_reverse_eq_ofDigits, Nat.ofDigits_digits]

theorem decimal_injective {first second : Nat}
    (heq : decimal first = decimal second) : first = second := by
  rw [← decimalValue_decimal first, heq, decimalValue_decimal]

/-- A test of every unit of a text, by running it. -/
theorem forall_units {text : JsString} {P : UInt16 → Prop} [DecidablePred P]
    (hall : text.all (fun unit => P unit) = true) : ∀ unit ∈ text, P unit :=
  fun unit hunit => of_decide_eq_true (all_eq_true.mp hall unit hunit)

end Hummin
