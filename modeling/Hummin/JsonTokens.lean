/-
The numbers and keywords of JSON text as tokens: what a scalar takes of a text reads
as the same scalar on its own.
-/
import Hummin.JsonGrammar

namespace Hummin.JsonText

open List Option

/-- A unit that numbers and keywords are made of. -/
def isScalarUnit (unit : UInt16) : Bool :=
  isDigitUnit unit || unit == plusUnit || unit == minusUnit || unit == pointUnit ||
    isExponentUnit unit || (97 ≤ unit.toNat && unit.toNat ≤ 122)

theorem isScalarUnit_of_digit {unit : UInt16} (hdigit : isDigitUnit unit = true) :
    isScalarUnit unit = true := by
  rw [isScalarUnit, hdigit]
  rfl

/-- The digits in front of a text, and what follows them. -/
theorem digits_split (text : JsString) :
    text = text.takeWhile isDigitUnit ++ text.dropWhile isDigitUnit ∧
      (∀ unit ∈ text.takeWhile isDigitUnit, isDigitUnit unit = true) := by
  refine ⟨(takeWhile_append_dropWhile).symm, ?_⟩
  intro unit hunit
  exact all_eq_true.mp all_takeWhile unit hunit

variable {text rest : JsString}

theorem readUnsigned_token {value : Nat} (hread : readUnsigned text = some (value, rest)) :
    ∃ token, text = token ++ rest ∧ (∀ unit ∈ token, isScalarUnit unit = true) ∧
      (∃ unit, token.head? = some unit ∧ isDigitUnit unit = true) ∧
      readUnsigned token = some (value, []) := by
  rw [readUnsigned] at hread
  split_ifs at hread with hempty
  cases hread
  obtain ⟨hsplit, hdigits⟩ := digits_split text
  have hne : text.takeWhile isDigitUnit ≠ [] := by simpa using hempty
  refine ⟨text.takeWhile isDigitUnit, hsplit, ?_, ?_, ?_⟩
  · intro unit hunit
    exact isScalarUnit_of_digit (hdigits unit hunit)
  · obtain ⟨unit, more, hhead⟩ := exists_cons_of_ne_nil hne
    refine ⟨unit, by rw [hhead]; rfl, ?_⟩
    apply hdigits
    rw [hhead]
    exact mem_cons_self
  have halone := @readUnsigned_append _ [] hdigits hne rfl
  rw [append_nil] at halone
  exact halone

theorem readSigned_token {value : ℤ} (hread : readSigned text = some (value, rest)) :
    ∃ token, text = token ++ rest ∧ (∀ unit ∈ token, isScalarUnit unit = true) ∧
      readSigned token = some (value, []) := by
  cases text with
  | nil => cases hread
  | cons unit text =>
    rw [readSigned] at hread
    -- A sign goes in front of the token of the digits.
    have hsign : ∀ (apply : Nat → ℤ), (unit = minusUnit ∨ unit = plusUnit) →
        (readUnsigned text).map (fun read => (apply read.1, read.2)) = some (value, rest) →
        (∀ token, readSigned (unit :: token) =
          (readUnsigned token).map fun read => (apply read.1, read.2)) →
        ∃ token, unit :: text = token ++ rest ∧
          (∀ unit ∈ token, isScalarUnit unit = true) ∧
          readSigned token = some (value, []) := by
      intro apply hunit hmap hsigned
      obtain ⟨read, hinner, heq⟩ := map_eq_some_iff.mp hmap
      cases heq
      obtain ⟨token, htext, hunits, -, htoken⟩ := readUnsigned_token hinner
      refine ⟨unit :: token, by rw [htext]; rfl, ?_, ?_⟩
      · refine forall_mem_cons.mpr ⟨?_, hunits⟩
        rcases hunit with rfl | rfl <;> decide
      rw [hsigned, htoken]
      rfl
    split_ifs at hread with hminus hplus
    · apply hsign (fun value => -(value : ℤ)) (.inl hminus) hread
      intro token
      rw [readSigned, if_pos hminus]
    · apply hsign (fun value => (value : ℤ)) (.inr hplus) hread
      intro token
      rw [readSigned, if_neg hminus, if_pos hplus]
    obtain ⟨read, hinner, heq⟩ := map_eq_some_iff.mp hread
    cases heq
    obtain ⟨token, htext, hunits, ⟨first, hfirst, -⟩, htoken⟩ := readUnsigned_token hinner
    refine ⟨token, htext, hunits, ?_⟩
    cases token with
    | nil => cases hfirst
    | cons head more =>
      cases htext
      rw [readSigned, if_neg hminus, if_neg hplus, htoken]
      rfl

theorem readScale_token {scale : ℤ} (hread : readScale text = some (scale, rest)) :
    ∃ token, text = token ++ rest ∧ (∀ unit ∈ token, isScalarUnit unit = true) ∧
      noDigit token = true ∧ token.head? ≠ some pointUnit ∧
      readScale token = some (scale, []) := by
  have hnone : ∃ token : JsString, text = token ++ text ∧
      (∀ unit ∈ token, isScalarUnit unit = true) ∧ noDigit token = true ∧
      token.head? ≠ some pointUnit ∧ readScale token = some (0, []) :=
    ⟨[], rfl, by simp, rfl, by simp, rfl⟩
  cases text with
  | nil =>
    cases hread
    exact hnone
  | cons unit text =>
    rw [readScale] at hread
    split_ifs at hread with hexponent
    · obtain ⟨token, htext, hunits, htoken⟩ := readSigned_token hread
      refine ⟨unit :: token, by rw [htext]; rfl, ?_, ?_, ?_, ?_⟩
      · refine forall_mem_cons.mpr ⟨?_, hunits⟩
        simp [isScalarUnit, hexponent]
      · rw [isExponentUnit, Bool.or_eq_true, beq_iff_eq, beq_iff_eq] at hexponent
        rcases hexponent with rfl | rfl <;> rfl
      · rw [isExponentUnit, Bool.or_eq_true, beq_iff_eq, beq_iff_eq] at hexponent
        rcases hexponent with rfl | rfl <;> simp [exponentUnit, pointUnit]
      · rw [readScale, if_pos hexponent, htoken]
    · cases hread
      exact hnone

theorem readFraction_token {digits rest : JsString}
    (hread : readFraction text = some (digits, rest)) :
    ∃ token, text = token ++ rest ∧ (∀ unit ∈ token, isScalarUnit unit = true) ∧
      ∀ more, noDigit more = true → more.head? ≠ some pointUnit →
        noDigit (token ++ more) = true ∧ readFraction (token ++ more) = some (digits, more) := by
  cases text with
  | nil =>
    cases hread
    exact ⟨[], rfl, by simp, fun more hdigit hpoint => ⟨hdigit, readFraction_none hpoint⟩⟩
  | cons unit text =>
    rw [readFraction] at hread
    dsimp only at hread
    split_ifs at hread with hpoint hempty
    · cases hread
      obtain ⟨hsplit, hdigits⟩ := digits_split text
      have hne : text.takeWhile isDigitUnit ≠ [] := by simpa using hempty
      subst hpoint
      refine ⟨pointUnit :: text.takeWhile isDigitUnit, ?_, ?_, ?_⟩
      · rw [cons_append, ← hsplit]
      · intro other hother
        rcases mem_cons.mp hother with rfl | hmem
        · decide
        · exact isScalarUnit_of_digit (hdigits other hmem)
      intro more hdigit _
      exact ⟨rfl, readFraction_append hdigits hne hdigit⟩
    · cases hread
      exact ⟨[], rfl, by simp, fun more hdigit hpoint => ⟨hdigit, readFraction_none hpoint⟩⟩

theorem readMagnitude_token {value : ℚ} (hread : readMagnitude text = some (value, rest)) :
    ∃ token, text = token ++ rest ∧ (∀ unit ∈ token, isScalarUnit unit = true) ∧
      (∃ unit, token.head? = some unit ∧ isDigitUnit unit = true) ∧
      readMagnitude token = some (value, []) := by
  obtain ⟨hsome, hlead, fraction, middle, scale, hfraction, hscale, rfl⟩ :=
    readMagnitude_eq_some hread
  obtain ⟨hsplit, hdigits⟩ := digits_split text
  have hne : text.takeWhile isDigitUnit ≠ [] := by simpa using hsome
  obtain ⟨scaleToken, rfl, hscaleUnits, hdigit, hpoint, hscaleAlone⟩ := readScale_token hscale
  obtain ⟨fractionToken, htext, hfractionUnits, halone⟩ := readFraction_token hfraction
  obtain ⟨hnoDigit, hfractionAlone⟩ := halone scaleToken hdigit hpoint
  rw [htext] at hsplit
  refine ⟨text.takeWhile isDigitUnit ++ (fractionToken ++ scaleToken), ?_, ?_, ?_, ?_⟩
  · rw [append_assoc, append_assoc]
    exact hsplit
  · intro unit hunit
    rcases mem_append.mp hunit with hwhole | hmore
    · exact isScalarUnit_of_digit (hdigits unit hwhole)
    rcases mem_append.mp hmore with hmem | hmem
    · exact hfractionUnits unit hmem
    · exact hscaleUnits unit hmem
  · obtain ⟨unit, more, hhead⟩ := exists_cons_of_ne_nil hne
    refine ⟨unit, by rw [hhead]; rfl, ?_⟩
    apply hdigits
    rw [hhead]
    exact mem_cons_self
  · exact readMagnitude_append hdigits hne hlead hnoDigit hfractionAlone hscaleAlone

theorem readNumber_token {value : ℚ} (hread : readNumber text = some (value, rest)) :
    ∃ token, text = token ++ rest ∧ (∀ unit ∈ token, isScalarUnit unit = true) ∧
      (∃ unit, token.head? = some unit ∧ (isDigitUnit unit = true ∨ unit = minusUnit)) ∧
      readNumber token = some (value, []) := by
  cases text with
  | nil => cases hread
  | cons unit text =>
    rw [readNumber] at hread
    split_ifs at hread with hminus
    · obtain ⟨read, hinner, heq⟩ := map_eq_some_iff.mp hread
      cases heq
      obtain ⟨token, htext, hunits, -, htoken⟩ := readMagnitude_token hinner
      refine ⟨unit :: token, by rw [htext]; rfl, ?_, ⟨unit, rfl, .inr hminus⟩, ?_⟩
      · refine forall_mem_cons.mpr ⟨?_, hunits⟩
        rw [hminus]
        decide
      rw [readNumber, if_pos hminus, htoken]
      rfl
    obtain ⟨token, htext, hunits, ⟨first, hfirst, hdigit⟩, htoken⟩ :=
      readMagnitude_token hread
    refine ⟨token, htext, hunits, ⟨first, hfirst, .inl hdigit⟩, ?_⟩
    cases token with
    | nil => cases hfirst
    | cons head more =>
      cases htext
      rw [readNumber, if_neg hminus, htoken]

/-- A keyword or a number in front of a text. -/
theorem readScalar_token {value : JsonValue} (hread : readScalar text = some (value, rest)) :
    ∃ token, text = token ++ rest ∧ token ≠ [] ∧
      (∀ unit ∈ token, isScalarUnit unit = true) ∧
      ((token = nullText ∧ value = .null) ∨ (token = trueText ∧ value = .bool true) ∨
        (token = falseText ∧ value = .bool false) ∨
        ∃ number, value = .num number ∧ readNumber token = some (number, []) ∧
          ∃ unit, token.head? = some unit ∧
            (isDigitUnit unit = true ∨ unit = minusUnit)) := by
  rw [readScalar] at hread
  split_ifs at hread with hnull htrue hfalse
  · cases hread
    obtain ⟨other, rfl⟩ := isPrefixOf_iff_prefix.mp hnull
    exact ⟨nullText, rfl, by decide, forall_units (by decide), .inl ⟨rfl, rfl⟩⟩
  · cases hread
    obtain ⟨other, rfl⟩ := isPrefixOf_iff_prefix.mp htrue
    exact ⟨trueText, rfl, by decide, forall_units (by decide), .inr (.inl ⟨rfl, rfl⟩)⟩
  · cases hread
    obtain ⟨other, rfl⟩ := isPrefixOf_iff_prefix.mp hfalse
    exact ⟨falseText, rfl, by decide, forall_units (by decide), .inr (.inr (.inl ⟨rfl, rfl⟩))⟩
  obtain ⟨read, hinner, heq⟩ := map_eq_some_iff.mp hread
  cases heq
  obtain ⟨token, htext, hunits, ⟨unit, hhead, hstart⟩, htoken⟩ := readNumber_token hinner
  refine ⟨token, htext, ?_, hunits, .inr (.inr (.inr ⟨read.1, rfl, htoken, unit, hhead, hstart⟩))⟩
  rintro rfl
  cases hhead

end Hummin.JsonText
