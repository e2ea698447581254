/-
The text of a JSON value reads back as the value, whatever follows it.  The
value is one that JavaScript can hold: its numbers are doubles, and the fields
of its objects stand in own-property order.
-/
import Hummin.JsonText
import Hummin.WellFormedText

namespace Hummin.JsonText

open List PropertyList

/-- Field names in own-property order, each once. -/
def Ordered (fields : List (JsString × JsonValue)) : Prop :=
  fields.Pairwise fun former later =>
    former.1 ≠ later.1 ∧ keyPrecedes later.1 former.1 = false

instance (fields : List (JsString × JsonValue)) : Decidable (Ordered fields) :=
  inferInstanceAs (Decidable (List.Pairwise _ _))

/-- The JSON values that JavaScript holds. -/
inductive Held : JsonValue → Prop
  | null : Held .null
  | bool (value : Bool) : Held (.bool value)
  | num {value : ℚ} (hdouble : IsDouble value) : Held (.num value)
  | str (text : JsString) : Held (.str text)
  | arr {items : List JsonValue} (hitems : ∀ item ∈ items, Held item) :
      Held (.arr () items)
  | obj {fields : List (JsString × JsonValue)} (hordered : Ordered fields)
      (hfields : ∀ field ∈ fields, Held field.2) : Held (.obj () fields)

/-! ### Fields -/

variable {fields : List (JsString × JsonValue)}

theorem put_append {key : JsString} {value : JsonValue} (hlast : ∀ field ∈ fields,
      field.1 ≠ key ∧ keyPrecedes key field.1 = false) :
    put keyPrecedes key value fields = fields ++ [(key, value)] := by
  have hnone : get key fields = none := by
    rw [get_eq_none_iff]
    intro hmem
    obtain ⟨field, hfield, hname⟩ := mem_map.mp hmem
    exact (hlast field hfield).1 hname
  rw [put, hnone, if_neg (by simp)]
  clear hnone
  induction fields with
  | nil => rfl
  | cons field rest ih =>
    rw [place, (hlast field mem_cons_self).2,
      if_neg (by simp), cons_append,
      ih fun other hother => hlast other (mem_cons_of_mem field hother)]

theorem foldl_put_eq_append {entries : List (JsString × JsonValue)}
    (hordered : Ordered (fields ++ entries)) :
    entries.foldl (fun fields entry =>
      put keyPrecedes entry.1 entry.2 fields) fields =
        fields ++ entries := by
  induction entries generalizing fields with
  | nil => simp
  | cons entry rest ih =>
    have hlast := (pairwise_append.mp hordered).2.2
    rw [foldl_cons, put_append fun field hfield =>
      hlast field hfield entry mem_cons_self]
    have hmoved : fields ++ entry :: rest = fields ++ [entry] ++ rest := by
      simp
    rw [hmoved] at hordered
    rw [ih hordered, hmoved]

/-- Fields that stand in order are the fields of their object. -/
theorem fromEntries_of_ordered (hordered : Ordered fields) : fromEntries fields = fields := by
  rw [fromEntries, foldl_put_eq_append (by simpa using hordered)]
  rfl

/-! ### The first code unit of a value -/

variable {value : JsonValue} {text : JsString}

theorem readNumber_head {read : ℚ × JsString} (hread : readNumber text = some read) :
    ∃ unit rest, text = unit :: rest ∧ (unit = minusUnit ∨ isDigitUnit unit = true) := by
  cases text with
  | nil => simp [readNumber] at hread
  | cons unit rest =>
    refine ⟨unit, rest, rfl, ?_⟩
    by_contra hnot
    rw [not_or, Bool.not_eq_true] at hnot
    rw [readNumber, if_neg hnot.1, readMagnitude,
      takeWhile_cons_of_neg (by simp [hnot.2])] at hread
    simp at hread

theorem numberText_head {value : ℚ} (hdouble : IsDouble value) :
    ∃ unit rest, numberText value = unit :: rest ∧
      (unit = minusUnit ∨ isDigitUnit unit = true) := by
  have hread := readNumber_numberText hdouble
    (show stopsNumber [] = true by decide)
  rw [append_nil] at hread
  exact readNumber_head hread

theorem abs_lt_infinite {value : ℚ} (hdouble : IsDouble value) :
    |value| < infinite := by
  by_cases hzero : value = 0
  · rw [hzero, abs_zero, infinite]
    positivity
  apply lt_of_isDouble (abs_pos.mpr hzero)
  rw [IsDouble, abs_abs]
  exact hdouble

theorem stringify_num {value : ℚ} (hdouble : IsDouble value) :
    stringify (.num value) = numberText value := by
  rw [stringify, if_pos (abs_lt_infinite hdouble)]

/-- A unit that a value can start with: no space, no closing bracket. -/
def startsValue (unit : UInt16) : Bool :=
  !isSpace unit && unit != closeBracket

variable {unit : UInt16}

theorem startsValue_of_number (hunit : unit = minusUnit ∨ isDigitUnit unit = true) :
    startsValue unit = true := by
  rcases hunit with rfl | hdigit
  · decide
  simp only [isDigitUnit, Bool.and_eq_true, decide_eq_true_eq] at hdigit
  have hne : ∀ other : UInt16, (other.toNat < 48 ∨ 57 < other.toNat) →
      unit ≠ other := by
    rintro other hother rfl
    omega
  simp [startsValue, isSpace, closeBracket, hne]

theorem stringify_head (hheld : Held value) :
    ∃ unit rest, stringify value = unit :: rest ∧ startsValue unit = true := by
  cases hheld with
  | null => exact ⟨_, _, rfl, by decide⟩
  | bool value => cases value <;> exact ⟨_, _, rfl, by decide⟩
  | num hdouble =>
    obtain ⟨unit, rest, htext, hunit⟩ := numberText_head hdouble
    exact ⟨unit, rest, (stringify_num hdouble).trans htext, startsValue_of_number hunit⟩
  | str text => exact ⟨34, _, by rw [stringify, JsonQuote.quote]; rfl, by decide⟩
  | arr hitems => exact ⟨openBracket, _, by rw [stringify], by decide⟩
  | obj hordered hfields => exact ⟨openBrace, _, by rw [stringify], by decide⟩

theorem skipSpace_cons (hunit : isSpace unit = false)
    (rest : JsString) : skipSpace (unit :: rest) = unit :: rest := by
  rw [skipSpace, dropWhile_cons_of_neg (by simp [hunit])]

theorem skipSpace_stringify (hheld : Held value)
    (rest : JsString) : skipSpace (stringify value ++ rest) = stringify value ++ rest := by
  obtain ⟨unit, tail, htext, hunit⟩ := stringify_head hheld
  simp only [startsValue, Bool.and_eq_true, Bool.not_eq_true'] at hunit
  rw [htext, cons_append, skipSpace_cons hunit.1]

/-! ### Reading what was written -/

/-- The parser reads the text of a value with fuel for its length. -/
def ReadsBack (value : JsonValue) : Prop :=
  ∀ fuel rest, (stringify value).length ≤ fuel → stopsNumber rest = true →
    parseValue fuel (stringify value ++ rest) = some (value, rest)

theorem stringifyMore_cons (item : JsonValue) (rest : List JsonValue) :
    stringifyMore (item :: rest) = commaUnit :: stringifyItems (item :: rest) := by
  rw [stringifyMore, stringifyItems]

theorem stringifyOthers_cons (field : JsString × JsonValue) (rest : List (JsString × JsonValue)) :
    stringifyOthers (field :: rest) = commaUnit :: stringifyFields (field :: rest) := by
  rw [stringifyOthers, stringifyFields]

variable {items : List JsonValue}

theorem parseItems_stringifyItems (hne : items ≠ [])
    (hreads : ∀ item ∈ items, ReadsBack item) {fuel : Nat}
    (hfuel : (stringifyItems items).length < fuel) (rest : JsString) :
    parseItems fuel (stringifyItems items ++ closeBracket :: rest) = some (items, rest) := by
  induction items generalizing fuel with
  | nil => exact absurd rfl hne
  | cons item tail ih =>
    obtain ⟨fuel, rfl⟩ := Nat.exists_eq_add_of_lt (Nat.zero_lt_of_lt hfuel)
    rw [Nat.zero_add] at hfuel ⊢
    rw [stringifyItems, length_append] at hfuel
    rw [stringifyItems, append_assoc, parseItems]
    have hitem := hreads item mem_cons_self fuel
    cases tail with
    | nil =>
      rw [stringifyMore, nil_append, hitem _ (by omega) rfl]
      simp [skipSpace_cons (show isSpace closeBracket = false by decide),
        show closeBracket ≠ commaUnit by decide]
    | cons next more =>
      rw [stringifyMore_cons, length_cons] at hfuel
      rw [stringifyMore_cons, cons_append,
        hitem _ (by omega) rfl]
      simp only [skipSpace_cons (show isSpace commaUnit = false by decide)]
      rw [if_pos trivial, ih (by simp)
        (fun other hother => hreads other (mem_cons_of_mem item hother))
        (by omega)]
      rfl

theorem parseKey_quote (key rest : JsString) :
    parseKey (JsonQuote.quote key ++ colonUnit :: rest) = some (key, rest) := by
  rw [parseKey, JsonQuote.quote, cons_append, cons_append,
    skipSpace_cons (by decide)]
  simp only [quoteUnit, if_true, append_assoc, singleton_append]
  rw [JsonQuote.readBody_quoteBody false key _ (by simp)]
  simp [skipSpace_cons (show isSpace colonUnit = false by decide)]

theorem parseFields_stringifyFields (hne : fields ≠ [])
    (hreads : ∀ field ∈ fields, ReadsBack field.2)
    {fuel : Nat} (hfuel : (stringifyFields fields).length < fuel) (rest : JsString) :
    parseFields fuel (stringifyFields fields ++ closeBrace :: rest) = some (fields, rest) := by
  induction fields generalizing fuel with
  | nil => exact absurd rfl hne
  | cons field tail ih =>
    obtain ⟨fuel, rfl⟩ := Nat.exists_eq_add_of_lt (Nat.zero_lt_of_lt hfuel)
    rw [Nat.zero_add] at hfuel ⊢
    obtain ⟨key, value⟩ := field
    rw [stringifyFields, length_append, length_cons, length_append] at hfuel
    rw [stringifyFields, append_assoc, cons_append, append_assoc, parseFields, parseKey_quote]
    have hvalue : ReadsBack value := hreads (key, value) mem_cons_self
    cases tail with
    | nil =>
      simp only [stringifyOthers, nil_append]
      rw [hvalue fuel _ (by omega) rfl]
      simp [skipSpace_cons (show isSpace closeBrace = false by decide),
        show closeBrace ≠ commaUnit by decide]
    | cons next more =>
      rw [stringifyOthers_cons, length_cons] at hfuel
      simp only [stringifyOthers_cons, cons_append]
      rw [hvalue fuel _ (by omega) rfl]
      simp only [skipSpace_cons (show isSpace commaUnit = false by decide)]
      rw [if_pos trivial, ih (by simp)
        (fun other hother => hreads other (mem_cons_of_mem _ hother))
        (by omega)]
      rfl

theorem stringifyItems_head (hne : items ≠ [])
    (hheld : ∀ item ∈ items, Held item) (rest : JsString) :
    (skipSpace (stringifyItems items ++ rest)).head? ≠ some closeBracket := by
  cases items with
  | nil => exact absurd rfl hne
  | cons item tail =>
    have hitem := hheld item mem_cons_self
    obtain ⟨unit, text, htext, hunit⟩ := stringify_head hitem
    rw [stringifyItems, append_assoc, skipSpace_stringify hitem, htext]
    simp only [startsValue, Bool.and_eq_true, bne_iff_ne] at hunit
    simpa using hunit.2

theorem stringifyFields_head (hne : fields ≠ []) (rest : JsString) :
    (skipSpace (stringifyFields fields ++ rest)).head? ≠ some closeBrace := by
  cases fields with
  | nil => exact absurd rfl hne
  | cons field tail =>
    rw [stringifyFields, JsonQuote.quote, cons_append, cons_append,
      cons_append, skipSpace_cons (by decide), head?_cons]
    decide

variable {rest : JsString}

/-- No keyword starts like a number. -/
theorem keyword_isPrefixOf {keyword : JsString} {value : ℚ}
    {first : UInt16} (hread : readNumber text = some (value, rest))
    (hminus : first ≠ minusUnit) (hdigit : isDigitUnit first = false) :
    (first :: keyword).isPrefixOf text = false := by
  obtain ⟨unit, body, rfl, hunit⟩ := readNumber_head hread
  have hne : first ≠ unit := by
    rintro rfl
    rcases hunit with heq | hdigit'
    · exact hminus heq
    rw [hdigit] at hdigit'
    cases hdigit'
  rw [isPrefixOf, beq_eq_false_iff_ne.mpr hne, Bool.false_and]

theorem readScalar_of_readNumber {value : ℚ} (hread : readNumber text = some (value, rest)) :
    readScalar text = some (.num value, rest) := by
  rw [readScalar, nullText, trueText, falseText]
  simp only [js, map_cons]
  rw [keyword_isPrefixOf hread (by decide) (by decide),
    keyword_isPrefixOf hread (by decide) (by decide),
    keyword_isPrefixOf hread (by decide) (by decide), hread]
  rfl

theorem readScalar_numberText {value : ℚ} (hdouble : IsDouble value)
    (hstop : stopsNumber rest = true) :
    readScalar (numberText value ++ rest) = some (.num value, rest) :=
  readScalar_of_readNumber (readNumber_numberText hdouble hstop)

/-- A value that starts with no quote or bracket is a scalar. -/
theorem parseValue_scalar (hspace : isSpace unit = false)
    (hquote : unit ≠ quoteUnit) (hbracket : unit ≠ openBracket)
    (hbrace : unit ≠ openBrace) (fuel : Nat) (rest : JsString) :
    parseValue (fuel + 1) (unit :: rest) = readScalar (unit :: rest) := by
  rw [parseValue, skipSpace_cons hspace]
  simp only
  rw [if_neg hquote, if_neg hbracket, if_neg hbrace]

theorem stringify_length_pos (hheld : Held value) : 0 < (stringify value).length := by
  obtain ⟨unit, rest, htext, -⟩ := stringify_head hheld
  simp [htext]

/-- The parser starts with a unit of fuel, as no text is empty. -/
theorem ReadsBack.of_succ (hheld : Held value)
    (hreads : ∀ fuel rest, (stringify value).length ≤ fuel + 1 → stopsNumber rest = true →
        parseValue (fuel + 1) (stringify value ++ rest) = some (value, rest)) :
    ReadsBack value := by
  intro fuel rest hfuel hstop
  have hpos := stringify_length_pos hheld
  obtain ⟨fuel, rfl⟩ := Nat.exists_eq_add_of_le (show 1 ≤ fuel by omega)
  rw [Nat.add_comm] at hfuel ⊢
  exact hreads fuel rest hfuel hstop

theorem readsBack_num {value : ℚ} (hdouble : IsDouble value) : ReadsBack (.num value) := by
  apply ReadsBack.of_succ (.num hdouble)
  intro fuel rest _ hstop
  have hscalar := readScalar_numberText hdouble hstop
  obtain ⟨unit, text, htext, hunit⟩ := numberText_head hdouble
  have hplain : unit ≠ quoteUnit ∧ unit ≠ openBracket ∧ unit ≠ openBrace := by
    refine ⟨?_, ?_, ?_⟩ <;> (rintro rfl; revert hunit; decide)
  have hspace := startsValue_of_number hunit
  simp only [startsValue, Bool.and_eq_true, Bool.not_eq_true'] at hspace
  rw [htext, cons_append] at hscalar
  rw [stringify_num hdouble, htext, cons_append,
    parseValue_scalar hspace.1 hplain.1 hplain.2.1 hplain.2.2, hscalar]

theorem readsBack_str (text : JsString) : ReadsBack (.str text) := by
  apply ReadsBack.of_succ (.str text)
  intro fuel rest _ _
  rw [stringify, JsonQuote.quote, cons_append, cons_append, parseValue,
    skipSpace_cons (by decide)]
  simp only [quoteUnit, if_true, append_assoc, singleton_append]
  rw [JsonQuote.readBody_quoteBody false text rest (by simp)]
  rfl

theorem readsBack_arr (hheld : ∀ item ∈ items, Held item)
    (hreads : ∀ item ∈ items, ReadsBack item) : ReadsBack (.arr () items) := by
  apply ReadsBack.of_succ (.arr hheld)
  intro fuel rest hfuel _
  rw [stringify, length_cons, length_append, length_singleton]
    at hfuel
  rw [stringify, cons_append, append_assoc, singleton_append,
    parseValue, skipSpace_cons (by decide)]
  simp only [show openBracket ≠ quoteUnit by decide, if_true, if_false]
  cases items with
  | nil =>
    rw [stringifyItems, nil_append, skipSpace_cons (by decide)]
    rfl
  | cons item tail =>
    rw [if_neg (stringifyItems_head (by simp) hheld _),
      parseItems_stringifyItems (by simp) hreads (by omega)]
    rfl

theorem readsBack_obj (hordered : Ordered fields) (hheld : ∀ field ∈ fields, Held field.2)
    (hreads : ∀ field ∈ fields, ReadsBack field.2) : ReadsBack (.obj () fields) := by
  apply ReadsBack.of_succ (.obj hordered hheld)
  intro fuel rest hfuel _
  rw [stringify, length_cons, length_append, length_singleton]
    at hfuel
  rw [stringify, cons_append, append_assoc, singleton_append,
    parseValue, skipSpace_cons (by decide)]
  simp only [show openBrace ≠ quoteUnit by decide,
    show openBrace ≠ openBracket by decide, if_true, if_false]
  cases fields with
  | nil =>
    rw [stringifyFields, nil_append, skipSpace_cons (by decide)]
    rfl
  | cons field tail =>
    rw [if_neg (stringifyFields_head (by simp) _),
      parseFields_stringifyFields (by simp) hreads (by omega),
      Option.map_some, fromEntries_of_ordered hordered]

/-- A value's text reads back as the value. -/
theorem readsBack_of_held (hheld : Held value) : ReadsBack value := by
  induction hheld with
  | null =>
    apply ReadsBack.of_succ .null
    intro fuel rest _ _
    rw [stringify]
    exact parseValue_scalar (by decide) (by decide) (by decide) (by decide) fuel _
  | bool value =>
    apply ReadsBack.of_succ (.bool value)
    intro fuel rest _ _
    rw [stringify]
    cases value <;>
      exact parseValue_scalar (by decide) (by decide) (by decide) (by decide)
        fuel _
  | num hdouble => exact readsBack_num hdouble
  | str text => exact readsBack_str text
  | arr hitems ih => exact readsBack_arr hitems ih
  | obj hordered hfields ih => exact readsBack_obj hordered hfields ih

/-- `JSON.parse` undoes `JSON.stringify`. -/
theorem parse_stringify (hheld : Held value) : parse (stringify value) = some value := by
  have hread := readsBack_of_held hheld ((stringify value).length + 1) []
    (by omega) rfl
  rw [append_nil] at hread
  rw [parse, hread]
  rfl

/-! ### Well-formed text -/

theorem toNat_hexUnit_lt {digit : Nat} (hdigit : digit < 16) :
    (JsonQuote.hexUnit digit).toNat < 0xD800 := by
  have hall : ∀ d < 16, (JsonQuote.hexUnit d).toNat < 0xD800 := by decide
  exact hall digit hdigit

theorem isWellFormed_escapeHex (unit : UInt16) :
    isWellFormed (JsonQuote.escapeHex unit) = true := by
  have hlt : unit.toNat < 65536 := unit.toNat_lt
  apply isWellFormed_of_lt
  intro other hother
  simp only [JsonQuote.escapeHex, mem_cons, not_mem_nil, or_false]
    at hother
  rcases hother with rfl | rfl | rfl | rfl | rfl | rfl
  · decide
  · decide
  all_goals exact toNat_hexUnit_lt (by omega)

theorem isWellFormed_quoteUnit (hunit : ¬ (JsonQuote.isHigh unit || JsonQuote.isLow unit) = true) :
    isWellFormed (JsonQuote.quoteUnit unit) = true := by
  rw [Bool.not_eq_true, Bool.or_eq_false_iff] at hunit
  unfold JsonQuote.quoteUnit
  split_ifs
  · rw [isWellFormed_cons (by decide) (by decide),
      isWellFormed_cons hunit.1 hunit.2, isWellFormed]
  all_goals first
    | rfl
    | exact isWellFormed_escapeHex unit
    | rw [isWellFormed_cons hunit.1 hunit.2, isWellFormed]

/-- A literal escapes every surrogate that stands alone. -/
theorem isWellFormed_quoteBody (text : JsString) :
    isWellFormed (JsonQuote.quoteBody false text) = true ∧
      ∀ high, JsonQuote.isHigh high = true →
        JsonQuote.startsLow text = true →
          isWellFormed (high :: JsonQuote.quoteBody true text) = true := by
  induction text with
  | nil => simp [JsonQuote.quoteBody, isWellFormed, JsonQuote.startsLow]
  | cons unit rest ih =>
    constructor
    · rw [JsonQuote.quoteBody]
      split_ifs with hpair hlone
      · rw [Bool.and_eq_true] at hpair
        exact ih.2 unit hpair.1 hpair.2
      · exact isWellFormed_append (isWellFormed_escapeHex unit) ih.1
      · exact isWellFormed_append (isWellFormed_quoteUnit hlone) ih.1
    intro high hhigh hlow
    rw [JsonQuote.startsLow, head?_cons, Option.any_some] at hlow
    rw [JsonQuote.quoteBody, isWellFormed, if_pos (by simp [hhigh, hlow])]
    exact ih.1

theorem isWellFormed_quote (text : JsString) : isWellFormed (JsonQuote.quote text) = true := by
  rw [JsonQuote.quote, cons_append,
    isWellFormed_cons (by decide) (by decide)]
  exact isWellFormed_append (isWellFormed_quoteBody text).1 rfl

theorem isDigitUnit_of_mem_significand {value : ℚ} {unit : UInt16}
    (hunit : unit ∈ (significand value).1) : isDigitUnit unit = true := by
  simp only [significand, placeDigits.eq_def] at hunit
  split at hunit
  · split at hunit <;> simp only at hunit <;>
      exact isDigitUnit_of_mem_decimal hunit
  · simp at hunit

/-- The units of a number's text. -/
def isNumberUnit (unit : UInt16) : Bool :=
  isDigitUnit unit || unit == pointUnit || unit == minusUnit ||
    unit == plusUnit || unit == exponentUnit

theorem isNumberUnit_of_isDigitUnit (hdigit : isDigitUnit unit = true) :
    isNumberUnit unit = true := by
  simp [isNumberUnit, hdigit]

theorem toNat_of_isNumberUnit (hunit : isNumberUnit unit = true) :
    32 ≤ unit.toNat ∧ unit.toNat < 0xD800 := by
  simp only [isNumberUnit, isDigitUnit, Bool.or_eq_true, Bool.and_eq_true,
    decide_eq_true_eq, beq_iff_eq] at hunit
  rcases hunit with (((hdigit | rfl) | rfl) | rfl) | rfl
  · omega
  all_goals decide

/-- The layout adds signs, a point and an exponent to the digits. -/
theorem isNumberUnit_of_mem_layoutDigits {digits : JsString} {position : ℤ}
    (hdigits : ∀ unit ∈ digits, isDigitUnit unit = true) {unit : UInt16}
    (hunit : unit ∈ layoutDigits digits position) : isNumberUnit unit = true := by
  have hpoint : isNumberUnit pointUnit = true := by decide
  have hplus : isNumberUnit plusUnit = true := by decide
  have hminus : isNumberUnit minusUnit = true := by decide
  have hexponent : isNumberUnit exponentUnit = true := by decide
  have hdigit : ∀ unit, isDigitUnit unit = true → isNumberUnit unit = true :=
    fun unit => isNumberUnit_of_isDigitUnit
  have htake : ∀ count, ∀ unit ∈ digits.take count, isNumberUnit unit = true :=
    fun count unit hunit => hdigit unit (hdigits unit (mem_of_mem_take hunit))
  have hdrop : ∀ count, ∀ unit ∈ digits.drop count, isNumberUnit unit = true :=
    fun count unit hunit => hdigit unit (hdigits unit (mem_of_mem_drop hunit))
  have hzeros : ∀ count, ∀ unit ∈ zeros count, isNumberUnit unit = true :=
    fun count unit hunit => hdigit unit (isDigitUnit_of_mem_zeros hunit)
  have hdecimal : ∀ number, ∀ unit ∈ decimal number, isNumberUnit unit = true :=
    fun number unit hunit => hdigit unit (isDigitUnit_of_mem_decimal hunit)
  rw [layoutDigits] at hunit
  split_ifs at hunit <;>
    simp only [mem_append, mem_cons] at hunit
  · grind
  · grind
  · rcases hunit with rfl | rfl | hunit | hunit
    · decide
    all_goals grind
  all_goals grind

theorem isNumberUnit_of_mem_numberText {value : ℚ} {unit : UInt16}
    (hunit : unit ∈ numberText value) : isNumberUnit unit = true := by
  have hdigits : ∀ unit ∈ layoutDigits (significand |value|).1
      (significand |value|).2, isNumberUnit unit = true := fun unit hunit =>
    isNumberUnit_of_mem_layoutDigits
      (fun _ hdigit => isDigitUnit_of_mem_significand hdigit) hunit
  rw [numberText] at hunit
  split at hunit
  · rw [mem_singleton] at hunit
    subst hunit
    decide
  simp only at hunit
  split at hunit
  · rcases mem_cons.mp hunit with rfl | hunit
    · decide
    · exact hdigits unit hunit
  · exact hdigits unit hunit

theorem isWellFormed_numberText (value : ℚ) : isWellFormed (numberText value) = true :=
  isWellFormed_of_lt fun _ hunit =>
    (toNat_of_isNumberUnit (isNumberUnit_of_mem_numberText hunit)).2

/-- A property of texts that the pieces of a value's text have and that is kept
when texts are put together. -/
structure Composed (Holds : JsString → Prop) : Prop where
  append : ∀ {front back}, Holds front → Holds back → Holds (front ++ back)
  quote : ∀ text, Holds (JsonQuote.quote text)
  number : ∀ value, Holds (numberText value)
  mark : ∀ text ∈ [[], nullText, trueText, falseText, [commaUnit], [colonUnit],
    [openBracket], [closeBracket], [openBrace], [closeBrace]], Holds text

section Composed

variable {Holds : JsString → Prop} (hcomposed : Composed Holds)
include hcomposed

theorem Composed.cons {unit : UInt16}
    (hunit : [unit] ∈ [[], nullText, trueText, falseText, [commaUnit], [colonUnit],
      [openBracket], [closeBracket], [openBrace], [closeBrace]])
    {text : JsString} (htext : Holds text) : Holds (unit :: text) :=
  hcomposed.append (hcomposed.mark [unit] hunit) htext

mutual

theorem Composed.stringify (value : JsonValue) : Holds (stringify value) := by
  match value with
  | .null => exact hcomposed.mark nullText (by simp)
  | .bool true => exact hcomposed.mark trueText (by simp)
  | .bool false => exact hcomposed.mark falseText (by simp)
  | .num value =>
    rw [JsonText.stringify]
    split
    · exact hcomposed.number value
    · exact hcomposed.mark nullText (by simp)
  | .str text =>
    rw [JsonText.stringify]
    exact hcomposed.quote text
  | .arr _ items =>
    rw [JsonText.stringify]
    exact hcomposed.cons (by simp) (hcomposed.append
      (Composed.stringifyItems items) (hcomposed.mark [closeBracket] (by simp)))
  | .obj _ fields =>
    rw [JsonText.stringify]
    exact hcomposed.cons (by simp) (hcomposed.append
      (Composed.stringifyFields fields) (hcomposed.mark [closeBrace] (by simp)))

theorem Composed.stringifyItems (items : List JsonValue) : Holds (stringifyItems items) := by
  match items with
  | [] => exact hcomposed.mark [] (by simp)
  | item :: rest =>
    rw [JsonText.stringifyItems]
    exact hcomposed.append (Composed.stringify item) (Composed.stringifyMore rest)

theorem Composed.stringifyMore (items : List JsonValue) : Holds (stringifyMore items) := by
  match items with
  | [] => exact hcomposed.mark [] (by simp)
  | item :: rest =>
    rw [JsonText.stringifyMore]
    exact hcomposed.cons (by simp)
      (hcomposed.append (Composed.stringify item) (Composed.stringifyMore rest))

theorem Composed.stringifyFields (fields : List (JsString × JsonValue)) :
    Holds (stringifyFields fields) := by
  match fields with
  | [] => exact hcomposed.mark [] (by simp)
  | (key, value) :: rest =>
    rw [JsonText.stringifyFields]
    exact hcomposed.append (hcomposed.quote key) (hcomposed.cons (by simp)
      (hcomposed.append (Composed.stringify value) (Composed.stringifyOthers rest)))

theorem Composed.stringifyOthers (fields : List (JsString × JsonValue)) :
    Holds (stringifyOthers fields) := by
  match fields with
  | [] => exact hcomposed.mark [] (by simp)
  | (key, value) :: rest =>
    rw [JsonText.stringifyOthers]
    exact hcomposed.cons (by simp) (hcomposed.append (hcomposed.quote key)
      (hcomposed.cons (by simp) (hcomposed.append (Composed.stringify value)
        (Composed.stringifyOthers rest))))

end

end Composed

/-- The text of a value has no lone surrogate. -/
theorem isWellFormed_stringify (value : JsonValue) : isWellFormed (stringify value) = true := by
  have hcomposed : Composed fun text => isWellFormed text = true :=
    { append := isWellFormed_append
      quote := isWellFormed_quote
      number := isWellFormed_numberText
      mark := by decide }
  exact hcomposed.stringify value

theorem control_free_escapeHex (unit : UInt16) :
    ∀ other ∈ JsonQuote.escapeHex unit, 32 ≤ other.toNat := by
  have hlt : unit.toNat < 65536 := unit.toNat_lt
  have hhex : ∀ digit < 16, 32 ≤ (JsonQuote.hexUnit digit).toNat := by decide
  intro other hother
  simp only [JsonQuote.escapeHex, mem_cons, not_mem_nil, or_false]
    at hother
  rcases hother with rfl | rfl | rfl | rfl | rfl | rfl
  · decide
  · decide
  all_goals exact hhex _ (by omega)

theorem control_free_quoteUnit (unit : UInt16) :
    ∀ other ∈ JsonQuote.quoteUnit unit, 32 ≤ other.toNat := by
  intro other hother
  unfold JsonQuote.quoteUnit at hother
  split_ifs at hother with hself _ _ _ _ _ hcontrol
  · simp only [mem_cons, not_mem_nil, or_false] at hother
    rcases hother with rfl | rfl
    · decide
    · rcases hself with rfl | rfl <;> decide
  all_goals first
    | exact control_free_escapeHex unit other hother
    | (simp only [mem_cons, not_mem_nil, or_false] at hother
       rcases hother with rfl | rfl <;> decide)
    | (obtain rfl := mem_singleton.mp hother
       omega)

/-- A literal escapes every control character. -/
theorem control_free_quoteBody (paired : Bool) (text : JsString)
    (hpaired : paired = true → JsonQuote.startsLow text = true) :
    ∀ unit ∈ JsonQuote.quoteBody paired text, 32 ≤ unit.toNat := by
  induction text generalizing paired with
  | nil => cases paired <;> simp [JsonQuote.quoteBody]
  | cons first rest ih =>
    intro unit hunit
    cases paired with
    | true =>
      have hlow : JsonQuote.isLow first = true := by
        simpa [JsonQuote.startsLow] using hpaired rfl
      simp only [JsonQuote.isLow, Bool.and_eq_true, decide_eq_true_eq] at hlow
      rw [JsonQuote.quoteBody, mem_cons] at hunit
      rcases hunit with rfl | hunit
      · omega
      · exact ih false (by simp) unit hunit
    | false =>
      rw [JsonQuote.quoteBody] at hunit
      split_ifs at hunit with hpair hlone
      · rw [Bool.and_eq_true] at hpair
        have hhigh := hpair.1
        simp only [JsonQuote.isHigh, Bool.and_eq_true, decide_eq_true_eq]
          at hhigh
        rcases mem_cons.mp hunit with rfl | hunit
        · omega
        · exact ih true (fun _ => hpair.2) unit hunit
      · rcases mem_append.mp hunit with hunit | hunit
        · exact control_free_escapeHex first unit hunit
        · exact ih false (by simp) unit hunit
      rcases mem_append.mp hunit with hunit | hunit
      · exact control_free_quoteUnit first unit hunit
      · exact ih false (by simp) unit hunit

/-- The text of a value has no control character. -/
theorem control_free_stringify (value : JsonValue) : ∀ unit ∈ stringify value, 32 ≤ unit.toNat := by
  have hcomposed : Composed fun text => ∀ unit ∈ text, 32 ≤ unit.toNat :=
    { append := by
        intro front back hfront hback unit hunit
        rcases mem_append.mp hunit with hunit | hunit
        · exact hfront unit hunit
        · exact hback unit hunit
      quote := by
        intro text unit hunit
        rw [JsonQuote.quote, mem_append, mem_cons] at hunit
        rcases hunit with (rfl | hunit) | hunit
        · decide
        · exact control_free_quoteBody false text (by simp) unit hunit
        obtain rfl := mem_singleton.mp hunit
        decide
      number := fun value unit hunit =>
        (toNat_of_isNumberUnit (isNumberUnit_of_mem_numberText hunit)).1
      mark := by
        intro text htext
        refine forall_units ?_
        revert text
        decide }
  exact hcomposed.stringify value

end Hummin.JsonText
