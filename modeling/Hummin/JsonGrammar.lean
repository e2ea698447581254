/-
JSON text as a grammar.  A derivation says which phrase the front of a text is
and what follows it, without the parser's fuel; the parser finds exactly the
derivations.  What is read does not depend on what follows, unless a number ends
the text.
-/
import Hummin.JsonRoundTrip

namespace Hummin.JsonText

open List Option

/-- What the parser's functions read. -/
inductive Phrase
  | value (value : JsonValue)
  | items (items : List JsonValue)
  | fields (fields : List (JsString × JsonValue))

/-- The front of a text is a phrase, and the rest follows it. -/
inductive Derives : JsString → Phrase → JsString → Prop
  | str {text body string rest : JsString}
      (hspace : skipSpace text = quoteUnit :: body)
      (hbody : JsonQuote.readBody body = some (string, rest)) :
      Derives text (.value (.str string)) rest
  | emptyArr {text body rest : JsString}
      (hspace : skipSpace text = openBracket :: body)
      (hclose : skipSpace body = closeBracket :: rest) :
      Derives text (.value (.arr () [])) rest
  | arr {text body rest : JsString} {items : List JsonValue}
      (hspace : skipSpace text = openBracket :: body)
      (hclose : (skipSpace body).head? ≠ some closeBracket)
      (hitems : Derives body (.items items) rest) :
      Derives text (.value (.arr () items)) rest
  | emptyObj {text body rest : JsString}
      (hspace : skipSpace text = openBrace :: body)
      (hclose : skipSpace body = closeBrace :: rest) :
      Derives text (.value (.obj () [])) rest
  | obj {text body rest : JsString} {entries : List (JsString × JsonValue)}
      (hspace : skipSpace text = openBrace :: body)
      (hclose : (skipSpace body).head? ≠ some closeBrace)
      (hfields : Derives body (.fields entries) rest) :
      Derives text (.value (.obj () (fromEntries entries))) rest
  | scalar {text body rest : JsString} {unit : UInt16} {value : JsonValue}
      (hspace : skipSpace text = unit :: body) (hquote : unit ≠ quoteUnit)
      (hbracket : unit ≠ openBracket) (hbrace : unit ≠ openBrace)
      (hread : readScalar (unit :: body) = some (value, rest)) :
      Derives text (.value value) rest
  | lastItem {text middle rest : JsString} {item : JsonValue}
      (hitem : Derives text (.value item) middle)
      (hclose : skipSpace middle = closeBracket :: rest) :
      Derives text (.items [item]) rest
  | moreItems {text middle others rest : JsString} {item : JsonValue}
      {items : List JsonValue} (hitem : Derives text (.value item) middle)
      (hcomma : skipSpace middle = commaUnit :: others)
      (hitems : Derives others (.items items) rest) :
      Derives text (.items (item :: items)) rest
  | lastField {text after middle rest key : JsString} {value : JsonValue}
      (hkey : parseKey text = some (key, after))
      (hvalue : Derives after (.value value) middle)
      (hclose : skipSpace middle = closeBrace :: rest) :
      Derives text (.fields [(key, value)]) rest
  | moreFields {text after middle others rest key : JsString} {value : JsonValue}
      {fields : List (JsString × JsonValue)}
      (hkey : parseKey text = some (key, after))
      (hvalue : Derives after (.value value) middle)
      (hcomma : skipSpace middle = commaUnit :: others)
      (hfields : Derives others (.fields fields) rest) :
      Derives text (.fields ((key, value) :: fields)) rest

/-! ### The parser finds derivations -/

theorem map_read_eq_some {α β : Type} {read? : Option (α × JsString)}
    {f : α × JsString → β × JsString} {value : β} {rest : JsString}
    (hmap : read?.map f = some (value, rest)) (hrest : ∀ read, (f read).2 = read.2) :
    ∃ read, read? = some (read, rest) ∧ value = (f (read, rest)).1 := by
  obtain ⟨⟨read, after⟩, hread, heq⟩ := map_eq_some_iff.mp hmap
  obtain rfl : after = rest := (hrest _).symm.trans (congrArg Prod.snd heq)
  exact ⟨read, hread, (congrArg Prod.fst heq).symm⟩

theorem drop_of_head? {text : JsString} {unit : UInt16}
    (hhead : text.head? = some unit) : text = unit :: text.drop 1 := by
  cases text with
  | nil => simp at hhead
  | cons first rest =>
    rw [head?_cons, some.injEq] at hhead
    rw [hhead]
    rfl

/-- The parsing function of a phrase reads it. -/
def Phrase.ParsedBy (fuel : Nat) (text rest : JsString) : Phrase → Prop
  | .value found => parseValue fuel text = some (found, rest)
  | .items found => parseItems fuel text = some (found, rest)
  | .fields found => parseFields fuel text = some (found, rest)

section Step

variable {fuel : Nat} (ih : ∀ {text rest : JsString} {phrase : Phrase},
  phrase.ParsedBy fuel text rest → Derives text phrase rest)
include ih

theorem derives_of_parseValue {text rest : JsString} {value : JsonValue}
    (hparse : parseValue (fuel + 1) text = some (value, rest)) :
    Derives text (.value value) rest := by
  rw [parseValue] at hparse
  split at hparse
  · simp at hparse
  rename_i unit body hspace
  split_ifs at hparse with hquote hbracket hclose hbrace hclose
  · subst hquote
    obtain ⟨read, hread, rfl⟩ := map_read_eq_some hparse fun _ => rfl
    exact .str hspace hread
  · subst hbracket
    cases hparse
    exact .emptyArr hspace (drop_of_head? hclose)
  · subst hbracket
    obtain ⟨read, hread, rfl⟩ := map_read_eq_some hparse fun _ => rfl
    exact .arr hspace hclose (ih hread)
  · subst hbrace
    cases hparse
    exact .emptyObj hspace (drop_of_head? hclose)
  · subst hbrace
    obtain ⟨read, hread, rfl⟩ := map_read_eq_some hparse fun _ => rfl
    exact .obj hspace hclose (ih hread)
  · exact .scalar hspace hquote hbracket hbrace hparse

theorem derives_of_parseItems {text rest : JsString} {items : List JsonValue}
    (hparse : parseItems (fuel + 1) text = some (items, rest)) :
    Derives text (.items items) rest := by
  rw [parseItems] at hparse
  split at hparse
  · simp at hparse
  rename_i item middle hitem
  split at hparse
  · simp at hparse
  rename_i unit others hspace
  split_ifs at hparse with hcomma hclose
  · subst hcomma
    obtain ⟨read, hread, rfl⟩ := map_read_eq_some hparse fun _ => rfl
    exact .moreItems (ih hitem) hspace (ih hread)
  subst hclose
  cases hparse
  exact .lastItem (ih hitem) hspace

theorem derives_of_parseFields {text rest : JsString} {fields : List (JsString × JsonValue)}
    (hparse : parseFields (fuel + 1) text = some (fields, rest)) :
    Derives text (.fields fields) rest := by
  rw [parseFields] at hparse
  split at hparse
  · simp at hparse
  rename_i key after hkey
  split at hparse
  · simp at hparse
  rename_i value middle hfield
  split at hparse
  · simp at hparse
  rename_i unit others hspace
  split_ifs at hparse with hcomma hclose
  · subst hcomma
    obtain ⟨read, hread, rfl⟩ := map_read_eq_some hparse fun _ => rfl
    exact .moreFields hkey (ih hfield) hspace (ih hread)
  subst hclose
  cases hparse
  exact .lastField hkey (ih hfield) hspace

end Step

/-- What the parsing functions return has a derivation. -/
theorem derives_of_parsedBy (fuel : Nat) {text rest : JsString} {phrase : Phrase}
    (hparse : phrase.ParsedBy fuel text rest) : Derives text phrase rest := by
  induction fuel generalizing text rest phrase with
  | zero => cases phrase <;> cases hparse
  | succ fuel ih =>
    cases phrase with
    | value value => exact derives_of_parseValue ih hparse
    | items items => exact derives_of_parseItems ih hparse
    | fields fields => exact derives_of_parseFields ih hparse

/-! ### Every phrase takes code units -/

variable {text : JsString}

theorem length_lt_of_skipSpace {body : JsString} {unit : UInt16}
    (hspace : skipSpace text = unit :: body) : body.length < text.length := by
  have hle : (skipSpace text).length ≤ text.length :=
    (dropWhile_suffix isSpace).length_le
  rw [hspace, length_cons] at hle
  omega

theorem length_lt_of_readBody {string rest : JsString}
    (hread : JsonQuote.readBody text = some (string, rest)) : rest.length < text.length := by
  fun_induction JsonQuote.readBody text generalizing string with
  | case1 => simp at hread
  | case2 after =>
    cases hread
    exact Nat.lt_succ_self _
  | case4 a b c d after unit hhex hne ih =>
    obtain ⟨read, hinner, -⟩ := map_read_eq_some hread fun _ => rfl
    have hlt := ih hinner
    simp only [length_cons]
    omega
  | case7 escape after hescape unit hunit hne ih =>
    obtain ⟨read, hinner, -⟩ := map_read_eq_some hread fun _ => rfl
    have hlt := ih hinner
    simp only [length_cons]
    omega
  | case10 unit after hquote hslash hplain ih =>
    obtain ⟨read, hinner, -⟩ := map_read_eq_some hread fun _ => rfl
    have hlt := ih hinner
    simp only [length_cons]
    omega
  | _ => simp at hread

theorem readBody_append {string rest : JsString}
    (hread : JsonQuote.readBody text = some (string, rest)) (tail : JsString) :
    JsonQuote.readBody (text ++ tail) = some (string, rest ++ tail) := by
  fun_induction JsonQuote.readBody text generalizing string with
  | case1 => simp at hread
  | case2 after =>
    cases hread
    rw [cons_append, JsonQuote.readBody.eq_def]
    rfl
  | case4 a b c d after unit hhex hne ih =>
    obtain ⟨read, hinner, rfl⟩ := map_read_eq_some hread fun _ => rfl
    have hnext := ih hinner
    rw [JsonQuote.readBody.eq_def]
    simp [hhex, hnext]
  | case7 escape after hescape unit hunit hne ih =>
    obtain ⟨read, hinner, rfl⟩ := map_read_eq_some hread fun _ => rfl
    rw [cons_append, cons_append, JsonQuote.readBody_escape hescape hunit, ih hinner]
    rfl
  | case10 unit after hquote hslash hplain ih =>
    obtain ⟨read, hinner, rfl⟩ := map_read_eq_some hread fun _ => rfl
    rw [cons_append, JsonQuote.readBody_plain hquote hslash hplain, ih hinner]
    rfl
  | _ => simp at hread

/-! ### Numbers before more text -/

variable {key rest tail : JsString}

theorem digits_append (hstop : text.dropWhile isDigitUnit = [] → noDigit tail = true) :
    (text ++ tail).takeWhile isDigitUnit = text.takeWhile isDigitUnit ∧
      (text ++ tail).dropWhile isDigitUnit =
        text.dropWhile isDigitUnit ++ tail := by
  induction text with
  | nil =>
    have hplain := @takeWhile_digits [] tail (by simp) (hstop rfl)
    simpa using hplain
  | cons unit rest ih =>
    by_cases hdigit : isDigitUnit unit
    · simp only [cons_append, dropWhile_cons_of_pos hdigit, takeWhile_cons_of_pos hdigit] at hstop ⊢
      obtain ⟨htake, hdrop⟩ := ih hstop
      exact ⟨by rw [htake], hdrop⟩
    · simp [hdigit]

theorem readUnsigned_extend {value : Nat} (hread : readUnsigned text = some (value, rest))
    (hstop : rest = [] → noDigit tail = true) :
    readUnsigned (text ++ tail) = some (value, rest ++ tail) := by
  simp only [readUnsigned] at hread ⊢
  split_ifs at hread with hempty
  cases hread
  obtain ⟨htake, hdrop⟩ := digits_append hstop
  rw [htake, hdrop, if_neg hempty]

theorem readSigned_extend {value : ℤ} (hread : readSigned text = some (value, rest))
    (hstop : rest = [] → noDigit tail = true) :
    readSigned (text ++ tail) = some (value, rest ++ tail) := by
  cases text with
  | nil => simp [readSigned] at hread
  | cons unit text =>
    rw [cons_append]
    rw [readSigned] at hread ⊢
    split_ifs at hread ⊢ with hminus hplus
    all_goals
      obtain ⟨read, hinner, rfl⟩ := map_read_eq_some hread fun _ => rfl
    · rw [readUnsigned_extend hinner hstop]
      rfl
    · rw [readUnsigned_extend hinner hstop]
      rfl
    have hnext := readUnsigned_extend hinner hstop
    rw [cons_append] at hnext
    rw [hnext]
    rfl

theorem readFraction_extend {digits rest tail : JsString}
    (hread : readFraction text = some (digits, rest))
    (hstop : rest = [] → stopsNumber tail = true) :
    readFraction (text ++ tail) = some (digits, rest ++ tail) := by
  cases text with
  | nil =>
    cases hread
    obtain ⟨-, hpoint, -⟩ := stopsNumber_spec (hstop rfl)
    exact readFraction_none hpoint
  | cons unit text =>
    rw [cons_append]
    simp only [readFraction] at hread ⊢
    by_cases hunit : unit = pointUnit
    · rw [if_pos hunit] at hread ⊢
      split_ifs at hread with hempty
      cases hread
      obtain ⟨htake, hdrop⟩ := digits_append fun hrest =>
        (stopsNumber_spec (hstop hrest)).1
      rw [htake, hdrop, if_neg hempty]
    rw [if_neg hunit] at hread ⊢
    cases hread
    rfl

theorem readScale_extend {scale : ℤ} (hread : readScale text = some (scale, rest))
    (hstop : rest = [] → stopsNumber tail = true) :
    readScale (text ++ tail) = some (scale, rest ++ tail) := by
  cases text with
  | nil =>
    cases hread
    obtain ⟨-, -, hexponent⟩ := stopsNumber_spec (hstop rfl)
    exact readScale_none hexponent
  | cons unit text =>
    rw [cons_append]
    rw [readScale] at hread ⊢
    split_ifs at hread ⊢ with hunit
    · exact readSigned_extend hread fun hrest =>
        (stopsNumber_spec (hstop hrest)).1
    cases hread
    rfl

/-- The steps of a magnitude that was read. -/
theorem readMagnitude_eq_some {value : ℚ} (hread : readMagnitude text = some (value, rest)) :
    (text.takeWhile isDigitUnit).isEmpty = false ∧
      hasLeadingZero (text.takeWhile isDigitUnit) = false ∧
      ∃ fraction middle scale,
        readFraction (text.dropWhile isDigitUnit) = some (fraction, middle) ∧
        readScale middle = some (scale, rest) ∧
        value = roundNumber (decimalValue (text.takeWhile isDigitUnit ++ fraction) *
            (10 : ℚ) ^ (scale - (fraction.length : ℤ))) := by
  rw [readMagnitude] at hread
  split_ifs at hread with hbad
  rw [Bool.or_eq_true, not_or, Bool.not_eq_true, Bool.not_eq_true] at hbad
  obtain ⟨⟨fraction, middle⟩, hfraction, hread⟩ := bind_eq_some_iff.mp hread
  obtain ⟨⟨scale, after⟩, hscale, hread⟩ := bind_eq_some_iff.mp hread
  cases hread
  exact ⟨hbad.1, hbad.2, fraction, middle, scale, hfraction, hscale, rfl⟩

theorem readMagnitude_extend {value : ℚ} (hread : readMagnitude text = some (value, rest))
    (hstop : rest = [] → stopsNumber tail = true) :
    readMagnitude (text ++ tail) = some (value, rest ++ tail) := by
  obtain ⟨hsome, hlead, fraction, middle, scale, hfraction, hscale, rfl⟩ :=
    readMagnitude_eq_some hread
  -- Each step leaves nothing only when the whole number leaves nothing.
  have hmiddle : middle = [] → rest = [] := by
    rintro rfl
    cases hscale
    rfl
  have hwhole : text.dropWhile isDigitUnit = [] → rest = [] := by
    intro hnil
    rw [hnil] at hfraction
    cases hfraction
    exact hmiddle rfl
  obtain ⟨htake, hdrop⟩ := digits_append fun hnil =>
    (stopsNumber_spec (hstop (hwhole hnil))).1
  rw [readMagnitude, htake, hdrop]
  simp only [hsome, hlead, Bool.or_self, Bool.false_eq_true, if_false]
  rw [readFraction_extend hfraction fun hnil => hstop (hmiddle hnil)]
  simp only [bind_eq_bind, bind_some]
  rw [readScale_extend hscale hstop]
  rfl

theorem readNumber_extend {value : ℚ} (hread : readNumber text = some (value, rest))
    (hstop : rest = [] → stopsNumber tail = true) :
    readNumber (text ++ tail) = some (value, rest ++ tail) := by
  cases text with
  | nil => simp [readNumber] at hread
  | cons unit text =>
    rw [cons_append]
    rw [readNumber] at hread ⊢
    by_cases hminus : unit = minusUnit
    · rw [if_pos hminus] at hread ⊢
      obtain ⟨read, hinner, rfl⟩ := map_read_eq_some hread fun _ => rfl
      rw [readMagnitude_extend hinner hstop]
      rfl
    rw [if_neg hminus] at hread ⊢
    exact readMagnitude_extend hread hstop

variable {value : JsonValue}

/-- A scalar is a keyword or a number. -/
theorem readScalar_eq_some (hread : readScalar text = some (value, rest)) :
    (∃ keyword, text = keyword ++ rest ∧ keyword ≠ [] ∧ (∀ other,
      readScalar (keyword ++ other) = some (value, other)) ∧
      (value = .null ∨ ∃ truth, value = .bool truth)) ∨
    ∃ number, value = .num number ∧ readNumber text = some (number, rest) := by
  rw [readScalar] at hread
  split_ifs at hread with hnull htrue hfalse
  · cases hread
    obtain ⟨other, rfl⟩ := isPrefixOf_iff_prefix.mp hnull
    exact .inl ⟨nullText, rfl, by decide, fun other => rfl, .inl rfl⟩
  · cases hread
    obtain ⟨other, rfl⟩ := isPrefixOf_iff_prefix.mp htrue
    exact .inl ⟨trueText, rfl, by decide, fun other => rfl, .inr ⟨true, rfl⟩⟩
  · cases hread
    obtain ⟨other, rfl⟩ := isPrefixOf_iff_prefix.mp hfalse
    exact .inl ⟨falseText, rfl, by decide, fun other => rfl, .inr ⟨false, rfl⟩⟩
  · obtain ⟨read, hinner, rfl⟩ := map_read_eq_some hread fun _ => rfl
    exact .inr ⟨read, rfl, hinner⟩

/-! ### Derivations are found -/

theorem length_le_of_readUnsigned {value : Nat} (hread : readUnsigned text = some (value, rest)) :
    rest.length ≤ text.length := by
  simp only [readUnsigned] at hread
  split_ifs at hread
  cases hread
  exact (dropWhile_suffix isDigitUnit).length_le

theorem length_le_of_readScale {scale : ℤ}
    (hread : readScale text = some (scale, rest)) : rest.length ≤ text.length := by
  cases text with
  | nil =>
    cases hread
    exact Nat.le_refl 0
  | cons unit text =>
    rw [readScale] at hread
    split_ifs at hread with hunit
    · cases text with
      | nil => simp [readSigned] at hread
      | cons sign text =>
        rw [readSigned] at hread
        split_ifs at hread
        all_goals
          obtain ⟨read, hinner, -⟩ := map_read_eq_some hread fun _ => rfl
          have hle := length_le_of_readUnsigned hinner
          simp only [length_cons] at hle ⊢
          omega
    · cases hread
      exact le_rfl

theorem length_le_of_readFraction {digits rest : JsString}
    (hread : readFraction text = some (digits, rest)) : rest.length ≤ text.length := by
  cases text with
  | nil =>
    cases hread
    exact Nat.le_refl 0
  | cons unit text =>
    simp only [readFraction] at hread
    split_ifs at hread
    · cases hread
      have hle : (text.dropWhile isDigitUnit).length ≤ text.length :=
        (dropWhile_suffix isDigitUnit).length_le
      rw [length_cons]
      omega
    cases hread
    exact le_rfl

theorem length_lt_of_readMagnitude {value : ℚ} (hread : readMagnitude text = some (value, rest)) :
    rest.length < text.length := by
  obtain ⟨hsome, -, fraction, middle, scale, hfraction, hscale, -⟩ :=
    readMagnitude_eq_some hread
  have hmiddle := length_le_of_readFraction hfraction
  have hrest := length_le_of_readScale hscale
  have hsplit : (text.takeWhile isDigitUnit ++
      text.dropWhile isDigitUnit).length = text.length := by
    rw [takeWhile_append_dropWhile]
  have hpos : 0 < (text.takeWhile isDigitUnit).length := by
    apply length_pos_iff.mpr
    intro hnil
    rw [hnil] at hsome
    simp at hsome
  rw [length_append] at hsplit
  omega

theorem length_lt_of_readScalar (hread : readScalar text = some (value, rest)) :
    rest.length < text.length := by
  rcases readScalar_eq_some hread with
    ⟨keyword, rfl, hne, -, -⟩ | ⟨number, -, hnumber⟩
  · have hpos := length_pos_iff.mpr hne
    rw [length_append]
    omega
  cases text with
  | nil => simp [readNumber] at hnumber
  | cons unit text =>
    rw [readNumber] at hnumber
    split_ifs at hnumber
    · obtain ⟨read, hinner, -⟩ := map_read_eq_some hnumber fun _ => rfl
      have hlt := length_lt_of_readMagnitude hinner
      rw [length_cons]
      omega
    · exact length_lt_of_readMagnitude hnumber

/-- The steps of a key that was read. -/
theorem parseKey_eq_some (hkey : parseKey text = some (key, rest)) :
    ∃ body middle, skipSpace text = quoteUnit :: body ∧
      JsonQuote.readBody body = some (key, middle) ∧
      skipSpace middle = colonUnit :: rest := by
  rw [parseKey] at hkey
  split at hkey
  · simp at hkey
  rename_i unit body hspace
  split_ifs at hkey with hquote
  subst hquote
  split at hkey
  · simp at hkey
  rename_i string middle hbody
  split at hkey
  · simp at hkey
  rename_i colon after hcolon
  split_ifs at hkey with hunit
  subst hunit
  cases hkey
  exact ⟨body, middle, hspace, hbody, hcolon⟩

theorem length_lt_of_parseKey
    (hkey : parseKey text = some (key, rest)) : rest.length < text.length := by
  obtain ⟨body, middle, hspace, hbody, hcolon⟩ := parseKey_eq_some hkey
  have hspace' := length_lt_of_skipSpace hspace
  have hbody' := length_lt_of_readBody hbody
  have hcolon' := length_lt_of_skipSpace hcolon
  omega

variable {phrase : Phrase}

theorem parsedBy_of_succ (hlt : rest.length < text.length)
    (hparsed : ∀ fuel, text.length ≤ fuel + 1 + rest.length → phrase.ParsedBy (fuel + 1) text rest) :
    rest.length < text.length ∧ ∀ fuel, text.length ≤ fuel + rest.length →
      phrase.ParsedBy fuel text rest := by
  refine ⟨hlt, fun fuel hfuel => ?_⟩
  obtain ⟨fuel, rfl⟩ := Nat.exists_eq_add_of_le' (show 1 ≤ fuel by omega)
  exact hparsed fuel hfuel

/-- A phrase is parsed with fuel for the code units it takes. -/
theorem parsedBy_of_derives (hderives : Derives text phrase rest) :
    rest.length < text.length ∧ ∀ fuel, text.length ≤ fuel + rest.length →
      phrase.ParsedBy fuel text rest := by
  induction hderives with
  | str hspace hbody =>
    have hlt := length_lt_of_skipSpace hspace
    have hlt' := length_lt_of_readBody hbody
    refine parsedBy_of_succ (by omega) fun fuel hfuel => ?_
    rw [Phrase.ParsedBy, parseValue, hspace]
    simp [hbody]
  | emptyArr hspace hclose =>
    have hlt := length_lt_of_skipSpace hspace
    have hlt' := length_lt_of_skipSpace hclose
    refine parsedBy_of_succ (by omega) fun fuel hfuel => ?_
    rw [Phrase.ParsedBy, parseValue, hspace]
    simp [hclose, show openBracket ≠ quoteUnit by decide]
  | arr hspace hclose hitems ih =>
    have hlt := length_lt_of_skipSpace hspace
    refine parsedBy_of_succ (by omega) fun fuel hfuel => ?_
    have hparse := ih.2 fuel (by omega)
    rw [Phrase.ParsedBy] at hparse
    rw [Phrase.ParsedBy, parseValue, hspace]
    simp [hclose, hparse, show openBracket ≠ quoteUnit by decide]
  | emptyObj hspace hclose =>
    have hlt := length_lt_of_skipSpace hspace
    have hlt' := length_lt_of_skipSpace hclose
    refine parsedBy_of_succ (by omega) fun fuel hfuel => ?_
    rw [Phrase.ParsedBy, parseValue, hspace]
    simp [hclose, show openBrace ≠ quoteUnit by decide,
      show openBrace ≠ openBracket by decide]
  | obj hspace hclose hfields ih =>
    have hlt := length_lt_of_skipSpace hspace
    refine parsedBy_of_succ (by omega) fun fuel hfuel => ?_
    have hparse := ih.2 fuel (by omega)
    rw [Phrase.ParsedBy] at hparse
    rw [Phrase.ParsedBy, parseValue, hspace]
    simp [hclose, hparse, show openBrace ≠ quoteUnit by decide,
      show openBrace ≠ openBracket by decide]
  | scalar hspace hquote hbracket hbrace hread =>
    have hlt := length_lt_of_skipSpace hspace
    have hlt' := length_lt_of_readScalar hread
    rw [length_cons] at hlt'
    refine parsedBy_of_succ (by omega) fun fuel hfuel => ?_
    rw [Phrase.ParsedBy, parseValue, hspace]
    simp [hquote, hbracket, hbrace, hread]
  | lastItem hitem hclose ih =>
    have hlt := length_lt_of_skipSpace hclose
    refine parsedBy_of_succ (by omega) fun fuel hfuel => ?_
    have hparse := ih.2 fuel (by omega)
    rw [Phrase.ParsedBy] at hparse
    rw [Phrase.ParsedBy, parseItems, hparse]
    simp [hclose, show closeBracket ≠ commaUnit by decide]
  | moreItems hitem hcomma hitems ihItem ihItems =>
    have hlt := length_lt_of_skipSpace hcomma
    refine parsedBy_of_succ (by omega) fun fuel hfuel => ?_
    have hparse := ihItem.2 fuel (by omega)
    have hrest := ihItems.2 fuel (by omega)
    simp only [Phrase.ParsedBy] at hparse hrest
    rw [Phrase.ParsedBy, parseItems, hparse]
    simp [hcomma, hrest]
  | lastField hkey hvalue hclose ih =>
    have hlt := length_lt_of_skipSpace hclose
    have hlt' := length_lt_of_parseKey hkey
    refine parsedBy_of_succ (by omega) fun fuel hfuel => ?_
    have hparse := ih.2 fuel (by omega)
    rw [Phrase.ParsedBy] at hparse
    rw [Phrase.ParsedBy, parseFields, hkey]
    simp [hparse, hclose, show closeBrace ≠ commaUnit by decide]
  | moreFields hkey hvalue hcomma hfields ihValue ihFields =>
    have hlt := length_lt_of_skipSpace hcomma
    have hlt' := length_lt_of_parseKey hkey
    refine parsedBy_of_succ (by omega) fun fuel hfuel => ?_
    have hparse := ihValue.2 fuel (by omega)
    have hrest := ihFields.2 fuel (by omega)
    simp only [Phrase.ParsedBy] at hparse hrest
    rw [Phrase.ParsedBy, parseFields, hkey]
    simp [hparse, hcomma, hrest]

/-- `JSON.parse` accepts the texts that are a value and space behind it. -/
theorem parse_eq_some_iff (text : JsString) (value : JsonValue) :
    parse text = some value ↔ ∃ rest, Derives text (.value value) rest ∧ skipSpace rest = [] := by
  constructor
  · intro hparse
    rw [parse] at hparse
    split at hparse
    · simp at hparse
    rename_i found rest hfound
    split_ifs at hparse with hempty
    cases hparse
    exact ⟨rest, derives_of_parsedBy _ hfound, isEmpty_iff.mp hempty⟩
  rintro ⟨rest, hderives, hspace⟩
  have hparse := (parsedBy_of_derives hderives).2 (text.length + 1) (by omega)
  rw [Phrase.ParsedBy] at hparse
  rw [parse, hparse]
  simp [hspace]

/-- A text has one derivation of a value. -/
theorem Derives.unique {rest' : JsString} {value value' : JsonValue}
    (hfirst : Derives text (.value value) rest) (hsecond : Derives text (.value value') rest') :
    value = value' ∧ rest = rest' := by
  have hparse := (parsedBy_of_derives hfirst).2 text.length (by omega)
  have hparse' := (parsedBy_of_derives hsecond).2 text.length (by omega)
  rw [Phrase.ParsedBy] at hparse hparse'
  rw [hparse] at hparse'
  exact Prod.mk.inj (some.inj hparse')

/-! ### More text behind a phrase -/

theorem skipSpace_extend {body : JsString} {unit : UInt16}
    (hspace : skipSpace text = unit :: body) (tail : JsString) :
    skipSpace (text ++ tail) = unit :: (body ++ tail) := by
  rw [skipSpace] at hspace ⊢
  rw [dropWhile_append, hspace]
  rfl

theorem parseKey_extend (hkey : parseKey text = some (key, rest)) (tail : JsString) :
    parseKey (text ++ tail) = some (key, rest ++ tail) := by
  obtain ⟨body, middle, hspace, hbody, hcolon⟩ := parseKey_eq_some hkey
  rw [parseKey, skipSpace_extend hspace tail]
  simp only [if_true]
  rw [readBody_append hbody tail]
  simp [skipSpace_extend hcolon tail]

/-- The phrase is a number, which more digits would continue. -/
def Phrase.isNumber : Phrase → Bool
  | .value (.num _) => true
  | _ => false

theorem Derives.start {text rest : JsString} {phrase : Phrase}
    (hderives : Derives text phrase rest) : ∃ unit body, skipSpace text = unit :: body := by
  induction hderives with
  | str hspace _ => exact ⟨_, _, hspace⟩
  | emptyArr hspace _ => exact ⟨_, _, hspace⟩
  | arr hspace _ _ _ => exact ⟨_, _, hspace⟩
  | emptyObj hspace _ => exact ⟨_, _, hspace⟩
  | obj hspace _ _ _ => exact ⟨_, _, hspace⟩
  | scalar hspace _ _ _ _ => exact ⟨_, _, hspace⟩
  | lastItem _ _ ih => exact ih
  | moreItems _ _ _ ih _ => exact ih
  | lastField hkey _ _ _ =>
    obtain ⟨body, _, hspace, _⟩ := parseKey_eq_some hkey
    exact ⟨_, body, hspace⟩
  | moreFields hkey _ _ _ _ _ =>
    obtain ⟨body, _, hspace, _⟩ := parseKey_eq_some hkey
    exact ⟨_, body, hspace⟩

/-- The first unit after the space stays the first. -/
theorem Derives.head_extend (hderives : Derives text phrase rest) (tail : JsString) :
    (skipSpace (text ++ tail)).head? = (skipSpace text).head? := by
  obtain ⟨unit, body, hspace⟩ := hderives.start
  rw [skipSpace_extend hspace tail, hspace]
  rfl

/-- What follows a phrase does not change it, unless a number would go on. -/
theorem Derives.extend (hderives : Derives text phrase rest)
    (hstop : phrase.isNumber = true → rest = [] → stopsNumber tail = true) :
    Derives (text ++ tail) phrase (rest ++ tail) := by
  induction hderives with
  | str hspace hbody =>
    exact .str (skipSpace_extend hspace tail) (readBody_append hbody tail)
  | emptyArr hspace hclose =>
    exact .emptyArr (skipSpace_extend hspace tail) (skipSpace_extend hclose tail)
  | arr hspace hclose hitems ih =>
    refine .arr (skipSpace_extend hspace tail) ?_
      (ih (by simp [Phrase.isNumber]))
    rw [hitems.head_extend tail]
    exact hclose
  | emptyObj hspace hclose =>
    exact .emptyObj (skipSpace_extend hspace tail) (skipSpace_extend hclose tail)
  | obj hspace hclose hfields ih =>
    refine .obj (skipSpace_extend hspace tail) ?_
      (ih (by simp [Phrase.isNumber]))
    rw [hfields.head_extend tail]
    exact hclose
  | scalar hspace hquote hbracket hbrace hread =>
    refine .scalar (skipSpace_extend hspace tail) hquote hbracket hbrace ?_
    rcases readScalar_eq_some hread with
      ⟨keyword, htext, -, hkeyword, -⟩ | ⟨number, rfl, hnumber⟩
    · rw [← cons_append, htext, append_assoc]
      exact hkeyword _
    rw [← cons_append]
    exact readScalar_of_readNumber (readNumber_extend hnumber (hstop rfl))
  | lastItem hitem hclose ih =>
    refine .lastItem (ih ?_) (skipSpace_extend hclose tail)
    rintro - rfl
    simp [skipSpace] at hclose
  | moreItems hitem hcomma hitems ihItem ihItems =>
    refine .moreItems (ihItem ?_) (skipSpace_extend hcomma tail)
      (ihItems (by simp [Phrase.isNumber]))
    rintro - rfl
    simp [skipSpace] at hcomma
  | lastField hkey hvalue hclose ih =>
    refine .lastField (parseKey_extend hkey tail) (ih ?_)
      (skipSpace_extend hclose tail)
    rintro - rfl
    simp [skipSpace] at hclose
  | moreFields hkey hvalue hcomma hfields ihValue ihFields =>
    refine .moreFields (parseKey_extend hkey tail) (ihValue ?_)
      (skipSpace_extend hcomma tail) (ihFields (by simp [Phrase.isNumber]))
    rintro - rfl
    simp [skipSpace] at hcomma

end Hummin.JsonText
