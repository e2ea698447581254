/-
Reading JSON text unit by unit.  The units of a phrase take a reading to where its
value is placed, also when its strings hold raw control characters and invalid escapes
that repair would mend.
-/
import Hummin.StreamingJsonReading
import Hummin.JsonRepair

namespace Hummin.StreamingJson

open List Option

open JsonText JsonRepair

namespace Reading

/-! ### String literals -/

/-- In a string, outside its escapes. -/
def InText (reading : Reading) : Prop :=
  reading.done = false ∧ ∃ target slot text, reading.mode = .string target slot text []

theorem done_assign (slot : Option Slot) (value : JsonValue) (reading : Reading) :
    (reading.assign slot value).done = reading.done := by
  rw [assign.eq_def]
  cases slot with
  | none => rfl
  | some slot =>
    cases slot with
    | root => rfl
    | _ => cases reading.levels <;> rfl

variable {reading : Reading}

section

variable (htext : InText reading)
include htext

theorem InText.appendText (text : JsString) : InText (reading.appendText text) := by
  obtain ⟨hdone, target, slot, before, hmode⟩ := htext
  rw [Reading.appendText, hmode]
  cases target with
  | key => exact ⟨hdone, .key, slot, before ++ text, rfl⟩
  | value => exact ⟨(done_assign _ _ reading).trans hdone, .value, slot, before ++ text, rfl⟩

theorem InText.setEscape_nil (escape : JsString) :
    (reading.setEscape escape).setEscape [] = reading := by
  obtain ⟨-, target, slot, before, hmode⟩ := htext
  simp only [setEscape, hmode]
  rw [← hmode]

theorem InText.setEscape_setEscape (first second : JsString) :
    (reading.setEscape first).setEscape second = reading.setEscape second := by
  obtain ⟨-, target, slot, before, hmode⟩ := htext
  simp only [setEscape, hmode]

theorem InText.feed (unit : UInt16) : reading.feed unit = reading.plain unit := by
  obtain ⟨hdone, target, slot, before, hmode⟩ := htext
  rw [Reading.feed, if_neg (by rw [hdone]; decide), hmode]
  rfl

theorem InText.feed_setEscape (escape : JsString) (unit : UInt16) :
    (reading.setEscape escape).feed unit = (reading.setEscape escape).feedString escape unit := by
  obtain ⟨hdone, target, slot, before, hmode⟩ := htext
  have hset : (reading.setEscape escape) =
      { reading with mode := .string target slot before escape } := by
    rw [setEscape, hmode]
  rw [hset, Reading.feed, if_neg (by dsimp only; rw [hdone]; decide)]

end

variable {unit : UInt16}

theorem plain_of_ne (hquote : unit ≠ 34) (hslash : unit ≠ 92)
    (reading : Reading) : reading.plain unit = reading.appendText [unit] := by
  rw [plain, if_neg (show unit ≠ quote from hquote),
    if_neg (show unit ≠ backslash from hslash)]

theorem ne_of_isHexDigit (hhex : StreamingJson.isHexDigit unit = true) : unit ≠ 34 ∧ unit ≠ 92 := by
  constructor
  · rintro rfl
    revert hhex
    decide
  rintro rfl
  revert hhex
  decide

/-- A unicode escape that stops before its fourth digit is text. -/
theorem InText.feed_hex (htext : InText reading) {digits raw : JsString}
    (hshort : digits.length + (raw.takeWhile StreamingJson.isHexDigit).length < 4) :
    (raw ++ [34]).foldl Reading.feed (reading.setEscape (92 :: 117 :: digits)) =
      (raw ++ [34]).foldl Reading.feed (reading.appendText (92 :: 117 :: digits)) := by
  induction raw generalizing digits with
  | nil =>
    rw [nil_append, foldl_cons, foldl_cons, htext.feed_setEscape,
      (htext.appendText _).feed, feedString, if_neg (by simp), if_neg (by simp [backslash]),
      if_neg (by decide), htext.setEscape_nil]
  | cons unit raw ih =>
    rw [cons_append, foldl_cons, foldl_cons, htext.feed_setEscape,
      (htext.appendText _).feed, feedString, if_neg (by simp), if_neg (by simp [backslash])]
    by_cases hhex : StreamingJson.isHexDigit unit = true
    · obtain ⟨hquote, hslash⟩ := ne_of_isHexDigit hhex
      rw [takeWhile_cons_of_pos hhex, length_cons] at hshort
      have hnext : (digits ++ [unit]).length +
          (raw.takeWhile StreamingJson.isHexDigit).length < 4 := by
        rw [length_append, length_singleton]
        omega
      rw [if_pos hhex, if_pos (by simp; omega), htext.setEscape_setEscape,
        plain_of_ne hquote hslash, appendText_appendText]
      exact ih hnext
    · rw [if_neg hhex, htext.setEscape_nil]

theorem length_hex_lt {raw after : JsString}
    (hunicode : startsUnicode (117 :: raw ++ after) = false) :
    (raw.takeWhile StreamingJson.isHexDigit).length < 4 := by
  by_contra hlong
  have hlength := (takeWhile_sublist StreamingJson.isHexDigit (l := raw)).length_le
  match raw with
  | [] | [_] | [_, _] | [_, _, _] =>
    simp only [length_cons, length_nil] at hlength
    omega
  | a :: b :: c :: d :: raw =>
    simp only [takeWhile_cons] at hlong
    split_ifs at hlong with ha hb hc hd <;> try simp at hlong
    rw [startsUnicode] at hunicode
    have hhex : ∀ unit, StreamingJson.isHexDigit unit = true →
        JsonRepair.isHexDigit unit = true := fun _ hunit => hunit
    simp [hhex a ha, hhex b hb, hhex c hc, hhex d hd] at hunicode

/-- A backslash that starts no escape is text. -/
theorem InText.feed_backslash (htext : InText reading) {raw after : JsString}
    (hunicode : startsUnicode (raw ++ 34 :: after) = false)
    (hvalid : (raw ++ 34 :: after).head?.any isValidEscape = false) :
    (raw ++ [34]).foldl Reading.feed (reading.setEscape [92]) =
      (raw ++ [34]).foldl Reading.feed (reading.appendText [92]) := by
  cases raw with
  | nil => cases hvalid
  | cons unit raw =>
    have hinvalid : isValidEscape unit = false := by simpa using hvalid
    have hsimple : JsonQuote.simpleEscape unit = none := by
      rw [isValidEscape_eq] at hinvalid
      simpa using hinvalid
    rw [cons_append, foldl_cons, foldl_cons, htext.feed_setEscape,
      (htext.appendText _).feed, feedString, if_neg (by simp),
      if_pos (show [(92 : UInt16)] = [backslash] from rfl), hsimple]
    dsimp only
    by_cases hu : unit = 117
    · subst hu
      rw [if_pos rfl, htext.setEscape_setEscape, plain_of_ne (by decide) (by decide),
        appendText_appendText]
      apply htext.feed_hex
      rw [length_nil, Nat.zero_add]
      exact length_hex_lt hunicode
    rw [if_neg hu, htext.setEscape_nil]
    rfl

/-- Text that is appended only when there is some. -/
def appendRun (text : JsString) (reading : Reading) : Reading :=
  if text.isEmpty then reading else reading.appendText text

theorem appendRun_cons (unit : UInt16) (text : JsString) (reading : Reading) :
    appendRun (unit :: text) reading = appendRun text (reading.appendText [unit]) := by
  rw [appendRun, if_neg (by simp), appendRun]
  split
  next hempty =>
    rw [isEmpty_iff.mp hempty]
  · rw [appendText_appendText]
    rfl

/-- The raw literal up to its quote is read as the string. -/
def ReadsString (raw string : JsString) : Prop :=
  ∀ reading, InText reading →
    (raw ++ [34]).foldl Reading.feed reading = (appendRun string reading).endString

theorem readsString_nil : ReadsString [] [] := by
  intro reading htext
  rw [nil_append, foldl_cons, foldl_nil, htext.feed]
  rfl

/-- Units that append one in front. -/
theorem ReadsString.cons {units raw string : JsString} {unit : UInt16}
    (hraw : ReadsString raw string) (hunits : ∀ reading, InText reading →
      units.foldl Reading.feed reading = reading.appendText [unit]) :
    ReadsString (units ++ raw) (unit :: string) := by
  intro reading htext
  rw [append_assoc, foldl_append, hunits reading htext, hraw _ (htext.appendText _), appendRun_cons]

theorem feed_unicode {a b c d value : UInt16}
    (hescape : JsonQuote.hexEscape a b c d = some value) (reading : Reading)
    (htext : InText reading) :
    [92, 117, a, b, c, d].foldl Reading.feed reading = reading.appendText [value] := by
  have hhex : ∀ unit number, JsonQuote.hexValue unit = some number →
      StreamingJson.isHexDigit unit = true := by
    intro unit number hnumber
    rw [StreamingJson.isHexDigit, hnumber]
    rfl
  rw [JsonQuote.hexEscape] at hescape
  split at hescape
  next x y z w hx hy hz hw =>
    cases hescape
    -- The digits are held back up to the fourth one.
    have hdigit : ∀ (digits : JsString) unit, StreamingJson.isHexDigit unit = true →
        digits.length < 3 →
        (reading.setEscape (92 :: 117 :: digits)).feed unit =
          reading.setEscape (92 :: 117 :: (digits ++ [unit])) := by
      intro digits unit hunit hshort
      rw [htext.feed_setEscape, feedString, if_neg (by simp), if_neg (by simp [backslash]),
        if_pos hunit, if_pos (by simp; omega), htext.setEscape_setEscape]
      rfl
    have hstart : reading.feed 92 = reading.setEscape [92] := by
      rw [htext.feed]
      rfl
    have hu : (reading.setEscape [92]).feed 117 = reading.setEscape [92, 117] := by
      rw [htext.feed_setEscape, feedString, if_neg (by simp),
        if_pos (show [(92 : UInt16)] = [backslash] from rfl)]
      exact htext.setEscape_setEscape _ _
    have hlast : (reading.setEscape (92 :: 117 :: [a, b, c])).feed d =
        reading.appendText [hexUnits [a, b, c, d]] := by
      rw [htext.feed_setEscape, feedString, if_neg (by simp), if_neg (by simp [backslash]),
        if_pos (hhex d w hw), if_neg (by simp), htext.setEscape_nil]
      rfl
    have hvalue : hexUnits [a, b, c, d] =
        UInt16.ofNat (x * 4096 + y * 256 + z * 16 + w) := by
      simp only [hexUnits, foldl_cons, foldl_nil, hx, hy, hz, hw, getD_some]
      congr 1
      ring
    simp only [foldl_cons, foldl_nil]
    rw [hstart, hu, hdigit [] a (hhex a x hx) (by simp), nil_append,
      hdigit [a] b (hhex b y hy) (by simp), singleton_append,
      hdigit [a, b] c (hhex c z hz) (by simp)]
    rw [← hvalue]
    exact hlast
  · cases hescape

theorem feed_escape {escape value : UInt16}
    (hescape : JsonQuote.simpleEscape escape = some value) (reading : Reading)
    (htext : InText reading) :
    [92, escape].foldl Reading.feed reading = reading.appendText [value] := by
  have hstart : reading.feed 92 = reading.setEscape [92] := by
    rw [htext.feed]
    rfl
  rw [foldl_cons, foldl_cons, foldl_nil, hstart, htext.feed_setEscape,
    feedString, if_neg (by simp), if_pos (show [(92 : UInt16)] = [backslash] from rfl),
    hescape]
  rw [htext.setEscape_nil]

theorem feed_plain (hquote : unit ≠ 34) (hslash : unit ≠ 92)
    (reading : Reading) (htext : InText reading) :
    [unit].foldl Reading.feed reading = reading.appendText [unit] := by
  rw [foldl_cons, foldl_nil, htext.feed, plain_of_ne hquote hslash]

/-! ### Repaired literals -/

theorem readBody_escapeControlCharacter (hcontrol : isControlCharacter unit = true)
    (rest : JsString) :
    JsonQuote.readBody (escapeControlCharacter unit ++ rest) =
      (JsonQuote.readBody rest).map fun read => (unit :: read.1, read.2) := by
  rw [escapeControlCharacter]
  split_ifs with hb hf hn hr ht
  · subst hb
    exact JsonQuote.readBody_escape (by decide) rfl rest
  · subst hf
    exact JsonQuote.readBody_escape (by decide) rfl rest
  · subst hn
    exact JsonQuote.readBody_escape (by decide) rfl rest
  · subst hr
    exact JsonQuote.readBody_escape (by decide) rfl rest
  · subst ht
    exact JsonQuote.readBody_escape (by decide) rfl rest
  · exact JsonQuote.readBody_escapeHex unit rest

theorem startsUnicode_eq_true {text : JsString} (hunicode : startsUnicode text = true) :
    ∃ a b c d rest value, text = 117 :: a :: b :: c :: d :: rest ∧
      JsonQuote.hexEscape a b c d = some value := by
  match text with
  | [] | [_] | [_, _] | [_, _, _] | [_, _, _, _] => simp [startsUnicode] at hunicode
  | u :: a :: b :: c :: d :: rest =>
    simp only [startsUnicode, head?_cons, drop_succ_cons, drop_zero,
      take_succ_cons, take_zero, all_cons, all_nil, Bool.and_eq_true,
      beq_iff_eq, some.injEq, JsonRepair.isHexDigit] at hunicode
    obtain ⟨⟨rfl, -⟩, ha, hb, hc, hd, -⟩ := hunicode
    obtain ⟨x, hx⟩ := isSome_iff_exists.mp ha
    obtain ⟨y, hy⟩ := isSome_iff_exists.mp hb
    obtain ⟨z, hz⟩ := isSome_iff_exists.mp hc
    obtain ⟨w, hw⟩ := isSome_iff_exists.mp hd
    refine ⟨a, b, c, d, rest, UInt16.ofNat (x * 4096 + y * 256 + z * 16 + w), rfl, ?_⟩
    rw [JsonQuote.hexEscape, hx, hy, hz, hw]

/-- A literal whose repair reads as a string is read as that string. -/
theorem exists_readsString {text string rest : JsString}
    (hread : JsonQuote.readBody (repair true 0 text) = some (string, rest)) :
    ∃ raw after, text = raw ++ 34 :: after ∧ repair false 0 after = rest ∧
      ReadsString raw string := by
  induction hlength : text.length using Nat.strongRecOn generalizing text string with
  | _ length ih =>
    -- What follows a unit or an escape is shorter.
    have hmore : ∀ units more unit, text = units ++ more → units ≠ [] →
        JsonQuote.readBody (repair true 0 text) =
          (JsonQuote.readBody (repair true 0 more)).map (fun read => (unit :: read.1, read.2)) →
        (∀ reading, InText reading → units.foldl Reading.feed reading = reading.appendText [unit]) →
        ∃ raw after, text = raw ++ 34 :: after ∧ repair false 0 after = rest ∧
          ReadsString raw string := by
      intro units more unit htext hne hrepair hunits
      rw [hrepair] at hread
      obtain ⟨read, hinner, heq⟩ := map_eq_some_iff.mp hread
      cases heq
      have hshort : more.length < length := by
        have hpos := length_pos_iff.mpr hne
        rw [← hlength, htext, length_append]
        omega
      obtain ⟨raw, after, hraw, hafter, hreads⟩ := ih more.length hshort hinner rfl
      refine ⟨units ++ raw, after, by rw [htext, hraw, append_assoc], hafter, ?_⟩
      exact hreads.cons hunits
    cases text with
    | nil => cases hread
    | cons unit text =>
      by_cases hquote : unit = 34
      · rw [repair, if_pos hquote, JsonQuote.readBody.eq_def] at hread
        dsimp only at hread
        rw [if_pos hquote] at hread
        cases hread
        exact ⟨[], text, by rw [hquote]; rfl, rfl, readsString_nil⟩
      by_cases hslash : unit = 92
      · subst hslash
        have hrepair : repair true 0 (92 :: text) =
            if startsUnicode text then 92 :: repair true 5 text
            else if text.head?.any isValidEscape then 92 :: repair true 1 text
            else 92 :: 92 :: repair true 0 text := by
          rw [repair, if_neg (by decide), if_pos rfl]
        split at hrepair
        next hunicode =>
          obtain ⟨a, b, c, d, more, value, rfl, hescape⟩ := startsUnicode_eq_true hunicode
          apply hmore [92, 117, a, b, c, d] more value rfl (by simp) _
            (feed_unicode hescape)
          rw [hrepair]
          simp only [repair]
          rw [JsonQuote.readBody.eq_def]
          simp [hescape]
        rename_i hunicode
        split at hrepair
        next hvalid =>
          cases text with
          | nil => cases hvalid
          | cons escape more =>
            have hsome : (JsonQuote.simpleEscape escape).isSome = true := by
              rw [← isValidEscape_eq]
              simpa using hvalid
            obtain ⟨value, hvalue⟩ := isSome_iff_exists.mp hsome
            have hne : escape ≠ 117 := by
              rintro rfl
              cases hvalue
            apply hmore [92, escape] more value rfl (by simp) _ (feed_escape hvalue)
            rw [hrepair]
            exact JsonQuote.readBody_escape hne hvalue _
        rename_i hvalid
        rw [hrepair, @JsonQuote.readBody_escape 92 92 (by decide) rfl] at hread
        obtain ⟨read, hinner, heq⟩ := map_eq_some_iff.mp hread
        cases heq
        have hshort : text.length < length := by
          rw [← hlength]
          exact Nat.lt_succ_self _
        obtain ⟨raw, after, rfl, hafter, hreads⟩ := ih text.length hshort hinner rfl
        refine ⟨92 :: raw, after, rfl, hafter, ?_⟩
        intro reading htext
        have hstart : reading.feed 92 = reading.setEscape [92] := by
          rw [htext.feed]
          rfl
        rw [cons_append, foldl_cons, hstart,
          htext.feed_backslash (by simpa using hunicode) (by simpa using hvalid),
          hreads _ (htext.appendText _), appendRun_cons]
      apply hmore [unit] text unit rfl (by simp) _ (feed_plain hquote hslash)
      rw [repair, if_neg hquote, if_neg hslash]
      split
      next hcontrol =>
        exact readBody_escapeControlCharacter hcontrol _
      next hcontrol =>
        exact JsonQuote.readBody_plain hquote hslash
          (by simpa [isControlCharacter] using hcontrol) _

end Reading

end Hummin.StreamingJson
