/-
The parse of a finished tool call's arguments.  Text that is not JSON is repaired
inside its string literals and parsed once more; repair leaves JSON text as it is.
-/
import Hummin.JsonTokens

namespace Hummin.JsonRepair

open List Option

open JsonText

/-- `VALID_JSON_ESCAPES`. -/
def isValidEscape (unit : UInt16) : Bool :=
  unit == 34 || unit == 92 || unit == 47 || unit == 98 || unit == 102 || unit == 110 ||
    unit == 114 || unit == 116

def isControlCharacter (unit : UInt16) : Bool :=
  unit.toNat < 32

def escapeControlCharacter (unit : UInt16) : JsString :=
  if unit = 8 then [92, 98]
  else if unit = 12 then [92, 102]
  else if unit = 10 then [92, 110]
  else if unit = 13 then [92, 114]
  else if unit = 9 then [92, 116]
  else JsonQuote.escapeHex unit

def isHexDigit (unit : UInt16) : Bool :=
  (JsonQuote.hexValue unit).isSome

/-- Whether a `u` with four hexadecimal digits comes first. -/
def startsUnicode (text : JsString) : Bool :=
  text.head? == some 117 && ((text.drop 1).take 4).length == 4 &&
    ((text.drop 1).take 4).all isHexDigit

/-- The loop of `repairJson`, outside (`false`) and inside (`true`) a string.  The units
of an escape that are still to come are copied. -/
def repair : Bool → Nat → JsString → JsString
  | _, _, [] => []
  | inString, escaped + 1, unit :: rest => unit :: repair inString escaped rest
  | false, 0, unit :: rest => unit :: repair (unit == 34) 0 rest
  | true, 0, unit :: rest =>
    if unit = 34 then unit :: repair false 0 rest
    else if unit = 92 then
      if startsUnicode rest then 92 :: repair true 5 rest
      else if rest.head?.any isValidEscape then 92 :: repair true 1 rest
      else 92 :: 92 :: repair true 0 rest
    else if isControlCharacter unit then escapeControlCharacter unit ++ repair true 0 rest
    else unit :: repair true 0 rest

/-- `repairJson`: escape raw control characters inside strings and double backslashes
before invalid escape characters. -/
def repairJson (json : JsString) : JsString :=
  repair false 0 json

/-- What `trim()` strips. -/
def isTrimmed (unit : UInt16) : Bool :=
  let code := unit.toNat
  (9 ≤ code && code ≤ 13) || code == 0x20 || code == 0xA0 || code == 0x1680 ||
    (0x2000 ≤ code && code ≤ 0x200A) || code == 0x2028 || code == 0x2029 || code == 0x202F ||
    code == 0x205F || code == 0x3000 || code == 0xFEFF

def isBlank (json : JsString) : Bool :=
  json.all isTrimmed

/-- The arguments of a finished tool call. -/
structure Arguments where
  arguments : JsonValue
  argumentsError : Option JsString

section

/- The message of the error that `JSON.parse` throws on a text. -/
variable (syntaxMessage : JsString → JsString)

def parseJson (json : JsString) : Except JsString JsonValue :=
  match parse json with
  | some value => .ok value
  | none => .error (syntaxMessage json)

def parseJsonWithRepair (json : JsString) : Except JsString JsonValue :=
  match parseJson syntaxMessage json with
  | .ok value => .ok value
  | .error message =>
    if repairJson json ≠ json then parseJson syntaxMessage (repairJson json)
    else .error message

/-- The parse, of an object only. -/
def parseObject (json : JsString) : Except JsString JsonValue :=
  match parseJsonWithRepair syntaxMessage json with
  | .error message => .error message
  | .ok (.obj mark fields) => .ok (.obj mark fields)
  | .ok _ => .error (js "Tool arguments must be a JSON object".toList)

def parseToolCallArguments (json : JsString) : Arguments :=
  if isBlank json then ⟨.obj () [], none⟩
  else match parseObject syntaxMessage json with
    | .ok value => ⟨value, none⟩
    | .error message =>
      ⟨.obj () [], some (message ++ js "\n\nReceived arguments:\n".toList ++ json)⟩

end

/-! ### Outside strings -/

variable {front : JsString}

theorem repair_append (hfront : (34 : UInt16) ∉ front) (more : JsString) :
    repair false 0 (front ++ more) = front ++ repair false 0 more := by
  induction front with
  | nil => rfl
  | cons unit front ih =>
    rw [mem_cons, not_or] at hfront
    have hunit : (unit == 34) = false := by simpa using Ne.symm hfront.1
    rw [cons_append, repair, hunit, ih hfront.2, cons_append]

variable {text rest : JsString}

/-- What repair leaves in front is there before. -/
theorem exists_of_repair (hfront : (34 : UInt16) ∉ front)
    (hrepair : repair false 0 text = front ++ rest) :
    ∃ after, text = front ++ after ∧ repair false 0 after = rest := by
  induction front generalizing text with
  | nil => exact ⟨text, rfl, hrepair⟩
  | cons unit front ih =>
    rw [mem_cons, not_or] at hfront
    cases text with
    | nil =>
      rw [repair] at hrepair
      cases hrepair
    | cons first text =>
      rw [repair, cons_append] at hrepair
      obtain ⟨rfl, hrest⟩ := cons.inj hrepair
      have hfirst : (first == 34) = false := by simpa using Ne.symm hfront.1
      rw [hfirst] at hrest
      obtain ⟨after, rfl, hafter⟩ := ih hfront.2 hrest
      exact ⟨after, rfl, hafter⟩

theorem skipSpace_split (text : JsString) :
    ∃ spaces, text = spaces ++ skipSpace text ∧ ∀ unit ∈ spaces, isSpace unit = true := by
  refine ⟨text.takeWhile isSpace, (takeWhile_append_dropWhile).symm, ?_⟩
  intro unit hunit
  exact all_eq_true.mp all_takeWhile unit hunit

theorem quote_notMem_of_spaces {spaces : JsString}
    (hspaces : ∀ unit ∈ spaces, isSpace unit = true) : (34 : UInt16) ∉ spaces := by
  intro hquote
  have hspace := hspaces 34 hquote
  revert hspace
  decide

/-! ### JSON text is not repaired -/

/-- The front of a text is left as it is, whatever follows. -/
def Kept (text rest : JsString) : Prop :=
  ∃ front, text = front ++ rest ∧
    ∀ more, repair false 0 (front ++ more) = front ++ repair false 0 more

theorem Kept.trans {middle : JsString} (hfirst : Kept text middle)
    (hsecond : Kept middle rest) : Kept text rest := by
  obtain ⟨front, rfl, hfront⟩ := hfirst
  obtain ⟨back, rfl, hback⟩ := hsecond
  refine ⟨front ++ back, by rw [append_assoc], ?_⟩
  intro more
  rw [append_assoc, hfront, hback, append_assoc]

variable {body : JsString}

theorem kept_of_skipSpace {unit : UInt16} (hunit : unit ≠ 34)
    (hspace : skipSpace text = unit :: body) : Kept text body := by
  obtain ⟨spaces, hsplit, hspaces⟩ := skipSpace_split text
  rw [hspace] at hsplit
  refine ⟨spaces ++ [unit], by rw [hsplit, append_assoc]; rfl, ?_⟩
  apply repair_append
  rw [mem_append, not_or]
  exact ⟨quote_notMem_of_spaces hspaces, by simpa using Ne.symm hunit⟩

theorem isValidEscape_eq (unit : UInt16) :
    isValidEscape unit = (JsonQuote.simpleEscape unit).isSome := by
  rw [isValidEscape, JsonQuote.simpleEscape]
  split_ifs with hself
  · rcases hself with rfl | rfl | rfl <;> rfl
  all_goals simp_all

theorem startsUnicode_of_hexEscape {a b c d value : UInt16} (rest : JsString)
    (hescape : JsonQuote.hexEscape a b c d = some value) :
    startsUnicode (117 :: a :: b :: c :: d :: rest) = true := by
  rw [JsonQuote.hexEscape] at hescape
  split at hescape
  next ha hb hc hd =>
    simp [startsUnicode, isHexDigit, ha, hb, hc, hd]
  · cases hescape

variable {string : JsString}

theorem repair_of_readBody (hread : JsonQuote.readBody body = some (string, rest)) :
    ∃ front, body = front ++ rest ∧
      ∀ more, repair true 0 (front ++ more) = front ++ repair false 0 more := by
  fun_induction JsonQuote.readBody body generalizing string with
  | case1 => simp at hread
  | case2 after =>
    cases hread
    exact ⟨[34], rfl, fun more => rfl⟩
  | case4 a b c d after unit hhex hne ih =>
    obtain ⟨read, hinner, heq⟩ := map_eq_some_iff.mp hread
    cases heq
    obtain ⟨front, rfl, hfront⟩ := ih hinner
    refine ⟨92 :: 117 :: a :: b :: c :: d :: front, rfl, ?_⟩
    intro more
    have hunicode := startsUnicode_of_hexEscape (front ++ more) hhex
    simp only [cons_append]
    rw [repair, if_neg (by decide), if_pos rfl, if_pos hunicode]
    simp only [repair, hfront]
  | case7 escape after hescape unit hunit hne ih =>
    obtain ⟨read, hinner, heq⟩ := map_eq_some_iff.mp hread
    cases heq
    obtain ⟨front, rfl, hfront⟩ := ih hinner
    refine ⟨92 :: escape :: front, rfl, ?_⟩
    intro more
    have hplain : startsUnicode (escape :: (front ++ more)) = false := by
      simp [startsUnicode, hescape]
    have hvalid : isValidEscape escape = true := by
      rw [isValidEscape_eq, hunit]
      rfl
    simp only [cons_append]
    rw [repair, if_neg (by decide), if_pos rfl, hplain, if_neg (by decide),
      if_pos (by simpa using hvalid)]
    simp only [repair, hfront]
  | case10 unit after hquote hslash hplain ih =>
    obtain ⟨read, hinner, heq⟩ := map_eq_some_iff.mp hread
    cases heq
    obtain ⟨front, rfl, hfront⟩ := ih hinner
    refine ⟨unit :: front, rfl, ?_⟩
    intro more
    rw [cons_append, repair, if_neg hquote, if_neg hslash,
      if_neg (by simpa [isControlCharacter] using hplain), hfront]
    rfl
  | _ => simp at hread

theorem kept_of_string (hspace : skipSpace text = quoteUnit :: body)
    (hread : JsonQuote.readBody body = some (string, rest)) : Kept text rest := by
  obtain ⟨spaces, hsplit, hspaces⟩ := skipSpace_split text
  obtain ⟨front, rfl, hfront⟩ := repair_of_readBody hread
  rw [hspace] at hsplit
  refine ⟨spaces ++ quoteUnit :: front, by rw [hsplit, append_assoc]; rfl, ?_⟩
  intro more
  rw [append_assoc, repair_append (quote_notMem_of_spaces hspaces), cons_append, repair]
  change spaces ++ quoteUnit :: repair true 0 (front ++ more) = _
  rw [hfront, append_assoc]
  rfl

theorem quote_notMem_of_token {token : JsString}
    (htoken : ∀ unit ∈ token, isScalarUnit unit = true) : (34 : UInt16) ∉ token := by
  intro hquote
  have hunit := htoken 34 hquote
  revert hunit
  decide

variable {value : JsonValue}

theorem kept_of_scalar {unit : UInt16} (hspace : skipSpace text = unit :: body)
    (hread : readScalar (unit :: body) = some (value, rest)) : Kept text rest := by
  obtain ⟨spaces, hsplit, hspaces⟩ := skipSpace_split text
  obtain ⟨token, htoken, -, hunits, -⟩ := readScalar_token hread
  rw [hspace, htoken] at hsplit
  refine ⟨spaces ++ token, by rw [hsplit, append_assoc], ?_⟩
  apply repair_append
  rw [mem_append, not_or]
  exact ⟨quote_notMem_of_spaces hspaces, quote_notMem_of_token hunits⟩

theorem kept_of_parseKey {key : JsString}
    (hkey : parseKey text = some (key, rest)) : Kept text rest := by
  obtain ⟨body, middle, hspace, hbody, hcolon⟩ := parseKey_eq_some hkey
  exact (kept_of_string hspace hbody).trans (kept_of_skipSpace (by decide) hcolon)

theorem kept_of_derives {phrase : Phrase}
    (hderives : Derives text phrase rest) : Kept text rest := by
  induction hderives with
  | str hspace hbody => exact kept_of_string hspace hbody
  | emptyArr hspace hclose =>
    exact (kept_of_skipSpace (by decide) hspace).trans (kept_of_skipSpace (by decide) hclose)
  | arr hspace _ _ ih => exact (kept_of_skipSpace (by decide) hspace).trans ih
  | emptyObj hspace hclose =>
    exact (kept_of_skipSpace (by decide) hspace).trans (kept_of_skipSpace (by decide) hclose)
  | obj hspace _ _ ih => exact (kept_of_skipSpace (by decide) hspace).trans ih
  | scalar hspace _ _ _ hread => exact kept_of_scalar hspace hread
  | lastItem _ hclose ih => exact ih.trans (kept_of_skipSpace (by decide) hclose)
  | moreItems _ hcomma _ ihItem ihItems =>
    exact ihItem.trans ((kept_of_skipSpace (by decide) hcomma).trans ihItems)
  | lastField hkey _ hclose ih =>
    exact (kept_of_parseKey hkey).trans (ih.trans (kept_of_skipSpace (by decide) hclose))
  | moreFields hkey _ hcomma _ ihValue ihFields =>
    exact (kept_of_parseKey hkey).trans
      (ihValue.trans ((kept_of_skipSpace (by decide) hcomma).trans ihFields))

variable {json : JsString}

/-- Repair leaves JSON text as it is. -/
theorem repairJson_of_parse (hparse : parse json = some value) : repairJson json = json := by
  obtain ⟨rest, hderives, hrest⟩ := (parse_eq_some_iff json value).mp hparse
  obtain ⟨front, rfl, hfront⟩ := kept_of_derives hderives
  obtain ⟨spaces, hsplit, hspaces⟩ := skipSpace_split rest
  rw [hrest, append_nil] at hsplit
  have hkept := repair_append (quote_notMem_of_spaces hspaces) []
  rw [repair, append_nil] at hkept
  rw [repairJson, hfront, hsplit, hkept]

/-- A parse that reports no error is that of the repaired text. -/
theorem parse_repairJson {syntaxMessage : JsString → JsString} (hblank : isBlank json = false)
    (hnone : (parseToolCallArguments syntaxMessage json).argumentsError = none) :
    ∃ fields, (parseToolCallArguments syntaxMessage json).arguments = .obj () fields ∧
      parse (repairJson json) = some (.obj () fields) := by
  rw [parseToolCallArguments, hblank, if_neg (by decide)] at hnone ⊢
  have hrepaired : ∀ value, parseJsonWithRepair syntaxMessage json = .ok value →
      parse (repairJson json) = some value := by
    intro value hvalue
    rw [parseJsonWithRepair, parseJson] at hvalue
    cases hparse : parse json with
    | some found =>
      rw [hparse] at hvalue
      rw [repairJson_of_parse hparse, hparse]
      cases hvalue
      rfl
    | none =>
      rw [hparse] at hvalue
      dsimp only at hvalue
      split at hvalue
      · rw [parseJson] at hvalue
        split at hvalue
        next found hfound =>
          cases hvalue
          exact hfound
        · cases hvalue
      · cases hvalue
  cases hparsed : parseJsonWithRepair syntaxMessage json with
  | error message =>
    rw [parseObject, hparsed] at hnone
    cases hnone
  | ok value =>
    have hvalue := hrepaired value hparsed
    rw [parseObject, hparsed] at hnone ⊢
    cases value with
    | obj mark fields => exact ⟨fields, rfl, hvalue⟩
    | null | bool | num | str | arr => cases hnone

end Hummin.JsonRepair
