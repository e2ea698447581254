/-
The tuples of the text codec.  Every tuple is a list of written pieces: JSON that
the codec writes, and parts that it splices in unparsed.  A tuple spells the list
of its fields' values, and it has a newline exactly when a spliced part has one.
-/
import Hummin.ExceptBind
import Hummin.LinkText

namespace Hummin.Link

open List Option

open JsonText (stringify openBracket closeBracket commaUnit bracketed joinComma Spells)
open JsonQuote (isHigh isLow)

variable {N S C : Type}

/-! ### Parts -/

/-- The text of a part that is not deflated. -/
def Part.plainText : Part → Option JsString
  | .text json => some json
  | .bytes encoded => utf8Decode encoded
  | .deflated _ => none

/-- The JSON value of a part that is not deflated. -/
def Part.plainValue (part : Part) : Option JsonValue :=
  part.plainText.bind JsonText.parse

def Part.isDeflated : Part → Bool
  | .deflated _ => true
  | _ => false

/-- A plain part is a valid JSON text: well-formed Unicode that `JSON.parse`
accepts, as text or as UTF-8 bytes. -/
def Part.ValidJson : Part → Prop
  | .text json => isWellFormed json = true ∧ (JsonText.parse json).isSome = true
  | .bytes encoded => ((utf8Decode encoded).bind JsonText.parse).isSome = true
  | .deflated _ => True

/-- A raw newline stands in the part's text. -/
def Part.HasNewline (part : Part) : Prop :=
  ∃ json ∈ part.plainText, newlineUnit ∈ json

/-- The value of a part's place in a tuple. -/
def Part.json : Part → JsonValue
  | .deflated encoded => .arr () [.num 1, .str (Base64.encode encoded)]
  | part => .arr () [.num 0, part.plainValue.getD .null]

/-- A text that was written for a value, with the parts spliced into it. -/
structure Written (text : JsString) (value : JsonValue) (parts : List Part) :
    Prop where
  spells : Spells text value
  formed : isWellFormed text = true
  newline : newlineUnit ∈ text ↔ ∃ part ∈ parts, part.HasNewline

/-- The pieces of a list. -/
inductive WrittenItems : List JsString → List JsonValue → List Part → Prop
  | nil : WrittenItems [] [] []
  | cons {text : JsString} {value : JsonValue} {parts : List Part}
      {texts : List JsString} {values : List JsonValue} {others : List Part}
      (hitem : Written text value parts) (hitems : WrittenItems texts values others) :
      WrittenItems (text :: texts) (value :: values) (parts ++ others)

variable {value : JsonValue}

theorem written_json (hheld : JsonText.Held value) :
    Written (stringify value) value [] where
  spells := JsonText.spells_stringify hheld
  formed := JsonText.isWellFormed_stringify value
  newline := by
    constructor
    · intro hmem
      have hcontrol := JsonText.control_free_stringify value newlineUnit hmem
      exact absurd hcontrol (by decide)
    rintro ⟨part, hpart, -⟩
    simp at hpart

variable {texts : List JsString}

theorem WrittenItems.append {texts' : List JsString}
    {values values' : List JsonValue} {parts parts' : List Part}
    (hfront : WrittenItems texts values parts) (hback : WrittenItems texts' values' parts') :
    WrittenItems (texts ++ texts') (values ++ values') (parts ++ parts') := by
  induction hfront with
  | nil => exact hback
  | cons hitem _ ih =>
    rw [append_assoc]
    exact .cons hitem ih

theorem writtenItems_json {values : List JsonValue}
    (hheld : ∀ value ∈ values, JsonText.Held value) :
    WrittenItems (values.map stringify) values [] := by
  induction values with
  | nil => exact .nil
  | cons value rest ih =>
    exact .cons (written_json (hheld value mem_cons_self))
      (ih fun other hother => hheld other (mem_cons_of_mem value hother))

theorem WrittenItems.spells {values : List JsonValue}
    {parts : List Part} (hitems : WrittenItems texts values parts) :
    List.Forall₂ Spells texts values := by
  induction hitems with
  | nil => exact .nil
  | cons hitem _ ih => exact .cons hitem.spells ih

theorem WrittenItems.joinComma_spec {values : List JsonValue} {parts : List Part}
    (hitems : WrittenItems texts values parts) :
    isWellFormed (joinComma texts) = true ∧
      (newlineUnit ∈ joinComma texts ↔ ∃ part ∈ parts, part.HasNewline) := by
  induction hitems with
  | nil => simp [JsonText.joinComma_nil, isWellFormed]
  | @cons text value parts texts values others hitem hitems ih =>
    cases texts with
    | nil =>
      cases hitems
      rw [JsonText.joinComma_singleton, append_nil]
      exact ⟨hitem.formed, hitem.newline⟩
    | cons next more =>
      rw [JsonText.joinComma_cons_cons]
      constructor
      · apply isWellFormed_append hitem.formed
        rw [isWellFormed_cons (by decide) (by decide)]
        exact ih.1
      have hcomma : newlineUnit ≠ commaUnit := by decide
      rw [mem_append, mem_cons, hitem.newline, ih.2]
      simp only [hcomma, false_or, mem_append]
      constructor
      · rintro (⟨part, hpart, hnewline⟩ | ⟨part, hpart, hnewline⟩)
        · exact ⟨part, .inl hpart, hnewline⟩
        · exact ⟨part, .inr hpart, hnewline⟩
      rintro ⟨part, hpart | hpart, hnewline⟩
      · exact .inl ⟨part, hpart, hnewline⟩
      · exact .inr ⟨part, hpart, hnewline⟩

theorem WrittenItems.bracketed {values : List JsonValue}
    {parts : List Part} (hitems : WrittenItems texts values parts) :
    Written (bracketed texts) (.arr () values) parts := by
  obtain ⟨hformed, hnewline⟩ := hitems.joinComma_spec
  have hopen : newlineUnit ≠ openBracket := by decide
  have hclose : newlineUnit ≠ closeBracket := by decide
  refine ⟨JsonText.spells_bracketed hitems.spells, ?_, ?_⟩
  · rw [JsonText.bracketed, isWellFormed_cons (by decide) (by decide)]
    exact isWellFormed_append hformed rfl
  rw [JsonText.bracketed, mem_cons, mem_append, mem_singleton]
  simp only [hopen, hclose, false_or, or_false]
  exact hnewline

/-! ### Parts in a tuple -/

theorem quoteBody_of_plain {text : JsString}
    (hplain : ∀ unit ∈ text, isHigh unit = false ∧ isLow unit = false ∧
      JsonQuote.quoteUnit unit = [unit]) : JsonQuote.quoteBody false text = text := by
  induction text with
  | nil => rfl
  | cons unit rest ih =>
    obtain ⟨hhigh, hlow, hquote⟩ := hplain unit mem_cons_self
    have hrest := ih fun other hother =>
      hplain other (mem_cons_of_mem unit hother)
    simp [JsonQuote.quoteBody, hhigh, hlow, hquote, hrest]

/-- Base64 digits are written without escapes. -/
theorem quote_base64 (encoded : List UInt8) :
    JsonQuote.quote (Base64.encode encoded) = js ['"'] ++ Base64.encode encoded ++ js ['"'] := by
  have hdigits : ∀ number < 64, isHigh (Base64.digit number) = false ∧
      isLow (Base64.digit number) = false ∧
      JsonQuote.quoteUnit (Base64.digit number) = [Base64.digit number] := by
    decide
  have hplain : ∀ unit ∈ Base64.encode encoded, isHigh unit = false ∧
      isLow unit = false ∧ JsonQuote.quoteUnit unit = [unit] := by
    intro unit hunit
    rw [Base64.encode_eq, mem_append, List.mem_map] at hunit
    rcases hunit with ⟨number, hnumber, rfl⟩ | hpadding
    · exact hdigits number ((Base64.sextets_spec encoded).1 number hnumber)
    rw [eq_of_mem_replicate hpadding]
    decide
  rw [JsonQuote.quote, quoteBody_of_plain hplain]
  rfl

theorem held_zero : JsonText.Held (.num 0) :=
  .num (by simpa using isDouble_natCast (show 0 < 2 ^ 53 by decide))

theorem held_one : JsonText.Held (.num 1) :=
  .num (by simpa using isDouble_natCast (show 1 < 2 ^ 53 by decide))

theorem stringify_bits : stringify (.num 0) = js ['0'] ∧ stringify (.num 1) = js ['1'] := by
  decide +kernel

/-- The text of a plain part in its place. -/
theorem written_plain {json : JsString} {part : Part}
    (hparse : JsonText.parse json = some value) (hformed : isWellFormed json = true)
    (hplain : part.plainText = some json) :
    Written (js ['[', '0', ','] ++ json ++ [closeBracket]) (.arr () [.num 0, value]) [part] := by
  have htext : js ['[', '0', ','] ++ json ++ [closeBracket] =
      bracketed [stringify (.num 0), json] := by
    rw [stringify_bits.1, JsonText.bracketed, JsonText.joinComma_cons_cons,
      JsonText.joinComma_singleton]
    rfl
  have hjson : Written json value [part] := by
    refine ⟨JsonText.spells_of_parse hparse, hformed, ?_⟩
    simp [Part.HasNewline, hplain]
  rw [htext]
  exact (WrittenItems.cons (written_json held_zero) (.cons hjson .nil)).bracketed

theorem partText_spec {part : Part} (hvalid : part.ValidJson) :
    ∃ text, partText part = .ok text ∧ Written text part.json [part] := by
  cases part with
  | text json =>
    obtain ⟨hformed, hparse⟩ := hvalid
    obtain ⟨value, hvalue⟩ := isSome_iff_exists.mp hparse
    refine ⟨_, rfl, ?_⟩
    have hjson : (Part.text json).json = .arr () [.num 0, value] := by
      simp [Part.json, Part.plainValue, Part.plainText, hvalue]
    rw [hjson]
    exact written_plain hvalue hformed rfl
  | bytes encoded =>
    obtain ⟨value, hvalue⟩ := isSome_iff_exists.mp hvalid
    obtain ⟨json, hdecode, hparse⟩ := bind_eq_some_iff.mp hvalue
    refine ⟨_, by rw [partText, hdecode], ?_⟩
    have hjson : (Part.bytes encoded).json = .arr () [.num 0, value] := by
      simp [Part.json, Part.plainValue, Part.plainText, hdecode, hparse]
    rw [hjson]
    exact written_plain hparse (isWellFormed_of_utf8Decode hdecode) hdecode
  | deflated encoded =>
    refine ⟨_, rfl, ?_⟩
    have htext : js ['[', '1', ',', '"'] ++ Base64.encode encoded ++ js ['"', ']'] =
        stringify (.arr () [.num 1, .str (Base64.encode encoded)]) := by
      rw [JsonText.stringify_arr, map_cons, map_singleton, stringify_bits.2,
        JsonText.bracketed, JsonText.joinComma_cons_cons,
        JsonText.joinComma_singleton, stringify, quote_base64]
      simp [js, closeBracket, openBracket, commaUnit]
    have hheld : JsonText.Held (.arr () [.num 1, .str (Base64.encode encoded)]) := by
      refine .arr fun item hitem => ?_
      rcases mem_pair.mp hitem with rfl | rfl
      · exact held_one
      · exact .str _
    have hnewline : ¬ (Part.deflated encoded).HasNewline := by
      simp [Part.HasNewline, Part.plainText]
    have hwritten := written_json hheld
    rw [htext]
    refine ⟨hwritten.spells, hwritten.formed, ?_⟩
    rw [hwritten.newline]
    simp [hnewline]

/-! ### The fields of a tuple -/

def memberJson (member : Nat × Part) : JsonValue :=
  .arr () [numberJson member.1, member.2.json]

def membersJson (members : List (Nat × Part)) : JsonValue :=
  .arr () (members.map memberJson)

def failedValues (failed : List (FailedMember Nat)) : List JsonValue :=
  if failed.isEmpty then [] else [failedJson failed]

def BoundEntry.json (entry : BoundEntry Nat) : JsonValue :=
  .arr () (numberJson entry.hold :: numberJson entry.variant ::
    membersJson entry.members :: failedValues entry.failed)

def retiredValues (entry : StateEntry Nat) : List JsonValue :=
  if entry.retired.isEmpty then failedValues entry.failed
  else [failedJson entry.failed, .arr () (entry.retired.map numberJson)]

def StateEntry.json (entry : StateEntry Nat) : JsonValue :=
  .arr () (numberJson entry.hold :: membersJson entry.members :: retiredValues entry)

def lengthsJson (segments : List (List UInt8)) : JsonValue :=
  .arr () (segments.map fun segment => numberJson segment.length)

def Payload.values (payload : Payload) : List JsonValue :=
  match payload.part with
  | none => []
  | some part => part.json :: (payload.segments.map lengthsJson).toList

def HoldFields.optionals (fields : HoldFields Nat JsString (List JsString)) :
    List JsonValue :=
  optionalFields [fields.principal, fields.incarnation.map .str,
    fields.chain.map chainJson, fields.limit.map numberJson]

/-- The values of a tuple behind its tag. -/
def Body.values : Body Nat JsString (List JsString) → List JsonValue
  | .hello protocol incarnation calls =>
    [numberJson protocol, .str incarnation, numberJson calls]
  | .hold fields =>
    numberJson fields.hold :: .str fields.type :: numberJson fields.version ::
      .str fields.fingerprint :: fields.params.json ::
      .arr () [.str fields.address.kind, fields.address.params] :: fields.optionals
  | .release id | .loading id | .abort id => [numberJson id]
  | .call id target method args =>
    [numberJson id, numberJson target, numberJson method] ++ args.values
  | .bound holds => [.arr () (holds.map BoundEntry.json)]
  | .state holds => [.arr () (holds.map StateEntry.json)]
  | .failed target kind json retryIn =>
    [numberJson target, .str kind.letter, json] ++ (retryIn.map numberJson).toList
  | .result id value => numberJson id :: value.values
  | .error id json | .gone id json => [numberJson id, json]
  | .revoke json => [json]
  | .retry target hops => [numberJson target, numberJson hops]
  | .ack | .closed | .ping | .pong => []

/-- The parts of a message, in the order of its tuple. -/
def Body.parts : Body N S C → List Part
  | .hold fields => [fields.params]
  | .call _ _ _ payload | .result _ payload => payload.part.toList
  | .bound holds => holds.flatMap fun entry => entry.members.map Prod.snd
  | .state holds => holds.flatMap fun entry => entry.members.map Prod.snd
  | _ => []

/-! ### What JavaScript holds -/

/-- The integer is the value of a JavaScript number. -/
def IsNumber (number : Nat) : Prop :=
  IsDouble (number : ℚ)

def FailedHeld (failed : List (FailedMember Nat)) : Prop :=
  ∀ entry ∈ failed, IsNumber entry.member ∧ JsonText.Held entry.error

/-- The lengths of byte arrays are safe integers. -/
def Payload.Held (payload : Payload) : Prop :=
  ∀ segments ∈ payload.segments, ∀ segment ∈ segments, segment.length < 2 ^ 53

/-- Every integer field is a JavaScript number and every JSON field a value that
JavaScript holds. -/
def Body.Held : Body Nat S C → Prop
  | .hello protocol _ calls => IsNumber protocol ∧ IsNumber calls
  | .hold fields =>
    IsNumber fields.hold ∧ IsNumber fields.version ∧
    JsonText.Held fields.address.params ∧
    (∀ principal ∈ fields.principal, JsonText.Held principal) ∧
    ∀ limit ∈ fields.limit, IsNumber limit
  | .release id | .loading id | .abort id => IsNumber id
  | .call id target method args =>
    IsNumber id ∧ IsNumber target ∧ IsNumber method ∧ args.Held
  | .bound holds => ∀ entry ∈ holds, IsNumber entry.hold ∧ IsNumber entry.variant ∧
      (∀ member ∈ entry.members, IsNumber member.1) ∧ FailedHeld entry.failed
  | .state holds => ∀ entry ∈ holds, IsNumber entry.hold ∧
      (∀ member ∈ entry.members, IsNumber member.1) ∧ FailedHeld entry.failed ∧
      ∀ member ∈ entry.retired, IsNumber member
  | .failed target _ json retryIn =>
    IsNumber target ∧ JsonText.Held json ∧ ∀ delay ∈ retryIn, IsNumber delay
  | .result id value => IsNumber id ∧ value.Held
  | .error id json | .gone id json => IsNumber id ∧ JsonText.Held json
  | .revoke json => JsonText.Held json
  | .retry target hops => IsNumber target ∧ IsNumber hops
  | .ack | .closed | .ping | .pong => True

variable {number : Nat}

theorem held_numberJson (hnumber : IsNumber number) : JsonText.Held (numberJson number) :=
  .num hnumber

theorem stringify_numberJson (hnumber : IsNumber number) :
    stringify (numberJson number) = numberText number :=
  JsonText.stringify_num hnumber

theorem held_list {α : Type} {items : List α} {json : α → JsonValue}
    (hitems : ∀ item ∈ items, JsonText.Held (json item)) :
    JsonText.Held (.arr () (items.map json)) := by
  refine .arr fun value hvalue => ?_
  obtain ⟨item, hitem, rfl⟩ := mem_map.mp hvalue
  exact hitems item hitem

variable {failed : List (FailedMember Nat)}

theorem held_failedJson (hfailed : FailedHeld failed) : JsonText.Held (failedJson failed) := by
  refine held_list fun entry hentry => .arr fun value hvalue => ?_
  obtain ⟨hmember, herror⟩ := hfailed entry hentry
  rcases mem_pair.mp hvalue with rfl | rfl
  · exact held_numberJson hmember
  · exact herror

theorem held_failedValues (hfailed : FailedHeld failed) :
    ∀ value ∈ failedValues failed, JsonText.Held value := by
  intro value hvalue
  rw [failedValues] at hvalue
  split at hvalue
  · simp at hvalue
  rw [mem_singleton.mp hvalue]
  exact held_failedJson hfailed

/-! ### The tuple of a message -/

theorem mapM_written {α : Type} {write : α → Except TextError JsString}
    {json : α → JsonValue} {parts : α → List Part} {items : List α}
    (hitems : ∀ item ∈ items, ∃ text, write item = .ok text ∧
      Written text (json item) (parts item)) :
    ∃ texts, items.mapM write = .ok texts ∧
      WrittenItems texts (items.map json) (items.flatMap parts) := by
  induction items with
  | nil => exact ⟨[], rfl, .nil⟩
  | cons item rest ih =>
    obtain ⟨text, htext, hwritten⟩ := hitems item mem_cons_self
    obtain ⟨texts, htexts, hrest⟩ := ih fun other hother =>
      hitems other (mem_cons_of_mem item hother)
    refine ⟨text :: texts, ?_, .cons hwritten hrest⟩
    rw [mapM_cons, htext, except_bind_ok, htexts, except_bind_ok]
    rfl

theorem written_number (hnumber : IsNumber number) :
    Written (numberText number) (numberJson number) [] := by
  rw [← stringify_numberJson hnumber]
  exact written_json (held_numberJson hnumber)

theorem memberText_spec {member : Nat × Part} (hnumber : IsNumber member.1)
    (hvalid : member.2.ValidJson) :
    ∃ text, memberText member = .ok text ∧ Written text (memberJson member) [member.2] := by
  obtain ⟨part, hpart, hwritten⟩ := partText_spec hvalid
  refine ⟨bracketed [numberText member.1, part], ?_, ?_⟩
  · rw [memberText, hpart, except_bind_ok, JsonText.bracketed_cons]
    simp [except_pure]
  · exact (WrittenItems.cons (written_number hnumber) (.cons hwritten .nil)).bracketed

theorem members_spec {members : List (Nat × Part)}
    (hnumbers : ∀ member ∈ members, IsNumber member.1)
    (hvalid : ∀ part ∈ members.map Prod.snd, part.ValidJson) :
    ∃ texts, members.mapM memberText = .ok texts ∧
      Written (bracketed texts) (membersJson members) (members.map Prod.snd) := by
  have hmembers : ∀ member ∈ members, ∃ text, memberText member = .ok text ∧
      Written text (memberJson member) [member.2] := fun member hmember =>
    memberText_spec (hnumbers member hmember)
      (hvalid member.2 (mem_map_of_mem hmember))
  obtain ⟨texts, htexts, hwritten⟩ := mapM_written hmembers
  refine ⟨texts, htexts, ?_⟩
  have hparts : members.flatMap (fun member => [member.2]) = members.map Prod.snd :=
    (map_eq_flatMap).symm
  rw [← hparts]
  exact hwritten.bracketed

theorem failedField_eq (failed : List (FailedMember Nat)) :
    failedField failed =
      (failedValues failed).flatMap fun value => commaUnit :: stringify value := by
  rw [failedField, failedValues]
  split <;> simp

theorem boundEntryText_spec {entry : BoundEntry Nat} (hhold : IsNumber entry.hold)
    (hvariant : IsNumber entry.variant) (hnumbers : ∀ member ∈ entry.members, IsNumber member.1)
    (hfailed : FailedHeld entry.failed)
    (hvalid : ∀ part ∈ entry.members.map Prod.snd, part.ValidJson) :
    ∃ text, boundEntryText entry = .ok text ∧
      Written text entry.json (entry.members.map Prod.snd) := by
  obtain ⟨members, hmembers, hwritten⟩ := members_spec hnumbers hvalid
  refine ⟨bracketed (numberText entry.hold :: numberText entry.variant ::
    bracketed members :: (failedValues entry.failed).map stringify), ?_, ?_⟩
  · rw [boundEntryText, hmembers, except_bind_ok, failedField_eq, JsonText.bracketed_cons]
    simp [except_pure, flatMap_map]
  have hitems := WrittenItems.cons (written_number hhold)
    (.cons (written_number hvariant)
      (.cons hwritten (writtenItems_json (held_failedValues hfailed))))
  simpa [BoundEntry.json] using hitems.bracketed

variable {entry : StateEntry Nat}

theorem held_retiredValues (hfailed : FailedHeld entry.failed)
    (hretired : ∀ member ∈ entry.retired, IsNumber member) :
    ∀ value ∈ retiredValues entry, JsonText.Held value := by
  intro value hvalue
  rw [retiredValues] at hvalue
  split at hvalue
  · exact held_failedValues hfailed value hvalue
  rcases mem_pair.mp hvalue with rfl | rfl
  · exact held_failedJson hfailed
  · exact held_list fun member hmember => held_numberJson (hretired member hmember)

theorem stateEntryText_spec (hhold : IsNumber entry.hold)
    (hnumbers : ∀ member ∈ entry.members, IsNumber member.1) (hfailed : FailedHeld entry.failed)
    (hretired : ∀ member ∈ entry.retired, IsNumber member)
    (hvalid : ∀ part ∈ entry.members.map Prod.snd, part.ValidJson) :
    ∃ text, stateEntryText entry = .ok text ∧
      Written text entry.json (entry.members.map Prod.snd) := by
  obtain ⟨members, hmembers, hwritten⟩ := members_spec hnumbers hvalid
  refine ⟨bracketed (numberText entry.hold :: bracketed members ::
    (retiredValues entry).map stringify), ?_, ?_⟩
  · rw [stateEntryText, hmembers, except_bind_ok, JsonText.bracketed_cons, retiredValues]
    split
    · rw [failedField_eq]
      simp [except_pure, flatMap_map]
    · simp [except_pure, jsonTuple]
  have hitems := WrittenItems.cons (written_number hhold)
    (.cons hwritten (writtenItems_json (held_retiredValues hfailed hretired)))
  simpa [StateEntry.json] using hitems.bracketed

theorem held_lengthsJson {segments : List (List UInt8)}
    (hlengths : ∀ segment ∈ segments, segment.length < 2 ^ 53) :
    JsonText.Held (lengthsJson segments) :=
  held_list fun segment hsegment =>
    held_numberJson (isDouble_natCast (hlengths segment hsegment))

/-- A tuple of JSON fields. -/
theorem jsonTuple_spec {values : List JsonValue} (hheld : ∀ value ∈ values, JsonText.Held value) :
    jsonTuple values = bracketed (values.map stringify) ∧
      WrittenItems (values.map stringify) values [] :=
  ⟨JsonText.stringify_arr values, writtenItems_json hheld⟩

theorem withPayload_spec {values : List JsonValue} (hne : values ≠ [])
    (hheld : ∀ value ∈ values, JsonText.Held value) {payload : Payload}
    (hsegments : payload.Held) (hvalid : ∀ part ∈ payload.part, part.ValidJson) :
    ∃ texts, withPayload (jsonTuple values) payload = .ok (bracketed texts) ∧
      WrittenItems texts (values ++ payload.values) payload.part.toList := by
  obtain ⟨htuple, hwritten⟩ := jsonTuple_spec hheld
  have hfront : values.map stringify ≠ [] := by simpa using hne
  obtain ⟨part, segments⟩ := payload
  cases part with
  | none =>
    refine ⟨values.map stringify, ?_, ?_⟩
    · rw [withPayload, htuple]
    · simpa [Payload.values] using hwritten
  | some part =>
    obtain ⟨text, htext, hpart⟩ := partText_spec (hvalid part rfl)
    cases segments with
    | none =>
      refine ⟨values.map stringify ++ [text], ?_, ?_⟩
      · rw [← JsonText.bracketed_append hfront (by simp),
          JsonText.joinComma_singleton, withPayload, htuple]
        simp [htext, except_bind_ok, except_pure]
      · exact hwritten.append (.cons hpart .nil)
    | some segments =>
      have hlengths := held_lengthsJson (hsegments segments rfl)
      refine ⟨values.map stringify ++ [text, stringify (lengthsJson segments)], ?_, ?_⟩
      · rw [← JsonText.bracketed_append hfront (by simp),
          JsonText.joinComma_cons_cons, JsonText.joinComma_singleton,
          withPayload, htuple]
        simp [htext, except_bind_ok, except_pure, jsonTuple, lengthsJson]
      · exact hwritten.append (.cons hpart (.cons (written_json hlengths) .nil))

theorem held_optionalFields {fields : List (Option JsonValue)}
    (hfields : ∀ field ∈ fields, ∀ value ∈ field, JsonText.Held value) :
    ∀ value ∈ optionalFields fields, JsonText.Held value := by
  intro value hvalue
  obtain ⟨field, hfield, rfl⟩ := mem_map.mp hvalue
  have hmem : field ∈ fields := (List.rdropWhile_prefix _ fields).subset hfield
  cases field with
  | none => exact .null
  | some inner => exact hfields _ hmem inner rfl

variable {fields : HoldFields Nat JsString (List JsString)}

theorem held_optionals (hprincipal : ∀ principal ∈ fields.principal, JsonText.Held principal)
    (hlimit : ∀ limit ∈ fields.limit, IsNumber limit) :
    ∀ value ∈ fields.optionals, JsonText.Held value := by
  apply held_optionalFields
  intro field hfield value hvalue
  simp only [mem_cons, not_mem_nil, or_false] at hfield
  rcases hfield with rfl | rfl | rfl | rfl
  · exact hprincipal value hvalue
  · obtain ⟨text, -, rfl⟩ := mem_map.mp hvalue
    exact .str text
  · obtain ⟨chain, -, rfl⟩ := mem_map.mp hvalue
    exact held_list fun incarnation _ => .str incarnation
  obtain ⟨limit, hmem, rfl⟩ := mem_map.mp hvalue
  exact held_numberJson (hlimit limit hmem)

theorem holdText_spec (hheld : (Body.hold fields).Held) (hvalid : fields.params.ValidJson) :
    ∃ texts, holdText fields = .ok (bracketed texts) ∧
      WrittenItems texts (.str Kind.hold.tag :: (Body.hold fields).values)
        [fields.params] := by
  obtain ⟨hhold, hversion, haddress, hprincipal, hlimit⟩ := hheld
  obtain ⟨params, hparams, hwritten⟩ := partText_spec hvalid
  have hhead : ∀ value ∈ [JsonTree.str Kind.hold.tag, numberJson fields.hold,
      .str fields.type, numberJson fields.version, .str fields.fingerprint],
      JsonText.Held value := by
    simp [JsonText.Held.str, held_numberJson hhold, held_numberJson hversion]
  have hrest : ∀ value ∈ .arr () [.str fields.address.kind, fields.address.params] ::
      fields.optionals, JsonText.Held value := by
    refine forall_mem_cons.mpr ⟨?_, held_optionals hprincipal hlimit⟩
    refine .arr fun item hitem => ?_
    rcases mem_pair.mp hitem with rfl | rfl
    · exact .str _
    · exact haddress
  obtain ⟨htuple, hfront⟩ := jsonTuple_spec hhead
  have hitems := hfront.append (.cons hwritten (writtenItems_json hrest))
  refine ⟨_, ?_, hitems⟩
  rw [← JsonText.bracketed_append (by simp) (by simp),
    JsonText.joinComma_eq_flatMap, holdText, htuple, hparams, except_bind_ok]
  simp [except_pure, jsonTuple, HoldFields.optionals, flatMap_map]

/-- The tuple of a message's own fields is a list that starts with the tag. -/
theorem ownTuple_spec {body : Body Nat JsString (List JsString)}
    (hheld : body.Held) (hvalid : ∀ part ∈ body.parts, part.ValidJson) :
    ∃ texts, ownTuple body = .ok (bracketed texts) ∧
      WrittenItems texts (.str body.kind.tag :: body.values) body.parts := by
  have hjson : ∀ {values : List JsonValue},
      (∀ value ∈ values, JsonText.Held value) →
      ∃ texts, (.ok (jsonTuple (.str body.kind.tag :: values)) :
          Except TextError JsString) = .ok (bracketed texts) ∧
        WrittenItems texts (.str body.kind.tag :: values) [] := by
    intro values hvalues
    have htuple := @jsonTuple_spec (.str body.kind.tag :: values)
      (forall_mem_cons.mpr ⟨.str _, hvalues⟩)
    exact ⟨_, by rw [htuple.1], htuple.2⟩
  cases body with
  | hello protocol incarnation calls =>
    exact hjson (by simp [held_numberJson hheld.1, held_numberJson hheld.2,
      JsonText.Held.str])
  | hold fields => exact holdText_spec hheld (hvalid _ mem_cons_self)
  | release id | loading id | abort id => exact hjson (by simp [held_numberJson hheld])
  | call id target method args =>
    obtain ⟨hid, htarget, hmethod, hargs⟩ := hheld
    exact withPayload_spec (by simp) (by simp [JsonText.Held.str,
      held_numberJson hid, held_numberJson htarget, held_numberJson hmethod]) hargs
      fun part hpart => hvalid part (mem_toList.mpr hpart)
  | result id value =>
    obtain ⟨hid, hvalue⟩ := hheld
    exact withPayload_spec (by simp) (by simp [JsonText.Held.str,
      held_numberJson hid]) hvalue
      fun part hpart => hvalid part (mem_toList.mpr hpart)
  | bound holds =>
    have hentries : ∀ entry ∈ holds, ∃ text, boundEntryText entry = .ok text ∧
        Written text entry.json (entry.members.map Prod.snd) := by
      intro entry hentry
      obtain ⟨hhold, hvariant, hmembers, hfailed⟩ := hheld entry hentry
      exact boundEntryText_spec hhold hvariant hmembers hfailed fun part hpart =>
        hvalid part (mem_flatMap.mpr ⟨entry, hentry, hpart⟩)
    obtain ⟨texts, htexts, hwritten⟩ := mapM_written hentries
    refine ⟨[stringify (.str Kind.bound.tag), bracketed texts], ?_, ?_⟩
    · simp only [ownTuple, htexts, except_bind_ok]
      rfl
    simpa [Body.parts, Body.values, Body.kind] using
      WrittenItems.cons (written_json (.str Kind.bound.tag))
        (.cons hwritten.bracketed .nil)
  | state holds =>
    have hentries : ∀ entry ∈ holds, ∃ text, stateEntryText entry = .ok text ∧
        Written text entry.json (entry.members.map Prod.snd) := by
      intro entry hentry
      obtain ⟨hhold, hmembers, hfailed, hretired⟩ := hheld entry hentry
      exact stateEntryText_spec hhold hmembers hfailed hretired fun part hpart =>
        hvalid part (mem_flatMap.mpr ⟨entry, hentry, hpart⟩)
    obtain ⟨texts, htexts, hwritten⟩ := mapM_written hentries
    refine ⟨[stringify (.str Kind.state.tag), bracketed texts], ?_, ?_⟩
    · simp only [ownTuple, htexts, except_bind_ok]
      rfl
    simpa [Body.parts, Body.values, Body.kind] using
      WrittenItems.cons (written_json (.str Kind.state.tag))
        (.cons hwritten.bracketed .nil)
  | failed target kind json retryIn =>
    obtain ⟨htarget, hvalue, hdelay⟩ := hheld
    apply hjson
    cases retryIn with
    | none => simp [held_numberJson htarget, JsonText.Held.str, hvalue]
    | some delay =>
      simp [held_numberJson htarget, JsonText.Held.str, hvalue, held_numberJson (hdelay delay rfl)]
  | error id json | gone id json =>
    exact hjson (by simp [held_numberJson hheld.1, hheld.2])
  | revoke json =>
    have hrevoked : JsonText.Held json := hheld
    exact hjson (by simp [hrevoked])
  | retry target hops =>
    exact hjson (by simp [held_numberJson hheld.1, held_numberJson hheld.2])
  | ack | closed | ping | pong => exact hjson (by simp)

/-- The fields of the whole tuple, the origin's wrapper included. -/
def Envelope.values (message : Message) : List JsonValue :=
  match message.origin with
  | none => .str message.body.kind.tag :: message.body.values
  | some origin => [.str originTag, numberJson origin,
      .arr () (.str message.body.kind.tag :: message.body.values)]

/-- What JavaScript can hold as a message. -/
def Envelope.Held (message : Message) : Prop :=
  (∀ origin ∈ message.origin, IsNumber origin) ∧ message.body.Held

theorem tupleText_spec {message : Message} (hheld : message.Held)
    (hvalid : ∀ part ∈ message.body.parts, part.ValidJson) :
    ∃ texts, tupleText message = .ok (bracketed texts) ∧
      Written (bracketed texts) (.arr () message.values) message.body.parts := by
  obtain ⟨own, hown, hwritten⟩ := ownTuple_spec hheld.2 hvalid
  obtain ⟨origin, body⟩ := message
  cases origin with
  | none =>
    refine ⟨own, ?_, hwritten.bracketed⟩
    rw [tupleText, hown, except_bind_ok]
    rfl
  | some origin =>
    have hnumber : IsNumber origin := hheld.1 origin rfl
    refine ⟨[JsonQuote.quote originTag, numberText origin, bracketed own], ?_, ?_⟩
    · rw [tupleText, hown, except_bind_ok]
      rfl
    have hitems := WrittenItems.cons (written_json (.str originTag))
      (.cons (written_number hnumber) (.cons hwritten.bracketed .nil))
    simpa [Envelope.values, stringify] using hitems.bracketed

end Hummin.Link
