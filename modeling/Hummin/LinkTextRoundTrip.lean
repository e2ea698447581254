/-
The text codec's round trip.  A message is decoded as it was, each plain part as
the text that `JSON.stringify` writes of its value, as long as no part holds a raw
newline: the first newline ends the tuple, wherever it stands.
-/
import Hummin.LinkBinaryRoundTrip
import Hummin.LinkTextTuple

namespace Hummin.Link

open List Option

open JsonText (stringify bracketed finitise)

/-! ### What is decoded -/

/-- A part as it is written back. -/
def Part.relayed : Part → Part
  | .deflated encoded => .deflated encoded
  | part => .text (stringify (part.plainValue.getD .null))

section

variable (replace : Part → Part)

def Payload.replaceParts (payload : Payload) : Payload :=
  { payload with part := payload.part.map replace }

def memberAsJson (member : Nat × Part) : JsonValue × Part :=
  (numberJson member.1, replace member.2)

def failedAsJson (failed : List (FailedMember Nat)) : List (FailedMember JsonValue) :=
  failed.map fun entry => ⟨numberJson entry.member, entry.error⟩

def BoundEntry.asJson (entry : BoundEntry Nat) : BoundEntry JsonValue where
  hold := numberJson entry.hold
  variant := numberJson entry.variant
  members := entry.members.map (memberAsJson replace)
  failed := failedAsJson entry.failed

def StateEntry.asJson (entry : StateEntry Nat) : StateEntry JsonValue where
  hold := numberJson entry.hold
  members := entry.members.map (memberAsJson replace)
  failed := failedAsJson entry.failed
  retired := entry.retired.map numberJson

def HoldFields.asJson (fields : HoldFields Nat JsString (List JsString)) :
    HoldFields JsonValue JsonValue JsonValue where
  hold := numberJson fields.hold
  type := .str fields.type
  version := numberJson fields.version
  fingerprint := .str fields.fingerprint
  params := replace fields.params
  address := ⟨.str fields.address.kind, fields.address.params⟩
  principal := fields.principal
  incarnation := fields.incarnation.map .str
  chain := fields.chain.map chainJson
  limit := fields.limit.map numberJson

/-- The body with its fields as JSON and its parts replaced. -/
def Body.asJson : Body Nat JsString (List JsString) →
    Body JsonValue JsonValue JsonValue
  | .hello protocol incarnation calls =>
    .hello (numberJson protocol) (.str incarnation) (numberJson calls)
  | .hold fields => .hold (fields.asJson replace)
  | .release id => .release (numberJson id)
  | .call id target method args => .call (numberJson id) (numberJson target)
      (numberJson method) (args.replaceParts replace)
  | .abort id => .abort (numberJson id)
  | .retry target hops => .retry (numberJson target) (numberJson hops)
  | .bound holds => .bound (holds.map (BoundEntry.asJson replace))
  | .state holds => .state (holds.map (StateEntry.asJson replace))
  | .ack => .ack
  | .closed => .closed
  | .revoke json => .revoke json
  | .ping => .ping
  | .pong => .pong
  | .failed target kind json retryIn =>
    .failed (numberJson target) kind json (retryIn.map numberJson)
  | .loading id => .loading (numberJson id)
  | .result id value => .result (numberJson id) (value.replaceParts replace)
  | .error id json => .error (numberJson id) json
  | .gone id json => .gone (numberJson id) json

/-- The message with its fields as JSON and its parts replaced. -/
def Envelope.asJson (message : Message) : RawMessage :=
  ⟨message.origin.map numberJson, message.body.asJson replace⟩

end

/-! ### Reading the fields back -/

theorem mapM_map_ok {ε α β γ : Type} {read : β → Except ε γ} {write : α → β}
    {image : α → γ} {items : List α}
    (hitems : ∀ item ∈ items, read (write item) = .ok (image item)) :
    (items.map write).mapM read = .ok (items.map image) := by
  induction items with
  | nil => rfl
  | cons item rest ih =>
    have hrest := ih fun other hother => hitems other (mem_cons_of_mem item hother)
    rw [map_cons, mapM_cons, hitems item mem_cons_self, except_bind_ok, hrest, except_bind_ok]
    rfl

theorem textPart_json (part : Part) : textPart part.json = .ok part.relayed := by
  cases part with
  | text json | bytes encoded => simp [textPart, Part.json, Part.relayed]
  | deflated encoded =>
    simp [textPart, Part.json, Part.relayed, Base64.decode_encode]

theorem members_asJson (members : List (Nat × Part)) :
    (pairs (membersJson members) >>= fun found => found.mapM textMember) =
      .ok (members.map (memberAsJson Part.relayed)) := by
  have hpairs : pairs (membersJson members) =
      .ok (members.map fun member => (numberJson member.1, member.2.json)) :=
    mapM_map_ok fun member _ => rfl
  rw [hpairs, except_bind_ok]
  apply mapM_map_ok
  intro member _
  rw [textMember, textPart_json]
  rfl

theorem failures_json (failed : List (FailedMember Nat)) :
    failures (some (failedJson failed)) = .ok (failedAsJson failed) := by
  have hpairs : pairs (failedJson failed) =
      .ok (failed.map fun entry => (numberJson entry.member, entry.error)) :=
    mapM_map_ok fun entry _ => rfl
  rw [failures, hpairs, except_bind_ok, failedAsJson]
  simp [except_pure]

theorem failures_failedValues (failed : List (FailedMember Nat)) :
    failures (failedValues failed)[0]? = .ok (failedAsJson failed) := by
  cases failed with
  | nil => rfl
  | cons entry rest => exact failures_json (entry :: rest)

theorem boundEntryOf_json (entry : BoundEntry Nat) :
    boundEntryOf entry.json = .ok (entry.asJson Part.relayed) := by
  obtain ⟨hold, variant, members, failed⟩ := entry
  obtain ⟨found, hpairs, hfound⟩ :=
    (except_bind_eq_ok_iff _ _ _).mp (members_asJson members)
  cases failed with
  | nil =>
    simp only [BoundEntry.json, boundEntryOf, list, failedValues, except_bind_ok,
      isEmpty_nil, if_true, hpairs, hfound, failures]
    rfl
  | cons entry rest =>
    simp only [BoundEntry.json, boundEntryOf, list, failedValues, except_bind_ok,
      isEmpty_cons, Bool.false_eq_true, if_false, hpairs, hfound,
      failures_json]
    rfl

theorem stateEntryOf_json (entry : StateEntry Nat) :
    stateEntryOf entry.json = .ok (entry.asJson Part.relayed) := by
  obtain ⟨hold, members, failed, retired⟩ := entry
  obtain ⟨found, hpairs, hfound⟩ :=
    (except_bind_eq_ok_iff _ _ _).mp (members_asJson members)
  cases retired with
  | nil =>
    have hshort : ¬ 2 < (failedValues failed).length := by
      rw [failedValues]
      split <;> simp
    have hlast : (failedValues failed)[1]? = none := by
      rw [failedValues]
      split <;> simp
    simp only [StateEntry.json, stateEntryOf, list, retiredValues, except_bind_ok,
      isEmpty_nil, if_true, hpairs, hfound, hshort, hlast, if_false,
      failures_failedValues]
    rfl
  | cons member rest =>
    simp only [StateEntry.json, stateEntryOf, list, retiredValues, except_bind_ok,
      isEmpty_cons, Bool.false_eq_true, if_false, hpairs, hfound,
      length_cons, length_nil, getElem?_cons_zero,
      getElem?_cons_succ, failures_json]
    rfl

theorem isSafeLength_natCast {length : Nat} (hlength : length < 2 ^ 53) :
    isSafeLength (length : ℚ) = true := by
  have hbound : (length : ℚ) < 2 ^ 53 := by exact_mod_cast hlength
  simp [isSafeLength, hbound]

/-- The segments are cut from where the ones before them end. -/
theorem cutSegments_lengths {segments : List (List UInt8)}
    (hlengths : ∀ segment ∈ segments, segment.length < 2 ^ 53) (front : List UInt8) :
    cutSegments (segments.map fun segment => numberJson segment.length)
      (front ++ segments.flatten) front.length =
        .ok (segments, (front ++ segments.flatten).length) := by
  induction segments generalizing front with
  | nil => simp [cutSegments]
  | cons segment rest ih =>
    have hlength := hlengths segment mem_cons_self
    have hrest := ih (fun other hother =>
      hlengths other (mem_cons_of_mem segment hother)) (front ++ segment)
    rw [append_assoc, length_append] at hrest
    rw [map_cons, numberJson, cutSegments, if_pos (isSafeLength_natCast hlength)]
    simp [hrest, except_bind_ok, except_pure]

/-- The bytes behind the newline. -/
def Payload.rest (payload : Payload) : List UInt8 :=
  (payload.segments.map List.flatten).getD []

theorem textPayload_values {payload : Payload} (hheld : payload.Held) (hpaired : payload.Paired) :
    textPayload payload.values payload.rest = .ok (payload.replaceParts Part.relayed) := by
  obtain ⟨part, segments⟩ := payload
  cases part with
  | none =>
    cases segments with
    | none => rfl
    | some segments => cases hpaired rfl
  | some part =>
    cases segments with
    | none =>
      simp [textPayload, Payload.values, Payload.rest, textPart_json,
        except_bind_ok, except_pure, Payload.replaceParts]
    | some segments =>
      have hcut := cutSegments_lengths (hheld segments rfl) []
      rw [nil_append, length_nil] at hcut
      simp [textPayload, Payload.values, Payload.rest, lengthsJson, list, hcut,
        textPart_json, except_bind_ok, except_pure, Payload.replaceParts]

theorem length_values (payload : Payload) : ¬ 2 < payload.values.length := by
  obtain ⟨_ | part, _ | segments⟩ := payload <;> simp [Payload.values]

/-- An absent field is read as absent, left out or written as `null`. -/
theorem optionalField_optionalFields {fields : List (Option JsonValue)}
    (hnull : some .null ∉ fields) (index : Nat) :
    optionalField (optionalFields fields) index = fields[index]?.join := by
  have hsplit : fields.rdropWhile isNone ++ fields.rtakeWhile isNone =
      fields := rdropWhile_append_rtakeWhile
  rw [optionalField, optionalFields, getElem?_map]
  cases hfront : (fields.rdropWhile isNone)[index]? with
  | none =>
    have hbound := getElem?_eq_none_iff.mp hfront
    conv_rhs => rw [← hsplit, getElem?_append_right hbound]
    cases hback : (fields.rtakeWhile isNone)[
        index - (fields.rdropWhile isNone).length]? with
    | none => rfl
    | some field =>
      have habsent := mem_rtakeWhile_imp (mem_of_getElem? hback)
      rw [isNone_iff_eq_none.mp habsent]
      rfl
  | some field =>
    have hfield : fields[index]? = some field := by
      rw [← hsplit, getElem?_append_left (List.getElem?_eq_some_iff.mp hfront).1]
      exact hfront
    rw [hfield]
    cases field with
    | none => rfl
    | some value =>
      have hvalue : value ≠ .null := by
        rintro rfl
        exact hnull (mem_of_getElem? hfield)
      cases value with
      | null => exact absurd rfl hvalue
      | _ => rfl

theorem length_optionals (fields : HoldFields Nat JsString (List JsString)) :
    ¬ 4 < fields.optionals.length := by
  rw [HoldFields.optionals, optionalFields, length_map, not_lt]
  exact (List.rdropWhile_prefix _ _).length_le

theorem isPrincipal_null : isPrincipal .null = false := rfl

theorem holdOfFields_values {fields : HoldFields Nat JsString (List JsString)}
    (hprincipal : fields.principal.all isPrincipal = true) :
    holdOfFields (numberJson fields.hold) (.str fields.type)
      (numberJson fields.version) (.str fields.fingerprint) fields.params.json
      (.arr () [.str fields.address.kind, fields.address.params]) fields.optionals =
        .ok (fields.asJson Part.relayed) := by
  have hnull : some .null ∉ [fields.principal, fields.incarnation.map .str,
      fields.chain.map chainJson, fields.limit.map numberJson] := by
    intro hmem
    simp only [mem_cons, not_mem_nil, or_false] at hmem
    rcases hmem with hmem | hmem | hmem | hmem
    · rw [← hmem, all_some, isPrincipal_null] at hprincipal
      cases hprincipal
    · obtain ⟨text, -, htext⟩ := map_eq_some_iff.mp hmem.symm
      cases htext
    · obtain ⟨chain, -, hchain⟩ := map_eq_some_iff.mp hmem.symm
      cases hchain
    obtain ⟨limit, -, hlimit⟩ := map_eq_some_iff.mp hmem.symm
    cases hlimit
  simp only [holdOfFields, list, except_bind_ok, textPart_json, except_pure,
    HoldFields.optionals, optionalField_optionalFields hnull]
  rfl

/-- The bytes behind the tuple of a message. -/
def Body.rest (body : Body Nat JsString (List JsString)) : List UInt8 :=
  (body.payload?.map Payload.rest).getD []

variable {body : Body Nat JsString (List JsString)}

/-- The fields of a tuple read back as the body, its parts written back. -/
theorem bodyOfFields_values (hcheck : checkBody body = true) (hheld : body.Held)
    (hpaired : body.Paired) :
    bodyOfFields body.kind body.values body.rest = .ok (body.asJson Part.relayed) := by
  cases body with
  | hold fields =>
    have hprincipal : fields.principal.all isPrincipal = true := by
      simp only [checkBody, Bool.and_eq_true] at hcheck
      exact hcheck.1.1.2
    simp only [Body.kind, Body.values, bodyOfFields, length_optionals, if_false,
      holdOfFields_values hprincipal, except_bind_ok]
    rfl
  | call id target method args =>
    have hargs := textPayload_values hheld.2.2.2 (hpaired args rfl)
    have hrest : (Body.call id target method args : Body Nat JsString _).rest =
        args.rest := rfl
    simp only [Body.kind, Body.values, bodyOfFields, cons_append,
      nil_append, length_values, if_false, hrest, hargs, except_bind_ok]
    rfl
  | result id value =>
    have hvalue := textPayload_values hheld.2 (hpaired value rfl)
    have hrest : (Body.result id value : Body Nat JsString _).rest =
        value.rest := rfl
    simp only [Body.kind, Body.values, bodyOfFields, length_values, if_false, hrest,
      hvalue, except_bind_ok]
    rfl
  | bound holds =>
    have hentries : (holds.map BoundEntry.json).mapM boundEntryOf =
        .ok (holds.map (BoundEntry.asJson Part.relayed)) :=
      mapM_map_ok fun entry _ => boundEntryOf_json entry
    simp only [Body.kind, Body.values, bodyOfFields, list, except_bind_ok, hentries]
    rfl
  | state holds =>
    have hentries : (holds.map StateEntry.json).mapM stateEntryOf =
        .ok (holds.map (StateEntry.asJson Part.relayed)) :=
      mapM_map_ok fun entry _ => stateEntryOf_json entry
    simp only [Body.kind, Body.values, bodyOfFields, list, except_bind_ok, hentries]
    rfl
  | failed target kind json retryIn =>
    have hcause : causeOfLetter (.str kind.letter) = some kind := by
      cases kind <;> decide
    cases retryIn <;>
      simp [Body.kind, Body.values, bodyOfFields, hcause, Body.asJson]
  | hello _ _ _ | release _ | abort _ | retry _ _ | ack | closed | revoke _ | ping
  | pong | loading _ | error _ _ | gone _ _ => rfl

theorem kindOfTag_tag (kind : Kind) : kindOfTag (.str kind.tag) = some kind := by
  cases kind <;> decide

theorem rest_of_not_payload (hkind : payloadKinds.contains body.kind = false) : body.rest = [] := by
  cases body with
  | call _ _ _ _ | result _ _ => cases hkind
  | _ => rfl

theorem fromFields_values (hcheck : checkBody body = true) (hheld : body.Held)
    (hpaired : body.Paired) :
    fromFields (.str body.kind.tag :: body.values) body.rest =
      .ok ⟨if body.kind = .closed then some (.num 0) else none,
        body.asJson Part.relayed⟩ := by
  have hstray : ¬ (¬ (payloadKinds.contains body.kind = true) ∧
      ¬ body.rest.isEmpty = true) := by
    rintro ⟨hkind, hrest⟩
    rw [rest_of_not_payload (by simpa using hkind)] at hrest
    exact hrest rfl
  have hfields := bodyOfFields_values hcheck hheld hpaired
  simp only [fromFields, head?_cons, bind_some, kindOfTag_tag,
    any_some, if_neg hstray, tail_cons, hfields, except_bind_ok]
  rfl

theorem originTag_ne_tag (kind : Kind) : originTag ≠ kind.tag := by
  cases kind <;> decide

variable {message : Message}

/-- The tuple reads back as the message; a `closed` has an origin. -/
theorem fromTuple_values (hcheck : checkMessage message = true)
    (hheld : message.Held) (hpaired : message.body.Paired) :
    fromTuple message.values message.body.rest = .ok (message.asJson Part.relayed) := by
  obtain ⟨origin, body⟩ := message
  obtain ⟨horigin, hbody⟩ := Bool.and_eq_true_iff.mp hcheck
  have hfields := fromFields_values hbody hheld.2 hpaired
  have htag : body.kind.tag ≠ originTag := (originTag_ne_tag body.kind).symm
  cases origin with
  | none =>
    have hclosed : body.kind ≠ .closed := by
      intro hkind
      cases body with
      | closed => cases horigin
      | _ => exact absurd hkind (by simp [Body.kind])
    rw [if_neg hclosed] at hfields
    simp only [fromTuple, Envelope.values, head?_cons]
    rw [if_pos (by simpa using htag), hfields]
    rfl
  | some origin =>
    simp only [fromTuple, Envelope.values, list, except_bind_ok]
    rw [if_neg (by simp), if_neg (by simpa using htag), hfields, except_bind_ok]
    rfl

/-! ### The bytes of a message -/

theorem takeWhile_line {front : List UInt8} (hline : newlineByte ∉ front) (back : List UInt8) :
    (front ++ newlineByte :: back).takeWhile (· ≠ newlineByte) = front ∧
      (front ++ newlineByte :: back).dropWhile (· ≠ newlineByte) =
        newlineByte :: back := by
  have hfront : ∀ byte ∈ front, decide (byte ≠ newlineByte) = true := by
    intro byte hbyte
    rw [decide_eq_true_iff]
    rintro rfl
    exact hline hbyte
  rw [takeWhile_append_of_pos hfront, dropWhile_append_of_pos hfront]
  simp

theorem takeWhile_whole {line : List UInt8} (hline : newlineByte ∉ line) :
    line.takeWhile (· ≠ newlineByte) = line ∧ line.dropWhile (· ≠ newlineByte) = [] := by
  have hbytes : ∀ byte ∈ line, decide (byte ≠ newlineByte) = true := by
    intro byte hbyte
    rw [decide_eq_true_iff]
    rintro rfl
    exact hline hbyte
  exact ⟨takeWhile_eq_self_iff.mpr hbytes, dropWhile_eq_nil_iff.mpr hbytes⟩

theorem segmentsOf_rest (message : Message) :
    (segmentsOf message = none ∧ message.body.rest = []) ∨
      ∃ segments, segmentsOf message = some segments ∧
        message.body.rest = segments.flatten := by
  rw [segmentsOf, Body.rest]
  cases message.body.payload? with
  | none => exact .inl ⟨rfl, rfl⟩
  | some payload =>
    rw [bind_some, map_some, getD_some, Payload.rest]
    cases payload.segments with
    | none => exact .inl ⟨rfl, rfl⟩
    | some segments => exact .inr ⟨segments, rfl, rfl⟩

variable {text : JsString}

/-- The bytes start with the text of the tuple. -/
theorem textEncode_eq (htext : tupleText message = .ok text) :
    ∃ bytes, textEncode message = .ok bytes ∧
      (bytes = utf8Encode text ∧ message.body.rest = [] ∨
        bytes = utf8Encode text ++ newlineByte :: message.body.rest) := by
  rw [textEncode, htext, except_bind_ok]
  rcases segmentsOf_rest message with ⟨hnone, hrest⟩ | ⟨segments, hsome, hrest⟩
  · rw [hnone]
    exact ⟨_, rfl, .inl ⟨rfl, hrest⟩⟩
  rw [hsome, hrest]
  exact ⟨_, rfl, .inr rfl⟩

/-- The line up to the first newline decides what is decoded. -/
theorem textDecode_line {bytes rest : List UInt8}
    (hformed : isWellFormed text = true) (hline : newlineUnit ∉ text)
    (hbytes : bytes = utf8Encode text ∧ rest = [] ∨
      bytes = utf8Encode text ++ newlineByte :: rest) :
    textDecode bytes =
      match JsonText.parse text with
      | none => .error .notJson
      | some (.arr _ fields) => fromTuple fields rest
      | some _ => .error .notTuple := by
  have hencoded := newlineByte_not_mem_utf8Encode hline
  have hdecode := utf8Decode_utf8Encode_of_isWellFormed hformed
  rcases hbytes with ⟨rfl, rfl⟩ | rfl
  · obtain ⟨htake, hdrop⟩ := takeWhile_whole hencoded
    simp only [textDecode, htake, hdrop, hdecode, drop_nil] <;> rfl
  obtain ⟨htake, hdrop⟩ := takeWhile_line hencoded rest
  simp only [textDecode, htake, hdrop, hdecode, drop_succ_cons, drop_zero] <;> rfl

/-- Without a newline in its parts a message reads back. -/
theorem textDecode_of_no_newline (hcheck : checkMessage message = true) (hheld : message.Held)
    (hpaired : message.body.Paired) (hvalid : ∀ part ∈ message.body.parts, part.ValidJson)
    (hline : ∀ part ∈ message.body.parts, ¬ part.HasNewline) :
    ∃ bytes, textEncode message = .ok bytes ∧
      textDecode bytes = .ok (message.asJson Part.relayed) := by
  obtain ⟨texts, htext, hwritten⟩ := tupleText_spec hheld hvalid
  obtain ⟨bytes, hencode, hbytes⟩ := textEncode_eq htext
  have hnewline : newlineUnit ∉ bracketed texts := by
    rw [hwritten.newline]
    rintro ⟨part, hpart, hmem⟩
    exact hline part hpart hmem
  refine ⟨bytes, hencode, ?_⟩
  rw [textDecode_line hwritten.formed hnewline hbytes, hwritten.spells.parse]
  exact fromTuple_values hcheck hheld hpaired

variable {part : Part}

/-- A newline in a part ends the tuple early, and what is left is no JSON. -/
theorem textDecode_of_newline (hheld : message.Held)
    (hvalid : ∀ part ∈ message.body.parts, part.ValidJson)
    (hpart : part ∈ message.body.parts) (hnewline : part.HasNewline) :
    ∃ bytes, textEncode message = .ok bytes ∧ textDecode bytes = .error .notJson := by
  obtain ⟨texts, htext, hwritten⟩ := tupleText_spec hheld hvalid
  obtain ⟨bytes, hencode, hbytes⟩ := textEncode_eq htext
  obtain ⟨front, back, hcut, hfront⟩ :=
    eq_append_cons_of_mem (hwritten.newline.mpr ⟨part, hpart, hnewline⟩)
  have hlow : JsonQuote.isLow newlineUnit = false := by decide
  have hformed : isWellFormed front = true := by
    apply isWellFormed_of_append hlow
    rw [← hcut]
    exact hwritten.formed
  have hencoded : utf8Encode (bracketed texts) =
      utf8Encode front ++ newlineByte :: utf8Encode back := by
    rw [hcut, utf8Encode_append hlow, utf8Encode_newline]
  have hfirst : ∃ rest, bytes = utf8Encode front ++ newlineByte :: rest := by
    rcases hbytes with ⟨rfl, -⟩ | rfl
    · exact ⟨_, hencoded⟩
    rw [hencoded, append_assoc, cons_append]
    exact ⟨_, rfl⟩
  obtain ⟨rest, hrest⟩ := hfirst
  have hparse : JsonText.parse front = none :=
    JsonText.parse_front_of_bracketed hwritten.spells hcut (by simp)
  refine ⟨bytes, hencode, ?_⟩
  rw [textDecode_line hformed hfront (.inr hrest), hparse]

/-! ### What is preserved -/

/-- A deflated part with the same bytes, or a JSON text of the same value. -/
def SamePart (part other : Part) : Prop :=
  match part with
  | .deflated encoded => other = .deflated encoded
  | _ => other.isDeflated = false ∧ other.plainValue.isSome = true ∧
      other.plainValue = part.plainValue

/-- The message as JSON, each plain part replaced by a JSON text of its value. -/
def Preserved (message : Message) (decoded : RawMessage) : Prop :=
  ∃ replace : Part → Part,
    (∀ part ∈ message.body.parts, SamePart part (replace part)) ∧
      decoded = message.asJson replace

/-- A plain part has a number beyond the largest double. -/
def Part.Overflows (part : Part) : Prop :=
  ∃ value ∈ part.plainValue, JsonText.hasInfinity value = true

theorem plainValue_of_validJson (hplain : part.isDeflated = false) (hvalid : part.ValidJson) :
    ∃ text value, JsonText.parse text = some value ∧ part.plainValue = some value := by
  cases part with
  | text json =>
    obtain ⟨value, hvalue⟩ := isSome_iff_exists.mp hvalid.2
    exact ⟨json, value, hvalue, hvalue⟩
  | bytes encoded =>
    obtain ⟨value, hvalue⟩ := isSome_iff_exists.mp hvalid
    obtain ⟨json, -, hparse⟩ := bind_eq_some_iff.mp hvalue
    exact ⟨json, value, hparse, hvalue⟩
  | deflated encoded => cases hplain

theorem samePart_relayed_iff (hvalid : part.ValidJson) :
    SamePart part part.relayed ↔ ¬ part.Overflows := by
  by_cases hplain : part.isDeflated = false
  · obtain ⟨text, value, hparse, hvalue⟩ := plainValue_of_validJson hplain hvalid
    have hrelayed : part.relayed = .text (stringify value) := by
      cases part with
      | text _ | bytes _ => simp [Part.relayed, hvalue]
      | deflated _ => cases hplain
    have hread : (Part.text (stringify value)).plainValue = some (finitise value) :=
      JsonText.parse_stringify_of_parse hparse
    have hsame : SamePart part part.relayed ↔ finitise value = value := by
      cases part with
      | text _ | bytes _ =>
        simp [SamePart, hrelayed, hread, hvalue, Part.isDeflated]
      | deflated _ => cases hplain
    rw [hsame, JsonText.finitise_eq_self_iff, Part.Overflows, hvalue]
    simp
  cases part with
  | text _ | bytes _ => exact absurd rfl hplain
  | deflated encoded =>
    simp [SamePart, Part.relayed, Part.Overflows, Part.plainValue, Part.plainText]

theorem parts_asJson (replace : Part → Part) (body : Body Nat JsString (List JsString)) :
    (body.asJson replace).parts = body.parts.map replace := by
  cases body with
  | call _ _ _ payload | result _ payload =>
    cases hpart : payload.part <;>
      simp [Body.asJson, Body.parts, Payload.replaceParts, hpart]
  | bound holds | state holds =>
    simp [Body.asJson, Body.parts, map_flatMap, flatMap_map,
      BoundEntry.asJson, StateEntry.asJson, memberAsJson, Function.comp_def]
  | _ => rfl

theorem preserved_relayed_iff (hvalid : ∀ part ∈ message.body.parts, part.ValidJson) :
    Preserved message (message.asJson Part.relayed) ↔
      ∀ part ∈ message.body.parts, ¬ part.Overflows := by
  constructor
  · rintro ⟨replace, hsame, hdecoded⟩ part hpart
    have hparts : message.body.parts.map Part.relayed =
        message.body.parts.map replace := by
      rw [← parts_asJson, ← parts_asJson]
      exact congrArg (fun decoded : RawMessage => decoded.body.parts) hdecoded
    have hreplace : part.relayed = replace part :=
      map_inj_left.mp hparts part hpart
    rw [← samePart_relayed_iff (hvalid part hpart), hreplace]
    exact hsame part hpart
  intro hfinite
  refine ⟨Part.relayed, fun part hpart => ?_, rfl⟩
  exact (samePart_relayed_iff (hvalid part hpart)).mpr (hfinite part hpart)

/-- A relayed message is preserved exactly when no plain part holds a raw newline
or a number beyond the doubles. -/
theorem textDecode_textEncode_iff {message : Message}
    (hcheck : checkMessage message = true) (hheld : message.Held) (hpaired : message.body.Paired)
    (hvalid : ∀ part ∈ message.body.parts, part.ValidJson) :
    (∃ bytes decoded, textEncode message = .ok bytes ∧
        textDecode bytes = .ok decoded ∧ Preserved message decoded) ↔
      ∀ part ∈ message.body.parts, ¬ part.HasNewline ∧ ¬ part.Overflows := by
  constructor
  · rintro ⟨bytes, decoded, hencode, hdecode, hpreserved⟩
    have hline : ∀ part ∈ message.body.parts, ¬ part.HasNewline := by
      intro part hpart hnewline
      obtain ⟨bytes', hencode', hfails⟩ :=
        textDecode_of_newline hheld hvalid hpart hnewline
      rw [hencode] at hencode'
      cases hencode'
      rw [hdecode] at hfails
      cases hfails
    obtain ⟨bytes', hencode', hreads⟩ :=
      textDecode_of_no_newline hcheck hheld hpaired hvalid hline
    rw [hencode] at hencode'
    cases hencode'
    rw [hdecode] at hreads
    cases hreads
    intro part hpart
    exact ⟨hline part hpart, (preserved_relayed_iff hvalid).mp hpreserved part hpart⟩
  · intro hparts
    obtain ⟨bytes, hencode, hdecode⟩ := textDecode_of_no_newline hcheck hheld hpaired
      hvalid fun part hpart => (hparts part hpart).1
    refine ⟨bytes, _, hencode, hdecode, ?_⟩
    exact (preserved_relayed_iff hvalid).mpr fun part hpart => (hparts part hpart).2

/-- A result whose part stands on one line, wrapped with an origin. -/
def spacedResult : Message where
  origin := some 2
  body := .result 1 ⟨some (.text (js ['[', ' ', '"', 'é', '"', ']'])), some [[10]]⟩

theorem textDecode_textEncode_spacedResult :
    ∃ bytes decoded, textEncode spacedResult = .ok bytes ∧
      textDecode bytes = .ok decoded ∧ Preserved spacedResult decoded := by
  refine (textDecode_textEncode_iff (by decide) ?_ ?_ ?_).mpr ?_
  · refine ⟨?_, isDouble_natCast (by decide), ?_⟩
    · rintro origin ⟨⟩
      exact isDouble_natCast (by decide)
    · rintro segments ⟨⟩ segment hsegment
      rw [mem_singleton.mp hsegment]
      decide
  · rintro payload ⟨⟩ -
    rfl
  · intro part hpart
    rw [mem_singleton.mp hpart]
    exact ⟨by decide, by decide⟩
  intro part hpart
  rw [mem_singleton.mp hpart]
  constructor
  · rintro ⟨json, ⟨⟩, hnewline⟩
    revert hnewline
    decide
  rintro ⟨value, hvalue, hinfinite⟩
  have hparsed : (Part.text (js ['[', ' ', '"', 'é', '"', ']'])).plainValue =
      some (.arr () [.str (js ['é'])]) := by decide
  rw [hparsed] at hvalue
  cases hvalue
  revert hinfinite
  decide

/-- A result whose part is spread over two lines. -/
def brokenResult : Message where
  origin := none
  body := .result 1 ⟨some (.text (js ['[', '\n', ']'])), none⟩

/-- The line of the tuple breaks inside the part, and decoding fails. -/
theorem textDecode_textEncode_brokenResult :
    (checkMessage brokenResult = true ∧ brokenResult.Held ∧ brokenResult.body.Paired ∧
      ∀ part ∈ brokenResult.body.parts, part.ValidJson) ∧
    ¬ ∃ bytes decoded, textEncode brokenResult = .ok bytes ∧
      textDecode bytes = .ok decoded ∧ Preserved brokenResult decoded := by
  have hheld : brokenResult.Held := by
    refine ⟨?_, isDouble_natCast (by decide), ?_⟩
    · rintro origin ⟨⟩
    · rintro segments ⟨⟩
  have hvalid : ∀ part ∈ brokenResult.body.parts, part.ValidJson := by
    intro part hpart
    rw [mem_singleton.mp hpart]
    exact ⟨by decide, by decide⟩
  refine ⟨⟨by decide, hheld, ?_, hvalid⟩, ?_⟩
  · rintro payload ⟨⟩ hsegments
    cases hsegments
  rintro ⟨bytes, decoded, hencode, hdecode, -⟩
  obtain ⟨bytes', hencode', hfails⟩ := textDecode_of_newline hheld hvalid
    mem_cons_self ⟨_, rfl, by decide⟩
  rw [hencode] at hencode'
  cases hencode'
  rw [hdecode] at hfails
  cases hfails

end Hummin.Link
