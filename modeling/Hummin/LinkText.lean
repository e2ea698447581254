/-
The text codec of a link: one JSON tuple a message, parts spliced in as text,
byte segments after a newline.  Decoding parses the tuple and writes each part
back as text; what it returns is raw JSON, which the schema checks later.
-/
import Mathlib.Data.List.DropRight
import Hummin.Base64
import Hummin.JsonSplice
import Hummin.LinkMessage
import Hummin.WellFormedText

namespace Hummin.Link

open JsonText (stringify openBracket closeBracket commaUnit bracketed)

/-- What the codec throws. -/
inductive TextError
  | notUtf8
  | notJson
  | notTuple
  | wrapsOne
  | arity (tag : JsonValue) (count : Nat)
  | strayBytes
  | notAddress
  | boundEntry (count : Nat)
  | stateEntry (count : Nat)
  | unknownFailureKind
  | unknownKind
  | segmentLength
  | segmentsDoNotFill
  | notList
  | notPair
  | notPart
  | unknownCodec
  | notBase64
deriving DecidableEq

/-- A message as it is decoded: its fields are JSON that was not checked. -/
abbrev RawMessage := Envelope JsonValue JsonValue JsonValue

/-- The letter of a kind. -/
def Kind.tag : Kind → JsString
  | .hello => js ['h']
  | .hold => js ['H']
  | .release => js ['R']
  | .call => js ['c']
  | .abort => js ['x']
  | .bound => js ['b']
  | .state => js ['s']
  | .failed => js ['f']
  | .result => js ['r']
  | .error => js ['e']
  | .gone => js ['g']
  | .retry => js ['T']
  | .loading => js ['l']
  | .ack => js ['a']
  | .closed => js ['C']
  | .ping => js ['p']
  | .pong => js ['P']
  | .revoke => js ['V']

def originTag : JsString := js ['@']

/-- The first letter of a cause's kind. -/
def CauseKind.letter : CauseKind → JsString
  | .transient => js ['t']
  | .broken => js ['b']
  | .waiting => js ['w']

/-! ### Encoding -/

def numberJson (number : Nat) : JsonValue :=
  .num number

/-- `json([...])`. -/
def jsonTuple (fields : List JsonValue) : JsString :=
  stringify (.arr () fields)

/-- A part as it is spliced into a tuple, tagged with its codec. -/
def partText : Part → Except TextError JsString
  | .deflated bytes =>
    .ok (js ['[', '1', ',', '"'] ++ Base64.encode bytes ++ js ['"', ']'])
  | .text json => .ok (js ['[', '0', ','] ++ json ++ [closeBracket])
  | .bytes bytes =>
    match utf8Decode bytes with
    | some json => .ok (js ['[', '0', ','] ++ json ++ [closeBracket])
    | none => .error .notUtf8

/-- `[member, part]`. -/
def memberText (member : Nat × Part) : Except TextError JsString := do
  let part ← partText member.2
  pure (openBracket :: (numberText member.1 ++ commaUnit :: (part ++ [closeBracket])))

def failedJson (failed : List (FailedMember Nat)) : JsonValue :=
  .arr () (failed.map fun entry => .arr () [numberJson entry.member, entry.error])

/-- The failures as an optional last field. -/
def failedField (failed : List (FailedMember Nat)) : JsString :=
  if failed.isEmpty then [] else commaUnit :: stringify (failedJson failed)

def boundEntryText (entry : BoundEntry Nat) : Except TextError JsString := do
  let pairs ← entry.members.mapM memberText
  pure (openBracket :: (numberText entry.hold ++ commaUnit ::
    (numberText entry.variant ++ commaUnit ::
      (bracketed pairs ++ failedField entry.failed ++ [closeBracket]))))

def stateEntryText (entry : StateEntry Nat) : Except TextError JsString := do
  let pairs ← entry.members.mapM memberText
  if entry.retired.isEmpty then
    pure (openBracket :: (numberText entry.hold ++ commaUnit ::
      (bracketed pairs ++ failedField entry.failed ++ [closeBracket])))
  else
    pure (openBracket :: (numberText entry.hold ++ commaUnit ::
      (bracketed pairs ++ commaUnit :: (stringify (failedJson entry.failed) ++
        commaUnit :: (jsonTuple (entry.retired.map numberJson) ++ [closeBracket])))))

/-- A closed tuple continued by a payload part and the lengths of its segments. -/
def withPayload (head : JsString) (payload : Payload) : Except TextError JsString :=
  match payload.part with
  | none => .ok head
  | some part => do
      let text ← partText part
      let opened := head.dropLast ++ commaUnit :: text
      match payload.segments with
      | none => pure (opened ++ [closeBracket])
      | some segments => pure (opened ++ commaUnit ::
          (jsonTuple (segments.map fun segment => numberJson segment.length) ++
            [closeBracket]))

/-- The optional fields of a hold; absent ones at the end are left out. -/
def optionalFields (fields : List (Option JsonValue)) : List JsonValue :=
  (fields.rdropWhile Option.isNone).map fun field => field.getD .null

def chainJson (chain : List JsString) : JsonValue :=
  .arr () (chain.map .str)

def holdText (fields : HoldFields Nat JsString (List JsString)) :
    Except TextError JsString := do
  let head := (jsonTuple [.str Kind.hold.tag, numberJson fields.hold,
    .str fields.type, numberJson fields.version, .str fields.fingerprint]).dropLast
  let optional := optionalFields [fields.principal,
    fields.incarnation.map .str, fields.chain.map chainJson,
    fields.limit.map numberJson]
  let rest := optional.flatMap fun field => commaUnit :: stringify field
  let params ← partText fields.params
  pure (head ++ commaUnit :: (params ++ commaUnit ::
    (jsonTuple [.str fields.address.kind, fields.address.params] ++ rest ++ [closeBracket])))

/-- The tuple of a message's own fields. -/
def ownTuple (body : Body Nat JsString (List JsString)) :
    Except TextError JsString :=
  let tag : JsonValue := .str body.kind.tag
  match body with
  | .hello protocol incarnation calls =>
    .ok (jsonTuple [tag, numberJson protocol, .str incarnation, numberJson calls])
  | .hold fields => holdText fields
  | .release hold | .loading hold => .ok (jsonTuple [tag, numberJson hold])
  | .call call hold method args => withPayload
      (jsonTuple [tag, numberJson call, numberJson hold, numberJson method]) args
  | .abort call => .ok (jsonTuple [tag, numberJson call])
  | .bound holds => do
      let entries ← holds.mapM boundEntryText
      pure (bracketed [stringify tag, bracketed entries])
  | .state holds => do
      let entries ← holds.mapM stateEntryText
      pure (bracketed [stringify tag, bracketed entries])
  | .failed hold kind error retryIn => .ok (jsonTuple
      ([tag, numberJson hold, .str kind.letter, error] ++ (retryIn.map numberJson).toList))
  | .result call value => withPayload (jsonTuple [tag, numberJson call]) value
  | .error call error => .ok (jsonTuple [tag, numberJson call, error])
  | .gone hold error => .ok (jsonTuple [tag, numberJson hold, error])
  | .revoke revocation => .ok (jsonTuple [tag, revocation])
  | .retry hold hops => .ok (jsonTuple [tag, numberJson hold, numberJson hops])
  | .ack | .closed | .ping | .pong => .ok (jsonTuple [tag])

/-- The tuple, wrapped with the origin when there is one. -/
def tupleText (message : Message) : Except TextError JsString := do
  let own ← ownTuple message.body
  match message.origin with
  | none => pure own
  | some origin => pure (bracketed [JsonQuote.quote originTag, numberText origin, own])

def segmentsOf (message : Message) : Option (List (List UInt8)) :=
  message.body.payload?.bind Payload.segments

/-- `textCodec.encode`. -/
def textEncode (message : Message) : Except TextError (List UInt8) := do
  let text ← tupleText message
  match segmentsOf message with
  | none => pure (utf8Encode text)
  | some segments => pure (utf8Encode text ++ newlineByte :: segments.flatten)

/-! ### Decoding -/

def list : JsonValue → Except TextError (List JsonValue)
  | .arr _ items => .ok items
  | _ => .error .notList

def pair (value : JsonValue) : Except TextError (JsonValue × JsonValue) := do
  match ← list value with
  | [first, second] => pure (first, second)
  | _ => throw .notPair

/-- A list of pairs. -/
def pairs (value : JsonValue) : Except TextError (List (JsonValue × JsonValue)) := do
  let items ← list value
  items.mapM pair

/-- A part from its place in a tuple. -/
def textPart : JsonValue → Except TextError Part
  | .arr _ [codec, payload] =>
    if codec = .num 0 then .ok (.text (stringify payload))
    else
      match decide (codec = .num 1), payload with
      | true, .str text =>
        match Base64.decode text with
        | some bytes => .ok (.deflated bytes)
        | none => .error .notBase64
      | _, _ => .error .unknownCodec
  | _ => .error .notPart

def textMember (member : JsonValue × JsonValue) :
    Except TextError (JsonValue × Part) := do
  let part ← textPart member.2
  pure (member.1, part)

/-- The optional failures field. -/
def failures : Option JsonValue → Except TextError (List (FailedMember JsonValue))
  | none => .ok []
  | some value => do
      let entries ← pairs value
      pure (entries.map fun entry => ⟨entry.1, entry.2⟩)

def isSafeLength (length : ℚ) : Bool :=
  decide (length.den = 1) && decide (0 ≤ length) && decide (length < 2 ^ 53)

/-- The segments of the given lengths from an offset on, and where they end; a
segment past the end of the bytes is cut short. -/
def cutSegments : List JsonValue → List UInt8 → Nat →
    Except TextError (List (List UInt8) × Nat)
  | [], _, offset => .ok ([], offset)
  | .num length :: lengths, rest, offset =>
    if isSafeLength length then do
      let (segments, last) ← cutSegments lengths rest (offset + length.num.toNat)
      pure ((rest.drop offset).take length.num.toNat :: segments, last)
    else .error .segmentLength
  | _ :: _, _, _ => .error .segmentLength

/-- A payload from the last fields of a tuple. -/
def textPayload (fields : List JsonValue) (rest : List UInt8) :
    Except TextError Payload :=
  match fields with
  | [] => if rest.isEmpty then .ok ⟨none, none⟩ else .error .strayBytes
  | [part] =>
    if rest.isEmpty then do
      let part ← textPart part
      pure ⟨some part, none⟩
    else .error .strayBytes
  | part :: lengths :: _ => do
      let lengths ← list lengths
      let (segments, last) ← cutSegments lengths rest 0
      if last ≠ rest.length then throw .segmentsDoNotFill
      else do
        let part ← textPart part
        pure ⟨some part, some segments⟩

/-- The field at an index, unless it is absent or null. -/
def optionalField (fields : List JsonValue) (index : Nat) : Option JsonValue :=
  match fields[index]? with
  | none | some .null => none
  | some field => some field

def holdOfFields (hold type version fingerprint params address : JsonValue)
    (optional : List JsonValue) :
    Except TextError (HoldFields JsonValue JsonValue JsonValue) := do
  match ← list address with
  | [kind, addressParams] => do
      let params ← textPart params
      pure ⟨hold, type, version, fingerprint, params, ⟨kind, addressParams⟩,
        optionalField optional 0, optionalField optional 1,
        optionalField optional 2, optionalField optional 3⟩
  | _ => throw .notAddress

def boundEntryOf (entry : JsonValue) : Except TextError (BoundEntry JsonValue) := do
  let fields ← list entry
  match fields with
  | [hold, variant, members] => do
      let members ← (← pairs members).mapM textMember
      let failed ← failures none
      pure ⟨hold, variant, members, failed⟩
  | [hold, variant, members, failed] => do
      let members ← (← pairs members).mapM textMember
      let failed ← failures (some failed)
      pure ⟨hold, variant, members, failed⟩
  | _ => throw (.boundEntry fields.length)

def stateEntryOf (entry : JsonValue) : Except TextError (StateEntry JsonValue) := do
  let fields ← list entry
  match fields with
  | hold :: members :: optional =>
    if 2 < optional.length then throw (.stateEntry fields.length)
    else do
      let members ← (← pairs members).mapM textMember
      let failed ← failures optional[0]?
      let retired ← match optional[1]? with
        | none => pure []
        | some retired => list retired
      pure ⟨hold, members, failed, retired⟩
  | _ => throw (.stateEntry fields.length)

def kindOfTag (tag : JsonValue) : Option Kind :=
  [Kind.hello, .hold, .release, .call, .abort, .bound, .state, .failed, .result,
    .error, .gone, .revoke, .retry, .loading, .ack, .closed, .ping, .pong].find?
      fun kind => tag = .str kind.tag

def causeOfLetter (letter : JsonValue) : Option CauseKind :=
  [CauseKind.transient, .broken, .waiting].find? fun kind =>
    letter = .str kind.letter

def payloadKinds : List Kind := [.call, .result]

/-- The body of a kind from its fields. -/
def bodyOfFields (kind : Kind) (f : List JsonValue) (rest : List UInt8) :
    Except TextError (Body JsonValue JsonValue JsonValue) :=
  let arity := TextError.arity (.str kind.tag) f.length
  match kind with
  | .hello =>
    match f with
    | [protocol, incarnation, calls] => .ok (.hello protocol incarnation calls)
    | _ => .error arity
  | .hold =>
    match f with
    | hold :: type :: version :: fingerprint :: params :: address :: optional =>
      if 4 < optional.length then .error arity
      else do
        let fields ←
          holdOfFields hold type version fingerprint params address optional
        pure (.hold fields)
    | _ => .error arity
  | .release =>
    match f with
    | [hold] => .ok (.release hold)
    | _ => .error arity
  | .call =>
    match f with
    | call :: hold :: method :: fields =>
      if 2 < fields.length then .error arity
      else do
        let args ← textPayload fields rest
        pure (.call call hold method args)
    | _ => .error arity
  | .abort =>
    match f with
    | [call] => .ok (.abort call)
    | _ => .error arity
  | .bound =>
    match f with
    | [holds] => do
        let entries ← list holds
        let holds ← entries.mapM boundEntryOf
        pure (.bound holds)
    | _ => .error arity
  | .state =>
    match f with
    | [holds] => do
        let entries ← list holds
        let holds ← entries.mapM stateEntryOf
        pure (.state holds)
    | _ => .error arity
  | .failed =>
    match f with
    | hold :: letter :: error :: retryIn =>
      if 1 < retryIn.length then .error arity
      else
        match causeOfLetter letter with
        | none => .error .unknownFailureKind
        | some cause => .ok (.failed hold cause error retryIn.head?)
    | _ => .error arity
  | .result =>
    match f with
    | call :: fields =>
      if 2 < fields.length then .error arity
      else do
        let value ← textPayload fields rest
        pure (.result call value)
    | _ => .error arity
  | .error =>
    match f with
    | [call, error] => .ok (.error call error)
    | _ => .error arity
  | .gone =>
    match f with
    | [hold, error] => .ok (.gone hold error)
    | _ => .error arity
  | .revoke =>
    match f with
    | [revocation] => .ok (.revoke revocation)
    | _ => .error arity
  | .retry =>
    match f with
    | [hold, hops] => .ok (.retry hold hops)
    | _ => .error arity
  | .loading =>
    match f with
    | [hold] => .ok (.loading hold)
    | _ => .error arity
  | .ack => if f.isEmpty then .ok .ack else .error arity
  | .closed => if f.isEmpty then .ok .closed else .error arity
  | .ping => if f.isEmpty then .ok .ping else .error arity
  | .pong => if f.isEmpty then .ok .pong else .error arity

/-- A message from the tuple of its own fields; the origin of a `closed` is 0
without a wrapper. -/
def fromFields (fields : List JsonValue) (rest : List UInt8) :
    Except TextError RawMessage :=
  let kind := fields.head?.bind kindOfTag
  if ¬ (kind.any payloadKinds.contains) ∧ ¬ rest.isEmpty then .error .strayBytes
  else
    match kind with
    | none => .error .unknownKind
    | some kind => do
        let body ← bodyOfFields kind fields.tail rest
        pure ⟨if kind = .closed then some (.num 0) else none, body⟩

/-- A message from its tuple, which an origin may wrap. -/
def fromTuple (fields : List JsonValue) (rest : List UInt8) :
    Except TextError RawMessage :=
  if fields.head? ≠ some (.str originTag) then fromFields fields rest
  else
    match fields with
    | [_, origin, inner] => do
        let inner ← list inner
        if inner.head? = some (.str originTag) ∨ inner.isEmpty then throw .wrapsOne
        else do
          let message ← fromFields inner rest
          pure { message with origin := some origin }
    | _ => .error .wrapsOne

/-- `textCodec.decode`. -/
def textDecode (bytes : List UInt8) : Except TextError RawMessage :=
  let json := bytes.takeWhile (· ≠ newlineByte)
  let rest := (bytes.dropWhile (· ≠ newlineByte)).drop 1
  match utf8Decode json with
  | none => .error .notUtf8
  | some text =>
    match JsonText.parse text with
    | none => .error .notJson
    | some (.arr _ fields) => fromTuple fields rest
    | some _ => .error .notTuple

end Hummin.Link
