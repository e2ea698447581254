/-
The messages of a link and the schema they are checked against.  A message is
generic in what stands for its numbers, strings and chains: those of a checked
message, or the raw JSON that the text codec reads.
-/
import Hummin.JsonTree

namespace Hummin.Link

/-- A value as it crosses a link: JSON text, its UTF-8 bytes, or those bytes
deflated. -/
inductive Part
  | text (json : JsString)
  | bytes (bytes : List UInt8)
  | deflated (bytes : List UInt8)
deriving DecidableEq

/-- `CAUSE_KINDS`, in their codes' order. -/
inductive CauseKind
  | transient
  | broken
  | waiting
deriving DecidableEq

/-- A member of a hold that failed; the error is checked by the schema only. -/
structure FailedMember (N : Type) where
  member : N
  error : JsonValue

structure BoundEntry (N : Type) where
  hold : N
  variant : N
  members : List (N × Part)
  failed : List (FailedMember N)

structure StateEntry (N : Type) where
  hold : N
  members : List (N × Part)
  failed : List (FailedMember N)
  retired : List N

structure Address (S : Type) where
  kind : S
  params : JsonValue

/-- The fields of a `hold`. -/
structure HoldFields (N S C : Type) where
  hold : N
  type : S
  version : N
  fingerprint : S
  params : Part
  address : Address S
  principal : Option JsonValue
  incarnation : Option S
  chain : Option C
  limit : Option N

/-- A payload part and its byte segments. -/
structure Payload where
  part : Option Part
  segments : Option (List (List UInt8))

/-- The kinds of messages with their own fields. -/
inductive Body (N S C : Type)
  | hello (protocol : N) (incarnation : S) (calls : N)
  | hold (fields : HoldFields N S C)
  | release (hold : N)
  | call (call hold method : N) (args : Payload)
  | abort (call : N)
  | retry (hold hops : N)
  | bound (holds : List (BoundEntry N))
  | state (holds : List (StateEntry N))
  | ack
  | closed
  | revoke (revocation : JsonValue)
  | ping
  | pong
  | failed (hold : N) (kind : CauseKind) (error : JsonValue) (retryIn : Option N)
  | loading (hold : N)
  | result (call : N) (value : Payload)
  | error (call : N) (error : JsonValue)
  | gone (hold : N) (error : JsonValue)

/-- The tag of a message. -/
inductive Kind
  | hello
  | hold
  | release
  | call
  | abort
  | bound
  | state
  | failed
  | result
  | error
  | gone
  | retry
  | loading
  | ack
  | closed
  | ping
  | pong
  | revoke
deriving DecidableEq

def Body.kind {N S C : Type} : Body N S C → Kind
  | .hello _ _ _ => .hello
  | .hold _ => .hold
  | .release _ => .release
  | .call _ _ _ _ => .call
  | .abort _ => .abort
  | .retry _ _ => .retry
  | .bound _ => .bound
  | .state _ => .state
  | .ack => .ack
  | .closed => .closed
  | .revoke _ => .revoke
  | .ping => .ping
  | .pong => .pong
  | .failed _ _ _ _ => .failed
  | .loading _ => .loading
  | .result _ _ => .result
  | .error _ _ => .error
  | .gone _ _ => .gone

/-- A message: the origin it carries and its own fields. -/
structure Envelope (N S C : Type) where
  origin : Option N
  body : Body N S C

/-- A message with the field types of the schema. -/
abbrev Message := Envelope Nat JsString (List JsString)

/-! ### The schema -/

def maxChain : Nat := 32
def retryHops : Nat := 16

def isHexUnit (unit : UInt16) : Bool :=
  (48 ≤ unit.toNat && unit.toNat ≤ 57) || (97 ≤ unit.toNat && unit.toNat ≤ 102)

/-- Exactly `count` lowercase hexadecimal digits. -/
def matchesHex (count : Nat) (text : JsString) : Bool :=
  text.length == count && text.all isHexUnit

def dashUnit : UInt16 := 45

/-- Groups of hexadecimal digits with dashes between them. -/
def matchesGroups : List Nat → JsString → Bool
  | [], text => text.isEmpty
  | [count], text => matchesHex count text
  | count :: rest, text =>
    matchesHex count (text.take count) && text[count]? == some dashUnit &&
      matchesGroups rest (text.drop (count + 1))

def uuidGroups : List Nat := [8, 4, 4, 4, 12]

/-- The pattern of `incarnation`. -/
def matchesIncarnation (text : JsString) : Bool :=
  matchesGroups uuidGroups text

def kindKey : JsString := js ['k', 'i', 'n', 'd']
def errorKey : JsString := js ['e', 'r', 'r', 'o', 'r']
def codeKey : JsString := js ['c', 'o', 'd', 'e']
def messageKey : JsString := js ['m', 'e', 's', 's', 'a', 'g', 'e']
def detailsKey : JsString := js ['d', 'e', 't', 'a', 'i', 'l', 's']

def isString : JsonValue → Bool
  | .str _ => true
  | _ => false

/-- A closed object: the required fields with their checks, and the optional
ones, any value. -/
def checkObject (required : List (JsString × (JsonValue → Bool)))
    (optional : List JsString) (fields : List (JsString × JsonValue)) : Bool :=
  (required.all fun field =>
    (PropertyList.get field.1 fields).any field.2) &&
  (PropertyList.keys fields).all fun key =>
    (required.map Prod.fst).contains key || optional.contains key

/-- `lit` of a string. -/
def isLiteral (text : JsString) : JsonValue → Bool
  | .str other => other == text
  | _ => false

/-- The schema `wireError`. -/
def isWireError : JsonValue → Bool
  | .obj _ fields =>
    checkObject [(kindKey, isLiteral (js ['c', 'h', 'o', 'r', 'd'])),
      (errorKey, fun _ => true)] [] fields ||
    checkObject [(kindKey, isLiteral (js ['p', 'l', 'u', 'g', 'i', 'n'])),
      (codeKey, isString), (messageKey, isString)] [detailsKey] fields
  | _ => false

/-- The schema `principal`, an open object. -/
def isPrincipal : JsonValue → Bool
  | .obj _ fields => (PropertyList.get kindKey fields).any isString
  | _ => false

def checkFailed (failed : List (FailedMember Nat)) : Bool :=
  failed.all fun entry => isWireError entry.error

/-- The schema's checks of a kind's own fields. -/
def checkBody : Body Nat JsString (List JsString) → Bool
  | .hello _ incarnation calls =>
    matchesIncarnation incarnation && decide (1 ≤ calls)
  | .hold fields =>
    decide (1 ≤ fields.version) && matchesHex 16 fields.fingerprint &&
      fields.principal.all isPrincipal &&
      fields.incarnation.all matchesIncarnation &&
      (fields.chain.all fun chain =>
        decide (chain.length ≤ maxChain) && chain.all matchesIncarnation)
  | .retry _ hops => decide (1 ≤ hops) && decide (hops ≤ retryHops)
  | .bound holds => holds.all fun entry => checkFailed entry.failed
  | .state holds => holds.all fun entry => checkFailed entry.failed
  | .failed _ _ error _ | .error _ error | .gone _ error => isWireError error
  | _ => true

/-- The origin that a kind may carry. -/
def checkOrigin : Body Nat JsString (List JsString) → Option Nat → Bool
  | .hello _ _ _, origin | .revoke _, origin | .ping, origin | .pong, origin =>
    origin.isNone
  | .closed, origin => origin.any fun origin => decide (1 ≤ origin)
  | _, origin => origin.all fun origin => decide (1 ≤ origin)

/-- The compiled check of `MESSAGE`. -/
def checkMessage (message : Message) : Bool :=
  checkOrigin message.body message.origin && checkBody message.body

/-- Segments appear only beside a payload part. -/
def Payload.Paired (payload : Payload) : Prop :=
  payload.segments.isSome → payload.part.isSome

/-- The payload of a `call` or a `result`. -/
def Body.payload? {N S C : Type} : Body N S C → Option Payload
  | .call _ _ _ args => some args
  | .result _ value => some value
  | _ => none

end Hummin.Link
