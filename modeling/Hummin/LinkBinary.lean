/-
The binary codec of a link: messages as a kind byte and the kind's fields.  The
writer fills one growing buffer in place, the reader takes its fields from what
is left of a message.
-/
import Hummin.JsonText
import Hummin.LinkMessage
import Hummin.Utf8
import Hummin.WireFormat

namespace Hummin.Link

/-- What the codec throws. -/
inductive BinaryError
  | unknownKind
  | unknownHoldFlags
  | unknownFailureKind
  | unknownPayloadFlags
  | endsEarly
  | varintDoesNotFit
  | countDoesNotFit
  | bytesAfter
  | notHex (length : Nat)
  | notUtf8
  | notJson
deriving DecidableEq

/-- Kinds by their byte. -/
def kinds : List Kind :=
  [.hello, .hold, .release, .call, .abort, .bound, .state, .failed, .result,
    .error, .gone, .retry, .loading, .ack, .closed, .ping, .pong, .revoke]

def causeKinds : List CauseKind :=
  [.transient, .broken, .waiting]

def originFlag : Nat := 0x80
def present : Nat := 1
def withSegments : Nat := 2
def principalFlag : Nat := 1
def incarnationFlag : Nat := 2
def chainFlag : Nat := 4
def limitFlag : Nat := 8
def short : Nat := 42
def long : Nat := 4096
def lengthSlot : Nat := 5
def spare : Nat := 4096
def maxSafeInteger : Nat := 2 ^ 53 - 1

/-! ### Hexadecimal bytes -/

/-- A byte for every two digits. -/
def hexBytes : JsString → List UInt8
  | high :: low :: rest =>
    UInt8.ofNat ((JsonQuote.hexValue high).getD 0 * 16 +
      (JsonQuote.hexValue low).getD 0) :: hexBytes rest
  | _ => []

/-- `length` bytes from lowercase digits. -/
def hex (text : JsString) (length : Nat) : Except BinaryError (List UInt8) :=
  if matchesHex (length * 2) text then .ok (hexBytes text)
  else .error (.notHex length)

def hexText (bytes : List UInt8) : JsString :=
  bytes.flatMap fun byte =>
    [JsonQuote.hexUnit (byte.toNat / 16), JsonQuote.hexUnit (byte.toNat % 16)]

/-- Sixteen bytes as the text of a UUID. -/
def uuid (bytes : List UInt8) : JsString :=
  let text := hexText bytes
  text.take 8 ++ dashUnit :: ((text.drop 8).take 4 ++ dashUnit ::
    ((text.drop 12).take 4 ++ dashUnit :: ((text.drop 16).take 4 ++ dashUnit :: text.drop 20)))

def withoutDashes (text : JsString) : JsString :=
  text.filter (· ≠ dashUnit)

/-! ### The writer -/

/-- The bytes of a buffer from an offset on, overwritten. -/
def overwrite (buffer : List UInt8) (offset : Nat) (bytes : List UInt8) :
    List UInt8 :=
  buffer.take offset ++ bytes ++ buffer.drop (offset + bytes.length)

/-- One growing buffer and how much of it is written. -/
structure Writer where
  buffer : List UInt8
  length : Nat

abbrev Write := Wire.Writing Writer BinaryError

namespace Writer

def empty : Writer :=
  ⟨List.replicate 256 0, 0⟩

/-- Grow the buffer to fit `bytes` more: doubled, or for a large chunk to its
end plus room for the fields after it. -/
def reserve (bytes : Nat) (writer : Writer) : Writer :=
  if writer.length + bytes ≤ writer.buffer.length then writer
  else
    let grown := max (writer.buffer.length * 2) (writer.length + bytes + spare)
    { writer with
      buffer := writer.buffer.take writer.length ++
        List.replicate (grown - writer.length) 0 }

/-- `buffer[length++] = byte`; a store past the end is ignored. -/
def store (byte : UInt8) (writer : Writer) : Writer :=
  ⟨writer.buffer.set writer.length byte, writer.length + 1⟩

/-- Copy bytes to the end of what is written. -/
def extend (bytes : List UInt8) (writer : Writer) : Writer :=
  ⟨overwrite writer.buffer writer.length bytes, writer.length + bytes.length⟩

/-- Seven bits a byte, the lowest first, all but the last marked. -/
def storeVarint (rest : Nat) (writer : Writer) : Writer :=
  if 0x80 ≤ rest then
    storeVarint (rest / 0x80) (writer.store (UInt8.ofNat (rest % 0x80 + 0x80)))
  else writer.store (UInt8.ofNat rest)
termination_by rest
decreasing_by omega

/-- A varint of a fixed number of bytes. -/
def paddedVarint : Nat → Nat → List UInt8
  | 0, _ => []
  | 1, rest => [UInt8.ofNat (rest % 0x80)]
  | count + 2, rest =>
    UInt8.ofNat (rest % 0x80 + 0x80) :: paddedVarint (count + 1) (rest / 0x80)

/-- A short text: its prefix is one byte. -/
def shortText (text : JsString) (scale : Nat) (writer : Writer) : Writer :=
  let room := writer.reserve (1 + text.length * 3)
  let (_, bytes) := encodeInto text (room.buffer.length - (room.length + 1))
  let filled := overwrite room.buffer (room.length + 1) bytes
  ⟨filled.set room.length (UInt8.ofNat (bytes.length * scale)), room.length + 1 + bytes.length⟩

/-- The loop of a long text over what is left of it: each round fills the room
there is, then makes more. -/
def encodeInPlace : Nat → JsString → Writer → Writer
  | 0, _, writer => writer
  | fuel + 1, rest, writer =>
    if rest.isEmpty then writer
    else
      let (read, bytes) := encodeInto rest (writer.buffer.length - writer.length)
      let left := rest.drop read
      let filled := writer.extend bytes
      encodeInPlace fuel left
        (if left.isEmpty then filled
        else filled.reserve (max (left.length * 2) 4))

/-- A long text: its prefix is a fixed slot, filled when its length is known. -/
def longText (text : JsString) (scale : Nat) (writer : Writer) : Writer :=
  let slot := writer.length
  let room := writer.reserve (lengthSlot + text.length)
  let filled := encodeInPlace text.length text
    { room with length := room.length + lengthSlot }
  let length := (filled.length - slot - lengthSlot) * scale
  { filled with
    buffer := overwrite filled.buffer slot (paddedVarint lengthSlot length) }

end Writer

/-! The writer's methods. -/

def writeByte (byte : Nat) : Write Unit :=
  modify fun writer => (writer.reserve 1).store (UInt8.ofNat byte)

def writeVarint (value : Nat) : Write Unit :=
  modify fun writer => (writer.reserve 8).storeVarint value

def writeRaw (bytes : List UInt8) : Write Unit :=
  modify fun writer => (writer.reserve bytes.length).extend bytes

/-- `writer.raw(hex(text, length))`. -/
def writeHex (text : JsString) (length : Nat) : Write Unit := do
  let bytes ← hex text length
  writeRaw bytes

/-- A text behind its UTF-8 length times `scale`. -/
def writeText (text : JsString) (scale : Nat) : Write Unit :=
  if text.length ≤ short / scale then modify (Writer.shortText text scale)
  else if text.length < long then do
    let bytes := utf8Encode text
    writeVarint (bytes.length * scale)
    writeRaw bytes
  else modify (Writer.longText text scale)

def writeString (text : JsString) : Write Unit :=
  writeText text 1

def writeJson (value : JsonValue) : Write Unit :=
  writeString (JsonText.stringify value)

/-- A part behind its length doubled, plus one when it is deflated. -/
def writePart : Part → Write Unit
  | .text text => writeText text 2
  | .bytes bytes => do
      writeVarint (bytes.length * 2)
      writeRaw bytes
  | .deflated bytes => do
      writeVarint (bytes.length * 2 + 1)
      writeRaw bytes

def writePayload (payload : Payload) : Write Unit :=
  match payload.part, payload.segments with
  | none, _ => writeVarint 0
  | some part, none => do
      writeVarint present
      writePart part
  | some part, some segments => do
      writeVarint (present + withSegments)
      writePart part
      writeVarint segments.length
      forM segments fun segment => writeVarint segment.length
      forM segments writeRaw

def writeFailedEntries (failed : List (FailedMember Nat)) : Write Unit :=
  forM failed fun entry => do
    writeVarint entry.member
    writeJson entry.error

def writeFailed (failed : List (FailedMember Nat)) : Write Unit := do
  writeVarint failed.length
  writeFailedEntries failed

/-- The failure count times two, plus one when retirements follow. -/
def writeFailedAndRetired (failed : List (FailedMember Nat)) (retired : List Nat) :
    Write Unit := do
  writeVarint (failed.length * 2 + if retired.isEmpty then 0 else 1)
  writeFailedEntries failed
  if retired.isEmpty then pure ()
  else do
    writeVarint retired.length
    forM retired writeVarint

/-! ### The reader -/

abbrev Read := Wire.Reader BinaryError

def readByte : Read UInt8
  | [] => .error .endsEarly
  | byte :: rest => .ok (byte, rest)

def readVarintFrom : Nat → Nat → Nat → Read Nat
  | 0, _, _ => throw .varintDoesNotFit
  | left + 1, value, scale => do
      let byte ← readByte
      let value := value + byte.toNat % 0x80 * scale
      if maxSafeInteger < value then throw .varintDoesNotFit
      else if byte.toNat < 0x80 then pure value
      else readVarintFrom left value (scale * 0x80)

/-- A varint of at most eight bytes, at most a safe integer. -/
def readVarint : Read Nat :=
  readVarintFrom 8 0 1

def readRaw (length : Nat) : Read (List UInt8) := fun bytes =>
  if bytes.length < length then .error .endsEarly
  else .ok (bytes.take length, bytes.drop length)

def readString : Read JsString := do
  let length ← readVarint
  let bytes ← readRaw length
  match utf8Decode bytes with
  | some text => pure text
  | none => throw .notUtf8

def readJson : Read JsonValue := do
  let text ← readString
  match JsonText.parse text with
  | some value => pure value
  | none => throw .notJson

def readPart : Read Part := do
  let length ← readVarint
  let bytes ← readRaw (length / 2)
  pure (if length % 2 = 1 then .deflated bytes else .bytes bytes)

/-- As many elements as its count says, which cannot pass the message's end. -/
def readCounted {α : Type} (read : Read α) (count : Nat) : Read (List α) := do
  Wire.ensure count .countDoesNotFit
  (List.replicate count ()).mapM fun _ => read

def readList {α : Type} (read : Read α) : Read (List α) := do
  let count ← readVarint
  readCounted read count

def readPayload : Read Payload := do
  let flags ← readVarint
  if flags = 0 then pure ⟨none, none⟩
  else if flags ≠ present ∧ flags ≠ present + withSegments then
    throw .unknownPayloadFlags
  else do
    let part ← readPart
    if flags = present then pure ⟨some part, none⟩
    else do
      let lengths ← readList readVarint
      let segments ← lengths.mapM readRaw
      pure ⟨some part, some segments⟩

def readFailedEntry : Read (FailedMember Nat) := do
  let member ← readVarint
  let error ← readJson
  pure ⟨member, error⟩

def readFailed : Read (List (FailedMember Nat)) := do
  let count ← readVarint
  readCounted readFailedEntry count

/-- The message is consumed exactly. -/
def readEnd : Read Unit := fun bytes =>
  if bytes.isEmpty then .ok ((), []) else .error .bytesAfter

/-! ### Fields -/

/-- A member of a hold with its part. -/
def writeMember (member : Nat × Part) : Write Unit := do
  writeVarint member.1
  writePart member.2

def readMember : Read (Nat × Part) := do
  let member ← readVarint
  let part ← readPart
  pure (member, part)

def writeMembers (members : List (Nat × Part)) : Write Unit := do
  writeVarint members.length
  forM members writeMember

def writeUuid (text : JsString) : Write Unit :=
  writeHex (withoutDashes text) 16

def readUuid : Read JsString := do
  let bytes ← readRaw 16
  pure (uuid bytes)

def writeOptional {α : Type} (write : α → Write Unit) : Option α → Write Unit
  | none => pure ()
  | some value => write value

def readOptional {α : Type} (flagged : Bool) (read : Read α) : Read (Option α) :=
  if flagged then do
    let value ← read
    pure (some value)
  else pure none

def flag {α : Type} (bit : Nat) (value : Option α) : Nat :=
  if value.isSome then bit else 0

def writeHold (fields : HoldFields Nat JsString (List JsString)) : Write Unit := do
  writeVarint fields.hold
  writeString fields.type
  writeVarint fields.version
  writeHex fields.fingerprint 8
  writePart fields.params
  writeString fields.address.kind
  writeJson fields.address.params
  writeByte (flag principalFlag fields.principal +
    flag incarnationFlag fields.incarnation + flag chainFlag fields.chain +
    flag limitFlag fields.limit)
  writeOptional writeJson fields.principal
  writeOptional writeUuid fields.incarnation
  writeOptional (fun chain => do
    writeVarint chain.length
    forM chain writeUuid) fields.chain
  writeOptional writeVarint fields.limit

def readHold : Read (HoldFields Nat JsString (List JsString)) := do
  let hold ← readVarint
  let type ← readString
  let version ← readVarint
  let fingerprint ← readRaw 8
  let params ← readPart
  let kind ← readString
  let address ← readJson
  let flags ← readByte
  if principalFlag + incarnationFlag + chainFlag + limitFlag < flags.toNat then
    throw .unknownHoldFlags
  else do
    let principal ← readOptional (flags.toNat.testBit 0) readJson
    let incarnation ← readOptional (flags.toNat.testBit 1) readUuid
    let chain ← readOptional (flags.toNat.testBit 2) (readList readUuid)
    let limit ← readOptional (flags.toNat.testBit 3) readVarint
    pure ⟨hold, type, version, hexText fingerprint, params, ⟨kind, address⟩,
      principal, incarnation, chain, limit⟩

def writeBoundEntry (entry : BoundEntry Nat) : Write Unit := do
  writeVarint entry.hold
  writeVarint entry.variant
  writeMembers entry.members
  writeFailed entry.failed

def readBoundEntry : Read (BoundEntry Nat) := do
  let hold ← readVarint
  let variant ← readVarint
  let members ← readList readMember
  let failed ← readFailed
  pure ⟨hold, variant, members, failed⟩

def writeStateEntry (entry : StateEntry Nat) : Write Unit := do
  writeVarint entry.hold
  writeMembers entry.members
  writeFailedAndRetired entry.failed entry.retired

/-- Retirements follow an odd count. -/
def readRetired (flags : Nat) : Read (List Nat) :=
  if flags % 2 = 0 then pure [] else readList readVarint

def readStateEntry : Read (StateEntry Nat) := do
  let hold ← readVarint
  let members ← readList readMember
  let flags ← readVarint
  let failed ← readCounted readFailedEntry (flags / 2)
  let retired ← readRetired flags
  pure ⟨hold, members, failed, retired⟩

/-- The delay plus one; 0 when there is none. -/
def retryCode : Option Nat → Nat
  | none => 0
  | some delay => delay + 1

def retryOfCode (code : Nat) : Option Nat :=
  if code = 0 then none else some (code - 1)

def encodeFields : Body Nat JsString (List JsString) → Write Unit
  | .hello protocol incarnation calls => do
      writeVarint protocol
      writeUuid incarnation
      writeVarint calls
  | .hold fields => writeHold fields
  | .release hold | .loading hold => writeVarint hold
  | .retry hold hops => do
      writeVarint hold
      writeVarint hops
  | .call call hold method args => do
      writeVarint call
      writeVarint hold
      writeVarint method
      writePayload args
  | .abort call => writeVarint call
  | .bound holds => do
      writeVarint holds.length
      forM holds writeBoundEntry
  | .state holds => do
      writeVarint holds.length
      forM holds writeStateEntry
  | .failed hold kind error retryIn => do
      writeVarint hold
      writeByte (causeKinds.idxOf kind)
      writeJson error
      writeVarint (retryCode retryIn)
  | .result call value => do
      writeVarint call
      writePayload value
  | .error call error => do
      writeVarint call
      writeJson error
  | .gone hold error => do
      writeVarint hold
      writeJson error
  | .revoke revocation => writeJson revocation
  | .ack | .closed | .ping | .pong => pure ()

/-- The fields of a kind, read structurally. -/
def decodeFields : Kind → Read (Body Nat JsString (List JsString))
  | .hello => do
      let protocol ← readVarint
      let incarnation ← readUuid
      let calls ← readVarint
      pure (.hello protocol incarnation calls)
  | .hold => do
      let fields ← readHold
      pure (.hold fields)
  | .release => do
      let hold ← readVarint
      pure (.release hold)
  | .loading => do
      let hold ← readVarint
      pure (.loading hold)
  | .retry => do
      let hold ← readVarint
      let hops ← readVarint
      pure (.retry hold hops)
  | .call => do
      let call ← readVarint
      let hold ← readVarint
      let method ← readVarint
      let args ← readPayload
      pure (.call call hold method args)
  | .abort => do
      let call ← readVarint
      pure (.abort call)
  | .bound => do
      let holds ← readList readBoundEntry
      pure (.bound holds)
  | .state => do
      let holds ← readList readStateEntry
      pure (.state holds)
  | .failed => do
      let hold ← readVarint
      let code ← readByte
      match causeKinds[code.toNat]? with
      | none => throw .unknownFailureKind
      | some kind => do
          let error ← readJson
          let retryIn ← readVarint
          pure (.failed hold kind error (retryOfCode retryIn))
  | .result => do
      let call ← readVarint
      let value ← readPayload
      pure (.result call value)
  | .error => do
      let call ← readVarint
      let error ← readJson
      pure (.error call error)
  | .gone => do
      let hold ← readVarint
      let error ← readJson
      pure (.gone hold error)
  | .revoke => do
      let revocation ← readJson
      pure (.revoke revocation)
  | .ack => pure .ack
  | .ping => pure .ping
  | .pong => pure .pong
  | .closed => pure .closed

/-! ### The codec -/

def writeHead (kind : Kind) : Option Nat → Write Unit
  | none => writeByte (kinds.idxOf kind)
  | some origin => do
      writeByte (kinds.idxOf kind + originFlag)
      writeVarint origin

/-- `binaryCodec.encode`. -/
def binaryEncode (message : Message) : Except BinaryError (List UInt8) := do
  let write : Write Unit := do
    writeHead message.body.kind message.origin
    encodeFields message.body
  let (_, writer) ← write Writer.empty
  pure (writer.buffer.take writer.length)

/-- The origin after decoding: a `closed` has one even without the flag. -/
def decodedOrigin (body : Body Nat JsString (List JsString)) (origin : Option Nat) :
    Option Nat :=
  match body with
  | .closed => some (origin.getD 0)
  | _ => origin

def readMessage : Read Message := do
  let byte ← readByte
  let origin ← readOptional (originFlag ≤ byte.toNat) readVarint
  match kinds[byte.toNat % originFlag]? with
  | none => throw .unknownKind
  | some kind => do
      let body ← decodeFields kind
      pure ⟨decodedOrigin body origin, body⟩

/-- `binaryCodec.decode`. -/
def binaryDecode (bytes : List UInt8) : Except BinaryError Message := do
  let (message, rest) ← readMessage bytes
  let _ ← readEnd rest
  pure message

end Hummin.Link
