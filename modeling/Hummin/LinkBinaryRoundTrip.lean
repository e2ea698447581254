/-
The binary codec's round trip: a message that the schema accepts is decoded from
its bytes as it was, with every text part as its UTF-8 bytes.
-/
import Hummin.ExceptBind
import Hummin.LinkBinaryFields

namespace Hummin.Link

open List

variable {N S C α β : Type}

/-! ### What is received -/

def Payload.received (payload : Payload) : Payload :=
  { payload with part := payload.part.map Part.received }

def receivedMember (member : N × Part) : N × Part :=
  (member.1, member.2.received)

def BoundEntry.received (entry : BoundEntry N) : BoundEntry N :=
  { entry with members := entry.members.map receivedMember }

def StateEntry.received (entry : StateEntry N) : StateEntry N :=
  { entry with members := entry.members.map receivedMember }

def HoldFields.received (fields : HoldFields N S C) : HoldFields N S C :=
  { fields with params := fields.params.received }

def Body.received : Body N S C → Body N S C
  | .hold fields => .hold fields.received
  | .call id target method args => .call id target method args.received
  | .bound holds => .bound (holds.map BoundEntry.received)
  | .state holds => .state (holds.map StateEntry.received)
  | .result id value => .result id value.received
  | body => body

/-- The message with every text part replaced by its UTF-8 bytes. -/
def Envelope.received (message : Envelope N S C) : Envelope N S C :=
  { message with body := message.body.received }

/-! ### What can be sent -/

def Safe (number : Nat) : Prop :=
  number ≤ maxSafeInteger

/-- Every integer field is a safe integer, and so is a delay plus one. -/
def Body.SafeIntegers : Body Nat S C → Prop
  | .hello protocol _ calls => Safe protocol ∧ Safe calls
  | .hold fields =>
    Safe fields.hold ∧ Safe fields.version ∧ ∀ limit ∈ fields.limit, Safe limit
  | .release id | .loading id | .gone id _ => Safe id
  | .abort id | .result id _ | .error id _ => Safe id
  | .call id target method _ => Safe id ∧ Safe target ∧ Safe method
  | .retry target hops => Safe target ∧ Safe hops
  | .bound holds => ∀ entry ∈ holds, Safe entry.hold ∧ Safe entry.variant ∧
      (∀ member ∈ entry.members, Safe member.1) ∧
      ∀ failed ∈ entry.failed, Safe failed.member
  | .state holds => ∀ entry ∈ holds, Safe entry.hold ∧
      (∀ member ∈ entry.members, Safe member.1) ∧
      (∀ failed ∈ entry.failed, Safe failed.member) ∧
      ∀ member ∈ entry.retired, Safe member
  | .failed target _ _ retryIn =>
    Safe target ∧ ∀ delay ∈ retryIn, delay < maxSafeInteger
  | .ack | .closed | .ping | .pong | .revoke _ => True

/-- The strings that are no JSON are well-formed Unicode. -/
def Body.WellFormedNames : Body N JsString C → Prop
  | .hold fields =>
    isWellFormed fields.type = true ∧ isWellFormed fields.address.kind = true
  | _ => True

/-- Segments appear only beside a payload part. -/
def Body.Paired (body : Body N S C) : Prop :=
  ∀ payload ∈ body.payload?, payload.Paired

def Payload.Sized (payload : Payload) : Prop :=
  (∀ part ∈ payload.part, part.Sized) ∧
    ∀ segments ∈ payload.segments, segments.length < 2 ^ 32 ∧
      ∀ segment ∈ segments, segment.length < 2 ^ 52

def MembersSized (members : List (N × Part)) : Prop :=
  members.length < 2 ^ 32 ∧ ∀ member ∈ members, member.2.Sized

def FailedSized (failed : List (FailedMember N)) : Prop :=
  failed.length < 2 ^ 32 ∧ ∀ entry ∈ failed, JsonSized entry.error

/-- The message fits a JavaScript engine: strings and arrays have fewer than
2^32 elements, byte arrays fewer than 2^52, and JSON fields are values that
JavaScript holds. -/
def Body.Sized : Body N JsString C → Prop
  | .hold fields =>
    fields.type.length < 2 ^ 32 ∧ fields.params.Sized ∧
    fields.address.kind.length < 2 ^ 32 ∧ JsonSized fields.address.params ∧
    ∀ principal ∈ fields.principal, JsonSized principal
  | .call _ _ _ args => args.Sized
  | .result _ value => value.Sized
  | .bound holds => holds.length < 2 ^ 32 ∧ ∀ entry ∈ holds,
      MembersSized entry.members ∧ FailedSized entry.failed
  | .state holds => holds.length < 2 ^ 32 ∧ ∀ entry ∈ holds,
      MembersSized entry.members ∧ FailedSized entry.failed ∧
      entry.retired.length < 2 ^ 32
  | .failed _ _ json _ | .error _ json | .gone _ json | .revoke json =>
    JsonSized json
  | _ => True

/-- What a sender of messages provides for. -/
structure Sendable (message : Message) : Prop where
  origin : ∀ origin ∈ message.origin, Safe origin
  integers : message.body.SafeIntegers
  names : message.body.WellFormedNames
  paired : message.body.Paired
  sized : message.body.Sized

/-! ### Lists -/

theorem safe_of_lt {count : Nat} (hcount : count < 2 ^ 32) : Safe count := by
  rw [Safe, maxSafeInteger]
  omega

theorem carries_counted {write : α → Write Unit} {read : Read β} {image : α → β}
    {values : List α} (hvalues : ∀ value ∈ values,
      Wire.Carries writerSink 1 (write value) read (image value)) :
    Wire.Carries writerSink values.length (forM values write)
      (readCounted read values.length) (values.map image) := by
  have hall := Wire.Carries.replicateM hvalues
  rw [Nat.one_mul] at hall
  exact hall.ensure le_rfl .countDoesNotFit

theorem carries_list {write : α → Write Unit} {read : Read β} {image : α → β}
    {values : List α} (hcount : values.length < 2 ^ 32)
    (hvalues : ∀ value ∈ values, Wire.Carries writerSink 1 (write value) read (image value)) :
    Wire.Carries writerSink 1
      (writeVarint values.length >>= fun _ => forM values write) (readList read)
      (values.map image) :=
  (carries_varint (safe_of_lt hcount)).field (carries_counted hvalues)

variable {write : α → Write Unit}

/-- A list whose elements are read as they are. -/
theorem carries_list_self {read : Read α}
    {values : List α} (hcount : values.length < 2 ^ 32)
    (hvalues : ∀ value ∈ values, Wire.Carries writerSink 1 (write value) read value) :
    Wire.Carries writerSink 1
      (writeVarint values.length >>= fun _ => forM values write) (readList read)
      values := by
  have hlist := @carries_list α α write read id values hcount hvalues
  rwa [map_id] at hlist

theorem carries_optional {least : Nat} {read : Read α} {value : Option α} (hvalue : ∀ inner ∈ value,
      Wire.Carries writerSink least (write inner) read inner) :
    Wire.Carries writerSink 0 (writeOptional write value)
      (readOptional value.isSome read) value := by
  cases value with
  | none => exact .pure none
  | some inner =>
    have hsome : Wire.Carries writerSink least (write inner)
        (read >>= fun value => pure (some value)) (some inner) :=
      (hvalue inner rfl).last rfl
    exact hsome.mono (Nat.zero_le least)

/-! ### Fields -/

/-- The lengths of all segments, then their bytes. -/
theorem carries_segments {segments : List (List UInt8)}
    (hcount : segments.length < 2 ^ 32)
    (hsegments : ∀ segment ∈ segments, segment.length < 2 ^ 52) (part : Part) :
    Wire.Carries writerSink 1
      (do
        writeVarint segments.length
        forM segments fun segment => writeVarint segment.length
        forM segments writeRaw)
      (do
        let lengths ← readList readVarint
        let segments ← lengths.mapM readRaw
        pure (⟨some part, some segments⟩ : Payload))
      ⟨some part, some segments⟩ := by
  have hlengths : Wire.Carries writerSink 1
      (writeVarint segments.length >>= fun _ =>
        forM segments fun segment => writeVarint segment.length)
      (readList readVarint) (segments.map length) := by
    apply carries_list hcount
    intro segment hsegment
    apply carries_varint
    have hlt := hsegments segment hsegment
    rw [maxSafeInteger]
    omega
  have hbytes : Wire.Carries writerSink 0 (forM segments writeRaw)
      ((segments.map length).mapM readRaw) segments := by
    have hall := @Wire.Carries.mapM _ _ _ _ _ writerSink 0 writeRaw readRaw
      length id segments fun segment _ =>
        (carries_raw segment).mono (Nat.zero_le _)
    rwa [map_id, Nat.zero_mul] at hall
  have hpayload : Wire.Carries writerSink 0 (forM segments writeRaw)
      ((segments.map length).mapM readRaw >>= fun segments =>
        pure (⟨some part, some segments⟩ : Payload))
      ⟨some part, some segments⟩ := hbytes.last rfl
  rw [← bind_assoc]
  exact hlengths.field hpayload

theorem carries_payload {payload : Payload} (hpaired : payload.Paired) (hsized : payload.Sized) :
    Wire.Carries writerSink 1 (writePayload payload) readPayload payload.received := by
  obtain ⟨part, segments⟩ := payload
  cases part with
  | none =>
    cases segments with
    | some segments => cases hpaired rfl
    | none =>
      apply (carries_varint (safe_of_lt (by decide : 0 < 2 ^ 32))).last
      rfl
  | some part =>
    have hpart := carries_part (hsized.1 part rfl)
    cases segments with
    | none =>
      apply (carries_varint
        (safe_of_lt (by decide : present < 2 ^ 32))).field
      exact hpart.last rfl
    | some segments =>
      obtain ⟨hcount, hsegments⟩ := hsized.2 segments rfl
      apply (carries_varint (safe_of_lt
        (by decide : present + withSegments < 2 ^ 32))).field
      apply hpart.field
      exact carries_segments hcount hsegments part.received

theorem carries_failedEntry {entry : FailedMember Nat} (hmember : Safe entry.member)
    (herror : JsonSized entry.error) :
    Wire.Carries writerSink 1
      (writeVarint entry.member >>= fun _ => writeJson entry.error)
      readFailedEntry entry := by
  apply (carries_varint hmember).field
  exact (carries_json herror).last rfl

variable {failed : List (FailedMember Nat)}

theorem carries_failedEntries
    (hmembers : ∀ entry ∈ failed, Safe entry.member) (hsized : FailedSized failed) :
    Wire.Carries writerSink failed.length (writeFailedEntries failed)
      (readCounted readFailedEntry failed.length) failed := by
  have hlist := @carries_counted _ _ _ _ id failed fun entry hentry =>
    carries_failedEntry (hmembers entry hentry) (hsized.2 entry hentry)
  rwa [map_id] at hlist

theorem carries_failed
    (hmembers : ∀ entry ∈ failed, Safe entry.member) (hsized : FailedSized failed) :
    Wire.Carries writerSink 1 (writeFailed failed) readFailed failed :=
  (carries_varint (safe_of_lt hsized.1)).field
    (carries_failedEntries hmembers hsized)

theorem carries_members {members : List (Nat × Part)} (hmembers : ∀ member ∈ members, Safe member.1)
    (hsized : MembersSized members) :
    Wire.Carries writerSink 1 (writeMembers members) (readList readMember)
      (members.map receivedMember) := by
  apply carries_list hsized.1
  intro member hmember
  apply (carries_varint (hmembers member hmember)).field
  exact (carries_part (hsized.2 member hmember)).last rfl

theorem carries_boundEntry {entry : BoundEntry Nat} (hsafe : Safe entry.hold ∧ Safe entry.variant ∧
      (∀ member ∈ entry.members, Safe member.1) ∧ ∀ failed ∈ entry.failed, Safe failed.member)
    (hmembers : MembersSized entry.members) (hfailed : FailedSized entry.failed) :
    Wire.Carries writerSink 1 (writeBoundEntry entry) readBoundEntry entry.received := by
  obtain ⟨hhold, hvariant, hindices, hfailedIndices⟩ := hsafe
  apply (carries_varint hhold).field
  apply (carries_varint hvariant).field
  apply (carries_members hindices hmembers).field
  exact (carries_failed hfailedIndices hfailed).last rfl

/-- The retirements of an entry, behind the parity of its failure count. -/
theorem carries_retired {retired : List Nat} (hcount : retired.length < 2 ^ 32)
    (hretired : ∀ member ∈ retired, Safe member) {flags : Nat}
    (hflags : flags % 2 = if retired.isEmpty then 0 else 1) :
    Wire.Carries writerSink 0
      (if retired.isEmpty then pure ()
      else do
        writeVarint retired.length
        forM retired writeVarint)
      (readRetired flags) retired := by
  rw [readRetired]
  by_cases hempty : retired.isEmpty
  · rw [if_pos hempty] at hflags ⊢
    rw [if_pos hflags, isEmpty_iff.mp hempty]
    exact .pure []
  rw [if_neg hempty] at hflags ⊢
  rw [if_neg (by omega)]
  exact (carries_list_self hcount fun member hmember =>
    carries_varint (hretired member hmember)).mono (Nat.zero_le 1)

theorem carries_stateEntry {entry : StateEntry Nat}
    (hsafe : Safe entry.hold ∧ (∀ member ∈ entry.members, Safe member.1) ∧
      (∀ failed ∈ entry.failed, Safe failed.member) ∧ ∀ member ∈ entry.retired, Safe member)
    (hmembers : MembersSized entry.members) (hfailed : FailedSized entry.failed)
    (hcount : entry.retired.length < 2 ^ 32) :
    Wire.Carries writerSink 1 (writeStateEntry entry) readStateEntry entry.received := by
  obtain ⟨hhold, hindices, hfailedIndices, hretired⟩ := hsafe
  have hlength := hfailed.1
  set mark := if entry.retired.isEmpty then 0 else 1 with hmark
  have hbit : mark < 2 := by
    rw [hmark]
    split <;> decide
  have hflags : Safe (entry.failed.length * 2 + mark) := by
    rw [Safe, maxSafeInteger]
    omega
  have hhalf : (entry.failed.length * 2 + mark) / 2 = entry.failed.length := by
    omega
  have hparity : (entry.failed.length * 2 + mark) % 2 = mark := by omega
  apply (carries_varint hhold).field
  apply (carries_members hindices hmembers).field
  rw [writeFailedAndRetired]
  apply (carries_varint hflags).field
  rw [hhalf]
  apply (carries_failedEntries hfailedIndices hfailed).field
  exact (carries_retired hcount hretired (hparity.trans hmark)).last rfl

/-! ### Kinds -/

def holdFlags (fields : HoldFields N S C) : Nat :=
  flag principalFlag fields.principal + flag incarnationFlag fields.incarnation +
    flag chainFlag fields.chain + flag limitFlag fields.limit

/-- Each flag of a hold is read back from its bit. -/
theorem holdFlags_spec (fields : HoldFields N S C) :
    holdFlags fields ≤ principalFlag + incarnationFlag + chainFlag + limitFlag ∧
      (holdFlags fields).testBit 0 = fields.principal.isSome ∧
      (holdFlags fields).testBit 1 = fields.incarnation.isSome ∧
      (holdFlags fields).testBit 2 = fields.chain.isSome ∧
      (holdFlags fields).testBit 3 = fields.limit.isSome := by
  have hbits : ∀ principal incarnation chain limit : Bool,
      let flags := (if principal then principalFlag else 0) +
        (if incarnation then incarnationFlag else 0) +
        (if chain then chainFlag else 0) + (if limit then limitFlag else 0)
      flags ≤ principalFlag + incarnationFlag + chainFlag + limitFlag ∧
        flags.testBit 0 = principal ∧ flags.testBit 1 = incarnation ∧
        flags.testBit 2 = chain ∧ flags.testBit 3 = limit := by
    decide
  exact hbits _ _ _ _

theorem carries_hold {fields : HoldFields Nat JsString (List JsString)}
    (hcheck : checkBody (.hold fields) = true) (hsafe : (Body.hold fields).SafeIntegers)
    (hnames : (Body.hold fields).WellFormedNames) (hsized : (Body.hold fields).Sized) :
    Wire.Carries writerSink 1 (writeHold fields) readHold fields.received := by
  obtain ⟨hhold, hversion, hlimit⟩ := hsafe
  obtain ⟨htype, hkind⟩ := hnames
  obtain ⟨htypeSize, hparams, hkindSize, haddress, hprincipal⟩ := hsized
  simp only [checkBody, Bool.and_eq_true, decide_eq_true_eq] at hcheck
  obtain ⟨⟨⟨⟨-, hfingerprint⟩, -⟩, hincarnation⟩, hchain⟩ := hcheck
  obtain ⟨hflags, hbit0, hbit1, hbit2, hbit3⟩ := holdFlags_spec fields
  have hbyte : (UInt8.ofNat (holdFlags fields)).toNat = holdFlags fields :=
    toNat_ofNat_byte (lt_of_le_of_lt hflags (by decide))
  have hhex : hexText (hexBytes fields.fingerprint) = fields.fingerprint := by
    obtain ⟨hlength, hunits⟩ := (matchesHex_iff (8 * 2) _).mp hfingerprint
    exact (hexText_hexBytes hlength hunits).1
  apply (carries_varint hhold).field
  apply (carries_string htypeSize htype).field
  apply (carries_varint hversion).field
  apply (carries_hex hfingerprint).field
  apply (carries_part hparams).field
  apply (carries_string hkindSize hkind).field
  apply (carries_json haddress).field
  apply (carries_byte (holdFlags fields)).field
  rw [hbyte, if_neg (by omega), hbit0, hbit1, hbit2, hbit3]
  apply (carries_optional fun principal hmem =>
    carries_json (hprincipal principal hmem)).field
  apply (carries_optional fun incarnation hmem =>
    carries_uuid ((Option.all_eq_true _ _).mp hincarnation _ hmem)).field
  have hchainField : ∀ chain ∈ fields.chain, Wire.Carries writerSink 1
      (writeVarint chain.length >>= fun _ => forM chain writeUuid)
      (readList readUuid) chain := by
    intro chain hmem
    have hids := (Option.all_eq_true _ _).mp hchain _ hmem
    rw [Bool.and_eq_true, decide_eq_true_eq, all_eq_true] at hids
    apply carries_list_self (lt_of_le_of_lt hids.1 (by decide))
    intro id hid
    exact (carries_uuid (hids.2 id hid)).mono (by decide)
  apply (carries_optional hchainField).field
  apply (carries_optional fun limit hmem =>
    carries_varint (hlimit limit hmem)).last
  rw [hhex]
  rfl

theorem causeKinds_idxOf (kind : CauseKind) :
    causeKinds.idxOf kind < 256 ∧ causeKinds[causeKinds.idxOf kind]? = some kind := by
  cases kind <;> decide

theorem retryOfCode_retryCode (retryIn : Option Nat) :
    retryOfCode (retryCode retryIn) = retryIn := by
  cases retryIn <;> rfl

/-- The fields of a kind are read back as they are received. -/
theorem carries_fields {body : Body Nat JsString (List JsString)}
    (hcheck : checkBody body = true) (hsafe : body.SafeIntegers)
    (hnames : body.WellFormedNames) (hpaired : body.Paired) (hsized : body.Sized) :
    Wire.Carries writerSink 0 (encodeFields body) (decodeFields body.kind) body.received := by
  cases body with
  | hello protocol incarnation calls =>
    simp only [checkBody, Bool.and_eq_true] at hcheck
    apply Wire.Carries.mono _ (Nat.zero_le 1)
    apply (carries_varint hsafe.1).field
    apply (carries_uuid hcheck.1).field
    exact (carries_varint hsafe.2).last rfl
  | hold fields =>
    apply Wire.Carries.mono _ (Nat.zero_le 1)
    exact (carries_hold hcheck hsafe hnames hsized).last rfl
  | call call hold method args =>
    apply Wire.Carries.mono _ (Nat.zero_le 1)
    apply (carries_varint hsafe.1).field
    apply (carries_varint hsafe.2.1).field
    apply (carries_varint hsafe.2.2).field
    exact (carries_payload (hpaired args rfl) hsized).last rfl
  | retry hold hops =>
    apply Wire.Carries.mono _ (Nat.zero_le 1)
    apply (carries_varint hsafe.1).field
    exact (carries_varint hsafe.2).last rfl
  | bound holds =>
    have hholds : Wire.Carries writerSink 1
        (writeVarint holds.length >>= fun _ => forM holds writeBoundEntry)
        (readList readBoundEntry) (holds.map BoundEntry.received) := by
      apply carries_list hsized.1
      intro entry hentry
      obtain ⟨hmembers, hfailed⟩ := hsized.2 entry hentry
      exact carries_boundEntry (hsafe entry hentry) hmembers hfailed
    apply Wire.Carries.mono _ (Nat.zero_le 1)
    exact hholds.last rfl
  | state holds =>
    have hholds : Wire.Carries writerSink 1
        (writeVarint holds.length >>= fun _ => forM holds writeStateEntry)
        (readList readStateEntry) (holds.map StateEntry.received) := by
      apply carries_list hsized.1
      intro entry hentry
      obtain ⟨hmembers, hfailed, hretired⟩ := hsized.2 entry hentry
      exact carries_stateEntry (hsafe entry hentry) hmembers hfailed hretired
    apply Wire.Carries.mono _ (Nat.zero_le 1)
    exact hholds.last rfl
  | ack => exact .pure _
  | closed => exact .pure _
  | ping => exact .pure _
  | pong => exact .pure _
  | revoke revocation =>
    apply Wire.Carries.mono _ (Nat.zero_le 1)
    exact (carries_json hsized).last rfl
  | failed hold kind error retryIn =>
    obtain ⟨hbyte, hkind⟩ := causeKinds_idxOf kind
    have hretry : Safe (retryCode retryIn) := by
      cases retryIn with
      | none => exact Nat.zero_le _
      | some delay => exact hsafe.2 delay rfl
    apply Wire.Carries.mono _ (Nat.zero_le 1)
    apply (carries_varint hsafe.1).field
    apply (carries_byte (causeKinds.idxOf kind)).field
    rw [toNat_ofNat_byte hbyte, hkind]
    apply (carries_json hsized).field
    apply (carries_varint hretry).last
    rw [retryOfCode_retryCode]
    rfl
  | result call value =>
    apply Wire.Carries.mono _ (Nat.zero_le 1)
    apply (carries_varint hsafe).field
    exact (carries_payload (hpaired value rfl) hsized).last rfl
  | error call error =>
    apply Wire.Carries.mono _ (Nat.zero_le 1)
    apply (carries_varint hsafe).field
    exact (carries_json hsized).last rfl
  | gone hold error =>
    apply Wire.Carries.mono _ (Nat.zero_le 1)
    apply (carries_varint hsafe).field
    exact (carries_json hsized).last rfl
  | _ =>
    apply Wire.Carries.mono _ (Nat.zero_le 1)
    exact (carries_varint hsafe).last rfl

/-! ### Messages -/

theorem kinds_idxOf (kind : Kind) :
    kinds.idxOf kind < originFlag ∧ kinds[kinds.idxOf kind]? = some kind := by
  cases kind <;> decide

variable {message : Message}

theorem decodedOrigin_received (hcheck : checkMessage message = true) :
    decodedOrigin message.body.received message.origin = message.origin := by
  obtain ⟨origin, body⟩ := message
  rw [checkMessage, Bool.and_eq_true] at hcheck
  cases body with
  | closed =>
    cases origin with
    | none => cases hcheck.1
    | some origin => rfl
  | _ => rfl

theorem carries_message (hcheck : checkMessage message = true)
    (hsendable : Sendable message) :
    Wire.Carries writerSink 1
      (writeHead message.body.kind message.origin >>= fun _ =>
        encodeFields message.body)
      readMessage message.received := by
  have horigin := decodedOrigin_received hcheck
  obtain ⟨hkind, hlookup⟩ := kinds_idxOf message.body.kind
  rw [originFlag] at hkind
  have hfields := carries_fields (Bool.and_eq_true_iff.mp hcheck).2
    hsendable.integers hsendable.names hsendable.paired hsendable.sized
  cases hcase : message.origin with
  | none =>
    have hbyte : (UInt8.ofNat (kinds.idxOf message.body.kind)).toNat =
        kinds.idxOf message.body.kind := toNat_ofNat_byte (by omega)
    have hflag : ¬ originFlag ≤ kinds.idxOf message.body.kind := by
      rw [originFlag]
      omega
    have hmod : kinds.idxOf message.body.kind % originFlag =
        kinds.idxOf message.body.kind := Nat.mod_eq_of_lt (by
      rw [originFlag]
      omega)
    apply (carries_byte (kinds.idxOf message.body.kind)).field
    rw [hbyte, hmod, hlookup]
    simp only [hflag, decide_false, readOptional, Bool.false_eq_true, if_false, pure_bind]
    apply hfields.last
    rw [← hcase, horigin]
    rfl
  | some origin =>
    have hbyte : (UInt8.ofNat (kinds.idxOf message.body.kind + originFlag)).toNat =
          kinds.idxOf message.body.kind + originFlag :=
      toNat_ofNat_byte (by
        rw [originFlag]
        omega)
    have hflag : originFlag ≤ kinds.idxOf message.body.kind + originFlag :=
      Nat.le_add_left _ _
    have hmod : (kinds.idxOf message.body.kind + originFlag) % originFlag =
        kinds.idxOf message.body.kind := by
      rw [originFlag]
      omega
    rw [writeHead, bind_assoc]
    apply (carries_byte _).field
    rw [hbyte, hmod, hlookup]
    simp only [hflag, decide_true, readOptional, if_true, bind_assoc, pure_bind]
    apply (carries_varint (hsendable.origin origin hcase)).field
    apply hfields.last
    rw [← hcase, horigin]
    rfl

/-- A message that the schema accepts is decoded from its bytes as it was, with
every text part as its UTF-8 bytes. -/
theorem binaryDecode_binaryEncode {message : Message}
    (hcheck : checkMessage message = true) (hsendable : Sendable message) :
    ∃ bytes, binaryEncode message = .ok bytes ∧ binaryDecode bytes = .ok message.received := by
  obtain ⟨bytes, -, hwrites, hreads⟩ := carries_message hcheck hsendable
  have hempty : Writer.empty.Holds [] (List.replicate 256 0) := ⟨rfl, rfl⟩
  obtain ⟨writer, hwriter, -, hcontent⟩ := hwrites Writer.empty hempty.valid
  have hread := hreads []
  rw [hempty.content, nil_append] at hcontent
  rw [append_nil] at hread
  refine ⟨bytes, ?_, ?_⟩
  · have hwriter' : (do
        writeHead message.body.kind message.origin
        encodeFields message.body : Write Unit) Writer.empty =
          .ok ((), writer) := hwriter
    rw [binaryEncode, hwriter', except_bind_ok, ← hcontent]
    rfl
  · rw [binaryDecode, hread, except_bind_ok]
    rfl

/-- A relayed hold with a text part, a limit and an address that names no host. -/
def relayedHold : Message where
  origin := some 3
  body := .hold
    { hold := 300
      type := js ['s', 'e', 's', 's', 'i', 'o', 'n', 'é']
      version := 2
      fingerprint := List.replicate 16 97
      params := .text (js ['[', '"', 'é', '"', ']'])
      address := ⟨js ['h', 'o', 's', 't'], .obj () [(js ['i', 'd'], .null)]⟩
      principal := none
      incarnation := none
      chain := some []
      limit := some 16777216 }

theorem binaryDecode_binaryEncode_relayedHold :
    ∃ bytes, binaryEncode relayedHold = .ok bytes ∧
      binaryDecode bytes = .ok relayedHold.received := by
  apply binaryDecode_binaryEncode (by decide)
  refine ⟨?_, ?_, ?_, ?_, ?_⟩
  · rintro origin ⟨⟩
    exact safe_of_lt (by decide)
  · refine ⟨safe_of_lt (by decide), safe_of_lt (by decide), ?_⟩
    rintro limit ⟨⟩
    exact safe_of_lt (by decide)
  · exact ⟨by decide, by decide⟩
  · rintro payload ⟨⟩
  have hparams : JsonSized (.obj () [(js ['i', 'd'], .null)]) := by
    refine ⟨.obj (pairwise_singleton _ _) ?_, by decide⟩
    intro field hfield
    rw [mem_singleton.mp hfield]
    exact .null
  refine ⟨by decide, ?_, by decide, hparams, ?_⟩
  · rw [Part.Sized]
    decide
  · rintro principal ⟨⟩

end Hummin.Link
