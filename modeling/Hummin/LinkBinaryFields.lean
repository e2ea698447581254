/-
The writer's methods against the reader's: each carries its value, for every
length of text.  A writer holds what was written and the room behind it; every
method makes the room it needs, so no store falls past the end.
-/
import Hummin.LinkBinary
import Hummin.JsonRoundTrip

namespace Hummin.Link

open List

/-- What is written and the room behind it. -/
def Writer.Holds (writer : Writer) (content room : List UInt8) : Prop :=
  writer.buffer = content ++ room ∧ writer.length = content.length

/-- The written bytes of a writer. -/
def writerSink : Wire.Sink Writer where
  content writer := writer.buffer.take writer.length
  Valid writer := writer.length ≤ writer.buffer.length

namespace Writer

variable {writer : Writer}

theorem holds_of_valid (hvalid : writerSink.Valid writer) :
    writer.Holds (writerSink.content writer) (writer.buffer.drop writer.length) := by
  refine ⟨(take_append_drop _ _).symm, ?_⟩
  exact (length_take_of_le hvalid).symm

variable {room : List UInt8}

theorem Holds.content {writer : Writer} {content : List UInt8}
    (hholds : writer.Holds content room) : writerSink.content writer = content := by
  change writer.buffer.take writer.length = content
  rw [hholds.1, hholds.2, take_left]

theorem Holds.valid {content : List UInt8}
    (hholds : writer.Holds content room) : writerSink.Valid writer := by
  change writer.length ≤ writer.buffer.length
  rw [hholds.1, hholds.2, length_append]
  exact Nat.le_add_right _ _

theorem Holds.room_length {content : List UInt8} (hholds : writer.Holds content room) :
    writer.buffer.length - writer.length = room.length := by
  rw [hholds.1, hholds.2, length_append, Nat.add_sub_cancel_left]

/-- A change of the writer that appends to whatever it holds. -/
theorem writes_of_holds {change : Writer → Writer} {bytes : List UInt8}
    (hchange : ∀ writer content room, writer.Holds content room →
      ∃ room', (change writer).Holds (content ++ bytes) room') :
    Wire.Writes (ε := BinaryError) writerSink (modify change) bytes := by
  intro writer hvalid
  obtain ⟨room, hholds⟩ := hchange writer _ _ (holds_of_valid hvalid)
  exact ⟨change writer, rfl, hholds.valid, hholds.content⟩

theorem holds_reserve {content : List UInt8} (hholds : writer.Holds content room) (bytes : Nat) :
    ∃ room', (writer.reserve bytes).Holds content room' ∧ bytes ≤ room'.length := by
  rw [reserve]
  split
  next hfits =>
    refine ⟨room, hholds, ?_⟩
    rw [hholds.1, hholds.2, length_append] at hfits
    omega
  refine ⟨replicate (max (writer.buffer.length * 2)
    (writer.length + bytes + spare) - writer.length) 0, ⟨?_, hholds.2⟩, ?_⟩
  · simp only
    rw [hholds.1, hholds.2, take_left]
  rw [length_replicate]
  omega

theorem holds_store {content : List UInt8} {old : UInt8}
    (hholds : writer.Holds content (old :: room)) (byte : UInt8) :
    (writer.store byte).Holds (content ++ [byte]) room := by
  refine ⟨?_, ?_⟩
  · rw [store, hholds.1, hholds.2]
    simp
  rw [store, hholds.2]
  simp

theorem overwrite_append (content bytes room : List UInt8) :
    overwrite (content ++ room) content.length bytes =
      content ++ bytes ++ room.drop bytes.length := by
  rw [overwrite, take_left, drop_append, drop_eq_nil_of_le (by omega)]
  simp

theorem holds_extend (bytes : List UInt8) {writer : Writer}
    {content : List UInt8} (hholds : writer.Holds content room) :
    (writer.extend bytes).Holds (content ++ bytes) (room.drop bytes.length) := by
  refine ⟨?_, ?_⟩
  · rw [extend, hholds.1, hholds.2, overwrite_append]
  · rw [extend, hholds.2, length_append]

/-! ### Varints -/

/-- The bytes of a varint. -/
def varintBytes (value : Nat) : List UInt8 :=
  if 0x80 ≤ value then
    UInt8.ofNat (value % 0x80 + 0x80) :: varintBytes (value / 0x80)
  else [UInt8.ofNat value]
termination_by value
decreasing_by omega

theorem length_varintBytes_pos (value : Nat) : 0 < (varintBytes value).length := by
  rw [varintBytes]
  split <;> simp

theorem length_varintBytes_le {value count : Nat} (hpos : 0 < count)
    (hvalue : value < 0x80 ^ count) : (varintBytes value).length ≤ count := by
  induction count generalizing value with
  | zero => omega
  | succ count ih =>
    rw [varintBytes]
    split
    next hlarge =>
      have hdiv : value / 0x80 < 0x80 ^ count := by
        rw [Nat.div_lt_iff_lt_mul (by decide), ← Nat.pow_succ]
        exact hvalue
      have hcount : 0 < count := by
        by_contra hzero
        obtain rfl : count = 0 := by omega
        simp at hvalue
        omega
      rw [length_cons]
      exact Nat.succ_le_succ (ih hcount hdiv)
    · simp

theorem holds_storeVarint {value : Nat} {writer : Writer}
    {content : List UInt8} (hholds : writer.Holds content room)
    (hroom : (varintBytes value).length ≤ room.length) :
    ∃ room', (writer.storeVarint value).Holds (content ++ varintBytes value) room' := by
  induction value using Nat.strongRecOn generalizing writer content room with
  | ind value ih =>
    rw [varintBytes] at hroom ⊢
    rw [storeVarint]
    cases room with
    | nil =>
      split at hroom <;> simp at hroom
    | cons old room =>
      split
      next hlarge =>
        rw [if_pos hlarge, length_cons, length_cons] at hroom
        obtain ⟨room', hnext⟩ := ih (value / 0x80) (by omega)
          (holds_store hholds _) (Nat.le_of_succ_le_succ hroom)
        refine ⟨room', ?_⟩
        rwa [append_assoc, singleton_append] at hnext
      · exact ⟨room, holds_store hholds _⟩

end Writer

open Writer

variable {count value : Nat}

theorem writes_varint (hvalue : value ≤ maxSafeInteger) :
    Wire.Writes writerSink (writeVarint value) (varintBytes value) := by
  apply writes_of_holds
  intro writer content room hholds
  obtain ⟨room', hreserved, hroom⟩ := holds_reserve hholds 8
  have hlength : (varintBytes value).length ≤ 8 :=
    length_varintBytes_le (by decide)
      (lt_of_le_of_lt hvalue (by decide))
  exact holds_storeVarint hreserved (hlength.trans hroom)

variable {scale : Nat}

/-- One byte of a varint and the ones after it. -/
theorem readVarintFrom_cons (left : Nat) {value digit : Nat}
    (hdigit : digit < 0x80) (hvalue : value + digit * scale ≤ maxSafeInteger)
    (last : Bool) (rest : List UInt8) :
    readVarintFrom (left + 1) value scale
        (UInt8.ofNat (digit + if last then 0 else 0x80) :: rest) =
      if last then .ok (value + digit * scale, rest)
      else readVarintFrom left (value + digit * scale) (scale * 0x80) rest := by
  have hbyte : (UInt8.ofNat (digit + if last then 0 else 0x80)).toNat =
      digit + if last then 0 else 0x80 := by
    apply toNat_ofNat_byte
    split <;> omega
  rw [readVarintFrom, Wire.bind_of_ok rfl]
  cases last with
  | true =>
    simp only [if_true, Nat.add_zero] at hbyte ⊢
    simp only [hbyte, Nat.mod_eq_of_lt hdigit]
    rw [if_neg (by omega), if_pos hdigit]
    rfl
  | false =>
    simp only [Bool.false_eq_true, if_false] at hbyte ⊢
    have hmod : (digit + 0x80) % 0x80 = digit := by omega
    simp only [hbyte, hmod]
    rw [if_neg (by omega), if_neg (by omega)]

theorem varint_total (number value scale : Nat) :
    value + number * scale = value + number % 0x80 * scale + number / 0x80 * (scale * 0x80) := by
  have hsplit : number = number % 0x80 + number / 0x80 * 0x80 := by omega
  conv_lhs => rw [hsplit]
  ring

theorem readVarintFrom_varintBytes {left number : Nat}
    (hnumber : number < 0x80 ^ left) {value : Nat}
    (hsafe : value + number * scale ≤ maxSafeInteger) (hleft : 0 < left) (rest : List UInt8) :
    readVarintFrom left value scale (varintBytes number ++ rest) =
      .ok (value + number * scale, rest) := by
  induction left generalizing number value scale with
  | zero => omega
  | succ left ih =>
    rw [varintBytes]
    split
    next hlarge =>
      have htotal := varint_total number value scale
      have hdiv : number / 0x80 < 0x80 ^ left := by
        rw [Nat.div_lt_iff_lt_mul (by decide), ← Nat.pow_succ]
        exact hnumber
      have hpos : 0 < left := by
        by_contra hzero
        obtain rfl : left = 0 := by omega
        simp at hdiv
        omega
      have hsafe' : value + number % 0x80 * scale ≤ maxSafeInteger := by omega
      have hfirst := readVarintFrom_cons left (by omega) hsafe' false
        (varintBytes (number / 0x80) ++ rest)
      rw [cons_append]
      simp only [Bool.false_eq_true, if_false] at hfirst
      rw [hfirst, ih hdiv (by rw [← htotal]; exact hsafe) hpos, htotal]
    next hsmall =>
      have hfirst := readVarintFrom_cons left (by omega) hsafe true rest
      simpa using hfirst

theorem readVarintFrom_paddedVarint {number : Nat}
    (hnumber : number < 0x80 ^ count) {left value : Nat}
    (hsafe : value + number * scale ≤ maxSafeInteger) (hcount : 0 < count)
    (hleft : count ≤ left) (rest : List UInt8) :
    readVarintFrom left value scale (paddedVarint count number ++ rest) =
      .ok (value + number * scale, rest) := by
  induction count generalizing number left value scale with
  | zero => omega
  | succ count ih =>
    obtain ⟨left, rfl⟩ := Nat.exists_eq_add_of_le' (show 1 ≤ left by omega)
    cases count with
    | zero =>
      have hsmall : number < 0x80 := by simpa using hnumber
      have hfirst := readVarintFrom_cons left hsmall hsafe true rest
      simpa [paddedVarint, Nat.mod_eq_of_lt hsmall] using hfirst
    | succ count =>
      have hdiv : number / 0x80 < 0x80 ^ (count + 1) := by
        rw [Nat.div_lt_iff_lt_mul (by decide), ← Nat.pow_succ]
        exact hnumber
      have htotal := varint_total number value scale
      have hsafe' : value + number % 0x80 * scale ≤ maxSafeInteger := by omega
      have hfirst := readVarintFrom_cons left (by omega) hsafe' false
        (paddedVarint (count + 1) (number / 0x80) ++ rest)
      rw [paddedVarint, cons_append]
      simp only [Bool.false_eq_true, if_false] at hfirst
      rw [hfirst, ih hdiv (by omega) (by omega) (by omega), htotal]

theorem reads_varint (hvalue : value ≤ maxSafeInteger) :
    Wire.Reads readVarint (varintBytes value) value := by
  intro rest
  have hfits : value < 0x80 ^ 8 := lt_of_le_of_lt hvalue (by decide)
  have hread := readVarintFrom_varintBytes hfits
    (show 0 + value * 1 ≤ maxSafeInteger by omega) (by decide) rest
  simpa [readVarint] using hread

theorem carries_varint (hvalue : value ≤ maxSafeInteger) :
    Wire.Carries writerSink 1 (writeVarint value) readVarint value :=
  ⟨varintBytes value, length_varintBytes_pos value, writes_varint hvalue, reads_varint hvalue⟩

/-! ### Bytes -/

variable (bytes : List UInt8)

theorem writes_raw : Wire.Writes writerSink (writeRaw bytes) bytes := by
  apply writes_of_holds
  intro writer content room hholds
  obtain ⟨room', hreserved, hroom⟩ := holds_reserve hholds bytes.length
  exact ⟨_, holds_extend bytes hreserved⟩

theorem reads_raw : Wire.Reads (readRaw bytes.length) bytes bytes := by
  intro rest
  rw [readRaw, if_neg (by rw [length_append]; omega), take_left,
    drop_left]

theorem carries_raw :
    Wire.Carries writerSink bytes.length (writeRaw bytes) (readRaw bytes.length) bytes :=
  ⟨bytes, le_rfl, writes_raw bytes, reads_raw bytes⟩

theorem carries_byte (byte : Nat) :
    Wire.Carries writerSink 1 (writeByte byte) readByte (UInt8.ofNat byte) := by
  refine ⟨[UInt8.ofNat byte], by simp, ?_, fun rest => rfl⟩
  apply writes_of_holds
  intro writer content room hholds
  obtain ⟨room', hreserved, hroom⟩ := holds_reserve hholds 1
  cases room' with
  | nil => simp at hroom
  | cons old room' => exact ⟨room', holds_store hreserved _⟩

/-! ### Text -/

variable {text : JsString}

theorem holds_shortText {writer : Writer}
    {content room : List UInt8} (hholds : writer.Holds content room) :
    ∃ room', (writer.shortText text scale).Holds
      (content ++ (UInt8.ofNat ((utf8Encode text).length * scale) ::
        utf8Encode text)) room' := by
  obtain ⟨room, hreserved, hroom⟩ := holds_reserve hholds (1 + text.length * 3)
  have hle := length_utf8Encode_le text
  cases room with
  | nil =>
    rw [length_nil] at hroom
    omega
  | cons old room =>
    have hleft : (writer.reserve (1 + text.length * 3)).buffer.length -
        ((writer.reserve (1 + text.length * 3)).length + 1) = room.length := by
      have hall := hreserved.room_length
      rw [length_cons] at hall
      omega
    rw [length_cons] at hroom
    have hwhole : encodeInto text room.length =
        (text.length, utf8Encode text) := encodeInto_whole (by omega)
    refine ⟨room.drop (utf8Encode text).length, ?_, ?_⟩
    · rw [shortText]
      simp only [hleft, hwhole]
      have hsplit : (writer.reserve (1 + text.length * 3)).buffer =
          (content ++ [old]) ++ room := by
        rw [hreserved.1, append_assoc, singleton_append]
      have hoffset : (writer.reserve (1 + text.length * 3)).length + 1 =
          (content ++ [old]).length := by
        rw [hreserved.2, length_append, length_singleton]
      rw [hsplit, hoffset, overwrite_append, hreserved.2]
      simp
    rw [shortText]
    simp only [hleft, hwhole]
    rw [hreserved.2, length_append, length_cons]
    omega

/-- The loop of a long text writes all of it: there is always room for one more
scalar value. -/
theorem holds_encodeInPlace {fuel : Nat} {rest : JsString}
    (hfuel : rest.length ≤ fuel) {writer : Writer} {content room : List UInt8}
    (hholds : writer.Holds content room) (hroom : rest ≠ [] → 4 ≤ room.length) :
    ∃ room', (encodeInPlace fuel rest writer).Holds (content ++ utf8Encode rest) room' := by
  induction fuel generalizing rest writer content room with
  | zero =>
    obtain rfl := length_eq_zero_iff.mp (Nat.le_zero.mp hfuel)
    refine ⟨room, ?_⟩
    simpa [encodeInPlace, utf8Encode, scalars] using hholds
  | succ fuel ih =>
    rw [encodeInPlace]
    split
    next hempty =>
      obtain rfl := isEmpty_iff.mp hempty
      refine ⟨room, ?_⟩
      simpa [utf8Encode, scalars] using hholds
    rename_i hempty
    have hne : rest ≠ [] := by simpa using hempty
    rw [hholds.room_length]
    obtain ⟨hread, hfits, hbytes⟩ := encodeInto_spec rest room.length
    have hprogress := encodeInto_progress hne (hroom hne)
    generalize encodeInto rest room.length = done at *
    obtain ⟨read, bytes⟩ := done
    simp only at hread hfits hbytes hprogress ⊢
    have hextended := holds_extend bytes hholds
    have hless : (rest.drop read).length ≤ fuel := by
      rw [length_drop]
      omega
    rw [hbytes, ← append_assoc]
    split
    next hdone =>
      exact ih hless hextended fun hleft =>
        absurd (isEmpty_iff.mp hdone) hleft
    · obtain ⟨room', hreserved, hmore⟩ := holds_reserve hextended
        (max ((rest.drop read).length * 2) 4)
      exact ih hless hreserved fun _ => (le_max_right _ _).trans hmore

theorem holds_longText (hlong : long ≤ text.length) {writer : Writer} {content room : List UInt8}
    (hholds : writer.Holds content room) :
    ∃ room', (writer.longText text scale).Holds
      (content ++ (paddedVarint lengthSlot ((utf8Encode text).length * scale) ++
        utf8Encode text)) room' := by
  obtain ⟨room, hreserved, hroom⟩ :=
    holds_reserve hholds (lengthSlot + text.length)
  rw [longText]
  set reserved := writer.reserve (lengthSlot + text.length)
  have hslot : (⟨reserved.buffer, reserved.length + lengthSlot⟩ : Writer).Holds
      (content ++ room.take lengthSlot) (room.drop lengthSlot) := by
    refine ⟨?_, ?_⟩
    · rw [append_assoc, take_append_drop]
      exact hreserved.1
    · rw [length_append, length_take_of_le (by omega), hreserved.2]
  have hspace : text ≠ [] → 4 ≤ (room.drop lengthSlot).length := by
    intro _
    rw [length_drop]
    rw [long] at hlong
    omega
  obtain ⟨room', hfilled⟩ :=
    holds_encodeInPlace (Nat.le_refl text.length) hslot hspace
  set filled := encodeInPlace text.length text
    ⟨reserved.buffer, reserved.length + lengthSlot⟩
  have hslotLength : (room.take lengthSlot).length = lengthSlot :=
    length_take_of_le (by omega)
  have hlength : filled.length - writer.length - lengthSlot =
      (utf8Encode text).length := by
    rw [hfilled.2, hholds.2, length_append, length_append, hslotLength]
    omega
  have hpadded : ∀ number, (paddedVarint lengthSlot number).length =
      (room.take lengthSlot).length := fun number => by
    rw [hslotLength]
    rfl
  refine ⟨room', ?_, ?_⟩
  · simp only [hlength]
    rw [hholds.2, hfilled.1, append_assoc, append_assoc, overwrite_append, hpadded, drop_left]
    simp
  rw [hfilled.2]
  simp only [length_append, hpadded]
  omega

/-- Text behind its scaled length, in each of the three encodings. -/
theorem writes_text (hsize : text.length < 2 ^ 32) (hscale : scale = 1 ∨ scale = 2) :
    ∃ head, 1 ≤ head.length ∧
      Wire.Writes writerSink (writeText text scale) (head ++ utf8Encode text) ∧
      Wire.Reads readVarint head ((utf8Encode text).length * scale) := by
  have hle := length_utf8Encode_le text
  have hsafe : (utf8Encode text).length * scale ≤ maxSafeInteger := by
    rw [maxSafeInteger]
    rcases hscale with rfl | rfl <;> omega
  rw [writeText]
  split
  next hshort =>
    have hbyte : (utf8Encode text).length * scale < 0x80 := by
      rw [short] at hshort
      rcases hscale with rfl | rfl <;> omega
    have hhead := reads_varint hsafe
    rw [varintBytes, if_neg (by omega)] at hhead
    exact ⟨[UInt8.ofNat ((utf8Encode text).length * scale)], Nat.le_refl 1,
      writes_of_holds fun writer content room hholds => holds_shortText hholds,
      hhead⟩
  split
  · exact ⟨varintBytes _, length_varintBytes_pos _,
      (writes_varint hsafe).bind (writes_raw _), reads_varint hsafe⟩
  rename_i hlong
  refine ⟨paddedVarint lengthSlot _, Nat.le_add_left 1 4,
    writes_of_holds fun writer content room hholds =>
      holds_longText (not_lt.mp hlong) hholds, fun rest => ?_⟩
  have hfits : (utf8Encode text).length * scale < 0x80 ^ lengthSlot := by
    rw [lengthSlot]
    rcases hscale with rfl | rfl <;> omega
  have hread := readVarintFrom_paddedVarint hfits
    (show 0 + (utf8Encode text).length * scale * 1 ≤ maxSafeInteger by omega)
    (by decide) (show lengthSlot ≤ 8 by decide) rest
  simpa [readVarint] using hread

theorem carries_string (hsize : text.length < 2 ^ 32) (hformed : isWellFormed text = true) :
    Wire.Carries writerSink 1 (writeString text) readString text := by
  obtain ⟨head, hleast, hwrites, hhead⟩ := writes_text hsize (.inl rfl)
  rw [Nat.mul_one] at hhead
  refine ⟨head ++ utf8Encode text, ?_, hwrites, ?_⟩
  · rw [length_append]
    omega
  apply hhead.bind
  apply (reads_raw (utf8Encode text)).last
  rw [utf8Decode_utf8Encode_of_isWellFormed hformed]

/-- A JSON value with a text that fits a string. -/
structure JsonSized (value : JsonValue) : Prop where
  held : JsonText.Held value
  size : (JsonText.stringify value).length < 2 ^ 32

theorem carries_json {value : JsonValue} (hvalue : JsonSized value) :
    Wire.Carries writerSink 1 (writeJson value) readJson value := by
  apply (carries_string hvalue.size (JsonText.isWellFormed_stringify value)).last
  rw [JsonText.parse_stringify hvalue.held]

/-! ### Parts -/

/-- A part as it is received: text has become its bytes. -/
def Part.received : Part → Part
  | .text json => .bytes (utf8Encode json)
  | part => part

/-- A part that a JavaScript engine can hold. -/
def Part.Sized : Part → Prop
  | .text json => json.length < 2 ^ 32
  | .bytes encoded | .deflated encoded => encoded.length < 2 ^ 52

/-- Bytes behind their length doubled, with the mark of a deflated part. -/
theorem carries_marked {bytes : List UInt8} (hsize : bytes.length < 2 ^ 52)
    {mark : Nat} (hmark : mark < 2) :
    Wire.Carries writerSink 1
      (writeVarint (bytes.length * 2 + mark) >>= fun _ => writeRaw bytes)
      readPart (if mark = 1 then .deflated bytes else .bytes bytes) := by
  have hsafe : bytes.length * 2 + mark ≤ maxSafeInteger := by
    rw [maxSafeInteger]
    omega
  have hhalf : (bytes.length * 2 + mark) / 2 = bytes.length := by omega
  have hparity : (bytes.length * 2 + mark) % 2 = mark := by omega
  apply (carries_varint hsafe).field
  rw [hhalf]
  apply (carries_raw bytes).last
  rw [hparity]

theorem carries_part {part : Part} (hpart : part.Sized) :
    Wire.Carries writerSink 1 (writePart part) readPart part.received := by
  cases part with
  | bytes bytes =>
    rw [Part.Sized] at hpart
    exact carries_marked hpart (show 0 < 2 by decide)
  | deflated bytes =>
    rw [Part.Sized] at hpart
    exact carries_marked hpart (show 1 < 2 by decide)
  | text text =>
    rw [Part.Sized] at hpart
    obtain ⟨head, hleast, hwrites, hhead⟩ := writes_text hpart (.inr rfl)
    have hhalf : (utf8Encode text).length * 2 / 2 =
      (utf8Encode text).length := by omega
    have hparity : (utf8Encode text).length * 2 % 2 ≠ 1 := by omega
    refine ⟨head ++ utf8Encode text, ?_, hwrites, ?_⟩
    · rw [length_append]
      omega
    apply hhead.bind
    rw [hhalf]
    apply (reads_raw (utf8Encode text)).last
    rw [if_neg hparity, Part.received]

/-! ### Hexadecimal fields -/

theorem exists_digit_of_isHexUnit {unit : UInt16} (hunit : isHexUnit unit = true) :
    ∃ digit < 16, JsonQuote.hexValue unit = some digit ∧ JsonQuote.hexUnit digit = unit := by
  simp only [isHexUnit, Bool.or_eq_true, Bool.and_eq_true, decide_eq_true_eq]
    at hunit
  have hback : ∀ digit, UInt16.ofNat digit = unit ↔ digit % 2 ^ 16 = unit.toNat := by
    intro digit
    rw [← UInt16.toNat_inj, UInt16.toNat_ofNat']
  rcases hunit with hdigit | hletter
  · refine ⟨unit.toNat - 48, by omega, ?_, ?_⟩
    · rw [JsonQuote.hexValue, if_pos hdigit]
    rw [JsonQuote.hexUnit, if_pos (by omega), hback]
    omega
  refine ⟨unit.toNat - 87, by omega, ?_, ?_⟩
  · rw [JsonQuote.hexValue, if_neg (by omega), if_pos hletter]
  rw [JsonQuote.hexUnit, if_neg (by omega), hback]
  omega

theorem matchesHex_iff (count : Nat) (text : JsString) :
    matchesHex count text = true ↔ text.length = count ∧ ∀ unit ∈ text, isHexUnit unit = true := by
  simp [matchesHex]

theorem hexText_hexBytes {count : Nat} (hlength : text.length = count * 2)
    (htext : ∀ unit ∈ text, isHexUnit unit = true) :
    hexText (hexBytes text) = text ∧ (hexBytes text).length = count := by
  induction count generalizing text with
  | zero =>
    obtain rfl := length_eq_zero_iff.mp (show text.length = 0 by omega)
    exact ⟨rfl, rfl⟩
  | succ count ih =>
    match text, hlength with
    | [], hlength => simp at hlength
    | [_], hlength =>
      rw [length_singleton] at hlength
      omega
    | high :: low :: rest, hlength =>
      obtain ⟨first, hfirst, hhigh, hhighUnit⟩ :=
        exists_digit_of_isHexUnit (htext high (by simp))
      obtain ⟨second, hsecond, hlow, hlowUnit⟩ :=
        exists_digit_of_isHexUnit (htext low (by simp))
      obtain ⟨hrest, hcount⟩ := ih
        (show rest.length = count * 2 by
          simp only [length_cons] at hlength
          omega)
        fun unit hunit => htext unit (by simp [hunit])
      have hbyte : (UInt8.ofNat (first * 16 + second)).toNat =
          first * 16 + second := toNat_ofNat_byte (by omega)
      have hdiv : (first * 16 + second) / 16 = first := by omega
      have hmod : (first * 16 + second) % 16 = second := by omega
      rw [hexBytes, hhigh, hlow]
      constructor
      · rw [hexText, flatMap_cons]
        simp only [Option.getD_some, hbyte, hdiv, hmod, hhighUnit, hlowUnit]
        rw [← hexText, hrest]
        rfl
      · rw [length_cons, hcount]

theorem writes_hex {length : Nat} (htext : matchesHex (length * 2) text = true) :
    Wire.Writes writerSink (writeHex text length) (hexBytes text) := by
  have hhex : writeHex text length = writeRaw (hexBytes text) := by
    rw [writeHex, hex, if_pos htext]
    rfl
  rw [hhex]
  exact writes_raw (hexBytes text)

theorem carries_hex {length : Nat} (htext : matchesHex (length * 2) text = true) :
    Wire.Carries writerSink length (writeHex text length) (readRaw length) (hexBytes text) := by
  obtain ⟨hlength, hunits⟩ := (matchesHex_iff _ _).mp htext
  have hcount := (hexText_hexBytes hlength hunits).2
  have hreads := reads_raw (hexBytes text)
  rw [hcount] at hreads
  exact ⟨hexBytes text, by omega, writes_hex htext, hreads⟩

theorem matchesGroups_cons {next : Nat} {rest : List Nat} {text : JsString}
    (htext : matchesGroups (count :: next :: rest) text = true) :
    ∃ front back, text = front ++ dashUnit :: back ∧
      matchesHex count front = true ∧
      matchesGroups (next :: rest) back = true := by
  rw [matchesGroups, Bool.and_eq_true, Bool.and_eq_true, beq_iff_eq] at htext
  obtain ⟨⟨hfront, hdash⟩, hback⟩ := htext
  refine ⟨text.take count, text.drop (count + 1), ?_, hfront, hback⟩
  obtain ⟨hlt, hunit⟩ := List.getElem?_eq_some_iff.mp hdash
  rw [← hunit, getElem_cons_drop, take_append_drop]
  · simp

theorem withoutDashes_hex {front : JsString}
    (hfront : ∀ unit ∈ front, isHexUnit unit = true) (back : JsString) :
    withoutDashes (front ++ dashUnit :: back) = front ++ withoutDashes back := by
  have hkept : front.filter (· ≠ dashUnit) = front := by
    rw [filter_eq_self]
    intro unit hunit
    have hhex := hfront unit hunit
    rw [decide_eq_true_eq]
    rintro rfl
    cases hhex
  rw [withoutDashes, filter_append, hkept, filter_cons_of_neg (by simp),
    ← withoutDashes]

/-- A UUID is its five groups of digits with dashes between them. -/
theorem uuid_hexBytes (htext : matchesIncarnation text = true) :
    matchesHex (16 * 2) (withoutDashes text) = true ∧
      uuid (hexBytes (withoutDashes text)) = text := by
  rw [matchesIncarnation, uuidGroups] at htext
  obtain ⟨first, text, rfl, hfirst, htext⟩ := matchesGroups_cons htext
  obtain ⟨second, text, rfl, hsecond, htext⟩ := matchesGroups_cons htext
  obtain ⟨third, text, rfl, hthird, htext⟩ := matchesGroups_cons htext
  obtain ⟨fourth, fifth, rfl, hfourth, hfifth⟩ := matchesGroups_cons htext
  rw [matchesGroups] at hfifth
  rw [matchesHex_iff] at hfirst hsecond hthird hfourth hfifth
  have hlast : withoutDashes fifth = fifth := by
    have happend := withoutDashes_hex hfifth.2 []
    simpa [withoutDashes] using happend
  have hdigits : withoutDashes (first ++ dashUnit :: (second ++ dashUnit ::
      (third ++ dashUnit :: (fourth ++ dashUnit :: fifth)))) =
        first ++ (second ++ (third ++ (fourth ++ fifth))) := by
    rw [withoutDashes_hex hfirst.2, withoutDashes_hex hsecond.2,
      withoutDashes_hex hthird.2, withoutDashes_hex hfourth.2, hlast]
  have hlength : (first ++ (second ++ (third ++ (fourth ++ fifth)))).length =
      16 * 2 := by
    simp only [length_append]
    omega
  have hunits : ∀ unit ∈ first ++ (second ++ (third ++ (fourth ++ fifth))),
      isHexUnit unit = true := by
    intro unit hunit
    simp only [mem_append] at hunit
    rcases hunit with hunit | hunit | hunit | hunit | hunit
    · exact hfirst.2 unit hunit
    · exact hsecond.2 unit hunit
    · exact hthird.2 unit hunit
    · exact hfourth.2 unit hunit
    · exact hfifth.2 unit hunit
  rw [hdigits]
  refine ⟨(matchesHex_iff _ _).mpr ⟨hlength, hunits⟩, ?_⟩
  rw [uuid, (hexText_hexBytes hlength hunits).1]
  have hpast : ∀ (group : JsString) (count : Nat), group.length ≤ count →
      group.drop count = [] := fun group count => drop_eq_nil_of_le
  simp [drop_append, hfirst.1, hsecond.1, hthird.1,
    hfourth.1, hpast first, hpast second, hpast third]

theorem carries_uuid (htext : matchesIncarnation text = true) :
    Wire.Carries writerSink 16 (writeUuid text) readUuid text := by
  obtain ⟨hhex, huuid⟩ := uuid_hexBytes htext
  apply (carries_hex hhex).last
  rw [huuid]

end Hummin.Link
