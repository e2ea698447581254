/-
UTF-8 as `TextEncoder` writes it and a fatal `TextDecoder` reads it.  Encoding
replaces lone surrogates by U+FFFD; decoding what was encoded gives the text
with just that replacement.
-/
import Hummin.JsonQuote

namespace Hummin

open List

open JsonQuote (isHigh isLow)

/-! ### Scalar values of a text -/

def replacement : Nat := 0xFFFD

def pairScalar (high low : UInt16) : Nat :=
  0x10000 + (high.toNat - 0xD800) * 0x400 + (low.toNat - 0xDC00)

/-- The scalar value of a code unit that stands alone. -/
def unitScalar (unit : UInt16) : Nat :=
  if isHigh unit || isLow unit then replacement else unit.toNat

/-- The scalar values of a text, each with the code units it takes. -/
def scalars : JsString → List (Nat × Nat)
  | [] => []
  | [unit] => [(unitScalar unit, 1)]
  | unit :: next :: rest =>
    if isHigh unit && isLow next then (pairScalar unit next, 2) :: scalars rest
    else (unitScalar unit, 1) :: scalars (next :: rest)

/-- The code units of a scalar value. -/
def scalarUnits (scalar : Nat) : JsString :=
  if scalar < 0x10000 then [UInt16.ofNat scalar]
  else [UInt16.ofNat (0xD800 + (scalar - 0x10000) / 0x400),
    UInt16.ofNat (0xDC00 + (scalar - 0x10000) % 0x400)]

/-- `String.prototype.toWellFormed`. -/
def toWellFormed (text : JsString) : JsString :=
  (scalars text).flatMap fun scalar => scalarUnits scalar.1

/-- No surrogate stands alone. -/
def isWellFormed : JsString → Bool
  | [] => true
  | [unit] => !(isHigh unit || isLow unit)
  | unit :: next :: rest =>
    if isHigh unit && isLow next then isWellFormed rest
    else !(isHigh unit || isLow unit) && isWellFormed (next :: rest)

/-! ### Bytes -/

def encodeScalar (scalar : Nat) : List UInt8 :=
  if scalar < 0x80 then [UInt8.ofNat scalar]
  else if scalar < 0x800 then
    [UInt8.ofNat (0xC0 + scalar / 0x40), UInt8.ofNat (0x80 + scalar % 0x40)]
  else if scalar < 0x10000 then
    [UInt8.ofNat (0xE0 + scalar / 0x1000),
      UInt8.ofNat (0x80 + scalar / 0x40 % 0x40), UInt8.ofNat (0x80 + scalar % 0x40)]
  else
    [UInt8.ofNat (0xF0 + scalar / 0x40000), UInt8.ofNat (0x80 + scalar / 0x1000 % 0x40),
      UInt8.ofNat (0x80 + scalar / 0x40 % 0x40), UInt8.ofNat (0x80 + scalar % 0x40)]

/-- `TextEncoder.encode`. -/
def utf8Encode (text : JsString) : List UInt8 :=
  (scalars text).flatMap fun scalar => encodeScalar scalar.1

variable {unit : UInt16}

theorem utf8Encode_pair {next : UInt16}
    (hpair : (isHigh unit && isLow next) = true) (rest : JsString) :
    utf8Encode (unit :: next :: rest) = encodeScalar (pairScalar unit next) ++ utf8Encode rest := by
  rw [utf8Encode, scalars, if_pos hpair, flatMap_cons]
  rfl

theorem utf8Encode_unit {next : UInt16}
    (hpair : ¬ (isHigh unit && isLow next) = true) (rest : JsString) :
    utf8Encode (unit :: next :: rest) =
      encodeScalar (unitScalar unit) ++ utf8Encode (next :: rest) := by
  rw [utf8Encode, scalars, if_neg hpair, flatMap_cons]
  rfl

/-- The scalar values that fit into the room left: the units read and the bytes
written. -/
def fillRoom : List (Nat × Nat) → Nat → Nat × List UInt8
  | [], _ => (0, [])
  | (scalar, units) :: rest, room =>
    let bytes := encodeScalar scalar
    if bytes.length ≤ room then
      let filled := fillRoom rest (room - bytes.length)
      (units + filled.1, bytes ++ filled.2)
    else (0, [])

/-- `TextEncoder.encodeInto` a destination of the given size. -/
def encodeInto (text : JsString) (room : Nat) : Nat × List UInt8 :=
  fillRoom (scalars text) room

def isTail (byte : UInt8) : Bool :=
  0x80 ≤ byte.toNat && byte.toNat < 0xC0

/-- The low bits of a continuation byte. -/
def tailBits (byte : UInt8) : Nat :=
  byte.toNat - 0x80

/-- A scalar value of three or four bytes: in range and no surrogate. -/
def isScalarFrom (least scalar : Nat) : Bool :=
  least ≤ scalar && scalar < 0x110000 && !(0xD800 ≤ scalar && scalar < 0xE000)

/-- `TextDecoder.decode` with `fatal` and `ignoreBOM`. -/
def utf8Decode : List UInt8 → Option JsString
  | [] => some []
  | first :: rest =>
    if first.toNat < 0x80 then
      (utf8Decode rest).map (scalarUnits first.toNat ++ ·)
    else if first.toNat < 0xC2 then none
    else if first.toNat < 0xE0 then
      match rest with
      | second :: rest =>
        if isTail second then
          (utf8Decode rest).map (scalarUnits ((first.toNat - 0xC0) * 0x40 + tailBits second) ++ ·)
        else none
      | _ => none
    else if first.toNat < 0xF0 then
      match rest with
      | second :: third :: rest =>
        let scalar := (first.toNat - 0xE0) * 0x1000 + tailBits second * 0x40 +
          tailBits third
        if isTail second && isTail third && isScalarFrom 0x800 scalar then
          (utf8Decode rest).map (scalarUnits scalar ++ ·)
        else none
      | _ => none
    else if first.toNat < 0xF5 then
      match rest with
      | second :: third :: fourth :: rest =>
        let scalar := (first.toNat - 0xF0) * 0x40000 +
          tailBits second * 0x1000 + tailBits third * 0x40 + tailBits fourth
        if isTail second && isTail third && isTail fourth &&
            isScalarFrom 0x10000 scalar then
          (utf8Decode rest).map (scalarUnits scalar ++ ·)
        else none
      | _ => none
    else none

/-! ### Decoding what was encoded -/

/-- Unicode scalar values. -/
def IsScalar (scalar : Nat) : Prop :=
  scalar < 0xD800 ∨ 0xE000 ≤ scalar ∧ scalar < 0x110000

theorem isScalarFrom_of_isScalar {least scalar : Nat} (hscalar : IsScalar scalar)
    (hleast : least ≤ scalar) : isScalarFrom least scalar = true := by
  simp only [isScalarFrom, Bool.and_eq_true, Bool.not_eq_true', decide_eq_true_eq,
    Bool.and_eq_false_iff, decide_eq_false_iff_not]
  unfold IsScalar at hscalar
  omega

variable {n : Nat}

theorem toNat_ofNat_byte (hn : n < 256) : (UInt8.ofNat n).toNat = n := by
  rw [UInt8.toNat_ofNat']
  omega

theorem isTail_ofNat (hn : n < 0x40) : isTail (UInt8.ofNat (0x80 + n)) = true := by
  rw [isTail, toNat_ofNat_byte (by omega)]
  simp only [Bool.and_eq_true, decide_eq_true_eq]
  omega

theorem tailBits_ofNat (hn : n < 0x40) : tailBits (UInt8.ofNat (0x80 + n)) = n := by
  have hbyte : (UInt8.ofNat (0x80 + n)).toNat = 0x80 + n :=
    toNat_ofNat_byte (by omega)
  unfold tailBits
  omega

theorem utf8Decode_encodeScalar {scalar : Nat} (hscalar : IsScalar scalar) (rest : List UInt8) :
    utf8Decode (encodeScalar scalar ++ rest) = (utf8Decode rest).map (scalarUnits scalar ++ ·) := by
  have hmax : scalar < 0x110000 := by
    unfold IsScalar at hscalar
    omega
  rw [encodeScalar]
  split
  next hone =>
    simp only [cons_append, nil_append]
    rw [utf8Decode.eq_def]
    simp only
    rw [toNat_ofNat_byte (by omega), if_pos hone]
  rename_i hone
  split
  next htwo =>
    simp only [cons_append, nil_append]
    rw [utf8Decode.eq_def]
    simp only
    rw [toNat_ofNat_byte (by omega), if_neg (by omega), if_neg (by omega),
      if_pos (by omega), if_pos (isTail_ofNat (by omega)),
      tailBits_ofNat (by omega)]
    have hvalue : (0xC0 + scalar / 0x40 - 0xC0) * 0x40 + scalar % 0x40 =
        scalar := by
      omega
    rw [hvalue]
  rename_i htwo
  split
  next hthree =>
    simp only [cons_append, nil_append]
    rw [utf8Decode.eq_def]
    simp only
    rw [toNat_ofNat_byte (by omega), if_neg (by omega), if_neg (by omega),
      if_neg (by omega), if_pos (by omega), isTail_ofNat (by omega),
      isTail_ofNat (by omega), tailBits_ofNat (by omega),
      tailBits_ofNat (by omega)]
    have hvalue : (0xE0 + scalar / 0x1000 - 0xE0) * 0x1000 +
        scalar / 0x40 % 0x40 * 0x40 + scalar % 0x40 = scalar := by
      omega
    rw [hvalue, isScalarFrom_of_isScalar hscalar (by omega)]
    rfl
  rename_i hthree
  simp only [cons_append, nil_append]
  rw [utf8Decode.eq_def]
  simp only
  rw [toNat_ofNat_byte (by omega), if_neg (by omega), if_neg (by omega),
    if_neg (by omega), if_neg (by omega), if_pos (by omega),
    isTail_ofNat (by omega), isTail_ofNat (by omega), isTail_ofNat (by omega),
    tailBits_ofNat (by omega), tailBits_ofNat (by omega),
    tailBits_ofNat (by omega)]
  have hvalue : (0xF0 + scalar / 0x40000 - 0xF0) * 0x40000 +
      scalar / 0x1000 % 0x40 * 0x1000 + scalar / 0x40 % 0x40 * 0x40 +
        scalar % 0x40 = scalar := by
    omega
  rw [hvalue, isScalarFrom_of_isScalar hscalar (by omega)]
  rfl

theorem isScalar_unitScalar (unit : UInt16) : IsScalar (unitScalar unit) := by
  have hlt : unit.toNat < 65536 := unit.toNat_lt
  rw [unitScalar]
  split
  · unfold replacement IsScalar
    omega
  rename_i hplain
  simp only [isHigh, isLow, Bool.or_eq_true, Bool.and_eq_true, decide_eq_true_eq,
    not_or, not_and, not_lt] at hplain
  unfold IsScalar
  omega

theorem isHigh_iff (unit : UInt16) :
    isHigh unit = true ↔ 0xD800 ≤ unit.toNat ∧ unit.toNat < 0xDC00 := by
  simp [isHigh]

theorem isLow_iff (unit : UInt16) :
    isLow unit = true ↔ 0xDC00 ≤ unit.toNat ∧ unit.toNat < 0xE000 := by
  simp [isLow]

theorem isScalar_pairScalar {high low : UInt16} (hhigh : isHigh high = true)
    (hlow : isLow low = true) : IsScalar (pairScalar high low) := by
  rw [isHigh_iff] at hhigh
  rw [isLow_iff] at hlow
  unfold pairScalar IsScalar
  omega

variable {text : JsString}

theorem isScalar_of_mem_scalars {scalar : Nat × Nat}
    (hscalar : scalar ∈ scalars text) : IsScalar scalar.1 := by
  induction text using scalars.induct with
  | case1 => simp [scalars] at hscalar
  | case2 unit =>
    simp only [scalars, mem_singleton] at hscalar
    rw [hscalar]
    exact isScalar_unitScalar unit
  | case3 unit next rest hpair ih =>
    rw [scalars, if_pos hpair, mem_cons] at hscalar
    rw [Bool.and_eq_true] at hpair
    rcases hscalar with rfl | hscalar
    · exact isScalar_pairScalar hpair.1 hpair.2
    · exact ih hscalar
  | case4 unit next rest hpair ih =>
    rw [scalars, if_neg hpair, mem_cons] at hscalar
    rcases hscalar with rfl | hscalar
    · exact isScalar_unitScalar unit
    · exact ih hscalar

/-- Decoding gives the text with its lone surrogates replaced. -/
theorem utf8Decode_utf8Encode (text : JsString) :
    utf8Decode (utf8Encode text) = some (toWellFormed text) := by
  have hall : ∀ scalar ∈ scalars text, IsScalar scalar.1 :=
    fun scalar hscalar => isScalar_of_mem_scalars hscalar
  rw [utf8Encode, toWellFormed]
  generalize scalars text = list at hall
  induction list with
  | nil => rfl
  | cons scalar rest ih =>
    rw [flatMap_cons, utf8Decode_encodeScalar (hall scalar mem_cons_self),
      ih fun each heach => hall each (mem_cons_of_mem _ heach)]
    rfl

theorem scalarUnits_unitScalar (hplain : (isHigh unit || isLow unit) = false) :
    scalarUnits (unitScalar unit) = [unit] := by
  have hlt : unit.toNat < 65536 := unit.toNat_lt
  rw [unitScalar, hplain]
  simp only [Bool.false_eq_true, ↓reduceIte]
  rw [scalarUnits, if_pos (by omega), UInt16.ofNat_toNat]

theorem scalarUnits_pairScalar {high low : UInt16} (hhigh : isHigh high = true)
    (hlow : isLow low = true) : scalarUnits (pairScalar high low) = [high, low] := by
  rw [isHigh_iff] at hhigh
  rw [isLow_iff] at hlow
  have hfirst : 0xD800 + (pairScalar high low - 0x10000) / 0x400 =
      high.toNat := by
    unfold pairScalar
    omega
  have hsecond : 0xDC00 + (pairScalar high low - 0x10000) % 0x400 =
      low.toNat := by
    unfold pairScalar
    omega
  rw [scalarUnits, if_neg (by unfold pairScalar; omega), hfirst, hsecond,
    UInt16.ofNat_toNat, UInt16.ofNat_toNat]

theorem toWellFormed_eq_self (hformed : isWellFormed text = true) : toWellFormed text = text := by
  induction text using scalars.induct with
  | case1 => rfl
  | case2 unit =>
    rw [isWellFormed, Bool.not_eq_true'] at hformed
    simp [toWellFormed, scalars, scalarUnits_unitScalar hformed]
  | case3 unit next rest hpair ih =>
    rw [isWellFormed, if_pos hpair] at hformed
    have hrest := ih hformed
    rw [toWellFormed] at hrest
    rw [toWellFormed, scalars, if_pos hpair, flatMap_cons, hrest]
    rw [Bool.and_eq_true] at hpair
    rw [scalarUnits_pairScalar hpair.1 hpair.2]
    rfl
  | case4 unit next rest hpair ih =>
    rw [isWellFormed, if_neg hpair, Bool.and_eq_true, Bool.not_eq_true']
      at hformed
    have hrest := ih hformed.2
    rw [toWellFormed] at hrest
    rw [toWellFormed, scalars, if_neg hpair, flatMap_cons, hrest, scalarUnits_unitScalar hformed.1]
    rfl

/-- A well-formed text survives. -/
theorem utf8Decode_utf8Encode_of_isWellFormed (hformed : isWellFormed text = true) :
    utf8Decode (utf8Encode text) = some text := by
  rw [utf8Decode_utf8Encode, toWellFormed_eq_self hformed]

/-! ### Lengths and room -/

theorem length_encodeScalar (scalar : Nat) :
    1 ≤ (encodeScalar scalar).length ∧ (encodeScalar scalar).length ≤ 4 := by
  rw [encodeScalar]
  split
  · simp
  split
  · simp
  · split <;> simp

/-- A text takes at most three bytes for each code unit. -/
theorem length_utf8Encode_le (text : JsString) : (utf8Encode text).length ≤ 3 * text.length := by
  have hunit : ∀ unit : UInt16,
      (encodeScalar (unitScalar unit)).length ≤ 3 := by
    intro unit
    have hlt : unitScalar unit < 0x10000 := by
      have hlt : unit.toNat < 65536 := unit.toNat_lt
      rw [unitScalar]
      split
      · unfold replacement
        omega
      · exact hlt
    rw [encodeScalar]
    split
    · simp
    split
    · simp
    · simp
  induction text using scalars.induct with
  | case1 => simp [utf8Encode, scalars]
  | case2 unit => simpa [utf8Encode, scalars] using hunit unit
  | case3 unit next rest hpair ih =>
    rw [utf8Encode_pair hpair, length_append]
    have hfour := (length_encodeScalar (pairScalar unit next)).2
    simp only [length_cons]
    omega
  | case4 unit next rest hpair ih =>
    rw [utf8Encode_unit hpair, length_append]
    have hthree := hunit unit
    simp only [length_cons] at ih ⊢
    omega

/-- What `encodeInto` writes is the front of the whole, cut between scalar
values. -/
theorem encodeInto_spec (text : JsString) (room : Nat) :
    (encodeInto text room).1 ≤ text.length ∧
      (encodeInto text room).2.length ≤ room ∧
      utf8Encode text = (encodeInto text room).2 ++
        utf8Encode (text.drop (encodeInto text room).1) := by
  induction text using scalars.induct generalizing room with
  | case1 => simp [encodeInto, scalars, fillRoom, utf8Encode]
  | case2 unit =>
    rw [encodeInto, scalars, fillRoom]
    split
    next hfits =>
      simpa [fillRoom, utf8Encode, scalars] using hfits
    · simp
  | case3 unit next rest hpair ih =>
    rw [encodeInto, scalars, if_pos hpair, fillRoom]
    simp only
    split
    · obtain ⟨hread, hroom, hbytes⟩ :=
        ih (room - (encodeScalar (pairScalar unit next)).length)
      rw [encodeInto] at hread hroom hbytes
      refine ⟨?_, ?_, ?_⟩
      · simp only [length_cons]
        omega
      · rw [length_append]
        omega
      rw [Nat.add_comm 2, drop_succ_cons, drop_succ_cons,
        append_assoc, ← hbytes, utf8Encode_pair hpair]
    · simp
  | case4 unit next rest hpair ih =>
    rw [encodeInto, scalars, if_neg hpair, fillRoom]
    simp only
    split
    · obtain ⟨hread, hroom, hbytes⟩ :=
        ih (room - (encodeScalar (unitScalar unit)).length)
      rw [encodeInto] at hread hroom hbytes
      refine ⟨?_, ?_, ?_⟩
      · simp only [length_cons] at hread ⊢
        omega
      · rw [length_append]
        omega
      · rw [Nat.add_comm 1, drop_succ_cons, append_assoc, ← hbytes, utf8Encode_unit hpair]
    · simp

/-- Four bytes of room are enough to read on. -/
theorem encodeInto_progress (hne : text ≠ []) {room : Nat}
    (hroom : 4 ≤ room) : 0 < (encodeInto text room).1 := by
  have hfits : ∀ scalar, (encodeScalar scalar).length ≤ room :=
    fun scalar => (length_encodeScalar scalar).2.trans hroom
  cases text using scalars.fun_cases with
  | case1 => exact absurd rfl hne
  | case2 unit => simp [encodeInto, scalars, fillRoom, hfits]
  | case3 unit next rest hpair =>
    simp [encodeInto, scalars, hpair, fillRoom, hfits]
  | case4 unit next rest hpair =>
    simp [encodeInto, scalars, hpair, fillRoom, hfits]

/-- With room for the whole text, all of it is written. -/
theorem encodeInto_whole {room : Nat} (hroom : (utf8Encode text).length ≤ room) :
    encodeInto text room = (text.length, utf8Encode text) := by
  induction text using scalars.induct generalizing room with
  | case1 => rfl
  | case2 unit =>
    have hfits : (encodeScalar (unitScalar unit)).length ≤ room := by
      simpa [utf8Encode, scalars] using hroom
    simp [encodeInto, scalars, fillRoom, hfits, utf8Encode]
  | case3 unit next rest hpair ih =>
    rw [utf8Encode_pair hpair, length_append] at hroom
    rw [encodeInto, scalars, if_pos hpair, fillRoom]
    rw [if_pos (by omega)]
    have hrest := ih (show (utf8Encode rest).length ≤
      room - (encodeScalar (pairScalar unit next)).length by omega)
    rw [encodeInto] at hrest
    rw [hrest, utf8Encode_pair hpair]
    simp only [length_cons, Prod.mk.injEq, and_true]
    omega
  | case4 unit next rest hpair ih =>
    rw [utf8Encode_unit hpair, length_append] at hroom
    rw [encodeInto, scalars, if_neg hpair, fillRoom]
    rw [if_pos (by omega)]
    have hrest := ih (show (utf8Encode (next :: rest)).length ≤
      room - (encodeScalar (unitScalar unit)).length by omega)
    rw [encodeInto] at hrest
    rw [hrest, utf8Encode_unit hpair]
    simp only [length_cons, Prod.mk.injEq, and_true]
    omega

end Hummin
