/-
Well-formed text in pieces and in lines.  Texts without lone surrogates can be
put together and cut at any unit that is no surrogate, and their UTF-8 bytes
with them; a newline is one byte that stands for nothing else.
-/
import Hummin.Utf8

namespace Hummin

open List

open JsonQuote (isHigh isLow)

variable {front back : JsString} {unit : UInt16}

theorem isWellFormed_cons (hhigh : isHigh unit = false)
    (hlow : isLow unit = false) (rest : JsString) :
    isWellFormed (unit :: rest) = isWellFormed rest := by
  cases rest <;> simp [isWellFormed, hhigh, hlow]

theorem isWellFormed_append (hfront : isWellFormed front = true)
    (hback : isWellFormed back = true) : isWellFormed (front ++ back) = true := by
  induction front using isWellFormed.induct with
  | case1 => exact hback
  | case2 unit =>
    rw [isWellFormed, Bool.not_eq_true', Bool.or_eq_false_iff] at hfront
    rw [singleton_append, isWellFormed_cons hfront.1 hfront.2, hback]
  | case3 unit next rest hpair ih =>
    rw [isWellFormed, if_pos hpair] at hfront
    rw [cons_append, cons_append, isWellFormed, if_pos hpair]
    exact ih hfront
  | case4 unit next rest hpair ih =>
    rw [isWellFormed, if_neg hpair, Bool.and_eq_true] at hfront
    rw [cons_append, cons_append, isWellFormed, if_neg hpair, Bool.and_eq_true]
    exact ⟨hfront.1, ih hfront.2⟩

variable {text : JsString}

/-- Units below the surrogates. -/
theorem isWellFormed_of_lt
    (hlt : ∀ unit ∈ text, unit.toNat < 0xD800) : isWellFormed text = true := by
  induction text with
  | nil => rfl
  | cons unit rest ih =>
    have hunit := hlt unit mem_cons_self
    rw [isWellFormed_cons (by simp [isHigh]; omega)
      (by simp [isLow]; omega)]
    exact ih fun other hother => hlt other (mem_cons_of_mem unit hother)

/-- A unit that is no surrogate separates what stands before it. -/
theorem isWellFormed_of_append (hlow : isLow unit = false)
    (hwhole : isWellFormed (front ++ unit :: back) = true) : isWellFormed front = true := by
  induction front using isWellFormed.induct with
  | case1 => rfl
  | case2 first =>
    rw [singleton_append, isWellFormed, hlow, Bool.and_false,
      if_neg (by simp), Bool.and_eq_true] at hwhole
    rw [isWellFormed]
    exact hwhole.1
  | case3 first next rest hpair ih =>
    rw [cons_append, cons_append, isWellFormed, if_pos hpair] at hwhole
    rw [isWellFormed, if_pos hpair]
    exact ih hwhole
  | case4 first next rest hpair ih =>
    rw [cons_append, cons_append, isWellFormed, if_neg hpair, Bool.and_eq_true] at hwhole
    rw [isWellFormed, if_neg hpair, Bool.and_eq_true]
    exact ⟨hwhole.1, ih hwhole.2⟩

theorem utf8Encode_append (hlow : isLow unit = false) :
    utf8Encode (front ++ unit :: back) = utf8Encode front ++ utf8Encode (unit :: back) := by
  induction front using scalars.induct with
  | case1 => rfl
  | case2 first =>
    rw [singleton_append, utf8Encode_unit (by simp [hlow])]
    simp [utf8Encode, scalars]
  | case3 first next rest hpair ih =>
    rw [cons_append, cons_append, utf8Encode_pair hpair, ih, utf8Encode_pair hpair, append_assoc]
  | case4 first next rest hpair ih =>
    rw [cons_append, cons_append, utf8Encode_unit hpair,
      ← cons_append, ih, utf8Encode_unit hpair, append_assoc]

/-! ### Lines -/

def newlineUnit : UInt16 := 10
def newlineByte : UInt8 := 10

variable {scalar : Nat}

theorem newlineByte_not_mem_encodeScalar (hscalar : scalar < 0x110000)
    (hne : scalar ≠ 10) : newlineByte ∉ encodeScalar scalar := by
  intro hmem
  have hcode : ∀ code : Nat, code < 256 → newlineByte = UInt8.ofNat code →
      code = 10 := by
    intro code hcode heq
    have hnat := congrArg UInt8.toNat heq
    rw [toNat_ofNat_byte hcode] at hnat
    exact hnat.symm
  rw [encodeScalar] at hmem
  split_ifs at hmem with hone htwo hthree <;>
    simp only [mem_cons, not_mem_nil, or_false] at hmem
  · exact hne (hcode scalar (by omega) hmem)
  · rcases hmem with heq | heq
    · have := hcode _ (by omega) heq
      omega
    have := hcode _ (by omega) heq
    omega
  · rcases hmem with heq | heq | heq
    · have := hcode _ (by omega) heq
      omega
    · have := hcode _ (by omega) heq
      omega
    have := hcode _ (by omega) heq
    omega
  rcases hmem with heq | heq | heq | heq
  · have := hcode _ (by omega) heq
    omega
  · have := hcode _ (by omega) heq
    omega
  · have := hcode _ (by omega) heq
    omega
  have := hcode _ (by omega) heq
  omega

/-- The scalar value of a newline comes from a newline only. -/
theorem newlineUnit_mem_of_scalars {scalar : Nat × Nat}
    (hscalar : scalar ∈ scalars text) (hnewline : scalar.1 = 10) : newlineUnit ∈ text := by
  have hunit : ∀ unit : UInt16, unitScalar unit = 10 → unit = newlineUnit := by
    intro unit heq
    rw [unitScalar] at heq
    split_ifs at heq
    · cases heq
    apply UInt16.toNat_inj.mp
    exact heq
  induction text using scalars.induct with
  | case1 => simp [scalars] at hscalar
  | case2 unit =>
    rw [scalars, mem_singleton] at hscalar
    subst hscalar
    rw [hunit unit hnewline]
    exact mem_singleton_self _
  | case3 unit next rest hpair ih =>
    rw [scalars, if_pos hpair, mem_cons] at hscalar
    rcases hscalar with rfl | hscalar
    · have hlarge : 10 < pairScalar unit next := by
        unfold pairScalar
        omega
      omega
    · exact mem_cons_of_mem _ (mem_cons_of_mem _ (ih hscalar))
  | case4 unit next rest hpair ih =>
    rw [scalars, if_neg hpair, mem_cons] at hscalar
    rcases hscalar with rfl | hscalar
    · rw [hunit unit hnewline]
      exact mem_cons_self
    · exact mem_cons_of_mem _ (ih hscalar)

theorem newlineByte_not_mem_utf8Encode
    (hline : newlineUnit ∉ text) : newlineByte ∉ utf8Encode text := by
  intro hmem
  obtain ⟨scalar, hscalar, hbyte⟩ := mem_flatMap.mp hmem
  have hrange : scalar.1 < 0x110000 := by
    rcases isScalar_of_mem_scalars hscalar with hlt | hlt
    · omega
    · exact hlt.2
  by_cases hnewline : scalar.1 = 10
  · exact hline (newlineUnit_mem_of_scalars hscalar hnewline)
  · exact newlineByte_not_mem_encodeScalar hrange hnewline hbyte

theorem utf8Encode_newline (back : JsString) :
    utf8Encode (newlineUnit :: back) = newlineByte :: utf8Encode back := by
  cases back with
  | nil => rfl
  | cons next rest =>
    rw [utf8Encode_unit (by simp [show isHigh newlineUnit = false by decide])]
    rfl

/-! ### Decoded text -/

theorem isWellFormed_scalarUnits (hscalar : IsScalar scalar) :
    isWellFormed (scalarUnits scalar) = true := by
  rw [scalarUnits]
  split
  next hsmall =>
    have hcode : (UInt16.ofNat scalar).toNat = scalar := by
      rw [UInt16.toNat_ofNat']
      omega
    rw [isWellFormed]
    simp only [isHigh, isLow, hcode]
    rcases hscalar with hlt | ⟨hle, -⟩
    · simp only [Bool.not_eq_true', Bool.or_eq_false_iff, Bool.and_eq_false_iff,
        decide_eq_false_iff_not]
      omega
    simp only [Bool.not_eq_true', Bool.or_eq_false_iff, Bool.and_eq_false_iff,
      decide_eq_false_iff_not]
    omega
  rename_i hlarge
  rw [isWellFormed, if_pos]
  · rfl
  have hrange : scalar < 0x110000 := by
    rcases hscalar with hlt | hlt
    · omega
    · exact hlt.2
  have hfirst : (UInt16.ofNat (0xD800 + (scalar - 0x10000) / 0x400)).toNat =
      0xD800 + (scalar - 0x10000) / 0x400 := by
    rw [UInt16.toNat_ofNat']
    omega
  have hsecond : (UInt16.ofNat (0xDC00 + (scalar - 0x10000) % 0x400)).toNat =
      0xDC00 + (scalar - 0x10000) % 0x400 := by
    rw [UInt16.toNat_ofNat']
    omega
  simp only [isHigh, isLow, hfirst, hsecond, Bool.and_eq_true, decide_eq_true_eq]
  omega

theorem isScalar_of_isScalarFrom {least scalar : Nat}
    (hscalar : isScalarFrom least scalar = true) : IsScalar scalar := by
  simp only [isScalarFrom, Bool.and_eq_true, decide_eq_true_eq, Bool.not_eq_true',
    Bool.and_eq_false_iff, decide_eq_false_iff_not] at hscalar
  rw [IsScalar]
  omega

/-- Decoding gives well-formed text. -/
theorem isWellFormed_of_utf8Decode {bytes : List UInt8} {text : JsString}
    (hdecode : utf8Decode bytes = some text) : isWellFormed text = true := by
  have hstep : ∀ {scalar : Nat} {rest : Option JsString} {text : JsString},
      IsScalar scalar → rest.map (scalarUnits scalar ++ ·) = some text →
      (∀ text, rest = some text → isWellFormed text = true) →
        isWellFormed text = true := by
    intro scalar rest text hscalar hmap hrest
    obtain ⟨tail, htail, rfl⟩ := Option.map_eq_some_iff.mp hmap
    exact isWellFormed_append (isWellFormed_scalarUnits hscalar) (hrest tail htail)
  fun_induction utf8Decode bytes generalizing text with
  | case1 =>
    cases hdecode
    rfl
  | case2 first rest hone ih =>
    have hscalar : first.toNat < 0xD800 := by omega
    exact hstep (.inl hscalar) hdecode fun _ htext => ih htext
  | case4 first hone htwo hthree second rest htail ih =>
    have hscalar : (first.toNat - 0xC0) * 0x40 + tailBits second < 0xD800 := by
      simp only [isTail, Bool.and_eq_true, decide_eq_true_eq] at htail
      unfold tailBits
      omega
    exact hstep (.inl hscalar) hdecode fun _ htext => ih htext
  | case7 first hone htwo hthree hfour second third rest scalar hscalar =>
    rename_i ih
    rw [Bool.and_eq_true] at hscalar
    exact hstep (isScalar_of_isScalarFrom hscalar.2) hdecode
      fun _ htext => ih htext
  | case10 first hone htwo hthree hfour hfive second third fourth rest scalar
      hscalar =>
      rename_i ih
      rw [Bool.and_eq_true] at hscalar
      exact hstep (isScalar_of_isScalarFrom hscalar.2) hdecode
        fun _ htext => ih htext
  | _ => simp at hdecode

end Hummin
