/-
JSON string literals.  Writing escapes quotes, backslashes, control characters
and lone surrogates; reading undoes every escape JSON has.  Reading what was
written, followed by anything, gives the string back and stops at its end.
-/
import Hummin.JsString

namespace Hummin.JsonQuote

open List

def isHigh (unit : UInt16) : Bool :=
  0xD800 ≤ unit.toNat && unit.toNat < 0xDC00

def isLow (unit : UInt16) : Bool :=
  0xDC00 ≤ unit.toNat && unit.toNat < 0xE000

def startsLow (text : JsString) : Bool :=
  text.head?.any isLow

/-- The code unit of a lowercase hexadecimal digit. -/
def hexUnit (digit : Nat) : UInt16 :=
  UInt16.ofNat (if digit < 10 then 48 + digit else 87 + digit)

def escapeHex (unit : UInt16) : JsString :=
  [92, 117, hexUnit (unit.toNat / 4096), hexUnit (unit.toNat / 256 % 16),
    hexUnit (unit.toNat / 16 % 16), hexUnit (unit.toNat % 16)]

/-- A code unit outside surrogates as it stands in a literal. -/
def quoteUnit (unit : UInt16) : JsString :=
  if unit = 34 ∨ unit = 92 then [92, unit]
  else if unit = 8 then [92, 98]
  else if unit = 9 then [92, 116]
  else if unit = 10 then [92, 110]
  else if unit = 12 then [92, 102]
  else if unit = 13 then [92, 114]
  else if unit.toNat < 32 then escapeHex unit
  else [unit]

/-- The literal without its quotes.  `paired`: the unit before was a high
surrogate that the next one completes. -/
def quoteBody : Bool → JsString → JsString
  | _, [] => []
  | true, unit :: rest => unit :: quoteBody false rest
  | false, unit :: rest =>
    if isHigh unit && startsLow rest then unit :: quoteBody true rest
    else if isHigh unit || isLow unit then
      escapeHex unit ++ quoteBody false rest
    else quoteUnit unit ++ quoteBody false rest

/-- `JSON.stringify` of a string. -/
def quote (text : JsString) : JsString :=
  34 :: quoteBody false text ++ [34]

def hexValue (unit : UInt16) : Option Nat :=
  let code := unit.toNat
  if 48 ≤ code ∧ code ≤ 57 then some (code - 48)
  else if 97 ≤ code ∧ code ≤ 102 then some (code - 87)
  else if 65 ≤ code ∧ code ≤ 70 then some (code - 55)
  else none

/-- The unit a one-character escape stands for. -/
def simpleEscape (unit : UInt16) : Option UInt16 :=
  if unit = 34 ∨ unit = 92 ∨ unit = 47 then some unit
  else if unit = 98 then some 8
  else if unit = 102 then some 12
  else if unit = 110 then some 10
  else if unit = 114 then some 13
  else if unit = 116 then some 9
  else none

def hexEscape (first second third fourth : UInt16) : Option UInt16 :=
  match hexValue first, hexValue second, hexValue third, hexValue fourth with
  | some a, some b, some c, some d =>
    some (UInt16.ofNat (a * 4096 + b * 256 + c * 16 + d))
  | _, _, _, _ => none

/-- Read a literal after its opening quote: the string, and what follows the
closing quote. -/
@[grind =]
def readBody : JsString → Option (JsString × JsString)
  | [] => none
  | unit :: rest =>
    if unit = 34 then some ([], rest)
    else if unit = 92 then
      match rest with
      | [] => none
      | escape :: rest =>
        if escape = 117 then
          match rest with
          | a :: b :: c :: d :: rest =>
            match hexEscape a b c d with
            | some value => (readBody rest).map fun read =>
              (value :: read.1, read.2)
            | none => none
          | _ => none
        else match simpleEscape escape with
          | some value => (readBody rest).map fun read =>
            (value :: read.1, read.2)
          | none => none
    else if unit.toNat < 32 then none
    else (readBody rest).map fun read => (unit :: read.1, read.2)

theorem hexValue_hexUnit {digit : Nat} (hdigit : digit < 16) :
    hexValue (hexUnit digit) = some digit := by
  have hall : ∀ d < 16, hexValue (hexUnit d) = some d := by decide
  exact hall digit hdigit

variable (unit : UInt16)

theorem hexEscape_escapeHex :
    hexEscape (hexUnit (unit.toNat / 4096)) (hexUnit (unit.toNat / 256 % 16))
        (hexUnit (unit.toNat / 16 % 16)) (hexUnit (unit.toNat % 16)) =
      some unit := by
  have hlt : unit.toNat < 65536 := unit.toNat_lt
  rw [hexEscape, hexValue_hexUnit (by omega), hexValue_hexUnit (by omega),
    hexValue_hexUnit (by omega), hexValue_hexUnit (by omega)]
  simp only [Option.some.injEq]
  have hvalue : unit.toNat / 4096 * 4096 + unit.toNat / 256 % 16 * 256 +
      unit.toNat / 16 % 16 * 16 + unit.toNat % 16 = unit.toNat := by
    omega
  rw [hvalue, UInt16.ofNat_toNat]

variable (rest : JsString)

theorem readBody_escapeHex :
    readBody (escapeHex unit ++ rest) =
      (readBody rest).map fun read => (unit :: read.1, read.2) := by
  simp only [escapeHex, cons_append, nil_append]
  rw [readBody.eq_def]
  simp [hexEscape_escapeHex]

theorem readBody_plain {unit : UInt16} (hquote : unit ≠ 34)
    (hslash : unit ≠ 92) (hplain : ¬ unit.toNat < 32) (rest : JsString) :
    readBody (unit :: rest) =
      (readBody rest).map fun read => (unit :: read.1, read.2) := by
  rw [readBody.eq_def]
  simp [hquote, hslash, hplain]

theorem readBody_escape {escape value : UInt16} (hne : escape ≠ 117)
    (hescape : simpleEscape escape = some value) (rest : JsString) :
    readBody (92 :: escape :: rest) =
      (readBody rest).map fun read => (value :: read.1, read.2) := by
  rw [readBody.eq_def]
  simp [hne, hescape]

theorem readBody_quoteUnit :
    readBody (quoteUnit unit ++ rest) =
      (readBody rest).map fun read => (unit :: read.1, read.2) := by
  unfold quoteUnit
  split_ifs with hself hb ht hn hf hr hcontrol
  · rcases hself with rfl | rfl
    · exact readBody_escape (by decide) (by decide) rest
    · exact readBody_escape (by decide) (by decide) rest
  · exact hb ▸ readBody_escape (by decide) (by decide) rest
  · exact ht ▸ readBody_escape (by decide) (by decide) rest
  · exact hn ▸ readBody_escape (by decide) (by decide) rest
  · exact hf ▸ readBody_escape (by decide) (by decide) rest
  · exact hr ▸ readBody_escape (by decide) (by decide) rest
  · exact readBody_escapeHex unit rest
  · rw [not_or] at hself
    exact readBody_plain hself.1 hself.2 hcontrol rest

theorem readBody_surrogate {unit : UInt16}
    (hsurrogate : 0xD800 ≤ unit.toNat) (rest : JsString) :
    readBody (unit :: rest) =
      (readBody rest).map fun read => (unit :: read.1, read.2) := by
  apply readBody_plain
  · rintro rfl
    simp at hsurrogate
  · rintro rfl
    simp at hsurrogate
  · omega

/-- Reading a literal gives its string and the text behind it. -/
theorem readBody_quoteBody (paired : Bool) (text rest : JsString)
    (hpaired : paired = true → startsLow text = true) :
    readBody (quoteBody paired text ++ 34 :: rest) = some (text, rest) := by
  induction text generalizing paired with
  | nil =>
    cases paired with
    | false =>
      rw [quoteBody, nil_append, readBody.eq_def]
      simp
    | true => simp [startsLow] at hpaired
  | cons unit tail ih =>
    cases paired with
    | true =>
      have hlow : isLow unit = true := by
        simpa [startsLow] using hpaired rfl
      simp only [isLow, Bool.and_eq_true, decide_eq_true_eq] at hlow
      rw [quoteBody, cons_append, readBody_surrogate (by omega),
        ih false (by simp)]
      rfl
    | false =>
      rw [quoteBody]
      split_ifs with hpair hlone
      · simp only [Bool.and_eq_true, isHigh, decide_eq_true_eq] at hpair
        rw [cons_append, readBody_surrogate (by omega),
          ih true fun _ => hpair.2]
        rfl
      · rw [append_assoc, readBody_escapeHex, ih false (by simp)]
        rfl
      rw [append_assoc, readBody_quoteUnit, ih false (by simp)]
      rfl

/-- A literal determines its string and where it ends. -/
theorem quote_append_inj {left right rest rest' : JsString}
    (heq : quote left ++ rest = quote right ++ rest') : left = right ∧ rest = rest' := by
  simp only [quote, cons_append, append_assoc, nil_append, cons.injEq, true_and] at heq
  have hleft := readBody_quoteBody false left rest (by simp)
  rw [heq, readBody_quoteBody false right rest' (by simp)] at hleft
  simp only [Option.some.injEq, Prod.mk.injEq] at hleft
  exact ⟨hleft.1.symm, hleft.2.symm⟩

end Hummin.JsonQuote
