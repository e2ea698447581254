/-
Base64 as `btoa` writes it and as `atob` reads it: four digits for three bytes,
with padding at the end.  Reading what was written gives the bytes back.
-/
import Hummin.JsString

namespace Hummin.Base64

open List

def paddingUnit : UInt16 := 61

/-- The digit of six bits. -/
def digit (sextet : Nat) : UInt16 :=
  UInt16.ofNat (if sextet < 26 then 65 + sextet
    else if sextet < 52 then 71 + sextet
    else if sextet < 62 then sextet - 4
    else if sextet = 62 then 43 else 47)

def sextet (unit : UInt16) : Option Nat :=
  let code := unit.toNat
  if 65 ≤ code ∧ code ≤ 90 then some (code - 65)
  else if 97 ≤ code ∧ code ≤ 122 then some (code - 71)
  else if 48 ≤ code ∧ code ≤ 57 then some (code + 4)
  else if code = 43 then some 62
  else if code = 47 then some 63
  else none

/-- `btoa` of bytes. -/
def encode : List UInt8 → JsString
  | [] => []
  | [a] =>
    [digit (a.toNat / 4), digit (a.toNat % 4 * 16), paddingUnit, paddingUnit]
  | [a, b] =>
    [digit (a.toNat / 4), digit (a.toNat % 4 * 16 + b.toNat / 16),
      digit (b.toNat % 16 * 4), paddingUnit]
  | a :: b :: c :: rest =>
    digit (a.toNat / 4) :: digit (a.toNat % 4 * 16 + b.toNat / 16) ::
      digit (b.toNat % 16 * 4 + c.toNat / 64) :: digit (c.toNat % 64) ::
        encode rest

/-- The bytes of a sequence of six-bit digits; bits that fill no byte are
dropped. -/
def bytesOf : List Nat → List UInt8
  | a :: b :: c :: d :: rest =>
    UInt8.ofNat (a * 4 + b / 16) :: UInt8.ofNat (b % 16 * 16 + c / 4) ::
      UInt8.ofNat (c % 4 * 64 + d) :: bytesOf rest
  | [a, b, c] => [UInt8.ofNat (a * 4 + b / 16), UInt8.ofNat (b % 16 * 16 + c / 4)]
  | [a, b] => [UInt8.ofNat (a * 4 + b / 16)]
  | _ => []

def isAsciiSpace (unit : UInt16) : Bool :=
  unit == 9 || unit == 10 || unit == 12 || unit == 13 || unit == 32

/-- The text without one padding at its end. -/
def stripOne (text : JsString) : JsString :=
  if text.getLast? = some paddingUnit then text.dropLast else text

/-- `atob`: space is ignored, up to two paddings may fill the last four. -/
def decode (text : JsString) : Option (List UInt8) :=
  let plain := text.filter fun unit => !isAsciiSpace unit
  let body := if plain.length % 4 = 0 then stripOne (stripOne plain) else plain
  if body.length % 4 = 1 then none else (body.mapM sextet).map bytesOf

/-! ### Round trip -/

theorem sextet_digit {number : Nat} (hnumber : number < 64) :
    sextet (digit number) = some number := by
  have hall : ∀ n < 64, sextet (digit n) = some n := by decide
  exact hall number hnumber

theorem digit_plain {number : Nat} (hnumber : number < 64) :
    digit number ≠ paddingUnit ∧ isAsciiSpace (digit number) = false := by
  have hall : ∀ n < 64, digit n ≠ paddingUnit ∧ isAsciiSpace (digit n) = false := by
    decide
  exact hall number hnumber

/-- The digits of some bytes and how much padding follows them. -/
def sextets : List UInt8 → List Nat × Nat
  | [] => ([], 0)
  | [a] => ([a.toNat / 4, a.toNat % 4 * 16], 2)
  | [a, b] =>
    ([a.toNat / 4, a.toNat % 4 * 16 + b.toNat / 16, b.toNat % 16 * 4], 1)
  | a :: b :: c :: rest =>
    (a.toNat / 4 :: (a.toNat % 4 * 16 + b.toNat / 16) ::
      (b.toNat % 16 * 4 + c.toNat / 64) :: c.toNat % 64 :: (sextets rest).1,
      (sextets rest).2)

variable (bytes : List UInt8)

theorem encode_eq :
    encode bytes = (sextets bytes).1.map digit ++ replicate (sextets bytes).2 paddingUnit := by
  induction bytes using encode.induct with
  | case4 a b c rest ih => simp [encode, sextets, ih]
  | _ => rfl

theorem sextets_spec :
    (∀ number ∈ (sextets bytes).1, number < 64) ∧ (sextets bytes).2 ≤ 2 ∧
      ((sextets bytes).1.length + (sextets bytes).2) % 4 = 0 ∧
      bytesOf (sextets bytes).1 = bytes := by
  induction bytes using encode.induct with
  | case1 => simp [sextets, bytesOf]
  | case2 a =>
    have ha : a.toNat < 256 := a.toNat_lt
    have hbyte : a.toNat / 4 * 4 + a.toNat % 4 * 16 / 16 = a.toNat := by omega
    refine ⟨?_, by simp [sextets], by simp [sextets], ?_⟩
    · intro number hnumber
      simp only [sextets, mem_cons, not_mem_nil, or_false] at hnumber
      omega
    · simp only [sextets, bytesOf, hbyte, UInt8.ofNat_toNat]
  | case3 a b =>
    have ha : a.toNat < 256 := a.toNat_lt
    have hb : b.toNat < 256 := b.toNat_lt
    have hfirst : a.toNat / 4 * 4 +
        (a.toNat % 4 * 16 + b.toNat / 16) / 16 = a.toNat := by omega
    have hsecond : (a.toNat % 4 * 16 + b.toNat / 16) % 16 * 16 +
        b.toNat % 16 * 4 / 4 = b.toNat := by omega
    refine ⟨?_, by simp [sextets], by simp [sextets], ?_⟩
    · intro number hnumber
      simp only [sextets, mem_cons, not_mem_nil, or_false] at hnumber
      omega
    · simp only [sextets, bytesOf, hfirst, hsecond, UInt8.ofNat_toNat]
  | case4 a b c rest ih =>
    obtain ⟨hdigits, hpadding, hlength, hbytes⟩ := ih
    have ha : a.toNat < 256 := a.toNat_lt
    have hb : b.toNat < 256 := b.toNat_lt
    have hc : c.toNat < 256 := c.toNat_lt
    have hfirst : a.toNat / 4 * 4 +
        (a.toNat % 4 * 16 + b.toNat / 16) / 16 = a.toNat := by omega
    have hsecond : (a.toNat % 4 * 16 + b.toNat / 16) % 16 * 16 +
        (b.toNat % 16 * 4 + c.toNat / 64) / 4 = b.toNat := by omega
    have hthird : (b.toNat % 16 * 4 + c.toNat / 64) % 4 * 64 +
        c.toNat % 64 = c.toNat := by omega
    refine ⟨?_, hpadding, ?_, ?_⟩
    · intro number hnumber
      simp only [sextets, mem_cons] at hnumber
      rcases hnumber with rfl | rfl | rfl | rfl | hnumber
      · omega
      · omega
      · omega
      · omega
      · exact hdigits number hnumber
    · simp only [sextets, length_cons]
      omega
    · simp only [sextets, bytesOf, hfirst, hsecond, hthird, UInt8.ofNat_toNat, hbytes]

variable {numbers : List Nat}

theorem mapM_sextet (hnumbers : ∀ number ∈ numbers, number < 64) :
    (numbers.map digit).mapM sextet = some numbers := by
  induction numbers with
  | nil => rfl
  | cons number rest ih =>
    rw [map_cons, mapM_cons, sextet_digit (hnumbers number mem_cons_self),
      ih fun other hother => hnumbers other (mem_cons_of_mem number hother)]
    rfl

theorem stripOne_append_padding (text : JsString) : stripOne (text ++ [paddingUnit]) = text := by
  simp [stripOne]

theorem stripOne_digits (hnumbers : ∀ number ∈ numbers, number < 64) :
    stripOne (numbers.map digit) = numbers.map digit := by
  rw [stripOne, if_neg]
  intro hlast
  obtain ⟨number, hnumber, heq⟩ :=
    mem_map.mp (mem_of_getLast? hlast)
  exact (digit_plain (hnumbers number hnumber)).1 heq

theorem stripTwo_digits (hnumbers : ∀ number ∈ numbers, number < 64) {padding : Nat}
    (hpadding : padding ≤ 2) :
    stripOne (stripOne (numbers.map digit ++
      replicate padding paddingUnit)) = numbers.map digit := by
  match padding, hpadding with
  | 0, _ =>
    rw [replicate_zero, append_nil, stripOne_digits hnumbers, stripOne_digits hnumbers]
  | 1, _ =>
    rw [replicate_one, stripOne_append_padding, stripOne_digits hnumbers]
  | 2, _ =>
    rw [replicate_succ', replicate_one, ← append_assoc,
      stripOne_append_padding, stripOne_append_padding]

theorem filter_encode :
    (encode bytes).filter (fun unit => !isAsciiSpace unit) = encode bytes := by
  rw [filter_eq_self]
  intro unit hunit
  rw [encode_eq, mem_append] at hunit
  rcases hunit with hdigit | hpadding
  · obtain ⟨number, hnumber, rfl⟩ := mem_map.mp hdigit
    rw [(digit_plain ((sextets_spec bytes).1 number hnumber)).2]
    rfl
  rw [eq_of_mem_replicate hpadding]
  decide

/-- `atob` undoes `btoa`. -/
theorem decode_encode : decode (encode bytes) = some bytes := by
  obtain ⟨hdigits, hpadding, hlength, hbytes⟩ := sextets_spec bytes
  have htext : (encode bytes).length % 4 = 0 := by
    rw [encode_eq, length_append, length_map, length_replicate, hlength]
  have hrest : ((sextets bytes).1.map digit).length % 4 ≠ 1 := by
    rw [length_map]
    omega
  rw [decode, filter_encode]
  simp only [htext, if_true]
  rw [encode_eq, stripTwo_digits hdigits hpadding, if_neg hrest,
    mapM_sextet hdigits, Option.map_some, hbytes]

end Hummin.Base64
