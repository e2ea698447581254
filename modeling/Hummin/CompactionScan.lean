/-
The checkpoint scan of a session file: it is read in chunks, each decoded on its own and
split into lines, and the summary of the last compaction entry is kept.
-/
import Mathlib.Data.List.DropRight
import Hummin.JsonRepair
import Hummin.JsonText
import Hummin.Utf8

namespace Hummin.CompactionScan

open List Option

variable {text pending front back : JsString} {bytes : List UInt8}

/-! ### Decoding -/

/-- A character of which `needed` more bytes are to come, the next of them in bounds. -/
structure Partial where
  needed : Nat
  codePoint : Nat
  lower : Nat
  upper : Nat
deriving DecidableEq

/-- Between two characters. -/
def Partial.between : Partial := ⟨0, 0, 0x80, 0xBF⟩

def replacementUnit : UInt16 := 0xFFFD

/-- The first byte of a character. -/
def leadByte (byte : Nat) : JsString × Partial :=
  if byte < 0x80 then (scalarUnits byte, .between)
  else if 0xC2 ≤ byte ∧ byte < 0xE0 then ([], ⟨1, byte - 0xC0, 0x80, 0xBF⟩)
  else if 0xE0 ≤ byte ∧ byte < 0xF0 then
    ([], ⟨2, byte - 0xE0, if byte = 0xE0 then 0xA0 else 0x80, if byte = 0xED then 0x9F else 0xBF⟩)
  else if 0xF0 ≤ byte ∧ byte < 0xF5 then
    ([], ⟨3, byte - 0xF0, if byte = 0xF0 then 0x90 else 0x80, if byte = 0xF4 then 0x8F else 0xBF⟩)
  else ([replacementUnit], .between)

/-- A byte that does not continue the character replaces it and is read anew. -/
def decodeByte (state : Partial) (byte : Nat) : JsString × Partial :=
  if state.needed = 0 then leadByte byte
  else if state.lower ≤ byte ∧ byte ≤ state.upper then
    let codePoint := state.codePoint * 0x40 + (byte - 0x80)
    if state.needed = 1 then (scalarUnits codePoint, .between)
    else ([], ⟨state.needed - 1, codePoint, 0x80, 0xBF⟩)
  else (replacementUnit :: (leadByte byte).1, (leadByte byte).2)

def decodeFrom (state : Partial) : List UInt8 → JsString
  | [] => if state.needed = 0 then [] else [replacementUnit]
  | byte :: rest =>
    (decodeByte state byte.toNat).1 ++ decodeFrom (decodeByte state byte.toNat).2 rest

/-- `Buffer.toString` with `utf8`: what is no character is replaced. -/
def bufferToString (bytes : List UInt8) : JsString :=
  decodeFrom .between bytes

/-! ### Scanning -/

/-- The lines of `text.split` at the line breaks, the last one apart. -/
def splitFrom (pending : JsString) : JsString → List JsString × JsString
  | [] => ([], pending)
  | unit :: rest =>
    if unit = 10 then (pending :: (splitFrom [] rest).1, (splitFrom [] rest).2)
    else splitFrom (pending ++ [unit]) rest

def trim (text : JsString) : JsString :=
  (text.dropWhile JsonRepair.isTrimmed).rdropWhile JsonRepair.isTrimmed

/-- A compaction entry with a summary is the last one so far. -/
def handleLine (maxSummaryChars : Nat) (last : Option JsString) (line : JsString) :
    Option JsString :=
  let trimmed := trim line
  if trimmed = [] then last
  else
    match JsonText.parse trimmed with
    | some (.obj _ fields) =>
      match PropertyList.get (js "type".toList) fields,
          PropertyList.get (js "summary".toList) fields with
      | some (.str type), some (.str summary) =>
        if type = js "compaction".toList ∧ summary ≠ [] then some (summary.take maxSummaryChars)
        else last
      | _, _ => last
    | _ => last

structure Scan where
  pending : JsString
  last : Option JsString

def Scan.start : Scan := ⟨[], none⟩

def Scan.chunk (maxSummaryChars : Nat) (scan : Scan) (buffer : List UInt8) : Scan :=
  let split := splitFrom [] (scan.pending ++ bufferToString buffer)
  ⟨split.2, split.1.foldl (handleLine maxSummaryChars) scan.last⟩

def Scan.finish (maxSummaryChars : Nat) (scan : Scan) : Option JsString :=
  if 0 < scan.pending.length then handleLine maxSummaryChars scan.last scan.pending
  else scan.last

variable {byte : UInt8}

theorem decodeFrom_between (rest : List UInt8) :
    decodeFrom .between (byte :: rest) =
      (leadByte byte.toNat).1 ++ decodeFrom (leadByte byte.toNat).2 rest := rfl

theorem tail_bounds (htail : isTail byte = true) :
    0x80 ≤ byte.toNat ∧ byte.toNat ≤ 0xBF ∧ byte.toNat = 0x80 + tailBits byte := by
  rw [isTail, Bool.and_eq_true, decide_eq_true_eq, decide_eq_true_eq] at htail
  unfold tailBits
  omega

theorem scalar_bounds {least scalar : Nat} (hscalar : isScalarFrom least scalar = true) :
    least ≤ scalar ∧ scalar < 0x110000 ∧ (scalar < 0xD800 ∨ 0xE000 ≤ scalar) := by
  simp only [isScalarFrom, Bool.and_eq_true, decide_eq_true_eq, Bool.not_eq_true',
    Bool.and_eq_false_iff, decide_eq_false_iff_not] at hscalar
  omega

/-- The last byte of a character. -/
theorem decodeFrom_last {codePoint lower upper : Nat} (hlower : lower ≤ byte.toNat)
    (hupper : byte.toNat ≤ upper) (rest : List UInt8) :
    decodeFrom ⟨1, codePoint, lower, upper⟩ (byte :: rest) =
      scalarUnits (codePoint * 0x40 + tailBits byte) ++ decodeFrom .between rest := by
  have hstep : decodeByte ⟨1, codePoint, lower, upper⟩ byte.toNat =
      (scalarUnits (codePoint * 0x40 + tailBits byte), .between) := by
    simp only [decodeByte, Nat.one_ne_zero, hlower, hupper, and_self, if_true, if_false]
    exact Eq.refl _
  rw [decodeFrom, hstep]

/-- A byte of a character before its last. -/
theorem decodeFrom_tail {needed codePoint lower upper : Nat}
    (hlower : lower ≤ byte.toNat) (hupper : byte.toNat ≤ upper) (rest : List UInt8) :
    decodeFrom ⟨needed + 2, codePoint, lower, upper⟩ (byte :: rest) =
      decodeFrom ⟨needed + 1, codePoint * 0x40 + tailBits byte, 0x80, 0xBF⟩ rest := by
  have hstep : decodeByte ⟨needed + 2, codePoint, lower, upper⟩ byte.toNat =
      ([], ⟨needed + 1, codePoint * 0x40 + tailBits byte, 0x80, 0xBF⟩) := by
    simp only [decodeByte, Nat.succ_ne_zero, hlower, hupper, and_self, if_true, if_false,
      Nat.succ_inj]
    exact Eq.refl _
  rw [decodeFrom, hstep, nil_append]

/-- The characters of a text are decoded one after another. -/
theorem decodeFrom_append (hdecode : utf8Decode bytes = some text) (rest : List UInt8) :
    decodeFrom .between (bytes ++ rest) = text ++ decodeFrom .between rest := by
  fun_induction utf8Decode bytes generalizing text with
  | case1 =>
    cases hdecode
    rfl
  | case2 first tail hone ih =>
    obtain ⟨later, hlater, rfl⟩ := map_eq_some_iff.mp hdecode
    rw [cons_append, decodeFrom_between, leadByte, if_pos hone, ih hlater, append_assoc]
  | case4 first hone htwo hthree second tail htail ih =>
    obtain ⟨later, hlater, rfl⟩ := map_eq_some_iff.mp hdecode
    have hlast := tail_bounds htail
    rw [cons_append, decodeFrom_between, leadByte, if_neg hone, if_pos (by omega),
      nil_append, cons_append, decodeFrom_last hlast.1 hlast.2.1, ih hlater, append_assoc]
  | case7 first hone htwo hthree hfour second third tail scalar hscalar =>
    rename_i ih
    obtain ⟨later, hlater, rfl⟩ := map_eq_some_iff.mp hdecode
    rw [Bool.and_eq_true, Bool.and_eq_true] at hscalar
    obtain ⟨⟨hsecond, hthird⟩, hrange⟩ := hscalar
    have hleast := tail_bounds hsecond
    have hlast := tail_bounds hthird
    have hbounds := scalar_bounds hrange
    have hvalue : scalar = ((first.toNat - 0xE0) * 0x40 + tailBits second) * 0x40 +
        tailBits third := by
      omega
    rw [hvalue] at hbounds ⊢
    rw [cons_append, decodeFrom_between, leadByte, if_neg hone, if_neg (by omega),
      if_pos (by omega), nil_append, cons_append, decodeFrom_tail, cons_append,
      decodeFrom_last hlast.1 hlast.2.1, ih hlater, append_assoc]
    · split <;> omega
    · split <;> omega
  | case10 first hone htwo hthree hfour hfive second third fourth tail scalar hscalar =>
    rename_i ih
    obtain ⟨later, hlater, rfl⟩ := map_eq_some_iff.mp hdecode
    rw [Bool.and_eq_true, Bool.and_eq_true, Bool.and_eq_true] at hscalar
    obtain ⟨⟨⟨hsecond, hthird⟩, hfourth⟩, hrange⟩ := hscalar
    have hleast := tail_bounds hsecond
    have hmiddle := tail_bounds hthird
    have hlast := tail_bounds hfourth
    have hbounds := scalar_bounds hrange
    have hvalue : scalar = (((first.toNat - 0xF0) * 0x40 + tailBits second) * 0x40 +
        tailBits third) * 0x40 + tailBits fourth := by
      omega
    rw [hvalue] at hbounds ⊢
    rw [cons_append, decodeFrom_between, leadByte, if_neg hone, if_neg (by omega),
      if_neg (by omega), if_pos (by omega), nil_append, cons_append, decodeFrom_tail,
      cons_append, decodeFrom_tail hmiddle.1 hmiddle.2.1, cons_append,
      decodeFrom_last hlast.1 hlast.2.1, ih hlater, append_assoc]
    · split <;> omega
    · split <;> omega
  | _ => simp at hdecode

/-! ### Lines -/

theorem splitFrom_append :
    splitFrom pending (front ++ back) =
      ((splitFrom pending front).1 ++ (splitFrom (splitFrom pending front).2 back).1,
        (splitFrom (splitFrom pending front).2 back).2) := by
  induction front generalizing pending with
  | nil => rfl
  | cons unit front ih =>
    rw [cons_append, splitFrom, splitFrom]
    split
    · rw [ih, cons_append]
    · rw [ih]

/-- What stands before the next line break is kept. -/
theorem splitFrom_pending (hpending : (10 : UInt16) ∉ pending) (hfront : (10 : UInt16) ∉ front) :
    splitFrom pending front = ([], pending ++ front) := by
  induction front generalizing pending with
  | nil => rw [splitFrom, append_nil]
  | cons unit front ih =>
    rw [mem_cons, not_or] at hfront
    rw [splitFrom, if_neg (Ne.symm hfront.1), ih _ hfront.2, append_assoc, singleton_append]
    rw [mem_append, mem_singleton]
    exact not_or.mpr ⟨hpending, hfront.1⟩

theorem newline_not_mem_pending (hpending : (10 : UInt16) ∉ pending) :
    (10 : UInt16) ∉ (splitFrom pending text).2 := by
  induction text generalizing pending with
  | nil => exact hpending
  | cons unit text ih =>
    rw [splitFrom]
    split
    · exact ih not_mem_nil
    rename_i hunit
    apply ih
    rw [mem_append, mem_singleton]
    exact not_or.mpr ⟨hpending, Ne.symm hunit⟩

/-! ### The whole file -/

/-- The scan stands where splitting a text at once leads. -/
def Scan.After (maxSummaryChars : Nat) (scan : Scan) (text : JsString) : Prop :=
  scan.pending = (splitFrom [] text).2 ∧
    scan.last = (splitFrom [] text).1.foldl (handleLine maxSummaryChars) none

variable {maxSummaryChars : Nat} {scan : Scan}

/-- A chunk of whole characters takes the scan past their text. -/
theorem Scan.After.chunk (hafter : scan.After maxSummaryChars front)
    (hdecode : utf8Decode bytes = some text) :
    (scan.chunk maxSummaryChars bytes).After maxSummaryChars (front ++ text) := by
  have hstring : bufferToString bytes = text := by
    have happend := decodeFrom_append hdecode []
    rwa [append_nil, show decodeFrom .between [] = [] from rfl, append_nil] at happend
  obtain ⟨hpending, hlast⟩ := hafter
  have hplain : (10 : UInt16) ∉ scan.pending := by
    rw [hpending]
    exact newline_not_mem_pending not_mem_nil
  have hsplit : splitFrom [] (scan.pending ++ text) = splitFrom scan.pending text := by
    rw [splitFrom_append, splitFrom_pending not_mem_nil hplain, nil_append, nil_append]
  constructor
  · rw [Scan.chunk, hstring, hsplit, splitFrom_append, hpending]
  · rw [Scan.chunk, hstring, hsplit, splitFrom_append, foldl_append, ← hlast, hpending]

theorem trim_nil : trim [] = [] := rfl

/-- An empty last line says nothing. -/
theorem Scan.After.finish (hafter : scan.After maxSummaryChars text) :
    scan.finish maxSummaryChars =
      ((splitFrom [] text).1 ++ [(splitFrom [] text).2]).foldl (handleLine maxSummaryChars) none := by
  obtain ⟨hpending, hlast⟩ := hafter
  rw [foldl_append, ← hlast, ← hpending, foldl_cons, foldl_nil, Scan.finish]
  split
  · rfl
  next hempty =>
    rw [length_pos_iff, not_not] at hempty
    rw [hempty, handleLine, if_pos trim_nil]

end Hummin.CompactionScan
