/-
The truncation of tool output: as many whole lines from the head or the tail as two limits
allow, and of an over-long last line as many whole characters.
-/
import Hummin.CompactionScan
import Hummin.WellFormedText

namespace Hummin.Truncate

open List JsonQuote

def byteLength (text : JsString) : Nat := (utf8Encode text).length

/-- `lines.join("\n")` -/
def join (lines : List JsString) : JsString := [newlineUnit].intercalate lines

def endsWithNewline (content : JsString) : Bool := content.getLast? == some newlineUnit

def splitLinesForCounting (content : JsString) : List JsString :=
  if content.length = 0 then []
  else
    let lines := content.splitOn newlineUnit
    if endsWithNewline content then lines.dropLast else lines

inductive Limit where
  | lines
  | bytes
deriving DecidableEq

structure TruncationResult where
  content : JsString
  truncated : Bool
  truncatedBy : Option Limit
  totalLines : Nat
  totalBytes : Nat
  outputLines : Nat
  outputBytes : Nat
  lastLinePartial : Bool
  firstLineExceedsLimit : Bool
  maxLines : Nat
  maxBytes : Nat
deriving DecidableEq

/-- The lines collected, the first one first, and whether one did not fit any more. -/
structure Collected where
  lines : List JsString
  bytes : Nat
  truncatedBy : Limit

def fits (content : JsString) (maxLines maxBytes : Nat) : Prop :=
  (splitLinesForCounting content).length ≤ maxLines ∧ byteLength content ≤ maxBytes

instance (content : JsString) (maxLines maxBytes : Nat) :
    Decidable (fits content maxLines maxBytes) :=
  inferInstanceAs (Decidable (_ ∧ _))

/-- The content without one final newline. -/
def body (content : JsString) : JsString :=
  if endsWithNewline content then content.dropLast else content

theorem eq_body_append {content : JsString} (hends : endsWithNewline content = true) :
    content = body content ++ [newlineUnit] := by
  rw [body, if_pos hends]
  exact (dropLast_append_getLast? newlineUnit (by simpa [endsWithNewline] using hends)).symm

theorem byteLength_append_newline (front back : JsString) :
    byteLength (front ++ newlineUnit :: back) = byteLength front + 1 + byteLength back := by
  rw [byteLength, utf8Encode_append (by decide), utf8Encode_newline, length_append, length_cons]
  simp only [byteLength]
  omega

/-- The bytes of the joined lines, in whichever order. -/
def weight (lines : List JsString) : Nat :=
  (lines.map fun line => byteLength line + 1).sum

theorem byteLength_eq_body (content : JsString) :
    byteLength content = byteLength (body content) + if endsWithNewline content then 1 else 0 := by
  split
  · next hends =>
    conv_lhs => rw [eq_body_append hends]
    rw [byteLength_append_newline]
    rfl
  · next hends => rw [body, if_neg hends, Nat.add_zero]

/-! ### The loop -/

variable {maxLines maxBytes : Nat} {content : JsString}

/-- The lines collected are within both limits. -/
structure Collected.Fits (maxLines maxBytes : Nat) (output : Collected) : Prop where
  bytes : output.bytes = weight output.lines - 1
  bytes_le : output.bytes ≤ maxBytes
  length_le : output.lines.length ≤ maxLines

/-- All lines fit, only the final newline is over the byte limit. -/
def NewlineOver (content : JsString) (maxLines maxBytes : Nat) : Prop :=
  endsWithNewline content = true ∧ (splitLinesForCounting content).length ≤ maxLines ∧
    byteLength content = maxBytes + 1

/-- What a result of whole lines says, the first line left out being `next`, with which the
lines kept would be `more`. -/
structure Whole (maxLines maxBytes : Nat) (result : TruncationResult) (kept : List JsString)
    (next : Option JsString) (more : JsString → List JsString) : Prop where
  outputLines : result.outputLines = kept.length
  length_le : kept.length ≤ maxLines
  bytes_le : byteLength result.content ≤ maxBytes
  content : result.content = join kept ∨ result.truncated = false ∧ next = none
  maximal : ∀ line ∈ next, maxLines ≤ kept.length ∨ maxBytes < byteLength (join (more line))
  byBytes : result.truncatedBy = some .bytes →
    ∃ line ∈ next, maxBytes < byteLength (join (more line))

/-- The longest end of a text that is of whole characters and within the limit. -/
structure LongestEnd (maxBytes : Nat) (text part : JsString) : Prop where
  isSuffix : part <:+ text
  whole : isWellFormed part = true
  bytes_le : byteLength part ≤ maxBytes
  longest : ∀ other, other <:+ text → isWellFormed other = true → byteLength other ≤ maxBytes →
    other <:+ part

variable {left : List JsString}

theorem NewlineOver.body (hnew : NewlineOver content maxLines maxBytes) :
    byteLength (body content) = maxBytes := by
  have hcontent := byteLength_eq_body content
  rw [hnew.2.2, if_pos hnew.1] at hcontent
  omega

theorem encodeScalar_cons {scalar : Nat} (hscalar : IsScalar scalar) :
    ∃ lead tails, encodeScalar scalar = lead :: tails ∧ isTail lead = false ∧
      ∀ byte ∈ tails, isTail byte = true := by
  have hlead {code : Nat} (hlow : code < 0x80 ∨ 0xC0 ≤ code) (hcode : code < 256) :
      isTail (UInt8.ofNat code) = false := by
    simp only [isTail, toNat_ofNat_byte hcode, Bool.and_eq_false_iff, decide_eq_false_iff_not]
    omega
  unfold IsScalar at hscalar
  unfold encodeScalar
  split_ifs
  · exact ⟨_, _, rfl, hlead (by omega) (by omega), by rintro byte ⟨⟩⟩
  all_goals
    refine ⟨_, _, rfl, hlead (by omega) (by omega), ?_⟩
    simp only [mem_cons, not_mem_nil, or_false, forall_eq_or_imp, forall_eq]
    simp only [isTail_ofNat (Nat.mod_lt _ (by decide : 0 < 0x40)), and_self]

/-- From any byte on, the bytes of the next whole character are the first that continue none. -/
def EndsWhole (text : JsString) : Prop :=
  ∀ maxBytes, maxBytes ≤ byteLength text → ∃ part, LongestEnd maxBytes text part ∧
    ((utf8Encode text).drop (byteLength text - maxBytes)).dropWhile isTail = utf8Encode part

/-- One more character in front, which is cut or kept as a whole. -/
theorem EndsWhole.cons {scalar : Nat} {text rest : JsString} (hrest : EndsWhole rest)
    (hscalar : IsScalar scalar) (hencode : utf8Encode text = encodeScalar scalar ++ utf8Encode rest)
    (htext : isWellFormed text = true) (hwhole : isWellFormed rest = true) (hsuffix : rest <:+ text)
    (hothers : ∀ other, other <:+ text → isWellFormed other = true →
      other = text ∨ other <:+ rest) : EndsWhole text := by
  intro maxBytes hmax
  obtain ⟨lead, tails, hchar, hlead, htails⟩ := encodeScalar_cons hscalar
  have hlength : byteLength text = (encodeScalar scalar).length + byteLength rest := by
    rw [byteLength, hencode, length_append, byteLength]
  rcases eq_or_lt_of_le hmax with rfl | hlt
  · refine ⟨text, ⟨suffix_rfl, htext, le_rfl, fun _ hother _ _ => hother⟩, ?_⟩
    rw [Nat.sub_self, drop_zero, hencode, hchar, cons_append, dropWhile_cons_of_neg (by simp [hlead])]
  -- The whole text is over the limit, so the end is one of the rest.
  have hsmaller (other : JsString) (hother : other <:+ text) (hformed : isWellFormed other = true)
      (hbytes : byteLength other ≤ maxBytes) : other <:+ rest :=
    (hothers other hother hformed).resolve_left fun heq => by
      rw [heq] at hbytes
      omega
  rcases le_or_gt maxBytes (byteLength rest) with hle | hgt
  · obtain ⟨part, hpart, hbytes⟩ := hrest maxBytes hle
    refine ⟨part, ⟨hpart.isSuffix.trans hsuffix, hpart.whole, hpart.bytes_le,
      fun other hother hformed hsize => hpart.longest other (hsmaller other hother hformed hsize)
        hformed hsize⟩, ?_⟩
    rw [hencode, drop_append, drop_of_length_le (by omega), nil_append, ← hbytes]
    congr 2
    omega
  obtain ⟨part, hpart, hbytes⟩ := hrest (byteLength rest) le_rfl
  have hself : part = rest := hpart.isSuffix.eq_of_length_le
    (hpart.longest rest suffix_rfl hwhole le_rfl).length_le
  rw [hself, Nat.sub_self, drop_zero] at hbytes
  refine ⟨rest, ⟨hsuffix, hwhole, hgt.le, hsmaller⟩, ?_⟩
  obtain ⟨count, hcount⟩ : ∃ count, byteLength text - maxBytes = count + 1 :=
    ⟨byteLength text - maxBytes - 1, by omega⟩
  rw [hencode, drop_append_of_le_length (by omega), hchar, hcount, drop_succ_cons,
    dropWhile_append_of_pos fun byte hbyte => htails byte (mem_of_mem_drop hbyte), hbytes]

variable {text : JsString}

end Hummin.Truncate
