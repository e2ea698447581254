/-
Texts cut in two. The sequences of the two parts are those of the whole, unless the cut stands
behind ESC ESC and before what begins another sequence, or inside the start marker of a paste
whose ESC the sequence before it takes.
-/
import Hummin.StdinBufferScan

namespace Hummin.StdinBuffer

open List

/-- The reading of a text ends with ESC ESC as one key. -/
def EndsInEscapePair (text : JsString) : Prop :=
  Lexer.Reaches nextSequence text [esc, esc]

variable {text more : JsString}

theorem extract_append (hpair : EndsInEscapePair text → ¬ more.head?.any (· ∈ introducers)) :
    extractCompleteSequences (text ++ more) =
      ((extractCompleteSequences text).1 ++
          (extractCompleteSequences ((extractCompleteSequences text).2 ++ more)).1,
        (extractCompleteSequences ((extractCompleteSequences text).2 ++ more)).2) :=
  Lexer.read_append shrinks_nextSequence fun piece _ _ hreaches hnext =>
    nextSequence_append hnext fun heq => hpair (by rw [heq] at hreaches; exact hreaches)

theorem append_infix_of_suffix {shorter longer : JsString} (hsuffix : shorter <:+ longer)
    (more : JsString) : shorter ++ more <:+: longer ++ more := by
  obtain ⟨used, rfl⟩ := hsuffix
  exact ⟨used, [], by simp⟩

theorem esc_not_mem_introducers : esc ∉ introducers := by
  decide

/-! ### A marker cut in two -/

/-- The parts of a paste marker before a cut in it. -/
def CutMarker (part : JsString) : Prop :=
  part <+: bracketedPasteStart ∧ part ≠ [] ∧ part ≠ bracketedPasteStart

variable {part : JsString}

section

variable (hpart : CutMarker part)
include hpart

theorem CutMarker.eq_take :
    part = bracketedPasteStart.take 1 ∨ part = bracketedPasteStart.take 2 ∨
      part = bracketedPasteStart.take 3 ∨ part = bracketedPasteStart.take 4 ∨
      part = bracketedPasteStart.take 5 := by
  obtain ⟨hstart, hne, hwhole⟩ := hpart
  have heq := prefix_iff_eq_take.mp hstart
  have hlength := hstart.length_le
  have hpos := length_pos_of_ne_nil hne
  have hsize : bracketedPasteStart.length = 6 := rfl
  have hshort : part.length ≠ 6 := by
    intro hsix
    rw [hsix] at heq
    exact hwhole (heq.trans (take_of_length_le (by omega)))
  generalize part.length = size at heq hlength hpos hshort
  have hcases : size = 1 ∨ size = 2 ∨ size = 3 ∨ size = 4 ∨ size = 5 := by omega
  rcases hcases with rfl | rfl | rfl | rfl | rfl <;> simp [heq]

theorem CutMarker.next : nextSequence part = none := by
  rcases hpart.eq_take with rfl | rfl | rfl | rfl | rfl <;> decide

theorem CutMarker.esc_next :
    nextSequence (esc :: part) = some ([[esc, esc]], []) ∨
      nextSequence (esc :: part) = some ([[esc]], part) := by
  rcases hpart.eq_take with rfl | rfl | rfl | rfl | rfl <;> decide

/-- Only the first unit of a marker is a control unit, and it is ESC. -/
theorem CutMarker.units :
    ∃ tail, part = esc :: tail ∧ ∀ unit ∈ tail, unit ≠ esc ∧ unit ∉ cancels := by
  refine ⟨part.tail, ?_, ?_⟩
  · rcases hpart.eq_take with rfl | rfl | rfl | rfl | rfl <;> rfl
  rcases hpart.eq_take with rfl | rfl | rfl | rfl | rfl <;>
    exact forall_units (by decide)

/-- A marker begins with no unit that ESC ESC is parted from. -/
theorem CutMarker.not_introducer : EndsInEscapePair text → ¬ part.head?.any (· ∈ introducers) := by
  obtain ⟨tail, rfl, -⟩ := hpart.units
  intro _ hany
  rw [head?_cons] at hany
  cases hany

end

/-- An unfinished sequence before the part of a marker: either nothing is read of the two and
the part of the marker stands at the end of what remains, or the first sequence that is read
begins with ESC. -/
theorem unfinished_append_marker {left part : JsString} (hleft : nextSequence left = none)
    (hpart : CutMarker part) :
    (∃ held, extractCompleteSequences (left ++ part) = ([], held ++ part) ∧
        nextSequence held = none ∧ held <:+ left) ∨
      ∃ more later, (extractCompleteSequences (left ++ part)).1 = (esc :: more) :: later := by
  have hpartRead : extractCompleteSequences part = ([], part) := Lexer.read_of_none hpart.next
  cases left with
  | nil => exact .inl ⟨[], hpartRead, hleft, suffix_refl []⟩
  | cons unit rest =>
    by_cases hunit : unit = esc
    swap
    · rw [nextSequence_other hunit] at hleft
      simp at hleft
    subst hunit
    obtain ⟨tail, rfl, htail⟩ := hpart.units
    have hheader : hasReplyHeader (esc :: rest ++ esc :: tail) = hasReplyHeader (esc :: rest) := by
      rw [Bool.eq_iff_iff]
      exact ⟨hasReplyHeader_of_control (by decide), fun h => hasReplyHeader_append h _⟩
    rw [nextSequence_esc] at hleft
    have hnext : nextSequence (esc :: rest ++ esc :: tail) =
        scanEscape (hasReplyHeader (esc :: rest)) [] (esc :: rest ++ esc :: tail) := by
      rw [cons_append, nextSequence_esc, ← cons_append, hheader]
    rcases scanEscape_append_of_none hleft (esc :: tail) with hon | haborted
    · rw [hon, nil_append] at hnext
      cases hscan : scanEscape (hasReplyHeader (esc :: rest)) (esc :: rest) (esc :: tail) with
      | none =>
        rw [hscan] at hnext
        exact .inl ⟨esc :: rest, Lexer.read_of_none hnext, by rwa [nextSequence_esc],
          suffix_refl _⟩
      | some piece =>
        obtain ⟨out, after⟩ := piece
        rw [hscan] at hnext
        have hread := Lexer.read_of_some shrinks_nextSequence hnext
        rcases scanEscape_out hscan with rfl | rfl | ⟨used, rfl, hused, ⟨more, rfl⟩, -⟩
        · -- nothing is given: the ESC of the marker aborts a reply
          obtain ⟨-, ⟨used, char, hsplit, hchar⟩ | ⟨used, more, hsplit, rfl, -⟩⟩ :=
            scanEscape_skip hscan
          · cases used with
            | nil =>
              rw [← (cons.inj hsplit).1] at hchar
              exact absurd hchar (by decide)
            | cons first used =>
              cases hsplit
              exact absurd hchar (htail char (by simp)).2
          cases used with
          | nil =>
            rw [nil_append] at hsplit
            rw [← hsplit] at hread
            refine .inl ⟨[], ?_, rfl, nil_suffix⟩
            exact hread.trans (by rw [← extractCompleteSequences, hpartRead]; rfl)
          | cons first used =>
            cases hsplit
            exact absurd rfl (htail esc (by simp)).1
        · exact .inr ⟨[], _, congrArg Prod.fst hread⟩
        · exact .inr ⟨rest ++ more, _, congrArg Prod.fst hread⟩
    rw [haborted] at hnext
    have hread := Lexer.read_of_some shrinks_nextSequence hnext
    rcases hpart.esc_next with hnext' | hnext'
    · have hread' := Lexer.read_of_some shrinks_nextSequence hnext'
      exact .inr ⟨[esc], _, (congrArg Prod.fst hread).trans (by rw [hread']; rfl)⟩
    have hread' := Lexer.read_of_some shrinks_nextSequence hnext'
    exact .inr ⟨[], _, (congrArg Prod.fst hread).trans (by rw [hread']; rfl)⟩

/-! ### Settled cuts -/

/-- What is read before a cut does not depend on the text after it: the cut does not part ESC
ESC from what begins another sequence, and where it parts a paste marker, the part of the marker
before it completes no sequence. -/
structure Settled (before rest : JsString) : Prop where
  pair : EndsInEscapePair before → ¬ rest.head?.any (· ∈ introducers)
  marker : ∀ start, firstIndexOf bracketedPasteStart (before ++ rest) = some start →
    start < before.length →
      (extractCompleteSequences
        ((extractCompleteSequences (before.take start)).2 ++ before.drop start)).1 = []

theorem bracketedPasteStart_ne_nil : bracketedPasteStart ≠ [] := by
  decide

variable {before rest : JsString}

theorem Settled.shorten (hsettled : Settled before (rest ++ more))
    (hrest : rest ≠ []) : Settled before rest where
  pair hends := by
    rw [← head?_append_of_ne_nil rest hrest]
    exact hsettled.pair hends
  marker start hstart := by
    refine hsettled.marker start ?_
    rw [← append_assoc]
    exact firstIndexOf_append bracketedPasteStart_ne_nil hstart more

variable {start : Nat}

/-- Where the first marker of a text cut in two stands: behind the cut, or across it. -/
theorem marker_of_cut (hbefore : ¬ bracketedPasteStart <:+: before)
    (hstart : firstIndexOf bracketedPasteStart (before ++ rest) = some start) :
    (∃ between after, rest = between ++ bracketedPasteStart ++ after ∧
        start = before.length + between.length ∧
        ¬ bracketedPasteStart <:+: before ++ between ++ bracketedPasteStart.dropLast) ∨
      ∃ held part later after, before = held ++ part ∧ rest = later ++ after ∧
        bracketedPasteStart = part ++ later ∧ CutMarker part ∧ start = held.length ∧
        ¬ bracketedPasteStart <:+: held ++ bracketedPasteStart.dropLast := by
  obtain ⟨held, after, hsplit, rfl, hfirst⟩ :=
    (firstIndexOf_eq_some_iff bracketedPasteStart_ne_nil).mp hstart
  rw [append_assoc] at hsplit
  rcases append_eq_append_iff.mp hsplit with ⟨between, rfl, rfl⟩ | ⟨part, rfl, hmarker⟩
  · exact .inl ⟨between, after, by simp, by simp, hfirst⟩
  by_cases hpart : part = []
  · subst hpart
    rw [nil_append] at hmarker
    exact .inl ⟨[], after, by simp [hmarker], by simp, by simpa using hfirst⟩
  rcases append_eq_append_iff.mp hmarker with ⟨later, rfl, -⟩ | ⟨later, hlater, rfl⟩
  · exact absurd ⟨held, later, by simp⟩ hbefore
  refine .inr ⟨held, part, later, after, rfl, rfl, hlater, ⟨⟨later, hlater.symm⟩, hpart, ?_⟩,
    rfl, hfirst⟩
  rintro rfl
  exact hbefore (infix_append' held _ [])

/-- A part of a marker that completes no sequence stays in what is kept of the text. -/
theorem extract_of_marker_kept {held part : JsString} (hpart : CutMarker part)
    (hnone : (extractCompleteSequences ((extractCompleteSequences held).2 ++ part)).1 = []) :
    ∃ kept, extractCompleteSequences (held ++ part) =
        ((extractCompleteSequences held).1, kept ++ part) ∧
      nextSequence kept = none ∧ kept <:+ held := by
  rcases unfinished_append_marker (Lexer.next_left shrinks_nextSequence held) hpart with
    ⟨kept, hread, hnext, hkept⟩ | ⟨more, later, hread⟩
  · refine ⟨kept, ?_, hnext, hkept.trans (extract_remainder_isSuffix held)⟩
    rw [extract_append hpart.not_introducer]
    rw [show extractCompleteSequences ((extractCompleteSequences held).2 ++ part) =
      ([], kept ++ part) from hread, append_nil]
  · cases hnone.symm.trans hread

/-- The text kept of a settled cut holds the same first marker, and the same is read before it. -/
theorem Settled.marker_kept (hsettled : Settled before rest)
    (hbefore : ¬ bracketedPasteStart <:+: before)
    (hstart : firstIndexOf bracketedPasteStart (before ++ rest) = some start) :
    ∃ kept, firstIndexOf bracketedPasteStart ((extractCompleteSequences before).2 ++ rest) =
        some kept ∧
      (extractCompleteSequences ((before ++ rest).take start)).1 =
        (extractCompleteSequences before).1 ++ (extractCompleteSequences
          (((extractCompleteSequences before).2 ++ rest).take kept)).1 ∧
      (before ++ rest).drop (start + bracketedPasteStart.length) =
        ((extractCompleteSequences before).2 ++ rest).drop (kept + bracketedPasteStart.length) := by
  rcases marker_of_cut hbefore hstart with ⟨between, after, rfl, rfl, hfirst⟩ |
    ⟨held, part, later, after, rfl, rfl, hmarker, hpart, rfl, hfirst⟩
  · refine ⟨(extractCompleteSequences before).2.length + between.length, ?_, ?_, ?_⟩
    · have hkept : ¬ bracketedPasteStart <:+:
          (extractCompleteSequences before).2 ++ between ++ bracketedPasteStart.dropLast := by
        intro hinside
        refine hfirst (hinside.trans ?_)
        rw [append_assoc, append_assoc]
        exact append_infix_of_suffix (extract_remainder_isSuffix before) _
      have hfound := @firstIndexOf_of_split _ _ _ _ after bracketedPasteStart_ne_nil hkept
      simpa [append_assoc] using hfound
    · have htake (text : JsString) : (text ++ (between ++ bracketedPasteStart ++ after)).take
          (text.length + between.length) = text ++ between := by
        simp [take_append]
      rw [htake, htake, extract_append fun hends => ?_]
      intro hany
      refine hsettled.pair hends ?_
      rwa [append_assoc, head?_append_of_ne_nil between]
      rintro rfl
      simp at hany
    have hdrop (text : JsString) : (text ++ (between ++ bracketedPasteStart ++ after)).drop
        (text.length + between.length + bracketedPasteStart.length) = after := by
      rw [← append_assoc, ← append_assoc]
      exact drop_left' (by simp only [length_append])
    rw [hdrop, hdrop]
  have hnone := hsettled.marker held.length hstart (by
    have := length_pos_of_ne_nil hpart.2.1
    rw [length_append]
    omega)
  rw [take_left, drop_left] at hnone
  obtain ⟨kept, hextract, hnext, hkept⟩ := extract_of_marker_kept hpart hnone
  have hfirst' : ¬ bracketedPasteStart <:+: kept ++ bracketedPasteStart.dropLast := by
    intro hinside
    exact hfirst (hinside.trans (append_infix_of_suffix hkept _))
  have hjoin (text : JsString) : text ++ part ++ (later ++ after) =
      text ++ bracketedPasteStart ++ after := by
    rw [hmarker]
    simp only [append_assoc]
  rw [hextract, hjoin, hjoin]
  refine ⟨kept.length, firstIndexOf_of_split bracketedPasteStart_ne_nil hfirst', ?_, ?_⟩
  · rw [append_assoc, take_left, append_assoc, take_left]
    have hkeptRead : extractCompleteSequences kept = ([], kept) := Lexer.read_of_none hnext
    rw [hkeptRead, append_nil]
  · rw [drop_left' (by simp), drop_left' (by simp)]

/-- Across a marker that is kept, something is kept. -/
theorem remainder_ne_nil_of_marker_cut (hbefore : ¬ bracketedPasteStart <:+: before)
    (hstart : firstIndexOf bracketedPasteStart (before ++ rest) = some start)
    (hinside : start < before.length) (hnone : (extractCompleteSequences
      ((extractCompleteSequences (before.take start)).2 ++ before.drop start)).1 = []) :
    (extractCompleteSequences before).2 ≠ [] := by
  rcases marker_of_cut hbefore hstart with ⟨between, after, rfl, rfl, -⟩ |
    ⟨held, part, later, after, rfl, rfl, -, hpart, rfl, -⟩
  · omega
  rw [take_left, drop_left] at hnone
  obtain ⟨kept, hread, -, -⟩ := extract_of_marker_kept hpart hnone
  rw [hread]
  exact fun heq => hpart.2.1 (append_eq_nil_iff.mp heq).2

/-- Without a marker in it, the text is read as its two parts are. -/
theorem Settled.extract_kept (hsettled : Settled before rest)
    (hnone : firstIndexOf bracketedPasteStart (before ++ rest) = none) :
    firstIndexOf bracketedPasteStart ((extractCompleteSequences before).2 ++ rest) = none ∧
      extractCompleteSequences (before ++ rest) =
        ((extractCompleteSequences before).1 ++
            (extractCompleteSequences ((extractCompleteSequences before).2 ++ rest)).1,
          (extractCompleteSequences ((extractCompleteSequences before).2 ++ rest)).2) := by
  refine ⟨?_, extract_append hsettled.pair⟩
  rw [firstIndexOf_eq_none] at hnone ⊢
  intro hinside
  exact hnone (hinside.trans (append_infix_of_suffix (extract_remainder_isSuffix before) _))

/-! ### Cuts that are not settled -/

/-- Across a marker, more is read before the cut than before the marker. -/
theorem extract_of_marker_cut (hbefore : ¬ bracketedPasteStart <:+: before)
    (hstart : firstIndexOf bracketedPasteStart (before ++ rest) = some start)
    (hinside : start < before.length) (hread : (extractCompleteSequences
      ((extractCompleteSequences (before.take start)).2 ++ before.drop start)).1 ≠ []) :
    ∃ more later, (extractCompleteSequences before).1 =
      (extractCompleteSequences ((before ++ rest).take start)).1 ++ (esc :: more) :: later := by
  rcases marker_of_cut hbefore hstart with ⟨between, after, rfl, rfl, -⟩ |
    ⟨held, part, later, after, rfl, rfl, -, hpart, rfl, -⟩
  · omega
  rw [take_left, drop_left] at hread
  rw [append_assoc, take_left, extract_append hpart.not_introducer]
  rcases unfinished_append_marker (Lexer.next_left shrinks_nextSequence held) hpart with
    ⟨kept, hnone, -, -⟩ | ⟨more, later', hsome⟩
  · exact absurd (congrArg Prod.fst hnone) hread
  · exact ⟨more, later', congrArg _ hsome⟩

/-- ESC ESC before what begins another sequence is an Escape key. -/
theorem extract_pair {unit : UInt16} (hunit : unit ∈ introducers) (rest : JsString) :
    ∃ later, (extractCompleteSequences ([esc, esc] ++ unit :: rest)).1 = [esc] :: later := by
  have hnext : nextSequence ([esc, esc] ++ unit :: rest) = some ([[esc]], esc :: unit :: rest) := by
    rw [cons_append, nextSequence_esc]
    have hheader : hasReplyHeader (esc :: ([esc] ++ unit :: rest)) = false := rfl
    have hcancels (candidate : JsString) (char : UInt16) : ¬ Cancels false candidate char :=
      fun h => absurd h.1 (by simp)
    have haborts (candidate rest : JsString) (char : UInt16) : ¬ Aborts false candidate char rest :=
      fun h => absurd h.1 (by simp)
    rw [hheader, scanEscape_of_incomplete (hcancels _ _) (haborts _ _ _) rfl]
    exact scanEscape_of_splits (hcancels _ _) (haborts _ _ _) rfl ⟨rfl, by simpa using hunit⟩
  exact ⟨_, congrArg Prod.fst (Lexer.read_of_some shrinks_nextSequence hnext)⟩

/-- Behind ESC ESC, the key read before the cut is not the one read with more in sight. -/
theorem extract_of_pair_cut (hends : EndsInEscapePair before) :
    ∃ sequences, extractCompleteSequences before = (sequences ++ [[esc, esc]], []) ∧
      ∀ unit ∈ introducers, ∀ rest, ∃ later,
        (extractCompleteSequences (before ++ unit :: rest)).1 = sequences ++ [esc] :: later := by
  obtain ⟨sequences, hread, hmore⟩ := Lexer.read_of_reaches shrinks_nextSequence hends
  refine ⟨sequences, hread, fun unit hunit rest => ?_⟩
  obtain ⟨later, hlater⟩ := extract_pair hunit rest
  refine ⟨later, ?_⟩
  rw [extractCompleteSequences, hmore (unit :: rest) fun piece out rest' hne _ hnext =>
    nextSequence_append hnext fun heq => absurd heq hne]
  exact congrArg (sequences ++ ·) hlater

end Hummin.StdinBuffer
