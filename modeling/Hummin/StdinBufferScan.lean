/-
What one search for the end of a sequence can do, and what it does when more of the text
arrives: only ESC ESC at the end of a text is read otherwise with more of it in sight.
-/
import Hummin.StdinBuffer

namespace Hummin.StdinBuffer

open List

/-! ### Headers -/

/-- A test of the front of a text that reads printable units only. -/
structure TestsFront (test : JsString → Bool) : Prop where
  extend : ∀ text more, test text = true → test (text ++ more) = true
  front : ∀ text, test text = true →
    ∃ header, header <+: text ∧ test header = true ∧ ∀ unit ∈ header, 32 ≤ unit.toNat

variable {data pattern : JsString}

theorem startsWith_iff : startsWith data pattern = true ↔ pattern <+: data :=
  isPrefixOf_iff_prefix

theorem endsWith_iff : endsWith data pattern = true ↔ pattern <:+ data :=
  isSuffixOf_iff_suffix

theorem startsWith_append (hstarts : startsWith data pattern = true)
    (more : JsString) : startsWith (data ++ more) pattern = true :=
  startsWith_iff.mpr ((startsWith_iff.mp hstarts).trans (prefix_append data more))

theorem testsFront_startsWith (hpattern : ∀ unit ∈ pattern, 32 ≤ unit.toNat) :
    TestsFront fun data => startsWith data pattern where
  extend _ more hstarts := startsWith_append hstarts more
  front _ hstarts :=
    ⟨pattern, startsWith_iff.mp hstarts, startsWith_iff.mpr (prefix_refl pattern), hpattern⟩

theorem TestsFront.or {first second : JsString → Bool} (hfirst : TestsFront first)
    (hsecond : TestsFront second) : TestsFront fun data => first data || second data where
  extend text more htest := by
    rw [Bool.or_eq_true] at htest ⊢
    exact htest.imp (hfirst.extend text more) (hsecond.extend text more)
  front text htest := by
    rw [Bool.or_eq_true] at htest
    rcases htest with htest | htest
    · obtain ⟨header, hprefix, hheader, hprintable⟩ := hfirst.front text htest
      exact ⟨header, hprefix, by simp [hheader], hprintable⟩
    obtain ⟨header, hprefix, hheader, hprintable⟩ := hsecond.front text htest
    exact ⟨header, hprefix, by simp [hheader], hprintable⟩

variable {test : JsString → Bool}

theorem after_iff {data : JsString} :
    after pattern test data = true ↔ ∃ rest, data = pattern ++ rest ∧ test rest = true := by
  rw [after, Bool.and_eq_true, startsWith_iff]
  constructor
  · rintro ⟨⟨rest, rfl⟩, htest⟩
    exact ⟨rest, rfl, by simpa using htest⟩
  rintro ⟨rest, rfl, htest⟩
  exact ⟨prefix_append pattern rest, by simpa using htest⟩

theorem TestsFront.after (htest : TestsFront test) {pattern : JsString}
    (hpattern : ∀ unit ∈ pattern, 32 ≤ unit.toNat) : TestsFront (after pattern test) where
  extend text more hafter := by
    obtain ⟨rest, rfl, hrest⟩ := after_iff.mp hafter
    exact after_iff.mpr ⟨rest ++ more, by simp, htest.extend rest more hrest⟩
  front text hafter := by
    obtain ⟨rest, rfl, hrest⟩ := after_iff.mp hafter
    obtain ⟨header, hprefix, hheader, hprintable⟩ := htest.front rest hrest
    refine ⟨pattern ++ header, (prefix_append_right_inj pattern).mpr hprefix,
      after_iff.mpr ⟨header, rfl, hheader⟩, fun unit hunit => ?_⟩
    exact (mem_append.mp hunit).elim (hpattern unit) (hprintable unit)

variable {unit : UInt16}

theorem printable_of_digit (hdigit : isDigitUnit unit = true) : 32 ≤ unit.toNat := by
  simp only [isDigitUnit, Bool.and_eq_true, decide_eq_true_eq] at hdigit
  omega

theorem printable_of_unit {char : Char} {unit : UInt16} (hchar : 32 ≤ char.val.toUInt16.toNat)
    (heq : js [char] = [unit]) : 32 ≤ unit.toNat := by
  cases heq
  exact hchar

theorem testsFront_semicolonWithin (left : Nat) : TestsFront (semicolonWithin left) where
  extend text more htest := by
    induction text generalizing left with
    | nil => cases left <;> simp [semicolonWithin] at htest
    | cons unit rest ih =>
      cases left with
      | zero => exact htest
      | succ left =>
        simp only [semicolonWithin, cons_append] at htest ⊢
        by_cases hdigit : isDigitUnit unit = true
        · rw [if_pos hdigit] at htest ⊢
          exact ih left htest
        · rwa [if_neg hdigit] at htest ⊢
  front text htest := by
    induction text generalizing left with
    | nil => cases left <;> simp [semicolonWithin] at htest
    | cons unit rest ih =>
      have hlast (htest : (js [';'] == [unit]) = true) :
          ∃ header, header <+: unit :: rest ∧ header = [unit] ∧
            ∀ other ∈ header, 32 ≤ other.toNat :=
        ⟨[unit], ⟨rest, rfl⟩, rfl, by
          simpa using printable_of_unit (by decide) (beq_iff_eq.mp htest)⟩
      cases left with
      | zero =>
        obtain ⟨header, hprefix, rfl, hprintable⟩ := hlast htest
        exact ⟨[unit], hprefix, htest, hprintable⟩
      | succ left =>
        simp only [semicolonWithin] at htest
        by_cases hdigit : isDigitUnit unit = true
        · rw [if_pos hdigit] at htest
          obtain ⟨header, hprefix, hheader, hprintable⟩ := ih left htest
          refine ⟨unit :: header, cons_prefix_cons.mpr ⟨rfl, hprefix⟩, ?_, ?_⟩
          · simpa [semicolonWithin, hdigit] using hheader
          · simpa using ⟨printable_of_digit hdigit, hprintable⟩
        rw [if_neg hdigit] at htest
        obtain ⟨header, hprefix, rfl, hprintable⟩ := hlast htest
        exact ⟨[unit], hprefix, by simpa [semicolonWithin, hdigit] using htest, hprintable⟩

theorem testsFront_paletteIndex : TestsFront paletteIndex where
  extend text more htest := by
    cases text with
    | nil => simp [paletteIndex] at htest
    | cons unit rest =>
      simp only [paletteIndex, cons_append, Bool.and_eq_true] at htest ⊢
      exact ⟨htest.1, (testsFront_semicolonWithin 2).extend rest more htest.2⟩
  front text htest := by
    cases text with
    | nil => simp [paletteIndex] at htest
    | cons unit rest =>
      simp only [paletteIndex, Bool.and_eq_true] at htest
      obtain ⟨header, hprefix, hheader, hprintable⟩ :=
        (testsFront_semicolonWithin 2).front rest htest.2
      refine ⟨unit :: header, cons_prefix_cons.mpr ⟨rfl, hprefix⟩, ?_, ?_⟩
      · simpa [paletteIndex] using ⟨htest.1, hheader⟩
      · simpa using ⟨printable_of_digit htest.1, hprintable⟩

/-- What a pair needs next is one printable unit, and then either the pairs end or another part
is needed. -/
theorem graphicsPairs_cons {part : PairPart} {unit : UInt16} {rest : JsString}
    (htest : graphicsPairs part (unit :: rest) = true) :
    32 ≤ unit.toNat ∧ ((∀ other, graphicsPairs part (unit :: other) = true) ∨
      ∃ part', graphicsPairs part' rest = true ∧
        ∀ other, graphicsPairs part' other = true → graphicsPairs part (unit :: other) = true) := by
  cases part with
  | name =>
    simp only [graphicsPairs, Bool.and_eq_true, decide_eq_true_eq] at htest ⊢
    exact ⟨by omega, .inr ⟨.equals, htest.2, fun other hother => ⟨htest.1, hother⟩⟩⟩
  | equals =>
    simp only [graphicsPairs, Bool.and_eq_true, beq_iff_eq] at htest ⊢
    exact ⟨printable_of_unit (by decide) htest.1,
      .inr ⟨.digits, htest.2, fun other hother => ⟨htest.1, hother⟩⟩⟩
  | digits =>
    simp only [graphicsPairs, Bool.and_eq_true] at htest ⊢
    exact ⟨printable_of_digit htest.1,
      .inr ⟨.moreDigits, htest.2, fun other hother => ⟨htest.1, hother⟩⟩⟩
  | moreDigits =>
    simp only [graphicsPairs] at htest ⊢
    by_cases hdigit : isDigitUnit unit = true
    · rw [if_pos hdigit] at htest
      exact ⟨printable_of_digit hdigit,
        .inr ⟨.moreDigits, htest, fun other hother => by rwa [if_pos hdigit]⟩⟩
    rw [if_neg hdigit] at htest
    by_cases hcomma : js [','] = [unit]
    · rw [if_pos hcomma] at htest
      exact ⟨printable_of_unit (by decide) hcomma,
        .inr ⟨.name, htest, fun other hother => by rwa [if_neg hdigit, if_pos hcomma]⟩⟩
    rw [if_neg hcomma] at htest
    exact ⟨printable_of_unit (by decide) (beq_iff_eq.mp htest),
      .inl fun other => by rwa [if_neg hdigit, if_neg hcomma]⟩

theorem testsFront_graphicsPairs (part : PairPart) : TestsFront (graphicsPairs part) where
  extend text more htest := by
    induction text generalizing part with
    | nil => cases part <;> simp [graphicsPairs] at htest
    | cons unit rest ih =>
      obtain ⟨-, hends | ⟨part', hrest, hother⟩⟩ := graphicsPairs_cons htest
      · exact hends (rest ++ more)
      · exact hother (rest ++ more) (ih part' hrest)
  front text htest := by
    induction text generalizing part with
    | nil => cases part <;> simp [graphicsPairs] at htest
    | cons unit rest ih =>
      obtain ⟨hunit, hends | ⟨part', hrest, hother⟩⟩ := graphicsPairs_cons htest
      · exact ⟨[unit], ⟨rest, rfl⟩, hends [], by simpa using hunit⟩
      obtain ⟨header, hprefix, hheader, hprintable⟩ := ih part' hrest
      exact ⟨unit :: header, cons_prefix_cons.mpr ⟨rfl, hprefix⟩, hother header hheader,
        by simpa using ⟨hunit, hprintable⟩⟩

/-- What `hasReplyHeader` asks of a text after its ESC. -/
theorem exists_testsFront_header : ∃ test, TestsFront test ∧ hasReplyHeader = after [esc] test := by
  have hstarts (pattern : JsString) (hall : pattern.all (fun unit => 32 ≤ unit.toNat) = true) :
      TestsFront fun data => startsWith data pattern := testsFront_startsWith (forall_units hall)
  exact ⟨_, (((((hstarts _ (by decide)).or (hstarts _ (by decide))).or
    (testsFront_paletteIndex.after (forall_units (by decide)))).or (hstarts _ (by decide))).or
    (hstarts _ (by decide))).or ((testsFront_graphicsPairs .name).after (forall_units (by decide))),
    rfl⟩

variable {text : JsString}

theorem hasReplyHeader_append (hheader : hasReplyHeader text = true)
    (more : JsString) : hasReplyHeader (text ++ more) = true := by
  obtain ⟨test, htest, heq⟩ := exists_testsFront_header
  rw [heq] at hheader ⊢
  obtain ⟨rest, rfl, hrest⟩ := after_iff.mp hheader
  exact after_iff.mpr ⟨rest ++ more, by simp, htest.extend rest more hrest⟩

variable {more : JsString}

/-- A header that only more of the text completes has no control unit in it so far. -/
theorem hasReplyHeader_of_append (hheader : hasReplyHeader (text ++ more) = true) :
    hasReplyHeader text = true ∨ ∀ unit ∈ text.tail, 32 ≤ unit.toNat := by
  obtain ⟨test, htest, heq⟩ := exists_testsFront_header
  rw [heq] at hheader ⊢
  obtain ⟨rest, hsplit, hrest⟩ := after_iff.mp hheader
  obtain ⟨header, hprefix, hfront, hprintable⟩ := htest.front rest hrest
  cases text with
  | nil => exact .inr (by simp)
  | cons unit text =>
    cases hsplit
    rcases prefix_or_prefix_of_prefix hprefix (prefix_append text more) with
      ⟨between, rfl⟩ | hinside
    · exact .inl (after_iff.mpr ⟨header ++ between, rfl, htest.extend header between hfront⟩)
    · exact .inr fun other hother => hprintable other (hinside.subset hother)

/-- A header ends before a control unit. -/
theorem hasReplyHeader_of_control {control : UInt16} {text more : JsString}
    (hcontrol : control.toNat < 32)
    (hheader : hasReplyHeader (unit :: text ++ control :: more) = true) :
    hasReplyHeader (unit :: text) = true := by
  obtain ⟨test, htest, heq⟩ := exists_testsFront_header
  rw [heq] at hheader ⊢
  obtain ⟨rest, hsplit, hrest⟩ := after_iff.mp hheader
  obtain ⟨header, hprefix, hfront, hprintable⟩ := htest.front rest hrest
  cases hsplit
  rcases prefix_or_prefix_of_prefix hprefix (prefix_append text (control :: more)) with
    ⟨between, rfl⟩ | ⟨between, rfl⟩
  · exact after_iff.mpr ⟨header ++ between, rfl, htest.extend header between hfront⟩
  cases between with
  | nil => exact after_iff.mpr ⟨text, rfl, by simpa using hfront⟩
  | cons first between =>
    obtain ⟨rfl, -⟩ := cons_prefix_cons.mp ((prefix_append_right_inj text).mp hprefix)
    exact absurd (hprintable first (by simp)) (Nat.not_le.mpr hcontrol)

theorem isControlString_of_hasReplyHeader
    (hheader : hasReplyHeader text = true) : isControlString text = true := by
  obtain ⟨rest, rfl, hrest⟩ := after_iff.mp hheader
  simp only [Bool.or_eq_true, startsWith_iff, after_iff] at hrest
  simp only [isControlString, Bool.or_eq_true, startsWith_iff]
  rcases hrest with ((((h | h) | ⟨tail, rfl, -⟩) | h) | h) | ⟨tail, rfl, -⟩
  · obtain ⟨tail, rfl⟩ := h
    exact .inl (.inl ⟨_, rfl⟩)
  · obtain ⟨tail, rfl⟩ := h
    exact .inl (.inl ⟨_, rfl⟩)
  · exact .inl (.inl ⟨_, rfl⟩)
  · obtain ⟨tail, rfl⟩ := h
    exact .inl (.inl ⟨_, rfl⟩)
  · obtain ⟨tail, rfl⟩ := h
    exact .inl (.inr ⟨_, rfl⟩)
  · exact .inr ⟨_, rfl⟩

/-! ### Control strings -/

theorem isControlString_iff {data : JsString} :
    isControlString data = true ↔
      ∃ unit rest, data = esc :: unit :: rest ∧ unit ∈ js [']', 'P', '_'] := by
  simp only [isControlString, Bool.or_eq_true, startsWith_iff]
  constructor
  · rintro ((⟨rest, rfl⟩ | ⟨rest, rfl⟩) | ⟨rest, rfl⟩)
    · exact ⟨_, rest, rfl, by decide⟩
    · exact ⟨_, rest, rfl, by decide⟩
    · exact ⟨_, rest, rfl, by decide⟩
  rintro ⟨unit, rest, rfl, hunit⟩
  simp only [js, map_cons, map_nil, mem_cons, not_mem_nil, or_false] at hunit
  rcases hunit with rfl | rfl | rfl
  · exact .inl (.inl ⟨rest, rfl⟩)
  · exact .inl (.inr ⟨rest, rfl⟩)
  · exact .inr ⟨rest, rfl⟩

/-- A control string is complete at its terminator only. -/
theorem isCompleteSequence_controlString (hcontrol : isControlString data = true) :
    isCompleteSequence data = .incomplete ∨
      isCompleteSequence data = .complete ∧
        (endsWith data (esc :: js ['\\']) = true ∨ endsWith data [bel] = true) := by
  obtain ⟨unit, rest, rfl, hunit⟩ := isControlString_iff.mp hcontrol
  simp only [js, map_cons, map_nil, mem_cons, not_mem_nil, or_false] at hunit
  rcases hunit with rfl | rfl | rfl
  · have heq : isCompleteSequence (esc :: ']'.val.toUInt16 :: rest) =
        if endsWith (esc :: ']'.val.toUInt16 :: rest) (esc :: js ['\\']) ||
          endsWith (esc :: ']'.val.toUInt16 :: rest) [bel] then .complete else .incomplete := rfl
    rw [heq]
    by_cases hends : (endsWith (esc :: ']'.val.toUInt16 :: rest) (esc :: js ['\\']) ||
        endsWith (esc :: ']'.val.toUInt16 :: rest) [bel]) = true
    · exact .inr ⟨if_pos hends, by rwa [Bool.or_eq_true] at hends⟩
    · exact .inl (if_neg hends)
  · have heq : isCompleteSequence (esc :: 'P'.val.toUInt16 :: rest) =
        if endsWith (esc :: 'P'.val.toUInt16 :: rest) (esc :: js ['\\']) then .complete
        else .incomplete := rfl
    rw [heq]
    by_cases hends : endsWith (esc :: 'P'.val.toUInt16 :: rest) (esc :: js ['\\']) = true
    · exact .inr ⟨if_pos hends, .inl hends⟩
    · exact .inl (if_neg hends)
  have heq : isCompleteSequence (esc :: '_'.val.toUInt16 :: rest) =
      if endsWith (esc :: '_'.val.toUInt16 :: rest) (esc :: js ['\\']) then .complete
      else .incomplete := rfl
  rw [heq]
  by_cases hends : endsWith (esc :: '_'.val.toUInt16 :: rest) (esc :: js ['\\']) = true
  · exact .inr ⟨if_pos hends, .inl hends⟩
  · exact .inl (if_neg hends)

/-- A control string goes on at a second ESC. -/
theorem isCompleteSequence_of_last_esc (hcontrol : isControlString (data ++ [esc]) = true) :
    isCompleteSequence (data ++ [esc]) = .incomplete := by
  rcases isCompleteSequence_controlString hcontrol with hincomplete | ⟨-, hst | hbel⟩
  · exact hincomplete
  · have hlast := (endsWith_iff.mp hst).getLast (by simp)
    simp [js, esc] at hlast
  have hlast := (endsWith_iff.mp hbel).getLast (by simp)
  simp [bel, esc] at hlast

/-- A control string without a control unit after its ESC is not complete. -/
theorem isCompleteSequence_of_printable (hcontrol : isControlString data = true)
    (hprintable : ∀ unit ∈ data.tail, 32 ≤ unit.toNat) : isCompleteSequence data = .incomplete := by
  obtain ⟨unit, rest, rfl, hunit⟩ := isControlString_iff.mp hcontrol
  rcases isCompleteSequence_controlString hcontrol with hincomplete | ⟨-, hst | hbel⟩
  · exact hincomplete
  · have hsuffix := endsWith_iff.mp hst
    rcases suffix_cons_iff.mp hsuffix with heq | hinside
    · obtain ⟨-, heq⟩ := cons.inj heq
      cases heq
      exact absurd hunit (by decide)
    · exact absurd (hprintable esc (hinside.subset mem_cons_self)) (by decide)
  have hsuffix := endsWith_iff.mp hbel
  rcases suffix_cons_iff.mp hsuffix with heq | hinside
  · exact absurd (cons.inj heq).1 (by decide)
  · exact absurd (hprintable bel (hinside.subset mem_cons_self)) (by decide)

/-- The first two units tell a control string. -/
theorem isControlString_of_append (hcontrol : isControlString (data ++ more) = true)
    (hlength : 2 ≤ data.length) : isControlString data = true := by
  obtain ⟨unit, rest, heq, hunit⟩ := isControlString_iff.mp hcontrol
  match data, hlength with
  | first :: second :: tail, _ =>
    obtain ⟨hfirst, htail⟩ := cons.inj heq
    obtain ⟨rfl, -⟩ := cons.inj htail
    exact isControlString_iff.mpr ⟨second, tail, by rw [hfirst], hunit⟩

/-! ### The search for the end of a sequence -/

theorem startsWith_singleton : startsWith data [unit] = true ↔ data.head? = some unit := by
  cases data with
  | nil => simp [startsWith]
  | cons first rest =>
    rw [startsWith_iff, cons_prefix_cons, head?_cons, Option.some_inj]
    exact ⟨fun heq => heq.1.symm, fun heq => ⟨heq.symm, nil_prefix⟩⟩

/-- When a unit cancels a reply. -/
def Cancels (terminalReply : Bool) (candidate : JsString) (char : UInt16) : Prop :=
  terminalReply ∧ 2 < candidate.length ∧ char ∈ cancels

/-- When a second ESC ends an unterminated reply. -/
def Aborts (terminalReply : Bool) (candidate : JsString) (char : UInt16) (rest : JsString) : Prop :=
  terminalReply ∧ 2 < candidate.length ∧ char = esc ∧ rest ≠ [] ∧ ¬ startsWith rest (js ['\\'])

/-- When ESC ESC is an Escape key before another sequence. -/
def Splits (candidate rest : JsString) : Prop :=
  candidate = [esc, esc] ∧ rest.head?.any (· ∈ introducers)

variable {candidate : JsString}

theorem aborts_append {terminalReply : Bool} {rest : JsString} {char : UInt16}
    (more : JsString) (hrest : rest ≠ []) :
    Aborts terminalReply candidate char (rest ++ more) ↔
      Aborts terminalReply candidate char rest := by
  have hhead : startsWith (rest ++ more) (js ['\\']) = startsWith rest (js ['\\']) := by
    rw [Bool.eq_iff_iff]
    change startsWith _ [_] = true ↔ startsWith _ [_] = true
    rw [startsWith_singleton, startsWith_singleton, head?_append_of_ne_nil _ hrest]
  rw [Aborts, Aborts, hhead]
  simp only [ne_eq, append_eq_nil_iff, hrest, false_and, not_false_eq_true]

theorem splits_append {rest : JsString} (more : JsString) (hrest : rest ≠ []) :
    Splits candidate (rest ++ more) ↔ Splits candidate rest := by
  rw [Splits, Splits, head?_append_of_ne_nil _ hrest]

section Search

variable {terminalReply : Bool} {taken rest : JsString} {char : UInt16}

theorem scanEscape_of_cancels (hcancels : Cancels terminalReply (taken ++ [char]) char) :
    scanEscape terminalReply taken (char :: rest) = some ([], rest) := by
  rw [scanEscape]
  exact if_pos hcancels

theorem scanEscape_of_aborts (hcancels : ¬ Cancels terminalReply (taken ++ [char]) char)
    (haborts : Aborts terminalReply (taken ++ [char]) char rest) :
    scanEscape terminalReply taken (char :: rest) = some ([], char :: rest) := by
  rw [scanEscape]
  exact (if_neg hcancels).trans (if_pos haborts)

section Candidate

variable (hcancels : ¬ Cancels terminalReply (taken ++ [char]) char)
  (haborts : ¬ Aborts terminalReply (taken ++ [char]) char rest)
include hcancels haborts

theorem scanEscape_of_notEscape (hstatus : isCompleteSequence (taken ++ [char]) = .notEscape) :
    scanEscape terminalReply taken (char :: rest) = some ([taken ++ [char]], rest) := by
  rw [scanEscape]
  refine (if_neg hcancels).trans ((if_neg haborts).trans ?_)
  simp only [hstatus]

theorem scanEscape_of_incomplete (hstatus : isCompleteSequence (taken ++ [char]) = .incomplete) :
    scanEscape terminalReply taken (char :: rest) =
      scanEscape terminalReply (taken ++ [char]) rest := by
  rw [scanEscape]
  refine (if_neg hcancels).trans ((if_neg haborts).trans ?_)
  simp only [hstatus]

theorem scanEscape_of_splits (hstatus : isCompleteSequence (taken ++ [char]) = .complete)
    (hsplits : Splits (taken ++ [char]) rest) :
    scanEscape terminalReply taken (char :: rest) = some ([[esc]], char :: rest) := by
  rw [scanEscape]
  refine (if_neg hcancels).trans ((if_neg haborts).trans ?_)
  simp only [hstatus]
  exact if_pos hsplits

theorem scanEscape_of_complete (hstatus : isCompleteSequence (taken ++ [char]) = .complete)
    (hsplits : ¬ Splits (taken ++ [char]) rest) :
    scanEscape terminalReply taken (char :: rest) = some ([taken ++ [char]], rest) := by
  rw [scanEscape]
  refine (if_neg hcancels).trans ((if_neg haborts).trans ?_)
  simp only [hstatus]
  exact if_neg hsplits

end Candidate

/-- What one look at a unit can do: cancel the reply, abort it, split off an Escape key, end
the sequence, or go on. -/
inductive Look (terminalReply : Bool) (taken : JsString) (char : UInt16) (rest : JsString) : Prop
  | cancels (hcancels : Cancels terminalReply (taken ++ [char]) char)
      (hscan : scanEscape terminalReply taken (char :: rest) = some ([], rest))
  | aborts (haborts : Aborts terminalReply (taken ++ [char]) char rest)
      (hscan : scanEscape terminalReply taken (char :: rest) = some ([], char :: rest))
  | splits (hsplits : Splits (taken ++ [char]) rest)
      (hscan : scanEscape terminalReply taken (char :: rest) = some ([[esc]], char :: rest))
  | ends (hscan : scanEscape terminalReply taken (char :: rest) = some ([taken ++ [char]], rest))
  | goesOn (hcancels : ¬ Cancels terminalReply (taken ++ [char]) char)
      (haborts : ¬ Aborts terminalReply (taken ++ [char]) char rest)
      (hstatus : isCompleteSequence (taken ++ [char]) = .incomplete)
      (hscan : scanEscape terminalReply taken (char :: rest) =
        scanEscape terminalReply (taken ++ [char]) rest)

theorem look (terminalReply : Bool) (taken : JsString) (char : UInt16) (rest : JsString) :
    Look terminalReply taken char rest := by
  by_cases hcancels : Cancels terminalReply (taken ++ [char]) char
  · exact .cancels hcancels (scanEscape_of_cancels hcancels)
  by_cases haborts : Aborts terminalReply (taken ++ [char]) char rest
  · exact .aborts haborts (scanEscape_of_aborts hcancels haborts)
  cases hstatus : isCompleteSequence (taken ++ [char]) with
  | notEscape => exact .ends (scanEscape_of_notEscape hcancels haborts hstatus)
  | incomplete =>
    exact .goesOn hcancels haborts hstatus (scanEscape_of_incomplete hcancels haborts hstatus)
  | complete =>
    by_cases hsplits : Splits (taken ++ [char]) rest
    · exact .splits hsplits (scanEscape_of_splits hcancels haborts hstatus hsplits)
    · exact .ends (scanEscape_of_complete hcancels haborts hstatus hsplits)

end Search

variable {left : JsString} {out : List JsString}

/-- A sequence that ends in a text ends there with more of the text in sight, unless it is ESC
ESC at the end of the text and the more begins another sequence. -/
theorem scanEscape_append {terminalReply : Bool} {taken rest more : JsString}
    (hscan : scanEscape terminalReply taken rest = some (out, left))
    (hcontrol : terminalReply = true → isControlString (taken ++ rest) = true)
    (hpair : taken ++ rest = [esc, esc] → ¬ more.head?.any (· ∈ introducers)) :
    scanEscape terminalReply taken (rest ++ more) = some (out, left ++ more) := by
  induction rest generalizing taken with
  | nil => simp [scanEscape] at hscan
  | cons char rest ih =>
    rw [cons_append]
    by_cases hcancels : Cancels terminalReply (taken ++ [char]) char
    · rw [scanEscape_of_cancels hcancels] at hscan ⊢
      cases hscan
      rfl
    by_cases haborts : Aborts terminalReply (taken ++ [char]) char rest
    · rw [scanEscape_of_aborts hcancels haborts] at hscan
      rw [scanEscape_of_aborts hcancels ((aborts_append more haborts.2.2.2.1).mpr haborts)]
      cases hscan
      rfl
    by_cases hlate : Aborts terminalReply (taken ++ [char]) char (rest ++ more)
    · -- the ESC is the last unit of the text: the search goes on at it
      obtain rfl : rest = [] := by
        by_contra hrest
        exact haborts ((aborts_append more hrest).mp hlate)
      obtain ⟨hreply, -, rfl, -⟩ := hlate
      rw [scanEscape_of_incomplete hcancels haborts
        (isCompleteSequence_of_last_esc (hcontrol hreply))] at hscan
      simp [scanEscape] at hscan
    cases hstatus : isCompleteSequence (taken ++ [char]) with
    | notEscape =>
      rw [scanEscape_of_notEscape hcancels haborts hstatus] at hscan
      rw [scanEscape_of_notEscape hcancels hlate hstatus]
      cases hscan
      rfl
    | incomplete =>
      rw [scanEscape_of_incomplete hcancels haborts hstatus] at hscan
      rw [scanEscape_of_incomplete hcancels hlate hstatus]
      exact ih hscan (by simpa using hcontrol) (by simpa using hpair)
    | complete =>
      by_cases hsplits : Splits (taken ++ [char]) rest
      · have hrest : rest ≠ [] := by
          rintro rfl
          cases hsplits.2
        rw [scanEscape_of_splits hcancels haborts hstatus hsplits] at hscan
        rw [scanEscape_of_splits hcancels hlate hstatus ((splits_append more hrest).mpr hsplits)]
        cases hscan
        rfl
      have hstill : ¬ Splits (taken ++ [char]) (rest ++ more) := by
        intro hmore
        by_cases hrest : rest = []
        · subst hrest
          exact hpair hmore.1 hmore.2
        · exact hsplits ((splits_append more hrest).mp hmore)
      rw [scanEscape_of_complete hcancels haborts hstatus hsplits] at hscan
      rw [scanEscape_of_complete hcancels hlate hstatus hstill]
      cases hscan
      rfl

/-- A search takes something off the front of the text. -/
theorem scanEscape_used {terminalReply : Bool} {taken rest : JsString}
    (hscan : scanEscape terminalReply taken rest = some (out, left)) :
    ∃ used, used ≠ [] ∧ taken ++ rest = used ++ left := by
  induction rest generalizing taken with
  | nil => simp [scanEscape] at hscan
  | cons char rest ih =>
    cases look terminalReply taken char rest with
    | cancels _ heq | ends heq =>
      cases heq.symm.trans hscan
      exact ⟨taken ++ [char], by simp, by simp⟩
    | aborts haborts heq =>
      cases heq.symm.trans hscan
      refine ⟨taken, ?_, rfl⟩
      rintro rfl
      exact absurd haborts.2.1 (by simp)
    | splits hsplits heq =>
      cases heq.symm.trans hscan
      refine ⟨taken, ?_, rfl⟩
      rintro rfl
      cases hsplits.1
    | goesOn _ _ _ heq =>
      obtain ⟨used, hused, hsplit⟩ := ih (heq.symm.trans hscan)
      exact ⟨used, hused, by simpa using hsplit⟩

/-- A search gives one sequence, an Escape key or a piece of the text, or nothing. -/
theorem scanEscape_out {terminalReply : Bool} {taken rest : JsString}
    (hscan : scanEscape terminalReply taken rest = some (out, left)) :
    out = [] ∨ out = [[esc]] ∨
      ∃ used, out = [used] ∧ used ≠ [] ∧ taken <+: used ∧ used <+: taken ++ rest := by
  induction rest generalizing taken with
  | nil => simp [scanEscape] at hscan
  | cons char rest ih =>
    cases look terminalReply taken char rest with
    | cancels _ heq | aborts _ heq =>
      cases heq.symm.trans hscan
      exact .inl rfl
    | splits _ heq =>
      cases heq.symm.trans hscan
      exact .inr (.inl rfl)
    | ends heq =>
      obtain ⟨rfl, -⟩ := Prod.mk.inj (Option.some.inj (heq.symm.trans hscan))
      exact .inr (.inr ⟨taken ++ [char], rfl, by simp, prefix_append taken [char],
        ⟨rest, by simp⟩⟩)
    | goesOn _ _ _ heq =>
      refine (ih (heq.symm.trans hscan)).imp_right (Or.imp_right ?_)
      rintro ⟨used, rfl, hused, htaken, hprefix⟩
      exact ⟨used, rfl, hused, (prefix_append taken [char]).trans htaken,
        by simpa using hprefix⟩

/-- A search that gives nothing was over a reply that a unit cancels or a new sequence aborts. -/
theorem scanEscape_skip {terminalReply : Bool} {taken rest : JsString}
    (hscan : scanEscape terminalReply taken rest = some ([], left)) :
    terminalReply = true ∧ ((∃ used char, rest = used ++ char :: left ∧ char ∈ cancels) ∨
      ∃ used more, rest = used ++ left ∧ left = esc :: more ∧ more ≠ []) := by
  induction rest generalizing taken with
  | nil => simp [scanEscape] at hscan
  | cons char rest ih =>
    cases look terminalReply taken char rest with
    | cancels hcancels heq =>
      cases heq.symm.trans hscan
      exact ⟨hcancels.1, .inl ⟨[], char, rfl, hcancels.2.2⟩⟩
    | aborts haborts heq =>
      cases heq.symm.trans hscan
      obtain ⟨hreply, -, rfl, hrest, -⟩ := haborts
      exact ⟨hreply, .inr ⟨[], rest, rfl, rfl, hrest⟩⟩
    | splits _ heq | ends heq =>
      have hout := (Prod.mk.inj (Option.some.inj (heq.symm.trans hscan))).1
      simp at hout
    | goesOn _ _ _ heq =>
      obtain ⟨hreply, ⟨used, last, rfl, hlast⟩ | ⟨used, more, rfl, hleft, hmore⟩⟩ :=
        ih (heq.symm.trans hscan)
      · exact ⟨hreply, .inl ⟨char :: used, last, rfl, hlast⟩⟩
      · exact ⟨hreply, .inr ⟨char :: used, more, rfl, hleft, hmore⟩⟩

/-- An unfinished sequence goes on where it stands, or is aborted at its last unit. -/
theorem scanEscape_append_of_none {terminalReply : Bool} {taken rest : JsString}
    (hscan : scanEscape terminalReply taken rest = none) (more : JsString) :
    scanEscape terminalReply taken (rest ++ more) = scanEscape terminalReply (taken ++ rest) more ∨
      scanEscape terminalReply taken (rest ++ more) = some ([], esc :: more) := by
  induction rest generalizing taken with
  | nil => exact .inl (by simp)
  | cons char rest ih =>
    cases look terminalReply taken char rest with
    | cancels _ heq | aborts _ heq | splits _ heq | ends heq =>
      rw [heq] at hscan
      simp at hscan
    | goesOn hcancels haborts hstatus heq =>
      rw [cons_append]
      by_cases hlate : Aborts terminalReply (taken ++ [char]) char (rest ++ more)
      · obtain rfl : rest = [] := by
          by_contra hrest
          exact haborts ((aborts_append more hrest).mp hlate)
        right
        rw [scanEscape_of_aborts hcancels hlate, hlate.2.2.1, nil_append]
      rw [scanEscape_of_incomplete hcancels hlate hstatus]
      simpa using ih (heq.symm.trans hscan)

theorem scanEscape_eq_none {taken rest : JsString}
    (hincomplete : ∀ used, used <+: rest → used ≠ [] →
      isCompleteSequence (taken ++ used) = .incomplete) : scanEscape false taken rest = none := by
  induction rest generalizing taken with
  | nil => rfl
  | cons char rest ih =>
    have hcancels : ¬ Cancels false (taken ++ [char]) char := fun h => absurd h.1 (by simp)
    have haborts : ¬ Aborts false (taken ++ [char]) char rest := fun h => absurd h.1 (by simp)
    rw [scanEscape_of_incomplete hcancels haborts
      (hincomplete [char] ⟨rest, rfl⟩ (by simp))]
    refine ih fun used hused _ => ?_
    rw [append_assoc]
    exact hincomplete (char :: used) (cons_prefix_cons.mpr ⟨rfl, hused⟩) (by simp)

/-! ### One round of the extraction -/

theorem nextSequence_esc (rest : JsString) :
    nextSequence (esc :: rest) = scanEscape (hasReplyHeader (esc :: rest)) [] (esc :: rest) := by
  rw [nextSequence, if_pos rfl]
  cases hheader : hasReplyHeader (esc :: rest) with
  | false => rw [Bool.and_false]
  | true => rw [isControlString_of_hasReplyHeader hheader, Bool.and_true]

theorem nextSequence_other {unit : UInt16} (hunit : unit ≠ esc) (rest : JsString) :
    nextSequence (unit :: rest) = some ([[unit]], rest) :=
  if_neg hunit

theorem nextSequence_used {text : JsString}
    (hnext : nextSequence text = some (out, left)) : ∃ used, used ≠ [] ∧ text = used ++ left := by
  cases text with
  | nil => simp [nextSequence] at hnext
  | cons unit rest =>
    by_cases hunit : unit = esc
    · subst hunit
      rw [nextSequence_esc] at hnext
      exact scanEscape_used hnext
    rw [nextSequence_other hunit] at hnext
    cases hnext
    exact ⟨[unit], by simp, rfl⟩

theorem shrinks_nextSequence : Lexer.Shrinks nextSequence := by
  intro text out left hnext
  obtain ⟨used, hused, rfl⟩ := nextSequence_used hnext
  have := length_pos_of_ne_nil hused
  rw [length_append]
  omega

theorem extract_remainder_isSuffix (text : JsString) : (extractCompleteSequences text).2 <:+ text :=
  Lexer.left_isSuffix shrinks_nextSequence (fun _ _ _ hnext => by
    obtain ⟨used, -, rfl⟩ := nextSequence_used hnext
    exact suffix_append used _) text

/-- A sequence read off the front of a text is read off it with more of the text in sight,
unless it is ESC ESC and ends the text. -/
theorem nextSequence_append {text more : JsString} (hnext : nextSequence text = some (out, left))
    (hpair : text = [esc, esc] → ¬ more.head?.any (· ∈ introducers)) :
    nextSequence (text ++ more) = some (out, left ++ more) := by
  cases text with
  | nil => simp [nextSequence] at hnext
  | cons unit rest =>
    by_cases hunit : unit = esc
    · subst hunit
      rw [nextSequence_esc] at hnext
      rw [cons_append, nextSequence_esc, ← cons_append]
      have hheader : hasReplyHeader (esc :: rest ++ more) = hasReplyHeader (esc :: rest) := by
        rw [Bool.eq_iff_iff]
        refine ⟨fun hlonger => ?_, fun hshorter => hasReplyHeader_append hshorter more⟩
        rcases hasReplyHeader_of_append hlonger with hshorter | hprintable
        · exact hshorter
        by_contra hshorter
        -- nothing of a header that is still to come ends a sequence
        have hcontrol := isControlString_of_hasReplyHeader hlonger
        rw [Bool.not_eq_true] at hshorter
        rw [hshorter, scanEscape_eq_none] at hnext
        · simp at hnext
        intro used hused hne
        rw [nil_append]
        obtain ⟨unit, tail, rfl⟩ := exists_cons_of_ne_nil hne
        obtain ⟨rfl, htail⟩ := cons_prefix_cons.mp hused
        cases tail with
        | nil => rfl
        | cons second tail =>
          obtain ⟨between, hbetween⟩ := hused
          rw [← hbetween, append_assoc] at hcontrol
          exact isCompleteSequence_of_printable
            (isControlString_of_append hcontrol (by simp)) fun other hother =>
              hprintable other (htail.subset hother)
      rw [hheader]
      exact scanEscape_append hnext
        (fun hreply => by simpa using isControlString_of_hasReplyHeader hreply)
        (by simpa using hpair)
    · rw [nextSequence_other hunit] at hnext
      obtain ⟨rfl, rfl⟩ := Prod.mk.inj (Option.some.inj hnext)
      exact nextSequence_other hunit (rest ++ more)

end Hummin.StdinBuffer
