/-
The reads of a terminal against one read of the whole input: where every cut is settled they
agree, and at a cut that is not, the events already given are not those of the whole.
-/
import Hummin.StdinBufferRuns

namespace Hummin.StdinBuffer

open List

/-! ### A settled cut -/

theorem outside_buffer (s : State) (buffer text : JsString) :
    outside { s with buffer := buffer } text = outside s text := by
  rw [outside, outside]
  cases firstIndexOf bracketedPasteStart text with
  | none => rfl
  | some start =>
    simp only [emitDataSequences_buffer]
    rfl

theorem outside_of_none (s : State) {text : JsString} (hnone : ¬ bracketedPasteStart <:+: text) :
    outside s text = { emitDataSequences s (extractCompleteSequences text).1 with
      buffer := (extractCompleteSequences text).2 } := by
  rw [outside, firstIndexOf_eq_none.mpr hnone]
  exact emitDataSequences_buffer s _ _

variable {s : State} {text more : JsString}

theorem outside_join (hmode : s.pasteMode = false)
    (htext : ¬ bracketedPasteStart <:+: text) (hmore : more ≠ []) (hsettled : Settled text more) :
    process (outside s text) more = outside s (text ++ more) := by
  have hkeeps : process (outside s text) more =
      outside (emitDataSequences s (extractCompleteSequences text).1)
        ((extractCompleteSequences text).2 ++ more) := by
    rw [outside_of_none s htext]
    refine (process_of_not_paste ?_ (.inl hmore)).trans (outside_buffer _ _ _)
    exact (emitDataSequences_pasteMode s _).trans hmode
  rw [hkeeps, outside, outside]
  cases hstart : firstIndexOf bracketedPasteStart (text ++ more) with
  | none =>
    obtain ⟨hnone, hread⟩ := hsettled.extract_kept hstart
    simp only [hnone, hread, emitDataSequences_append, emitDataSequences_buffer]
  | some start =>
    obtain ⟨kept, hkept, hread, hdrop⟩ := hsettled.marker_kept htext hstart
    simp only [hkept, hread, hdrop, emitDataSequences_append]

/-- Two reads are one when the cut between them is settled. -/
theorem process_join {data more : JsString} (hdata : data ≠ []) (hmore : more ≠ [])
    (hsettled : ∀ text, s.textBefore data = some text → Settled text more) :
    process (process s data) more = process s (data ++ more) := by
  cases htext : s.textBefore data with
  | none =>
    obtain ⟨s', held, hheld, hprocess, hreads⟩ := stands_inPaste hdata htext
    have hopen : inPaste s' held =
        { s' with buffer := [], pasteMode := true, pasteBuffer := held } := by
      rw [inPaste, closePaste, hheld]
    rw [hreads more, hprocess, hopen, process_of_paste rfl hmore]
    rfl
  | some text =>
    obtain ⟨s', hmode, hnone, hprocess, hreads⟩ := stands_outside hdata htext
    rw [hreads more, hprocess, outside_join hmode hnone hmore (hsettled text htext)]

/-! ### A cut that is not settled -/

theorem head_eq_of_common {α : Type} {common whole : List α} {first second : α}
    (hfirst : common ++ [first] <+: whole) (hsecond : common ++ [second] <+: whole) :
    first = second := by
  have heq := prefix_of_prefix_length_le hfirst hsecond (by simp)
  have hsame := heq.eq_of_length (by simp)
  exact singleton_inj.mp (append_cancel_left hsame)

/-- Sequences that begin with an ESC sequence give it as an event. -/
theorem events_emit_esc (s : State) (sequences later : List JsString) (more : JsString) :
    (emitDataSequences s sequences).events ++ [Event.data (esc :: more)] <+:
      (emitDataSequences s (sequences ++ (esc :: more) :: later)).events := by
  rw [emitDataSequences_append, ← events_emitDataSequence_esc]
  exact events_emitDataSequences (emitDataSequence _ (esc :: more)) later

theorem events_outside_of_none (s : State) {text : JsString}
    (hnone : ¬ bracketedPasteStart <:+: text) :
    (outside s text).events = (emitDataSequences s (extractCompleteSequences text).1).events := by
  rw [outside_of_none s hnone]

/-- What is read of a text outside pastes gives the events of the text before its first marker,
and then the paste if anything. -/
theorem events_outside_of_start (s : State) {text : JsString} {start : Nat}
    (hstart : firstIndexOf bracketedPasteStart text = some start) :
    (outside s text).events =
        (emitDataSequences s (extractCompleteSequences (text.take start)).1).events ∨
      ∃ content, (emitDataSequences s (extractCompleteSequences (text.take start)).1).events ++
        [Event.paste content] <+: (outside s text).events := by
  rw [outside, hstart]
  exact events_inPaste { emitDataSequences s _ with pendingKittyPrintableCodepoint := none } _

variable {start : Nat}

theorem not_prefix_of_marker_cut (htext : ¬ bracketedPasteStart <:+: text)
    (hstart : firstIndexOf bracketedPasteStart (text ++ more) = some start)
    (hinside : start < text.length) (hread : (extractCompleteSequences
      ((extractCompleteSequences (text.take start)).2 ++ text.drop start)).1 ≠ []) :
    ¬ (outside s text).events <+: (outside s (text ++ more)).events := by
  intro hearlier
  obtain ⟨tail, later, hextract⟩ := extract_of_marker_cut htext hstart hinside hread
  have hearly := events_emit_esc s (extractCompleteSequences ((text ++ more).take start)).1 later
    tail
  rw [← hextract, ← events_outside_of_none s htext] at hearly
  rcases events_outside_of_start s hstart with heq | ⟨content, hpaste⟩
  · rw [← heq] at hearly
    have hlength := (hearly.trans hearlier).length_le
    simp at hlength
  · cases head_eq_of_common (hearly.trans hearlier) hpaste

/-- A marker behind a unit that is not ESC leaves the unit before it. -/
theorem marker_behind_unit {unit : UInt16} {start : Nat}
    (hunit : unit ≠ esc) (hlength : text.length ≤ start)
    (hstart : firstIndexOf bracketedPasteStart (text ++ unit :: more) = some start) :
    ∃ between, (text ++ unit :: more).take start = text ++ unit :: between := by
  obtain ⟨before, after, hsplit, rfl, -⟩ :=
    (firstIndexOf_eq_some_iff bracketedPasteStart_ne_nil).mp hstart
  rw [hsplit, append_assoc, take_left]
  rw [append_assoc] at hsplit
  rcases append_eq_append_iff.mp hsplit with ⟨between, rfl, hbetween⟩ |
    ⟨between, rfl, hbehind⟩
  · cases between with
    | nil => exact absurd (cons.inj hbetween).1 hunit
    | cons first between =>
      cases hbetween
      exact ⟨between, rfl⟩
  obtain rfl : between = [] := by
    rw [length_append] at hlength
    exact length_eq_zero_iff.mp (by omega)
  exact absurd (cons.inj hbehind).1.symm hunit

theorem not_prefix_of_pair_cut (htext : ¬ bracketedPasteStart <:+: text)
    (hends : EndsInEscapePair text) (hany : more.head?.any (· ∈ introducers))
    (hmarker : ∀ start, firstIndexOf bracketedPasteStart (text ++ more) = some start →
      text.length ≤ start) : ¬ (outside s text).events <+: (outside s (text ++ more)).events := by
  intro hearlier
  obtain ⟨sequences, hread, hmore⟩ := extract_of_pair_cut hends
  cases more with
  | nil => simp at hany
  | cons unit more =>
    have hunit : unit ∈ introducers := by simpa using hany
    have hearly := events_emit_esc s sequences [] [esc]
    have hfirst : (extractCompleteSequences text).1 = sequences ++ [[esc, esc]] := by rw [hread]
    rw [← hfirst, ← events_outside_of_none s htext] at hearly
    have hlate : (emitDataSequences s sequences).events ++ [Event.data [esc]] <+:
        (outside s (text ++ unit :: more)).events := by
      cases hstart : firstIndexOf bracketedPasteStart (text ++ unit :: more) with
      | none =>
        obtain ⟨later, hlater⟩ := hmore unit hunit more
        rw [events_outside_of_none s (firstIndexOf_eq_none.mp hstart), hlater]
        exact events_emit_esc s sequences later []
      | some start =>
        have hlater := marker_behind_unit
          (fun heq => esc_not_mem_introducers (by rwa [heq] at hunit)) (hmarker start hstart)
          hstart
        obtain ⟨between, hbetween⟩ := hlater
        obtain ⟨later, hlater⟩ := hmore unit hunit between
        have hemit := events_emit_esc s sequences later []
        rw [← hlater, ← hbetween] at hemit
        rcases events_outside_of_start s hstart with heq | ⟨content, hpaste⟩
        · rwa [heq]
        · exact hemit.trans ((prefix_append _ _).trans hpaste)
    have heq := head_eq_of_common (hearly.trans hearlier) hlate
    simp at heq

/-- The events given up to a cut that is not settled are not the first events of the whole. -/
theorem process_diverge {data more text : JsString} (hdata : data ≠ [])
    (htext : s.textBefore data = some text) (hnot : ¬ Settled text more) :
    ¬ (process s data).events <+: (process s (data ++ more)).events := by
  obtain ⟨s', -, hnone, hprocess, hreads⟩ := stands_outside hdata htext
  rw [hprocess, hreads more]
  by_cases hmarker : ∀ start, firstIndexOf bracketedPasteStart (text ++ more) = some start →
      start < text.length → (extractCompleteSequences
        ((extractCompleteSequences (text.take start)).2 ++ text.drop start)).1 = []
  · have hpair : ¬ (EndsInEscapePair text → ¬ more.head?.any (· ∈ introducers)) :=
      fun hpair => hnot ⟨hpair, hmarker⟩
    rw [Classical.not_imp, not_not] at hpair
    obtain ⟨hends, hany⟩ := hpair
    refine not_prefix_of_pair_cut hnone hends hany fun start hstart => ?_
    by_contra hinside
    rw [Nat.not_le] at hinside
    -- a part of the marker would stay in the buffer, but nothing does behind ESC ESC
    obtain ⟨sequences, hread, -⟩ := extract_of_pair_cut hends
    have hkeeps := remainder_ne_nil_of_marker_cut hnone hstart hinside
      (hmarker start hstart hinside)
    rw [hread] at hkeeps
    exact hkeeps rfl
  rw [not_forall] at hmarker
  obtain ⟨start, hmarker⟩ := hmarker
  rw [Classical.not_imp, Classical.not_imp] at hmarker
  obtain ⟨hstart, hinside, hread⟩ := hmarker
  exact not_prefix_of_marker_cut hnone hstart hinside hread

/-! ### All reads of an input -/

/-- Every cut of the reads that stands outside a paste is settled. -/
def CutsSettled (s : State) (chunks : List JsString) : Prop :=
  ∀ before after, chunks = before ++ after → before ≠ [] → after ≠ [] →
    ∀ text, s.textBefore before.flatten = some text → Settled text after.flatten

/-- The events, and what remains in the normal and in the paste buffer. -/
def State.output (s : State) : List Event × JsString × JsString :=
  (s.events, s.buffer, s.pasteBuffer)

/-- A buffer after some reads. -/
def State.Reached (s : State) : Prop :=
  ∃ earlier : List JsString, s = earlier.foldl process .fresh

variable {chunks : List JsString}

theorem flatten_ne_nil (hne : chunks ≠ [])
    (hchunks : ∀ chunk ∈ chunks, chunk ≠ []) : chunks.flatten ≠ [] := by
  obtain ⟨chunk, rest, rfl⟩ := exists_cons_of_ne_nil hne
  rw [flatten_cons]
  exact fun heq => hchunks chunk mem_cons_self (append_eq_nil_iff.mp heq).1

theorem CutsSettled.init {last : JsString}
    (hsettled : CutsSettled s (chunks ++ [last])) (hchunks : ∀ chunk ∈ chunks, chunk ≠ []) :
    CutsSettled s chunks := by
  rintro before after rfl hbefore hafter text htext
  have hcut := hsettled before (after ++ [last]) (append_assoc ..) hbefore (by simp) text htext
  rw [flatten_append] at hcut
  exact hcut.shorten (flatten_ne_nil hafter fun chunk hchunk =>
    hchunks chunk (mem_append_right before hchunk))

/-- Reads with settled cuts are one read. -/
theorem foldl_process (hne : chunks ≠ [])
    (hchunks : ∀ chunk ∈ chunks, chunk ≠ []) (hsettled : CutsSettled s chunks) :
    chunks.foldl process s = process s chunks.flatten := by
  induction chunks using reverseRecOn with
  | nil => exact absurd rfl hne
  | append_singleton chunks last ih =>
    by_cases hfirst : chunks = []
    · subst hfirst
      simp
    have hinit : ∀ chunk ∈ chunks, chunk ≠ [] := fun chunk hchunk =>
      hchunks chunk (mem_append_left [last] hchunk)
    have hlast : last ≠ [] := hchunks last (by simp)
    rw [foldl_append, ih hfirst hinit (hsettled.init hinit), flatten_append,
      flatten_singleton, foldl_cons, foldl_nil]
    refine process_join (flatten_ne_nil hfirst hinit) hlast fun text htext => ?_
    have hcut := hsettled chunks [last] rfl hfirst (by simp) text htext
    rwa [flatten_singleton] at hcut

theorem events_foldl_process (s : State) (chunks : List JsString) :
    s.events <+: (chunks.foldl process s).events := by
  induction chunks generalizing s with
  | nil => exact prefix_refl s.events
  | cons chunk chunks ih => exact (events_process s chunk).trans (ih (process s chunk))

/-- Where the events of the reads are the first events of one read, all cuts up to there are
settled. -/
theorem settled_of_common {rest : JsString} (hchunks : ∀ chunk ∈ chunks, chunk ≠ [])
    (hcommon : (chunks.foldl process s).events <+: (process s (chunks.flatten ++ rest)).events) :
    ∀ before after, chunks = before ++ after → before ≠ [] →
      ∀ text, s.textBefore before.flatten = some text → Settled text (after.flatten ++ rest) := by
  induction chunks using reverseRecOn generalizing rest with
  | nil =>
    intro before after hsplit hbefore
    exact absurd (append_eq_nil_iff.mp hsplit.symm).1 hbefore
  | append_singleton chunks last ih =>
    have hinit : ∀ chunk ∈ chunks, chunk ≠ [] := fun chunk hchunk =>
      hchunks chunk (mem_append_left [last] hchunk)
    have hearlier : ∀ before after, chunks = before ++ after → before ≠ [] → ∀ text,
        s.textBefore before.flatten = some text →
          Settled text ((after ++ [last]).flatten ++ rest) := by
      have hshorter : (chunks.foldl process s).events <+:
          (process s (chunks.flatten ++ (last ++ rest))).events := by
        rw [foldl_append] at hcommon
        refine (events_foldl_process _ [last]).trans ?_
        simpa [append_assoc] using hcommon
      intro before after hsplit hbefore text htext
      simpa using ih hinit hshorter before after hsplit hbefore text htext
    have hsettled : CutsSettled s (chunks ++ [last]) := by
      intro before after hsplit hbefore hafter text htext
      rcases eq_nil_or_concat after with rfl | ⟨after, last', rfl⟩
      · exact absurd rfl hafter
      rw [concat_eq_append, ← append_assoc] at hsplit
      obtain ⟨rfl, hlast⟩ := append_inj' hsplit rfl
      obtain rfl := singleton_inj.mp hlast
      have hcut := hearlier before after rfl hbefore text htext
      rw [concat_eq_append]
      refine hcut.shorten (flatten_ne_nil (by simp) fun chunk hchunk => hchunks chunk ?_)
      rw [append_assoc]
      exact mem_append_right before hchunk
    intro before after hsplit hbefore text htext
    rcases eq_nil_or_concat after with rfl | ⟨after, last', rfl⟩
    · -- the cut behind all the reads: until there they are one read
      rw [append_nil] at hsplit
      subst hsplit
      by_contra hnot
      rw [foldl_process (by simp) hchunks hsettled] at hcommon
      exact process_diverge (flatten_ne_nil (by simp) hchunks) htext (by simpa using hnot) hcommon
    rw [concat_eq_append, ← append_assoc] at hsplit
    obtain ⟨rfl, hlast⟩ := append_inj' hsplit rfl
    obtain rfl := singleton_inj.mp hlast
    rw [concat_eq_append]
    exact hearlier before after rfl hbefore text htext

/-! ### No reads at all -/

/-- Outside a paste the buffer holds an unfinished sequence, inside one nothing. -/
def State.Quiet (s : State) : Prop :=
  s.buffer ≠ [] → s.pasteMode = false ∧ ¬ bracketedPasteStart <:+: s.buffer ∧
    nextSequence s.buffer = none

theorem process_nil_of_quiet (hquiet : s.Quiet) (hbuffer : s.buffer ≠ []) : process s [] = s := by
  obtain ⟨hmode, hnone, hnext⟩ := hquiet hbuffer
  have hread : extractCompleteSequences s.buffer = ([], s.buffer) := Lexer.read_of_none hnext
  rw [process_of_not_paste hmode (.inr hbuffer), append_nil, outside_of_none s hnone, hread]
  rfl

theorem quiet_process (hquiet : s.Quiet) (data : JsString) : (process s data).Quiet := by
  by_cases hdata : data = []
  · subst hdata
    by_cases hbuffer : s.buffer = []
    · intro hprocess
      refine absurd ?_ hprocess
      rw [process, processFrom, if_pos ⟨rfl, hbuffer⟩]
      rcases emitDataSequence_cases s [] with ⟨unit, hunit, -, -⟩ | heq
      · simp at hunit
      rw [heq]
      exact hbuffer
    · rwa [process_nil_of_quiet hquiet hbuffer]
  cases htext : s.textBefore data with
  | none =>
    obtain ⟨s', held, hheld, hprocess, -⟩ := stands_inPaste hdata htext
    rw [hprocess, inPaste, closePaste, hheld]
    exact fun hbuffer => absurd rfl hbuffer
  | some text =>
    obtain ⟨s', hmode, hnone, hprocess, -⟩ := stands_outside hdata htext
    rw [hprocess, outside_of_none s' hnone]
    intro _
    refine ⟨(emitDataSequences_pasteMode s' _).trans hmode, fun hinfix => hnone ?_,
      Lexer.next_left shrinks_nextSequence text⟩
    exact hinfix.trans (extract_remainder_isSuffix text).isInfix

theorem quiet_of_reached (hreached : s.Reached) : s.Quiet := by
  obtain ⟨earlier, rfl⟩ := hreached
  induction earlier using reverseRecOn with
  | nil => exact fun hbuffer => absurd rfl hbuffer
  | append_singleton earlier last ih =>
    rw [foldl_append]
    exact quiet_process ih last

/-- Input read in pieces gives the events and the buffers of one read exactly when there is a
piece, or something held, and every cut outside a paste is settled. -/
theorem reads_agree_iff (s : State) (hreached : s.Reached) (chunks : List JsString)
    (hchunks : ∀ chunk ∈ chunks, chunk ≠ []) :
    (chunks.foldl process s).output = (process s chunks.flatten).output ↔
      (chunks = [] → s.buffer ≠ []) ∧ CutsSettled s chunks := by
  constructor
  · intro houtput
    have hevents : (chunks.foldl process s).events = (process s chunks.flatten).events :=
      congrArg Prod.fst houtput
    refine ⟨?_, fun before after hsplit hbefore _ text htext => ?_⟩
    · rintro rfl hbuffer
      rw [foldl_nil, flatten_nil, process, processFrom, if_pos ⟨rfl, hbuffer⟩] at hevents
      rcases emitDataSequence_cases s [] with ⟨unit, hunit, -, -⟩ | heq
      · simp at hunit
      · rw [heq] at hevents
        simp at hevents
    have hearlier : (chunks.foldl process s).events <+:
        (process s (chunks.flatten ++ [])).events := by
      rw [append_nil, hevents]
    have hsettled := settled_of_common hchunks hearlier before after hsplit hbefore text htext
    rwa [append_nil] at hsettled
  · rintro ⟨hheld, hsettled⟩
    by_cases hne : chunks = []
    · subst hne
      rw [foldl_nil, flatten_nil, process_nil_of_quiet (quiet_of_reached hreached) (hheld rfl)]
    · rw [foldl_process hne hchunks hsettled]

theorem reads_agree_iff_arrow :
    ([[esc], js ['[', 'A']].foldl process .fresh).output =
        (process .fresh [[esc], js ['[', 'A']].flatten).output ↔
      ([[esc], js ['[', 'A']] = [] → State.fresh.buffer ≠ []) ∧
        CutsSettled .fresh [[esc], js ['[', 'A']] :=
  reads_agree_iff .fresh ⟨[], rfl⟩ [[esc], js ['[', 'A']] (by decide)

/-- An Escape key sent as a raw ESC, and then a sequence, cut between the two ESC and the rest. -/
theorem reads_disagree :
    ¬ ∀ chunks : List JsString, (∀ chunk ∈ chunks, chunk ≠ []) →
      (chunks.foldl process .fresh).output = (process .fresh chunks.flatten).output := by
  intro hagree
  cases hagree [[esc, esc], js ['[', '2', '7', 'u']] (by decide)

end Hummin.StdinBuffer
