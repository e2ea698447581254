/-
Reads of a terminal and the text they are cut from. The events and what stays in the buffers are
those of the whole text, whatever the reads, as long as every cut outside a paste is settled.
-/
import Hummin.StdinBufferCuts

namespace Hummin.StdinBuffer

open List

/-! ### What `process` does in each mode -/

theorem bracketedPasteEnd_ne_nil : bracketedPasteEnd ≠ [] := by
  decide

variable {again : State → JsString → State}

theorem closePaste_congr {again' : State → JsString → State} {s : State}
    (hagain : ∀ closed remaining, closed.buffer = s.buffer → closed.pasteBuffer = [] →
      remaining.length + bracketedPasteEnd.length ≤ s.pasteBuffer.length →
      again closed remaining = again' closed remaining) :
    closePaste again s = closePaste again' s := by
  rw [closePaste, closePaste]
  cases hindex : firstIndexOf bracketedPasteEnd s.pasteBuffer with
  | none => rfl
  | some index =>
    obtain ⟨before, after, hsplit, rfl, -⟩ :=
      (firstIndexOf_eq_some_iff bracketedPasteEnd_ne_nil).mp hindex
    simp only
    split
    · rfl
    refine hagain _ _ rfl rfl ?_
    rw [hsplit]
    simp only [length_drop, length_append]
    omega

/-- A marker found in a text leaves less of it. -/
theorem length_drop_of_firstIndexOf {marker text : JsString} {index : Nat} (hmarker : marker ≠ [])
    (hindex : firstIndexOf marker text = some index) :
    (text.drop (index + marker.length)).length + index + marker.length = text.length := by
  obtain ⟨before, after, rfl, rfl, -⟩ := (firstIndexOf_eq_some_iff hmarker).mp hindex
  simp only [length_drop, length_append]
  omega

/-- Fuel for all the text at hand is enough. -/
theorem processFrom_eq {fuel enough : Nat} {s : State} {data : JsString}
    (hfuel : s.pasteBuffer.length + s.buffer.length + data.length < fuel)
    (henough : s.pasteBuffer.length + s.buffer.length + data.length < enough) :
    processFrom fuel s data = processFrom enough s data := by
  induction fuel generalizing enough s data with
  | zero => omega
  | succ fuel ih =>
    cases enough with
    | zero => omega
    | succ enough =>
      have hend : bracketedPasteEnd.length = 6 := rfl
      have hagain (s' : State) (hbuffer : s'.buffer = [])
          (hlength : s'.pasteBuffer.length ≤ s.pasteBuffer.length + s.buffer.length + data.length) :
          closePaste (processFrom fuel) s' = closePaste (processFrom enough) s' := by
        refine closePaste_congr fun closed remaining hclosed hpaste hremaining => ?_
        rw [hbuffer] at hclosed
        apply ih
        · rw [hclosed, hpaste, length_nil]
          omega
        rw [hclosed, hpaste, length_nil]
        omega
      rw [processFrom, processFrom]
      split
      · rfl
      simp only
      split
      · exact hagain _ rfl (by simp only [length_append]; omega)
      cases hstart : firstIndexOf bracketedPasteStart (s.buffer ++ data) with
      | none => rfl
      | some start =>
        have hleft := length_drop_of_firstIndexOf bracketedPasteStart_ne_nil hstart
        rw [length_append] at hleft
        exact hagain _ rfl (by simp only; omega)

/-- Inside a paste, all its text so far is searched for the end. -/
def inPaste (s : State) (text : JsString) : State :=
  closePaste process { s with buffer := [], pasteMode := true, pasteBuffer := text }

/-- Outside a paste, what is read of a text whose front is kept in the buffer. -/
def outside (s : State) (text : JsString) : State :=
  match firstIndexOf bracketedPasteStart text with
  | some start =>
    inPaste { emitDataSequences s (extractCompleteSequences (text.take start)).1 with
      pendingKittyPrintableCodepoint := none }
      (text.drop (start + bracketedPasteStart.length))
  | none =>
    emitDataSequences { s with buffer := (extractCompleteSequences text).2 }
      (extractCompleteSequences text).1

theorem closePaste_process {fuel : Nat} {s : State} (hbuffer : s.buffer = [])
    (hfuel : s.pasteBuffer.length ≤ fuel) :
    closePaste (processFrom fuel) s = closePaste process s := by
  refine closePaste_congr fun closed remaining hclosed hpaste hremaining => ?_
  have hend : bracketedPasteEnd.length = 6 := rfl
  rw [process]
  apply processFrom_eq
  · rw [hclosed, hpaste, hbuffer, length_nil]
    omega
  · omega

theorem process_of_paste {s : State} {data : JsString} (hmode : s.pasteMode = true)
    (hdata : data ≠ []) : process s data = inPaste s (s.pasteBuffer ++ (s.buffer ++ data)) := by
  rw [process, processFrom, if_neg fun h => hdata h.1]
  rw [if_pos hmode, closePaste_process rfl (by simp only [length_append]; omega), inPaste,
    hmode]

theorem process_of_not_paste {s : State} {data : JsString} (hmode : s.pasteMode = false)
    (hdata : data ≠ [] ∨ s.buffer ≠ []) : process s data = outside s (s.buffer ++ data) := by
  rw [process, processFrom, if_neg fun h => hdata.elim (· h.1) (· h.2)]
  rw [if_neg (by rw [hmode]; decide), outside]
  cases hstart : firstIndexOf bracketedPasteStart (s.buffer ++ data) with
  | none => rfl
  | some start =>
    have hleft := length_drop_of_firstIndexOf bracketedPasteStart_ne_nil hstart
    rw [length_append] at hleft
    simp only
    rw [closePaste_process rfl (by simp only; omega)]
    cases start with
    | zero => rfl
    | succ start => rfl

/-! ### Emitted events -/

variable (s : State)

theorem emitDataSequence_buffer (buffer sequence : JsString) :
    emitDataSequence { s with buffer := buffer } sequence =
      { emitDataSequence s sequence with buffer := buffer } := by
  rw [emitDataSequence, emitDataSequence]
  split <;> rfl

variable {data text : JsString} {index : Nat} (sequence : JsString)

/-- A sequence is left out, when it is the single unit that is pending, or given as an event. -/
theorem emitDataSequence_cases :
    (∃ unit, sequence = [unit] ∧ s.pendingKittyPrintableCodepoint.map (·.val) = some unit.toNat ∧
        emitDataSequence s sequence = { s with pendingKittyPrintableCodepoint := none }) ∨
      emitDataSequence s sequence = { s with
        pendingKittyPrintableCodepoint := parseUnmodifiedKittyPrintableCodepoint sequence
        events := s.events ++ [.data sequence] } := by
  rw [emitDataSequence]
  by_cases hpending : (rawCodepoint sequence).isSome ∧
      rawCodepoint sequence = s.pendingKittyPrintableCodepoint.map (·.val)
  · rw [if_pos hpending]
    match sequence, hpending with
    | [], hpending => exact absurd hpending.1 (by simp [rawCodepoint])
    | [unit], hpending => exact .inl ⟨unit, rfl, hpending.2.symm, rfl⟩
    | _ :: _ :: _, hpending => exact absurd hpending.1 (by simp [rawCodepoint])
  · exact .inr (if_neg hpending)

theorem emitDataSequences_buffer (buffer : JsString) (sequences : List JsString) :
    emitDataSequences { s with buffer := buffer } sequences =
      { emitDataSequences s sequences with buffer := buffer } := by
  induction sequences generalizing s with
  | nil => rfl
  | cons sequence sequences ih =>
    rw [emitDataSequences, foldl_cons, emitDataSequence_buffer]
    exact ih (emitDataSequence s sequence)

theorem emitDataSequence_pasteMode : (emitDataSequence s sequence).pasteMode = s.pasteMode := by
  rcases emitDataSequence_cases s sequence with ⟨unit, -, -, heq⟩ | heq <;> rw [heq]

variable (sequences : List JsString)

theorem emitDataSequences_pasteMode : (emitDataSequences s sequences).pasteMode = s.pasteMode := by
  induction sequences generalizing s with
  | nil => rfl
  | cons sequence sequences ih =>
    exact (ih (emitDataSequence s sequence)).trans (emitDataSequence_pasteMode s sequence)

theorem emitDataSequences_append (first second : List JsString) :
    emitDataSequences s (first ++ second) = emitDataSequences (emitDataSequences s first) second :=
  foldl_append

theorem events_emitDataSequence : s.events <+: (emitDataSequence s sequence).events := by
  rcases emitDataSequence_cases s sequence with ⟨unit, -, -, heq⟩ | heq
  · rw [heq]
  rw [heq]
  exact prefix_append s.events [.data sequence]

theorem events_emitDataSequences : s.events <+: (emitDataSequences s sequences).events := by
  induction sequences generalizing s with
  | nil => exact prefix_refl s.events
  | cons sequence sequences ih =>
    exact (events_emitDataSequence s sequence).trans (ih (emitDataSequence s sequence))

/-- What begins with ESC is never left out: a key that prints has a code point from 32 on. -/
theorem events_emitDataSequence_esc (more : JsString) :
    (emitDataSequence s (esc :: more)).events = s.events ++ [Event.data (esc :: more)] := by
  rcases emitDataSequence_cases s (esc :: more) with ⟨unit, hunit, hpending, -⟩ | heq
  · obtain ⟨codepoint, -, hcodepoint⟩ := Option.map_eq_some_iff.mp hpending
    have hprintable := codepoint.2
    rw [hcodepoint, ← (cons.inj hunit).1] at hprintable
    exact absurd hprintable (by decide)
  · rw [heq]

theorem events_closePaste (hagain : ∀ s remaining, s.events <+: (again s remaining).events)
    (s : State) :
    (closePaste again s).events = s.events ∨
      ∃ content, s.events ++ [Event.paste content] <+: (closePaste again s).events := by
  rw [closePaste]
  cases firstIndexOf bracketedPasteEnd s.pasteBuffer with
  | none => exact .inl rfl
  | some index =>
    refine .inr ⟨s.pasteBuffer.take index, ?_⟩
    simp only
    split
    · exact prefix_refl _
    exact hagain
      { s with
        pasteMode := false
        pasteBuffer := []
        pendingKittyPrintableCodepoint := none
        events := s.events ++ [.paste (s.pasteBuffer.take index)] } _

theorem events_closePaste_prefix (hagain : ∀ s remaining, s.events <+: (again s remaining).events)
    (s : State) : s.events <+: (closePaste again s).events := by
  rcases events_closePaste hagain s with heq | ⟨content, hprefix⟩
  · rw [heq]
  · exact (prefix_append s.events _).trans hprefix

theorem events_processFrom (fuel : Nat) (s : State) (data : JsString) :
    s.events <+: (processFrom fuel s data).events := by
  induction fuel generalizing s data with
  | zero => exact prefix_refl s.events
  | succ fuel ih =>
    rw [processFrom]
    split
    · exact events_emitDataSequence s []
    simp only
    split
    · exact events_closePaste_prefix ih { s with buffer := [], pasteBuffer := _ }
    cases firstIndexOf bracketedPasteStart (s.buffer ++ data) with
    | none =>
      exact events_emitDataSequences
        { s with buffer := (extractCompleteSequences (s.buffer ++ data)).2 } _
    | some start =>
      have hbefore : s.events <+: (if 0 < start then emitDataSequences s
          (extractCompleteSequences ((s.buffer ++ data).take start)).1 else s).events := by
        split
        · exact events_emitDataSequences s _
        · exact prefix_refl s.events
      simp only
      generalize (if 0 < start then emitDataSequences s
        (extractCompleteSequences ((s.buffer ++ data).take start)).1 else s) = before
        at hbefore ⊢
      refine hbefore.trans ?_
      exact events_closePaste_prefix ih { before with
        pendingKittyPrintableCodepoint := none
        buffer := []
        pasteMode := true
        pasteBuffer := _ }

theorem events_process (data : JsString) : s.events <+: (process s data).events :=
  events_processFrom _ s data

/-- The first event behind the start of a paste is the paste. -/
theorem events_inPaste (text : JsString) :
    (inPaste s text).events = s.events ∨
      ∃ content, s.events ++ [Event.paste content] <+: (inPaste s text).events :=
  events_closePaste events_process { s with buffer := [], pasteMode := true, pasteBuffer := text }

/-! ### Where a reading stands -/

/-- The text outside pastes that is read behind the last paste of a text, or nothing when the
text ends inside a paste. -/
def standing : Nat → Bool → JsString → Option JsString
  | 0, _, _ => none
  | fuel + 1, true, text =>
    match firstIndexOf bracketedPasteEnd text with
    | none => none
    | some endIndex => standing fuel false (text.drop (endIndex + bracketedPasteEnd.length))
  | fuel + 1, false, text =>
    match firstIndexOf bracketedPasteStart text with
    | none => some text
    | some startIndex =>
      standing fuel true (text.drop (startIndex + bracketedPasteStart.length))

/-- The text outside pastes that stands before a cut, after a buffer has read up to the cut. -/
def State.textBefore (s : State) (data : JsString) : Option JsString :=
  let text := s.pasteBuffer ++ (s.buffer ++ data)
  if s.pasteMode then standing (text.length + 1) true text
  else standing (text.length + 1) false (s.buffer ++ data)

/-- What more of a text does depends on the text outside pastes, or inside the open paste,
alone. -/
def Stands (reads : JsString → State) : Option JsString → Prop
  | none => ∃ s held, firstIndexOf bracketedPasteEnd held = none ∧
      ∀ more, reads more = inPaste s (held ++ more)
  | some left => ∃ s, s.pasteMode = false ∧ ¬ bracketedPasteStart <:+: left ∧
      ∀ more, reads more = outside s (left ++ more)

theorem outside_nil {s : State} (hbuffer : s.buffer = []) : outside s [] = s := by
  change emitDataSequences { s with buffer := [] } [] = s
  rw [← hbuffer]
  rfl

theorem inPaste_of_end {s : State} {text : JsString} {index : Nat}
    (hindex : firstIndexOf bracketedPasteEnd text = some index) :
    inPaste s text = outside
      { buffer := [], pasteMode := false, pasteBuffer := [], pendingKittyPrintableCodepoint := none
        events := s.events ++ [.paste (text.take index)] }
      (text.drop (index + bracketedPasteEnd.length)) := by
  rw [inPaste, closePaste, hindex]
  simp only
  by_cases hleft : text.drop (index + bracketedPasteEnd.length) = []
  · rw [if_pos hleft, hleft, outside_nil rfl]
  rw [if_neg hleft, process_of_not_paste rfl (.inl hleft)]
  rfl

theorem take_drop_append_of_firstIndexOf {marker text : JsString} {index : Nat}
    (hmarker : marker ≠ []) (hindex : firstIndexOf marker text = some index) (more : JsString) :
    (text ++ more).take index = text.take index ∧
      (text ++ more).drop (index + marker.length) = text.drop (index + marker.length) ++ more := by
  have hlength := length_drop_of_firstIndexOf hmarker hindex
  exact ⟨take_append_of_le_length (by omega), drop_append_of_le_length (by omega)⟩

theorem stands_of_text (fuel : Nat) (text : JsString) (s : State) (hfuel : text.length < fuel) :
    (s.pasteMode = false → Stands (fun more => outside s (text ++ more)) (standing fuel false text)) ∧
      Stands (fun more => inPaste s (text ++ more)) (standing fuel true text) := by
  induction fuel generalizing text s with
  | zero => omega
  | succ fuel ih =>
    constructor
    · intro hmode
      rw [standing]
      cases hstart : firstIndexOf bracketedPasteStart text with
      | none => exact ⟨s, hmode, firstIndexOf_eq_none.mp hstart, fun _ => rfl⟩
      | some start =>
        have hlength := length_drop_of_firstIndexOf bracketedPasteStart_ne_nil hstart
        have hsize : bracketedPasteStart.length = 6 := rfl
        have hreads (more : JsString) : outside s (text ++ more) =
            inPaste { emitDataSequences s (extractCompleteSequences (text.take start)).1 with
              pendingKittyPrintableCodepoint := none }
              (text.drop (start + bracketedPasteStart.length) ++ more) := by
          obtain ⟨htake, hdrop⟩ :=
            take_drop_append_of_firstIndexOf bracketedPasteStart_ne_nil hstart more
          rw [outside, firstIndexOf_append bracketedPasteStart_ne_nil hstart]
          simp only
          rw [htake, hdrop]
        simp only [hreads]
        exact (ih _ _ (by omega)).2
    rw [standing]
    cases hend : firstIndexOf bracketedPasteEnd text with
    | none => exact ⟨s, text, hend, fun _ => rfl⟩
    | some endIndex =>
      have hlength := length_drop_of_firstIndexOf bracketedPasteEnd_ne_nil hend
      have hsize : bracketedPasteEnd.length = 6 := rfl
      have hreads (more : JsString) : inPaste s (text ++ more) = outside
          { buffer := [], pasteMode := false, pasteBuffer := []
            pendingKittyPrintableCodepoint := none
            events := s.events ++ [.paste (text.take endIndex)] }
          (text.drop (endIndex + bracketedPasteEnd.length) ++ more) := by
        obtain ⟨htake, hdrop⟩ :=
          take_drop_append_of_firstIndexOf bracketedPasteEnd_ne_nil hend more
        rw [inPaste_of_end (firstIndexOf_append bracketedPasteEnd_ne_nil hend more), htake, hdrop]
      simp only [hreads]
      exact (ih _ _ (by omega)).1 rfl

theorem process_stands (hdata : data ≠ []) :
    Stands (fun more => process s (data ++ more)) (s.textBefore data) := by
  have hmore (more : JsString) : data ++ more ≠ [] := by simp [hdata]
  rw [State.textBefore]
  cases hmode : s.pasteMode with
  | true =>
    simp only [process_of_paste hmode (hmore _), ← append_assoc]
    exact (stands_of_text _ _ s (Nat.lt_succ_self _)).2
  | false =>
    simp only [process_of_not_paste hmode (.inl (hmore _)), ← append_assoc]
    refine (stands_of_text _ _ s ?_).1 hmode
    simp only [length_append]
    omega

theorem stands_inPaste {s : State} {data : JsString} (hdata : data ≠ [])
    (htext : s.textBefore data = none) :
    ∃ s' held, firstIndexOf bracketedPasteEnd held = none ∧ process s data = inPaste s' held ∧
      ∀ more, process s (data ++ more) = inPaste s' (held ++ more) := by
  have hstands := process_stands s hdata
  rw [htext] at hstands
  obtain ⟨s', held, hheld, hreads⟩ := hstands
  exact ⟨s', held, hheld, by simpa using hreads [], hreads⟩

theorem stands_outside {s : State} {data text : JsString} (hdata : data ≠ [])
    (htext : s.textBefore data = some text) :
    ∃ s', s'.pasteMode = false ∧ ¬ bracketedPasteStart <:+: text ∧
      process s data = outside s' text ∧
      ∀ more, process s (data ++ more) = outside s' (text ++ more) := by
  have hstands := process_stands s hdata
  rw [htext] at hstands
  obtain ⟨s', hmode, hnone, hreads⟩ := hstands
  exact ⟨s', hmode, hnone, by simpa using hreads [], hreads⟩

end Hummin.StdinBuffer
