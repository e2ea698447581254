/-
The incremental reading of JSON text one unit at a time, without the reports and the
costs of snapshots.  A piece of text is read as its units are, so that what is read
does not depend on where the text is cut.
-/
import Hummin.StreamingJson

namespace Hummin.StreamingJson

open List Option

open JsonText

/-- An open container. -/
structure Level where
  container : Container
  slot : Option Slot
  key : Option JsString
  phase : Phase

/-- Between values, in a string or in a scalar. -/
inductive Mode
  | between
  | string (target : Target) (slot : Option Slot) (text escape : JsString)
  | scalar (token : JsString) (slot : Option Slot)

structure Reading where
  root : Option JsonValue
  done : Bool
  levels : List Level
  mode : Mode

namespace Reading

def start : Reading :=
  ⟨none, false, [], .between⟩

/-- Set the value at a slot. -/
def assign (slot : Option Slot) (value : JsonValue) (reading : Reading) : Reading :=
  match slot with
  | none => reading
  | some .root => { reading with root := some value }
  | some slot =>
    match reading.levels with
    | [] => reading
    | level :: rest => { reading with
        levels := { level with container := setSlot slot value level.container } :: rest }

def valueSlot (reading : Reading) : Option Slot :=
  match reading.levels with
  | [] => if reading.root.isNone then some .root else none
  | level :: _ =>
    match level.container with
    | .array items => some (.element items.length)
    | .object _ =>
      if level.phase = .value ∨ level.phase = .colon then level.key.map .member else none

def valueEnded (reading : Reading) : Reading :=
  match reading.levels with
  | [] => if reading.root.isSome then { reading with done := true } else reading
  | level :: rest => { reading with levels := { level with phase := .comma } :: rest }

/-- Whether a string starting now is a key. -/
def takesKey (reading : Reading) : Bool :=
  match reading.levels with
  | [] => false
  | level :: _ => !level.container.isArray && (level.phase = .key || level.phase = .comma)

def startString (reading : Reading) : Reading :=
  if reading.takesKey then { reading with mode := .string .key none [] [] }
  else { reading.assign reading.valueSlot (.str []) with
    mode := .string .value reading.valueSlot [] [] }

/-- Text of the open string. -/
def appendText (text : JsString) (reading : Reading) : Reading :=
  match reading.mode with
  | .string .key slot before escape =>
    { reading with mode := .string .key slot (before ++ text) escape }
  | .string .value slot before escape =>
    { reading.assign slot (.str (before ++ text)) with
      mode := .string .value slot (before ++ text) escape }
  | _ => reading

def setEscape (escape : JsString) (reading : Reading) : Reading :=
  match reading.mode with
  | .string target slot text _ => { reading with mode := .string target slot text escape }
  | _ => reading

def endString (reading : Reading) : Reading :=
  match reading.mode with
  | .string .key _ text _ =>
    match reading.levels with
    | [] => { reading with mode := .between }
    | level :: rest => { reading with
        mode := .between
        levels := { level with key := some text, phase := .colon } :: rest }
  | .string .value _ _ _ => valueEnded { reading with mode := .between }
  | _ => reading

/-- A unit of a string outside escapes. -/
def plain (unit : UInt16) (reading : Reading) : Reading :=
  if unit = quote then reading.endString
  else if unit = backslash then reading.setEscape [backslash]
  else reading.appendText [unit]

def feedString (escape : JsString) (unit : UInt16) (reading : Reading) : Reading :=
  if escape = [] then reading.plain unit
  else if escape = [backslash] then
    match JsonQuote.simpleEscape unit with
    | some decoded => (reading.setEscape []).appendText [decoded]
    | none =>
      if unit = 117 then reading.setEscape [backslash, 117]
      else ((reading.setEscape []).appendText [backslash]).plain unit
  else if isHexDigit unit then
    if (escape ++ [unit]).length < 6 then reading.setEscape (escape ++ [unit])
    else (reading.setEscape []).appendText [hexUnits ((escape ++ [unit]).drop 2)]
  else ((reading.setEscape []).appendText escape).plain unit

def endScalar (reading : Reading) : Reading :=
  match reading.mode with
  | .scalar token slot =>
    let ended := { reading with mode := .between }
    valueEnded <| match scalarValue token with
      | none => ended
      | some value => ended.assign slot value
  | _ => reading

def openContainer (container : Container) (reading : Reading) : Reading :=
  let slot := reading.valueSlot
  let placed := reading.assign slot container.toJson
  { placed with
    levels := ⟨container, slot, none, if container.isArray then .value else .key⟩ ::
      placed.levels }

def closeContainer (reading : Reading) : Reading :=
  match reading.levels with
  | [] => reading
  | level :: rest =>
    valueEnded (assign level.slot level.container.toJson { reading with levels := rest })

/-- Set the phase of the innermost container. -/
def setPhase (phase : Level → Phase) (reading : Reading) : Reading :=
  match reading.levels with
  | [] => reading
  | level :: rest => { reading with levels := { level with phase := phase level } :: rest }

def structural (unit : UInt16) (reading : Reading) : Reading :=
  if isSpace unit then reading
  else if unit = quote then reading.startString
  else if unit = openBrace then reading.openContainer (.object [])
  else if unit = openBracket then reading.openContainer (.array [])
  else if unit = closeBrace ∨ unit = closeBracket then reading.closeContainer
  else if unit = colonUnit then
    reading.setPhase fun level =>
      if level.container.isArray = false ∧ level.phase = .colon then .value else level.phase
  else if unit = commaUnit then
    reading.setPhase fun level => if level.container.isArray then .value else .key
  else { reading with mode := .scalar [unit] reading.valueSlot }

/-- The next unit; after the root value nothing is read. -/
def feed (reading : Reading) (unit : UInt16) : Reading :=
  if reading.done then reading
  else match reading.mode with
    | .string _ _ _ escape => reading.feedString escape unit
    | .scalar token slot =>
      if isDelimiter unit then
        if reading.endScalar.done then reading.endScalar
        else reading.endScalar.structural unit
      else { reading with mode := .scalar (token ++ [unit]) slot }
    | .between => reading.structural unit

theorem foldl_feed_done {reading : Reading} (hdone : reading.done = true) (text : JsString) :
    text.foldl feed reading = reading := by
  induction text with
  | nil => rfl
  | cons unit rest ih => rw [foldl_cons, feed, if_pos hdone, ih]

end Reading

/-! ### The view of a parser -/

def Frame.level (frame : Frame) : Level :=
  ⟨frame.container, frame.slot, frame.key, frame.phase⟩

/-- What is read so far. -/
def view (parser : Parser) : Reading where
  root := parser.root
  done := parser.done
  levels := parser.stack.map Frame.level
  mode := match parser.string with
    | some opened => .string opened.target opened.slot opened.text opened.escape
    | none => if parser.scalar.isEmpty then .between else .scalar parser.scalar parser.scalarSlot

/-- While a string is open there is no scalar. -/
def Modal (parser : Parser) : Prop :=
  parser.string.isSome = true → parser.scalar = []

variable (slot : Option Slot) (value : JsonValue)

section

variable (parser : Parser)
include parser

theorem view_assign : view (assign slot value parser) = (view parser).assign slot value := by
  rw [assign.eq_def, Reading.assign.eq_def]
  cases slot with
  | none => rfl
  | some slot =>
    cases slot with
    | root => rfl
    | _ =>
      cases hstack : parser.stack with
      | nil => simp [view, hstack]
      | cons frame rest => simp [view, hstack, Frame.level]

theorem view_count : view (count slot parser) = view parser := by
  rw [count.eq_def]
  split
  next frame rest hstack =>
    split
    · simp [view, hstack, Frame.level]
    · rfl
  · rfl

theorem view_place : view (place slot value parser) = (view parser).assign slot value := by
  cases slot with
  | none => rfl
  | some slot =>
    have hview := view_assign (some slot) value (count (some slot) parser)
    rw [view_count] at hview
    exact hview

theorem valueSlot_view : (view parser).valueSlot = valueSlot parser := by
  rw [Reading.valueSlot.eq_def, valueSlot.eq_def]
  cases hstack : parser.stack with
  | nil => simp [view, hstack]
  | cons frame rest =>
    simp only [view, hstack, map_cons, Frame.level] <;> cases frame.container <;> rfl

theorem view_valueEnded : view (valueEnded parser) = (view parser).valueEnded := by
  rw [Reading.valueEnded.eq_def, valueEnded.eq_def]
  cases hstack : parser.stack with
  | nil =>
    simp only [view, hstack, map_nil]
    split <;> simp [hstack]
  | cons frame rest => simp [view, hstack, Frame.level]

end

theorem view_reportSet (path : Option Path) (value : JsonValue) (parser : Parser) :
    view (reportSet path value parser) = view parser := by
  cases path <;> rfl

/-! ### Strings -/

theorem takesKey_view (parser : Parser) : (view parser).takesKey = takesKey parser := by
  rw [Reading.takesKey.eq_def, takesKey]
  cases hstack : parser.stack with
  | nil => simp [view, hstack]
  | cons frame rest => simp [view, hstack, Frame.level]

theorem view_startString (parser : Parser) :
    view (startString parser) = (view parser).startString := by
  rw [startString, Reading.startString, takesKey_view]
  split
  · rfl
  dsimp only
  rw [valueSlot_view, ← view_place]
  cases reportedPath (valueSlot parser) parser <;> rfl

theorem view_reportText (text : JsString) (parser : Parser) :
    view (reportText text parser) = view parser := by
  rw [reportText]
  split
  · rfl
  rename_i opened hopened
  split
  · rfl
  split
  · rfl
  · simp [view, report, hopened]

theorem assign_frame (parser : Parser) :
    (assign slot value parser).string = parser.string ∧
      (assign slot value parser).scalar = parser.scalar ∧
      (assign slot value parser).done = parser.done := by
  rw [assign.eq_def]
  cases slot with
  | none => exact ⟨rfl, rfl, rfl⟩
  | some slot =>
    cases slot with
    | root => exact ⟨rfl, rfl, rfl⟩
    | _ => cases parser.stack <;> exact ⟨rfl, rfl, rfl⟩

theorem place_frame (parser : Parser) :
    (place slot value parser).string = parser.string ∧
      (place slot value parser).scalar = parser.scalar ∧
      (place slot value parser).done = parser.done := by
  cases slot with
  | none => exact ⟨rfl, rfl, rfl⟩
  | some slot =>
    have hcount : (count (some slot) parser).string = parser.string ∧
        (count (some slot) parser).scalar = parser.scalar ∧
        (count (some slot) parser).done = parser.done := by
      rw [count.eq_def]
      split
      · split <;> exact ⟨rfl, rfl, rfl⟩
      · exact ⟨rfl, rfl, rfl⟩
    obtain ⟨hstring, hscalar, hdone⟩ := assign_frame (some slot) value (count (some slot) parser)
    exact ⟨hstring.trans hcount.1, hscalar.trans hcount.2.1, hdone.trans hcount.2.2⟩

variable {parser : Parser} (reading : Reading)

/-- Where a value goes does not depend on the mode. -/
theorem Reading.assign_mode (mode : Mode) :
    assign slot value { reading with mode } = { assign slot value reading with mode } := by
  rw [assign.eq_def, assign.eq_def]
  cases slot with
  | none => rfl
  | some slot =>
    cases slot with
    | root => rfl
    | _ => cases hlevels : reading.levels <;> simp [hlevels]

theorem view_appendString {before : OpenString}
    (hbefore : parser.string = some before) (text : JsString) :
    view (appendString text parser) = (view parser).appendText text := by
  have hread : view { parser with string := some { before with text := before.text ++ text } } =
      { view parser with
        mode := .string before.target before.slot (before.text ++ text) before.escape } := rfl
  have hmode : (view parser).mode =
      .string before.target before.slot before.text before.escape := by
    rw [view, hbefore]
  rw [appendString, hbefore]
  dsimp only
  cases htarget : before.target with
  | key =>
    rw [htarget] at hread hmode
    rw [if_pos rfl, hread, Reading.appendText, hmode]
  | value =>
    rw [htarget] at hread hmode
    rw [if_neg (by decide), view_reportText, view_place, hread, Reading.assign_mode,
      Reading.appendText, hmode]

/-- A string is open. -/
structure InString (parser : Parser) : Prop where
  string : parser.string.isSome = true
  scalar : parser.scalar = []
  done : parser.done = false

section

variable (hstring : InString parser)

include hstring

theorem InString.appendString (text : JsString) :
    InString (appendString text parser) ∧ escaping (appendString text parser) = escaping parser := by
  obtain ⟨hopen, hscalar, hdone⟩ := hstring
  obtain ⟨before, hbefore⟩ := isSome_iff_exists.mp hopen
  rw [StreamingJson.appendString, hbefore, escaping, escaping, hbefore]
  dsimp only
  split
  · exact ⟨⟨rfl, hscalar, hdone⟩, rfl⟩
  obtain ⟨hplaced, hkept, hundone⟩ := place_frame before.slot (.str (before.text ++ text))
    { parser with string := some { before with text := before.text ++ text } }
  rw [reportText, hplaced]
  dsimp only
  split
  · exact ⟨⟨by rw [hplaced]; rfl, hkept.trans hscalar, hundone.trans hdone⟩, by rw [hplaced]⟩
  split
  · exact ⟨⟨rfl, hkept.trans hscalar, hundone.trans hdone⟩, rfl⟩
  · exact ⟨⟨rfl, hkept.trans hscalar, hundone.trans hdone⟩, rfl⟩

theorem InString.setEscape (escape : JsString) :
    InString (setEscape escape parser) ∧ escaping (setEscape escape parser) = escape := by
  obtain ⟨hopen, hscalar, hdone⟩ := hstring
  obtain ⟨opened, hopened⟩ := isSome_iff_exists.mp hopen
  rw [StreamingJson.setEscape, escaping, hopened]
  exact ⟨⟨rfl, hscalar, hdone⟩, rfl⟩

theorem InString.view_appendString (text : JsString) : view
    (StreamingJson.appendString text parser) = (view parser).appendText text := by
  obtain ⟨before, hbefore⟩ := isSome_iff_exists.mp hstring.string
  exact StreamingJson.view_appendString hbefore text

theorem view_setEscape (escape : JsString) :
    view (setEscape escape parser) = (view parser).setEscape escape := by
  obtain ⟨opened, hopened⟩ := isSome_iff_exists.mp hstring.string
  have hmode : (view parser).mode =
      .string opened.target opened.slot opened.text opened.escape := by
    rw [view, hopened]
  rw [Reading.setEscape, hmode, setEscape]
  simp [view, hopened]

theorem view_endString :
    view (endString parser) = (view parser).endString ∧ (endString parser).string = none ∧
      (endString parser).scalar = [] := by
  obtain ⟨hopen, hscalar, hdone⟩ := hstring
  obtain ⟨opened, hopened⟩ := isSome_iff_exists.mp hopen
  have hmode : (view parser).mode =
      .string opened.target opened.slot opened.text opened.escape := by
    rw [view, hopened]
  have hclosed : view { parser with string := none } = { view parser with mode := .between } := by
    simp [view, hscalar]
  rw [endString, hopened, Reading.endString, hmode]
  dsimp only
  cases htarget : opened.target with
  | key =>
    cases hstack : parser.stack with
    | nil => simp [view, hstack, hscalar]
    | cons frame rest => simp [view, hstack, hscalar, Frame.level]
  | value =>
    dsimp only
    rw [view_valueEnded, hclosed]
    refine ⟨rfl, ?_, ?_⟩
    · rw [valueEnded]
      split
      · split <;> rfl
      · rfl
    rw [valueEnded]
    split
    · split <;> exact hscalar
    · exact hscalar

end

/-! ### Writing a slot again -/

theorem setSlot_setSlot (slot : Slot) (first second : JsonValue) (container : Container) :
    setSlot slot second (setSlot slot first container) = setSlot slot second container := by
  cases container with
  | object fields =>
    cases slot with
    | member key => simp only [setSlot, PropertyList.put_put]
    | root | element => rfl
  | array items =>
    cases slot with
    | element index =>
      by_cases hlast : index = items.length
      · simp [setSlot, hlast]
      · simp [setSlot, hlast]
    | root | member => rfl

theorem Reading.assign_assign (first second : JsonValue) (reading : Reading) :
    assign slot second (assign slot first reading) = assign slot second reading := by
  cases slot with
  | none => rfl
  | some slot =>
    cases slot with
    | root => rfl
    | _ =>
      cases hlevels : reading.levels with
      | nil => simp [assign, hlevels]
      | cons level rest => simp [assign, hlevels, setSlot_setSlot]

theorem Reading.appendText_appendText (front back : JsString) (reading : Reading) :
    (reading.appendText front).appendText back = reading.appendText (front ++ back) := by
  cases hmode : reading.mode with
  | between | scalar => simp [appendText, hmode]
  | string target slot text escape =>
    cases target with
    | key => simp [appendText, hmode]
    | value => simp only [appendText, hmode, assign_mode, assign_assign, append_assoc]

/-! ### Pieces of strings -/

section

variable (hstring : InString parser)
include hstring

theorem InString.appendRun (run : JsString) :
    InString (appendRun run parser) ∧ escaping (appendRun run parser) = escaping parser := by
  rw [StreamingJson.appendRun]
  split
  · exact ⟨hstring, rfl⟩
  · exact hstring.appendString run

theorem InString.view_appendRun (run : JsString) (unit : UInt16) :
    view (StreamingJson.appendRun (run ++ [unit]) parser) =
      (view (StreamingJson.appendRun run parser)).appendText [unit] := by
  rw [StreamingJson.appendRun, StreamingJson.appendRun, if_neg (by simp),
    hstring.view_appendString]
  split
  next hempty =>
    rw [isEmpty_iff.mp hempty, nil_append]
  · rw [hstring.view_appendString, Reading.appendText_appendText]

theorem InString.feed_view (unit : UInt16) :
    (view parser).feed unit = (view parser).feedString (escaping parser) unit := by
  obtain ⟨opened, hopened⟩ := isSome_iff_exists.mp hstring.string
  have hmode : (view parser).mode =
      .string opened.target opened.slot opened.text opened.escape := by
    rw [view, hopened]
  rw [Reading.feed, if_neg (by simp [view, hstring.done]), hmode, escaping, hopened]

/-- A unit after the start of an escape: it is part of the escape, or the escape is text
and the unit is read on its own. -/
theorem continueEscape_spec
    (hescape : escaping parser ≠ []) (unit : UInt16) :
    InString (continueEscape unit parser).2 ∧
      if (continueEscape unit parser).1 then
        view (continueEscape unit parser).2 = (view parser).feed unit
      else escaping (continueEscape unit parser).2 = [] ∧
        (view parser).feed unit = (view (continueEscape unit parser).2).plain unit := by
  obtain ⟨hcleared, hnone⟩ := hstring.setEscape []
  have hclear := view_setEscape hstring []
  rw [hstring.feed_view, Reading.feedString, if_neg hescape, continueEscape]
  by_cases hstart : escaping parser = [backslash]
  · rw [if_pos hstart, if_pos hstart]
    cases hsimple : JsonQuote.simpleEscape unit with
    | some decoded =>
      refine ⟨(hcleared.appendString _).1, ?_⟩
      rw [if_pos rfl, hcleared.view_appendString, hclear]
    | none =>
      dsimp only
      split
      · refine ⟨(hstring.setEscape _).1, ?_⟩
        rw [if_pos rfl, view_setEscape hstring]
      refine ⟨(hcleared.appendString _).1, ?_⟩
      rw [if_neg (by simp), hcleared.view_appendString, hclear,
        (hcleared.appendString _).2]
      exact ⟨hnone, rfl⟩
  rw [if_neg hstart, if_neg hstart]
  split
  · split
    · refine ⟨(hstring.setEscape _).1, ?_⟩
      rw [if_pos rfl, view_setEscape hstring]
    refine ⟨(hcleared.appendString _).1, ?_⟩
    rw [if_pos rfl, hcleared.view_appendString, hclear]
  refine ⟨(hcleared.appendString _).1, ?_⟩
  rw [if_neg (by simp), hcleared.view_appendString, hclear, (hcleared.appendString _).2]
  exact ⟨hnone, rfl⟩

end

/-- After a piece of a string, it is still open or the units up to its end are read. -/
def StringRead (parser : Parser) (text : JsString) (read : Parser × JsString) : Prop :=
  ∃ front, text = front ++ read.2 ∧ (text ≠ [] → front ≠ []) ∧
    view read.1 = front.foldl Reading.feed (view parser) ∧
    ((read.2 = [] ∧ InString read.1) ∨ (read.1.string = none ∧ read.1.scalar = []))

theorem StringRead.cons {parser next : Parser} {unit : UInt16} {rest : JsString}
    {read : Parser × JsString} (hread : StringRead next rest read)
    (hview : view next = (view parser).feed unit) : StringRead parser (unit :: rest) read := by
  obtain ⟨front, htext, -, hfront, hend⟩ := hread
  refine ⟨unit :: front, by rw [htext]; rfl, fun _ => by simp, ?_, hend⟩
  rw [foldl_cons, ← hview]
  exact hfront

theorem stringRead_readString (hstring : InString parser) {run : JsString}
    (hrun : escaping parser ≠ [] → run = []) (text : JsString) :
    StringRead (appendRun run parser) text (readString run parser text) := by
  induction text generalizing parser run with
  | nil => exact ⟨[], rfl, fun hne => absurd rfl hne, rfl, .inl ⟨rfl, (hstring.appendRun run).1⟩⟩
  | cons unit rest ih =>
    -- A unit outside escapes, after the run before it.
    have hplain : ∀ next run, InString next → escaping next = [] →
        ∀ before, (view before).feed unit = (view (appendRun run next)).plain unit →
        StringRead before (unit :: rest)
          (if unit = quote then (endString (appendRun run next), rest)
          else if unit = backslash then
            readString [] (setEscape [backslash] (appendRun run next)) rest
          else readString (run ++ [unit]) next rest) := by
      intro next run hnext hnone before hfeed
      obtain ⟨hopen, hescape⟩ := hnext.appendRun run
      rw [Reading.plain] at hfeed
      split
      next hquote =>
        rw [if_pos hquote] at hfeed
        obtain ⟨hended, hclosed⟩ := view_endString hopen
        refine ⟨[unit], rfl, fun _ => by simp, ?_, .inr hclosed⟩
        rw [foldl_cons, foldl_nil, hfeed]
        exact hended
      rename_i hquote
      rw [if_neg hquote] at hfeed
      split
      next hslash =>
        rw [if_pos hslash] at hfeed
        obtain ⟨hset, -⟩ := hopen.setEscape [backslash]
        apply (ih hset fun _ => rfl).cons
        rw [hfeed]
        exact view_setEscape hopen [backslash]
      next hslash =>
        rw [if_neg hslash] at hfeed
        apply (ih hnext fun hbad => absurd hnone hbad).cons
        rw [hfeed]
        exact hnext.view_appendRun run unit
    rw [readString]
    by_cases hnone : escaping parser = []
    · rw [if_pos hnone]
      apply hplain parser run hstring hnone
      obtain ⟨hopen, hescape⟩ := hstring.appendRun run
      rw [hopen.feed_view, hescape, hnone]
      rfl
    rw [if_neg hnone, hrun hnone]
    obtain ⟨hnext, hspec⟩ := continueEscape_spec hstring hnone unit
    split
    next htaken =>
      rw [if_pos htaken] at hspec
      exact (ih hnext fun _ => rfl).cons hspec
    next htext =>
      rw [if_neg htext] at hspec
      exact hplain _ [] hnext hspec.1 parser hspec.2

/-! ### Pieces of scalars and what is between -/

theorem valueEnded_frame (parser : Parser) :
    (valueEnded parser).string = parser.string ∧ (valueEnded parser).scalar = parser.scalar := by
  rw [valueEnded]
  split
  · split <;> exact ⟨rfl, rfl⟩
  · exact ⟨rfl, rfl⟩

theorem reportSet_frame (path : Option Path) (value : JsonValue) (parser : Parser) :
    (reportSet path value parser).string = parser.string ∧
      (reportSet path value parser).scalar = parser.scalar := by
  cases path <;> exact ⟨rfl, rfl⟩

theorem view_endScalar (hstring : parser.string = none) (hscalar : parser.scalar ≠ []) :
    view (endScalar parser) = (view parser).endScalar ∧ (endScalar parser).string = none ∧
      (endScalar parser).scalar = [] := by
  have hmode : (view parser).mode = .scalar parser.scalar parser.scalarSlot := by
    simp [view, hstring, hscalar]
  have hended : view { parser with scalar := [], scalarSlot := none } =
      { view parser with mode := .between } := by
    simp [view, hstring]
  rw [endScalar, Reading.endScalar, hmode]
  dsimp only
  cases hvalue : scalarValue parser.scalar with
  | none =>
    obtain ⟨hkept, hempty⟩ := valueEnded_frame { parser with scalar := [], scalarSlot := none }
    rw [view_valueEnded, hended]
    exact ⟨rfl, hkept.trans hstring, hempty⟩
  | some value =>
    dsimp only
    obtain ⟨hplaced, hclear, -⟩ := place_frame parser.scalarSlot value
      { parser with scalar := [], scalarSlot := none }
    have hview := view_place parser.scalarSlot value
      { parser with scalar := [], scalarSlot := none }
    generalize place parser.scalarSlot value
      { parser with scalar := [], scalarSlot := none } = placed at hplaced hclear hview ⊢
    obtain ⟨hreported, hreported'⟩ :=
      reportSet_frame (reportedPath parser.scalarSlot placed) value placed
    obtain ⟨hkept, hempty⟩ :=
      valueEnded_frame (reportSet (reportedPath parser.scalarSlot placed) value placed)
    rw [view_valueEnded, view_reportSet, hview, hended]
    exact ⟨rfl, hkept.trans (hreported.trans (hplaced.trans hstring)),
      hempty.trans (hreported'.trans hclear)⟩

variable (container : Container)

theorem view_openContainer (parser : Parser) :
    view (openContainer container parser) = (view parser).openContainer container := by
  rw [openContainer, Reading.openContainer, valueSlot_view, view_reportSet, ← view_place]
  rfl

theorem view_closeContainer (parser : Parser) :
    view (closeContainer parser) = (view parser).closeContainer := by
  rw [closeContainer, Reading.closeContainer]
  cases hstack : parser.stack with
  | nil => simp [view, hstack]
  | cons frame rest =>
    have hlevels : (view parser).levels = frame.level :: rest.map Frame.level := by
      rw [view, hstack, map_cons]
    rw [hlevels]
    rw [view_valueEnded]
    have hclosed : view (assign frame.slot frame.container.toJson { parser with
        stack := rest
        pathCost := parser.pathCost - (frame.size + 1)
        dirty := true }) = Reading.assign frame.level.slot frame.level.container.toJson
          { view parser with levels := rest.map Frame.level } := by
      rw [view_assign]
      rfl
    split
    · rw [hclosed]
    · rw [view_reportSet, hclosed]

theorem view_structural (hstring : parser.string = none) (unit : UInt16) :
    view (structural unit parser) = (view parser).structural unit := by
  rw [structural, Reading.structural]
  split_ifs
  · rfl
  · exact view_startString parser
  · exact view_openContainer _ parser
  · exact view_openContainer _ parser
  · exact view_closeContainer parser
  · rw [Reading.setPhase]
    cases hstack : parser.stack with
    | nil => simp [view, hstack]
    | cons frame rest =>
      simp only [view, hstack, map_cons, Frame.level]
      split <;> simp [hstack, Frame.level]
  · rw [Reading.setPhase]
    cases hstack : parser.stack with
    | nil => simp [view, hstack]
    | cons frame rest => simp [view, hstack, Frame.level]
  · rw [valueSlot_view]
    simp [view, hstring]

theorem string_openContainer (parser : Parser) :
    (openContainer container parser).string = parser.string := by
  rw [openContainer, (reportSet_frame _ _ _).1]
  exact (place_frame _ _ parser).1

theorem string_closeContainer (parser : Parser) :
    (closeContainer parser).string = parser.string := by
  rw [closeContainer]
  split
  · rfl
  rw [(valueEnded_frame _).1]
  split
  · exact (assign_frame _ _ _).1
  rw [(reportSet_frame _ _ _).1]
  exact (assign_frame _ _ _).1

theorem modal_of_string_none (hstring : parser.string = none) : Modal parser := by
  intro hopen
  rw [hstring] at hopen
  cases hopen

/-- A structural unit starts a string, a scalar or neither. -/
theorem modal_structural (hstring : parser.string = none)
    (hscalar : parser.scalar = []) (unit : UInt16) : Modal (structural unit parser) := by
  rw [structural]
  split_ifs
  · exact fun _ => hscalar
  · intro _
    rw [startString]
    split
    · exact hscalar
    obtain ⟨-, hkept, -⟩ := place_frame (valueSlot parser) (.str []) parser
    obtain ⟨-, hreported⟩ := reportSet_frame (reportedPath (valueSlot parser) parser) (.str [])
      (place (valueSlot parser) (.str []) parser)
    exact hreported.trans (hkept.trans hscalar)
  · exact modal_of_string_none ((string_openContainer _ parser).trans hstring)
  · exact modal_of_string_none ((string_openContainer _ parser).trans hstring)
  · exact modal_of_string_none ((string_closeContainer parser).trans hstring)
  · apply modal_of_string_none
    split
    · exact hstring
    · split <;> exact hstring
  · apply modal_of_string_none
    split <;> exact hstring
  · exact modal_of_string_none hstring

theorem feed_scalar {reading : Reading} {token : JsString} {slot : Option Slot}
    (hdone : reading.done = false) (hmode : reading.mode = .scalar token slot)
    {units : JsString} (hunits : ∀ unit ∈ units, isDelimiter unit = false) :
    units.foldl Reading.feed reading = { reading with mode := .scalar (token ++ units) slot } := by
  induction units generalizing reading token with
  | nil =>
    rw [append_nil, ← hmode]
    rfl
  | cons unit rest ih =>
    have hunit := hunits unit mem_cons_self
    have hnext : reading.feed unit = { reading with mode := .scalar (token ++ [unit]) slot } := by
      rw [Reading.feed, if_neg (by rw [hdone]; decide), hmode]
      dsimp only
      rw [hunit, if_neg (by decide)]
    have hrest := @ih { reading with mode := .scalar (token ++ [unit]) slot }
      (token ++ [unit]) hdone rfl fun other hother =>
        hunits other (mem_cons_of_mem unit hother)
    rw [foldl_cons, hnext, hrest, append_assoc]
    rfl

variable {token : JsString}

/-- A delimiter ends the scalar before it is read. -/
theorem feed_endScalar {reading : Reading} {slot : Option Slot}
    (hdone : reading.done = false) (hmode : reading.mode = .scalar token slot)
    (hended : reading.endScalar.mode = .between) {unit : UInt16}
    (hunit : isDelimiter unit = true) : reading.feed unit = reading.endScalar.feed unit := by
  rw [Reading.feed, if_neg (by rw [hdone]; decide), hmode]
  dsimp only
  rw [if_pos hunit, Reading.feed, hended]

theorem Reading.mode_valueEnded : reading.valueEnded.mode = reading.mode := by
  rw [valueEnded]
  split
  · split <;> rfl
  · rfl

theorem Reading.mode_assign : (reading.assign slot value).mode = reading.mode := by
  rw [assign.eq_def]
  cases slot with
  | none => rfl
  | some slot =>
    cases slot with
    | root => rfl
    | _ => cases reading.levels <;> rfl

theorem Reading.mode_endScalar {reading : Reading} {slot : Option Slot}
    (hmode : reading.mode = .scalar token slot) : reading.endScalar.mode = .between := by
  rw [endScalar, hmode]
  rw [mode_valueEnded]
  split
  · rfl
  · exact mode_assign _ _ _

/-- The units up to a delimiter are read, and the scalar ends there. -/
theorem view_readScalar (hstring : parser.string = none)
    (hscalar : parser.scalar ≠ []) (hdone : parser.done = false) (text : JsString) :
    (readScalar parser text).2.foldl Reading.feed (view (readScalar parser text).1) =
        text.foldl Reading.feed (view parser) ∧
      (readScalar parser text).1.string = none ∧
      ((readScalar parser text).2 ≠ [] → (readScalar parser text).1.scalar = []) ∧
      (readScalar parser text).2.length ≤ text.length := by
  have hmode : (view parser).mode = .scalar parser.scalar parser.scalarSlot := by
    simp [view, hstring, hscalar]
  have hsplit : text = (text.takeWhile fun unit => !isDelimiter unit) ++
      text.dropWhile fun unit => !isDelimiter unit := (takeWhile_append_dropWhile).symm
  have hunits : ∀ unit ∈ text.takeWhile (fun unit => !isDelimiter unit),
      isDelimiter unit = false := by
    intro unit hunit
    simpa using all_eq_true.mp all_takeWhile unit hunit
  rw [readScalar]
  generalize (text.takeWhile fun unit => !isDelimiter unit) = units at hsplit hunits
  -- The units before the delimiter.
  have hread : ∃ read : Parser, (if units.isEmpty then parser else { parser with
        scalar := parser.scalar ++ units
        dirty := parser.dirty || parser.scalarSlot.isSome }) = read ∧
      view read = units.foldl Reading.feed (view parser) ∧ read.string = none ∧
      read.scalar ≠ [] ∧ read.done = false := by
    refine ⟨_, rfl, ?_⟩
    split
    next hempty =>
      rw [isEmpty_iff.mp hempty]
      exact ⟨rfl, hstring, hscalar, hdone⟩
    · refine ⟨?_, hstring, by simp [hscalar], hdone⟩
      rw [feed_scalar hdone hmode hunits]
      simp [view, hstring, hscalar]
  obtain ⟨read, hread, hview, hnone, htoken, hundone⟩ := hread
  rw [hread]
  cases hrest : text.dropWhile fun unit => !isDelimiter unit with
  | nil =>
    rw [hrest, append_nil] at hsplit
    refine ⟨?_, hnone, fun hne => absurd rfl hne, Nat.zero_le _⟩
    rw [hsplit]
    exact hview
  | cons unit rest =>
    have hunit : isDelimiter unit = true := by
      have hhead := head?_dropWhile_not (fun unit => !isDelimiter unit) text
      rw [hrest] at hhead
      simpa using hhead
    obtain ⟨hended, hclosed, hempty⟩ := view_endScalar hnone htoken
    have hmode' : (view read).mode = .scalar read.scalar read.scalarSlot := by
      simp [view, hnone, htoken]
    rw [hrest] at hsplit
    refine ⟨?_, hclosed, fun _ => hempty, ?_⟩
    · rw [hsplit, foldl_append, ← hview, foldl_cons, foldl_cons,
        feed_endScalar hundone hmode' (Reading.mode_endScalar hmode') hunit, ← hended]
      rfl
    rw [hsplit, length_append]
    exact Nat.le_add_left _ _

/-! ### Pieces -/

/-- The rounds that a text takes: one more when a scalar is to end first. -/
def rounds (parser : Parser) (text : JsString) : Nat :=
  2 * text.length + if parser.scalar.isEmpty then 0 else 1

theorem view_readPiece {fuel : Nat} {parser : Parser} (hmodal : Modal parser)
    {text : JsString} (hfuel : rounds parser text ≤ fuel) :
    view (readPiece fuel parser text) = text.foldl Reading.feed (view parser) ∧
      Modal (readPiece fuel parser text) := by
  induction fuel generalizing parser text with
  | zero =>
    have hlength : text.length = 0 := by
      rw [rounds] at hfuel
      omega
    rw [length_eq_zero_iff.mp hlength, readPiece]
    exact ⟨rfl, hmodal⟩
  | succ fuel ih =>
    cases text with
    | nil => exact ⟨rfl, hmodal⟩
    | cons unit rest =>
      rw [rounds, length_cons] at hfuel
      rw [readPiece]
      split
      next hdone =>
        exact ⟨(Reading.foldl_feed_done hdone _).symm, hmodal⟩
      rename_i hdone
      split
      next hopen =>
        have hstring : InString parser := ⟨hopen, hmodal hopen, by simpa using hdone⟩
        obtain ⟨front, htext, hne, hview, hend⟩ :=
          stringRead_readString hstring (fun _ => rfl) (unit :: rest)
        have hfront := length_pos_iff.mpr (hne (by simp))
        have hlength := congrArg length htext
        rw [length_append, length_cons] at hlength
        have hempty : (readString [] parser (unit :: rest)).1.scalar = [] := by
          rcases hend with ⟨-, hstill⟩ | ⟨-, hscalar⟩
          · exact hstill.scalar
          · exact hscalar
        obtain ⟨hnext, hkept⟩ := @ih (readString [] parser (unit :: rest)).1
          (fun _ => hempty) (readString [] parser (unit :: rest)).2
          (by rw [rounds, hempty]; simp only [isEmpty_nil, if_true]; omega)
        refine ⟨?_, hkept⟩
        rw [hnext, hview, ← foldl_append, ← htext]
        rfl
      rename_i hclosed
      have hstring : parser.string = none := by simpa using hclosed
      split
      next hscalar =>
        have htoken : parser.scalar ≠ [] := by simpa using hscalar
        obtain ⟨hview, hnone, hended, hlength⟩ :=
          view_readScalar hstring htoken (by simpa using hdone) (unit :: rest)
        rw [length_cons] at hlength
        rw [hscalar, if_neg (by decide)] at hfuel
        have hrounds : rounds (readScalar parser (unit :: rest)).1
            (readScalar parser (unit :: rest)).2 ≤ fuel := by
          rw [rounds]
          by_cases hrest : (readScalar parser (unit :: rest)).2 = []
          · rw [hrest, length_nil]
            split <;> omega
          rw [hended hrest]
          simp only [isEmpty_nil, if_true]
          omega
        obtain ⟨hnext, hkept⟩ := ih (modal_of_string_none hnone) hrounds
        exact ⟨hnext.trans hview, hkept⟩
      next hscalar =>
        have hempty : parser.scalar = [] := by simpa using hscalar
        have hmode : (view parser).mode = .between := by simp [view, hstring, hempty]
        obtain ⟨hnext, hkept⟩ := @ih (structural unit parser)
          (modal_structural hstring hempty unit) rest
          (by rw [rounds]; split <;> omega)
        refine ⟨?_, hkept⟩
        rw [hnext, view_structural hstring, foldl_cons, Reading.feed,
          if_neg (by simpa [view] using hdone), hmode]

/-- A piece is read as its units are. -/
theorem view_append (hmodal : Modal parser) (text : JsString) :
    view (append text parser) = text.foldl Reading.feed (view parser) ∧
      Modal (append text parser) := by
  have hstart : view { parser with
      credit := parser.credit + (creditPerAppend + creditPerCharacter * text.length)
      changes := []
      string := parser.string.map fun opened => { opened with change := none } } =
        view parser := by
    rw [view, view]
    cases parser.string <;> rfl
  rw [← hstart]
  apply view_readPiece
  · intro hopen
    apply hmodal
    simpa using hopen
  rw [rounds]
  split <;> omega

end Hummin.StreamingJson
