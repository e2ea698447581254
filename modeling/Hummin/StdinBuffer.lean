/-
Terminal input as it is read. A buffer keeps what a read leaves of an escape sequence until
the next read completes it, gives one event for each sequence, and takes the text between the
markers of a bracketed paste as one event of its own.
-/
import Hummin.JsString
import Hummin.Lexer
import Hummin.PatternSearch

namespace Hummin.StdinBuffer

def esc : UInt16 := 0x1b

def bel : UInt16 := 0x07

/-- CAN and SUB cancel a control string. -/
def cancels : List UInt16 := [0x18, 0x1a]

def bracketedPasteStart : JsString := esc :: js ['[', '2', '0', '0', '~']

def bracketedPasteEnd : JsString := esc :: js ['[', '2', '0', '1', '~']

/-- The units that begin a sequence after ESC: of CSI, OSC, SS3, DCS and APC. -/
def introducers : JsString := js ['[', ']', 'O', 'P', '_']

def startsWith (data pattern : JsString) : Bool :=
  pattern.isPrefixOf data

def endsWith (data pattern : JsString) : Bool :=
  pattern.isSuffixOf data

/-- A pattern at the front of a text, and a test of the text after it. -/
def after (pattern : JsString) (test : JsString → Bool) (data : JsString) : Bool :=
  startsWith data pattern && test (data.drop pattern.length)

/-! ### Headers of terminal replies -/

/-- What `[a-z]=\\d+` still needs of a pair. -/
inductive PairPart
  | name | equals | digits | moreDigits
deriving DecidableEq

/-- `(?:[a-z]=\\d+,)*[a-z]=\\d+;` -/
def graphicsPairs : PairPart → JsString → Bool
  | _, [] => false
  | .name, unit :: rest => 97 ≤ unit.toNat && unit.toNat ≤ 122 && graphicsPairs .equals rest
  | .equals, unit :: rest => js ['='] == [unit] && graphicsPairs .digits rest
  | .digits, unit :: rest => isDigitUnit unit && graphicsPairs .moreDigits rest
  | .moreDigits, unit :: rest =>
    if isDigitUnit unit then graphicsPairs .moreDigits rest
    else if js [','] = [unit] then graphicsPairs .name rest
    else js [';'] == [unit]

/-- Up to `left` digits and a semicolon. -/
def semicolonWithin : Nat → JsString → Bool
  | _, [] => false
  | 0, unit :: _ => js [';'] == [unit]
  | left + 1, unit :: rest =>
    if isDigitUnit unit then semicolonWithin left rest else js [';'] == [unit]

/-- `\\d{1,3};` -/
def paletteIndex : JsString → Bool
  | [] => false
  | unit :: rest => isDigitUnit unit && semicolonWithin 2 rest

/-- `TERMINAL_REPLY_HEADER_PATTERN`: color and program-status OSC replies, XTVersion, and Kitty
graphics replies. -/
def hasReplyHeader : JsString → Bool :=
  after [esc] fun data =>
    startsWith data (js [']', '1', '0', ';']) || startsWith data (js [']', '1', '1', ';']) ||
      after (js [']', '4', ';']) paletteIndex data ||
      startsWith data (js [']', '7', '5', '0', '1', ';', '?']) ||
      startsWith data (js ['P', '>', '|']) ||
      after (js ['_', 'G']) (graphicsPairs .name) data

def isControlString (data : JsString) : Bool :=
  startsWith data (esc :: js [']']) || startsWith data (esc :: js ['P']) ||
    startsWith data (esc :: js ['_'])

/-! ### Complete sequences -/

inductive Completeness
  | complete | incomplete | notEscape
deriving DecidableEq

/-- `/^\\d+$/` -/
def isNumber (text : JsString) : Bool :=
  !text.isEmpty && text.all isDigitUnit

/-- The three numbers of a mouse report, without its first and last unit. -/
def isThreeNumbers (text : JsString) : Bool :=
  let parts := text.splitOn 59
  parts.length == 3 && parts.all isNumber

/-- CSI sequences end with a unit in the range @ to ~; a mouse report also needs its three
numbers. -/
def isCompleteCsiSequence (data : JsString) : Completeness :=
  if ¬ startsWith data (esc :: js ['[']) then .complete
  else if data.length < 3 then .incomplete
  else
    let payload := data.drop 2
    let lastChar := payload.getLastD 0
    if 0x40 ≤ lastChar.toNat ∧ lastChar.toNat ≤ 0x7e then
      if startsWith payload (js ['<']) then
        -- the pattern and the test of the parts that follows it ask for the same
        if lastChar ∈ js ['M', 'm'] ∧ isThreeNumbers (payload.drop 1).dropLast then .complete
        else .incomplete
      else .complete
    else .incomplete

/-- A control string ends with ST, an OSC also with BEL. -/
def isCompleteOscSequence (data : JsString) : Completeness :=
  if ¬ startsWith data (esc :: js [']']) then .complete
  else if endsWith data (esc :: js ['\\']) || endsWith data [bel] then .complete
  else .incomplete

def isCompleteDcsSequence (data : JsString) : Completeness :=
  if ¬ startsWith data (esc :: js ['P']) then .complete
  else if endsWith data (esc :: js ['\\']) then .complete
  else .incomplete

def isCompleteApcSequence (data : JsString) : Completeness :=
  if ¬ startsWith data (esc :: js ['_']) then .complete
  else if endsWith data (esc :: js ['\\']) then .complete
  else .incomplete

def isCompleteSequence (data : JsString) : Completeness :=
  if ¬ startsWith data [esc] then .notEscape
  else if data.length = 1 then .incomplete
  else
    let afterEsc := data.drop 1
    if startsWith afterEsc (js ['[']) then
      -- an old-style mouse report is three units after ESC [ M
      if startsWith afterEsc (js ['[', 'M']) then
        if 6 ≤ data.length then .complete else .incomplete
      else isCompleteCsiSequence data
    else if startsWith afterEsc (js [']']) then isCompleteOscSequence data
    else if startsWith afterEsc (js ['P']) then isCompleteDcsSequence data
    else if startsWith afterEsc (js ['_']) then isCompleteApcSequence data
    else if startsWith afterEsc (js ['O']) then
      if 2 ≤ afterEsc.length then .complete else .incomplete
    else .complete

/-! ### Extraction -/

/-- The search for the end of an escape sequence: `taken` is the candidate without the unit
that is looked at next. Gives the sequences found and the text after them. -/
@[grind =]
def scanEscape (terminalReply : Bool) : JsString → JsString → Option (List JsString × JsString)
  | _, [] => none
  | taken, char :: rest =>
    let candidate := taken ++ [char]
    if terminalReply ∧ 2 < candidate.length ∧ char ∈ cancels then some ([], rest)
    else if terminalReply ∧ 2 < candidate.length ∧ char = esc ∧ rest ≠ [] ∧
        ¬ startsWith rest (js ['\\']) then
      -- a new escape sequence aborts an unterminated reply
      some ([], char :: rest)
    else
      match isCompleteSequence candidate with
      | .complete =>
        -- an Escape key press sent as a raw ESC before another sequence
        if candidate = [esc, esc] ∧ rest.head?.any (· ∈ introducers) then
          some ([[esc]], char :: rest)
        else some ([candidate], rest)
      | .incomplete => scanEscape terminalReply candidate rest
      | .notEscape => some ([candidate], rest)

/-- One round of the loop of `extractCompleteSequences`; `none` when the remaining text is an
unfinished sequence. -/
def nextSequence : JsString → Option (List JsString × JsString)
  | [] => none
  | unit :: rest =>
    if unit = esc then
      scanEscape (isControlString (unit :: rest) && hasReplyHeader (unit :: rest)) []
        (unit :: rest)
    else some ([[unit]], rest)

/-- The sequences of a buffer and its remainder. -/
def extractCompleteSequences (buffer : JsString) : List JsString × JsString :=
  Lexer.read nextSequence buffer

/-! ### The buffer -/

/-- A code point that a key of its own prints. -/
abbrev PrintableCodepoint : Type :=
  { codepoint : Nat // 32 ≤ codepoint }

/-- `/^\\x1b\\[(\\d+)(?::\\d*)?(?::\\d+)?u$/`, with a code point of 32 at least. -/
def parseUnmodifiedKittyPrintableCodepoint (sequence : JsString) : Option PrintableCodepoint :=
  if startsWith sequence (esc :: js ['[']) ∧ endsWith sequence (js ['u']) then
    let printable := fun digits : JsString =>
      if h : isNumber digits ∧ 32 ≤ decimalValue digits then
        some ⟨decimalValue digits, h.2⟩
      else none
    match ((sequence.drop 2).dropLast).splitOn 58 with
    | [digits] => printable digits
    | [digits, shifted] => if shifted.all isDigitUnit then printable digits else none
    | [digits, shifted, base] =>
      if shifted.all isDigitUnit ∧ isNumber base then printable digits else none
    | _ => none
  else none

inductive Event
  | data (sequence : JsString)
  | paste (content : JsString)
deriving DecidableEq

structure State where
  buffer : JsString
  pasteMode : Bool
  pasteBuffer : JsString
  pendingKittyPrintableCodepoint : Option PrintableCodepoint
  /-- The events given so far. -/
  events : List Event
deriving DecidableEq

/-- A buffer as it is made. -/
def State.fresh : State :=
  ⟨[], false, [], none, []⟩

/-- The code point of a single unit. -/
def rawCodepoint : JsString → Option Nat
  | [unit] => some unit.toNat
  | _ => none

/-- A single unit that the sequence before it has already reported is left out. -/
def emitDataSequence (s : State) (sequence : JsString) : State :=
  if (rawCodepoint sequence).isSome ∧
      rawCodepoint sequence = s.pendingKittyPrintableCodepoint.map (·.val) then
    { s with pendingKittyPrintableCodepoint := none }
  else
    { s with
      pendingKittyPrintableCodepoint := parseUnmodifiedKittyPrintableCodepoint sequence
      events := s.events ++ [.data sequence] }

def emitDataSequences (s : State) (sequences : List JsString) : State :=
  sequences.foldl emitDataSequence s

/-- The end of a paste, looked for in all that the paste has so far; `again` processes what
comes after it. -/
def closePaste (again : State → JsString → State) (s : State) : State :=
  match firstIndexOf bracketedPasteEnd s.pasteBuffer with
  | none => s
  | some endIndex =>
    let pastedContent := s.pasteBuffer.take endIndex
    let remaining := s.pasteBuffer.drop (endIndex + bracketedPasteEnd.length)
    let closed := { s with
      pasteMode := false
      pasteBuffer := []
      pendingKittyPrintableCodepoint := none
      events := s.events ++ [.paste pastedContent] }
    if remaining = [] then closed else again closed remaining

/-- `process`; `fuel` bounds the calls it makes of itself. -/
def processFrom : Nat → State → JsString → State
  | 0, s, _ => s
  | fuel + 1, s, data =>
    if data = [] ∧ s.buffer = [] then emitDataSequence s []
    else
      let buffer := s.buffer ++ data
      if s.pasteMode then
        closePaste (processFrom fuel)
          { s with buffer := [], pasteBuffer := s.pasteBuffer ++ buffer }
      else
        match firstIndexOf bracketedPasteStart buffer with
        | some startIndex =>
          let before :=
            if 0 < startIndex then
              emitDataSequences s (extractCompleteSequences (buffer.take startIndex)).1
            else s
          closePaste (processFrom fuel)
            { before with
              pendingKittyPrintableCodepoint := none
              buffer := []
              pasteMode := true
              pasteBuffer := buffer.drop (startIndex + bracketedPasteStart.length) }
        | none =>
          let result := extractCompleteSequences buffer
          emitDataSequences { s with buffer := result.2 } result.1

/-- One read. Every call that `process` makes of itself has less text left than it had. -/
def process (s : State) (data : JsString) : State :=
  processFrom (s.pasteBuffer.length + s.buffer.length + data.length + 1) s data

end Hummin.StdinBuffer
