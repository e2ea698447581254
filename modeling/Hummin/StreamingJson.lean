/-
The incremental, tolerant reading of JSON text that arrives in pieces.  An open
container is one object with the value placed in its parent; here the parent gets it
when it closes, and a snapshot puts it there before.
-/
import Hummin.JsonText

namespace Hummin.StreamingJson

open JsonText

/-- Where a value sits in its parent. -/
inductive Slot
  | root
  | member (key : JsString)
  | element (index : Nat)
deriving DecidableEq

/-- `JsonContainer`. -/
inductive Container
  | object (fields : List (JsString × JsonValue))
  | array (items : List JsonValue)

def Container.toJson : Container → JsonValue
  | .object fields => .obj () fields
  | .array items => .arr () items

def Container.isArray : Container → Bool
  | .object _ => false
  | .array _ => true

inductive Phase
  | key
  | colon
  | value
  | comma
deriving DecidableEq

/-- `JsonChange`: one change that a piece of text made to the value. -/
inductive Change
  | set (path : Path) (value : JsonValue)
  | append (path : Path) (text : JsString)

/-- An open object or array. -/
structure Frame where
  container : Container
  slot : Option Slot
  path : Option Path
  reportsInside : Bool
  size : Nat
  key : Option JsString
  phase : Phase

inductive Target
  | key
  | value
deriving DecidableEq

/-- An unterminated string.  The change that it extends is named by its place among the
changes of the piece. -/
structure OpenString where
  target : Target
  slot : Option Slot
  text : JsString
  escape : JsString
  path : Option Path
  change : Option Nat

/-- `StreamingJsonParser`.  The innermost open container comes first. -/
structure Parser where
  root : Option JsonValue
  done : Bool
  stack : List Frame
  string : Option OpenString
  scalar : JsString
  scalarSlot : Option Slot
  pathCost : Int
  credit : Int
  dirty : Bool
  snapshot : Option JsonValue
  changes : List Change

def Parser.start : Parser :=
  ⟨none, false, [], none, [], none, 0, 0, false, none, []⟩

def maxReportedDepth : Nat := 32
def creditPerAppend : Int := 256
def creditPerCharacter : Int := 8
def maxPendingScalarLength : Nat := 64

def quote : UInt16 := 34
def backslash : UInt16 := 92

/-! ### Scalars -/

def isDelimiter (unit : UInt16) : Bool :=
  isSpace unit || unit == commaUnit || unit == colonUnit || unit == openBrace ||
    unit == closeBrace || unit == openBracket || unit == closeBracket || unit == quote

def isHexDigit (unit : UInt16) : Bool :=
  (JsonQuote.hexValue unit).isSome

/-- The value of a token that is a number of JSON as a whole. -/
def numberOf (token : JsString) : Option ℚ :=
  match readNumber token with
  | some (value, []) => some value
  | _ => none

/-- `scalarValue`: the value of a complete number or literal token. -/
def scalarValue (token : JsString) : Option JsonValue :=
  if token = trueText then some (.bool true)
  else if token = falseText then some (.bool false)
  else if token = nullText then some .null
  else (numberOf token).map .num

/-- The token before an exponent that has no digits yet. -/
def mantissa (token : JsString) : Option JsString :=
  let unsigned :=
    if token.getLast? = some plusUnit ∨ token.getLast? = some minusUnit then token.dropLast
    else token
  if unsigned.getLast?.any isExponentUnit then some unsigned.dropLast else none

/-- `pendingScalarValue`: the value that an unterminated token shows. -/
def pendingScalarValue (token : JsString) : Option JsonValue :=
  if token.isPrefixOf trueText then some (.bool true)
  else if token.isPrefixOf falseText then some (.bool false)
  else if token.isPrefixOf nullText then some .null
  else match numberOf token with
    | some value => some (.num value)
    | none =>
      match mantissa token with
      | some digits => if digits.any isExponentUnit then none else (numberOf digits).map .num
      | none => none

/-! ### Placing values -/

/-- `setSlot`: write the value at a slot of a container. -/
def setSlot (slot : Slot) (value : JsonValue) : Container → Container
  | .object fields =>
    match slot with
    | .member key => .object (PropertyList.put keyPrecedes key value fields)
    | _ => .object fields
  | .array items =>
    match slot with
    | .element index =>
      if index = items.length then .array (items ++ [value])
      else .array (items.set index value)
    | _ => .array items

/-- Whether a write at the slot adds a member or an element. -/
def isNewSlot (slot : Slot) : Container → Bool
  | .object fields =>
    match slot with
    | .member key => (PropertyList.get key fields).isNone
    | _ => false
  | .array items =>
    match slot with
    | .element index => index = items.length
    | _ => false

/-- The value at a slot of the open path. -/
def assign (slot : Option Slot) (value : JsonValue) (parser : Parser) : Parser :=
  match slot with
  | none => parser
  | some .root => { parser with root := some value }
  | some slot =>
    match parser.stack with
    | [] => parser
    | frame :: rest => { parser with
        stack := { frame with container := setSlot slot value frame.container } :: rest }

/-- A new member or element makes the open path cost more. -/
def count (slot : Option Slot) (parser : Parser) : Parser :=
  match slot, parser.stack with
  | some slot, frame :: rest =>
    if isNewSlot slot frame.container then { parser with
      stack := { frame with size := frame.size + 1 } :: rest
      pathCost := parser.pathCost + 1 }
    else parser
  | _, _ => parser

/-- `#place`: set the value at a slot of the open path; nothing for a value in an
invalid position. -/
def place (slot : Option Slot) (value : JsonValue) (parser : Parser) : Parser :=
  match slot with
  | none => parser
  | some slot => { assign slot value (count slot parser) with dirty := true }

/-- `#valueSlot`: where a value starting now goes. -/
def valueSlot (parser : Parser) : Option Slot :=
  match parser.stack with
  | [] => if parser.root.isNone then some .root else none
  | frame :: _ =>
    match frame.container with
    | .array items => some (.element items.length)
    | .object _ =>
      if frame.phase = .value ∨ frame.phase = .colon then frame.key.map .member else none

/-- `#valueEnded`: a value in the innermost container, or the root value, has ended. -/
def valueEnded (parser : Parser) : Parser :=
  match parser.stack with
  | [] => if parser.root.isSome then { parser with done := true } else parser
  | frame :: rest => { parser with stack := { frame with phase := .comma } :: rest }

/-! ### Reports -/

/-- `#reportedPath`: the path of a value at a slot of the innermost container, when its
changes are reported. -/
def reportedPath (slot : Option Slot) (parser : Parser) : Option Path :=
  match slot, parser.stack with
  | none, _ => none
  | some .root, _ => some []
  | some (.member key), frame :: _ =>
    if frame.reportsInside then frame.path.map (· ++ [.key key]) else none
  | some (.element index), frame :: _ =>
    if frame.reportsInside then frame.path.map (· ++ [.index index]) else none
  | some _, [] => none

def report (change : Change) (parser : Parser) : Parser :=
  { parser with changes := parser.changes ++ [change] }

/-- Report that the value at a path is set, where changes are reported. -/
def reportSet (path : Option Path) (value : JsonValue) (parser : Parser) : Parser :=
  match path with
  | none => parser
  | some path => report (.set path value) parser

/-- A change with text that follows it. -/
def Change.extend (text : JsString) : Change → Change
  | .set path (.str value) => .set path (.str (value ++ text))
  | .set path value => .set path value
  | .append path before => .append path (before ++ text)

/-! ### Strings -/

/-- Whether a string starting now is a key; a missing comma is tolerated. -/
def takesKey (parser : Parser) : Bool :=
  match parser.stack with
  | [] => false
  | frame :: _ => !frame.container.isArray && (frame.phase = .key || frame.phase = .comma)

/-- `#startString`. -/
def startString (parser : Parser) : Parser :=
  if takesKey parser then { parser with string := some ⟨.key, none, [], [], none, none⟩ }
  else
    let slot := valueSlot parser
    let path := reportedPath slot parser
    let placed := place slot (.str []) parser
    { reportSet path (.str []) placed with
      string := some ⟨.value, slot, [], [], path, path.map fun _ => placed.changes.length⟩ }

/-- Extend the open string's newest change while nothing came after it, else report an
append. -/
def reportText (text : JsString) (parser : Parser) : Parser :=
  match parser.string with
  | none => parser
  | some opened =>
    match opened.path with
    | none => parser
    | some path =>
      if opened.change.any fun index => index + 1 = parser.changes.length then
        { parser with
          changes := parser.changes.modify (parser.changes.length - 1)
            (Change.extend text) }
      else { report (.append path text) parser with
        string := some { opened with change := some parser.changes.length } }

/-- `#appendString`: text of the open string. -/
def appendString (text : JsString) (parser : Parser) : Parser :=
  match parser.string with
  | none => parser
  | some before =>
    let opened := { before with text := before.text ++ text }
    let read := { parser with string := some opened }
    if opened.target = .key then read
    else reportText text (place opened.slot (.str opened.text) read)

/-- Text that is appended only when there is some. -/
def appendRun (text : JsString) (parser : Parser) : Parser :=
  if text.isEmpty then parser else appendString text parser

/-- The escape read so far of the open string. -/
def escaping (parser : Parser) : JsString :=
  match parser.string with
  | none => []
  | some opened => opened.escape

def setEscape (escape : JsString) (parser : Parser) : Parser :=
  { parser with string := parser.string.map fun opened => { opened with escape } }

/-- The unit that four hexadecimal digits stand for. -/
def hexUnits (digits : JsString) : UInt16 :=
  UInt16.ofNat (digits.foldl (fun value unit =>
    value * 16 + (JsonQuote.hexValue unit).getD 0) 0)

/-- `#continueEscape`: whether the unit is part of the escape, else it is read as a
normal one. -/
def continueEscape (unit : UInt16) (parser : Parser) : Bool × Parser :=
  let escape := escaping parser
  if escape = [backslash] then
    match JsonQuote.simpleEscape unit with
    | some decoded => (true, appendString [decoded] (setEscape [] parser))
    | none =>
      if unit = 117 then (true, setEscape [backslash, 117] parser)
      else (false, appendString [backslash] (setEscape [] parser))
  else if isHexDigit unit then
    if (escape ++ [unit]).length < 6 then (true, setEscape (escape ++ [unit]) parser)
    else (true, appendString [hexUnits ((escape ++ [unit]).drop 2)] (setEscape [] parser))
  else (false, appendString escape (setEscape [] parser))

/-- `#endString`. -/
def endString (parser : Parser) : Parser :=
  match parser.string with
  | none => parser
  | some opened =>
    let closed := { parser with string := none }
    match opened.target with
    | .key =>
      match closed.stack with
      | [] => closed
      | frame :: rest => { closed with
          stack := { frame with key := some opened.text, phase := .colon } :: rest }
    | .value => valueEnded closed

/-- `#readString`: read string units until the string or the text ends.  The run holds
those that are not appended yet. -/
def readString (run : JsString) (parser : Parser) : JsString → Parser × JsString
  | [] => (appendRun run parser, [])
  | unit :: rest =>
    let continued :=
      if escaping parser = [] then (false, parser, run)
      else
        let continued := continueEscape unit parser
        (continued.1, continued.2, [])
    let parser := continued.2.1
    let run := continued.2.2
    if continued.1 then readString [] parser rest
    else if unit = quote then (endString (appendRun run parser), rest)
    else if unit = backslash then
      readString [] (setEscape [backslash] (appendRun run parser)) rest
    else readString (run ++ [unit]) parser rest

/-! ### Scalars and containers -/

/-- `#endScalar`. -/
def endScalar (parser : Parser) : Parser :=
  let token := parser.scalar
  let slot := parser.scalarSlot
  let ended := { parser with scalar := [], scalarSlot := none }
  valueEnded <| match scalarValue token with
    | none => ended
    | some value => reportSet (reportedPath slot (place slot value ended)) value
        (place slot value ended)

/-- `#readScalar`: read number or literal units up to the next delimiter. -/
def readScalar (parser : Parser) (text : JsString) : Parser × JsString :=
  let units := text.takeWhile fun unit => !isDelimiter unit
  let rest := text.dropWhile fun unit => !isDelimiter unit
  let read :=
    if units.isEmpty then parser
    else { parser with
      scalar := parser.scalar ++ units
      dirty := parser.dirty || parser.scalarSlot.isSome }
  (if rest.isEmpty then read else endScalar read, rest)

/-- `#openContainer`. -/
def openContainer (container : Container) (parser : Parser) : Parser :=
  let slot := valueSlot parser
  let path := reportedPath slot parser
  let placed := place slot container.toJson parser
  reportSet path container.toJson { placed with
    stack := ⟨container, slot, path, path.any fun path => path.length < maxReportedDepth, 0,
      none, if container.isArray then .value else .key⟩ :: placed.stack
    pathCost := placed.pathCost + 1
    dirty := true }

/-- `#closeContainer`. -/
def closeContainer (parser : Parser) : Parser :=
  match parser.stack with
  | [] => parser
  | frame :: rest =>
    let closed := assign frame.slot frame.container.toJson { parser with
      stack := rest
      pathCost := parser.pathCost - (frame.size + 1)
      dirty := true }
    valueEnded (if frame.reportsInside then closed
      else reportSet frame.path frame.container.toJson closed)

/-- `#structural`: one unit outside strings. -/
def structural (unit : UInt16) (parser : Parser) : Parser :=
  if isSpace unit then parser
  else if unit = quote then startString parser
  else if unit = openBrace then openContainer (.object []) parser
  else if unit = openBracket then openContainer (.array []) parser
  else if unit = closeBrace ∨ unit = closeBracket then closeContainer parser
  else if unit = colonUnit then
    match parser.stack with
    | [] => parser
    | frame :: rest =>
      if frame.container.isArray = false ∧ frame.phase = .colon then
        { parser with stack := { frame with phase := .value } :: rest }
      else parser
  else if unit = commaUnit then
    match parser.stack with
    | [] => parser
    | frame :: rest => { parser with
        stack := { frame with
          phase := if frame.container.isArray then .value else .key } :: rest }
  else { parser with
    scalar := [unit]
    scalarSlot := valueSlot parser
    dirty := parser.dirty || (valueSlot parser).isSome }

/-! ### Pieces and snapshots -/

/-- The loop of `append()`; the fuel bounds its rounds. -/
def readPiece : Nat → Parser → JsString → Parser
  | 0, parser, _ => parser
  | fuel + 1, parser, text =>
    match text with
    | [] => parser
    | unit :: rest =>
      if parser.done then parser
      else if parser.string.isSome then
        let read := readString [] parser (unit :: rest)
        readPiece fuel read.1 read.2
      else if parser.scalar.isEmpty = false then
        let read := readScalar parser (unit :: rest)
        readPiece fuel read.1 read.2
      else readPiece fuel (structural unit parser) rest

/-- `append()`: read the next piece of text.  A round that reads nothing ends a scalar, so
that every unit takes two rounds at most. -/
def append (text : JsString) (parser : Parser) : Parser :=
  readPiece (2 * text.length + 1) { parser with
    credit := parser.credit + (creditPerAppend + creditPerCharacter * text.length)
    changes := []
    string := parser.string.map fun opened => { opened with change := none } } text

/-- `#pendingScalar`: the value of the unterminated scalar, if it shows. -/
def pendingScalar (parser : Parser) : Option (Slot × JsonValue) :=
  match parser.scalarSlot with
  | none => none
  | some slot =>
    if parser.scalar.isEmpty ∨ maxPendingScalarLength < parser.scalar.length then none
    else (pendingScalarValue parser.scalar).map fun value => (slot, value)

/-- A container with the value of a slot, if there is one. -/
def withChild (child : Option (Slot × JsonValue)) (container : Container) : Container :=
  match child with
  | none => container
  | some (slot, value) => setSlot slot value container

/-- The outermost copy and where it sits, from the innermost open container on. -/
def copyFrames : Option (Slot × JsonValue) → List Frame → Option (Slot × JsonValue)
  | child, [] => child
  | child, frame :: rest =>
    copyFrames (frame.slot.map fun slot =>
      (slot, (withChild child frame.container).toJson)) rest

/-- `#copyOpenPath`: a fresh snapshot. -/
def copyOpenPath (pending : Option (Slot × JsonValue)) (parser : Parser) : Option JsonValue :=
  match copyFrames pending parser.stack with
  | some (.root, value) => some value
  | _ => parser.root

/-- `snapshot()`: the value of the text read so far, and the parser after it. -/
def takeSnapshot (parser : Parser) : Option JsonValue × Parser :=
  if parser.dirty = false then (parser.snapshot, parser)
  else
    let pending := pendingScalar parser
    let cost := parser.pathCost + if pending.isNone then 0 else 1
    if parser.credit < cost then (parser.snapshot, parser)
    else
      let snapshot := copyOpenPath pending parser
      (snapshot, { parser with credit := parser.credit - cost, dirty := false, snapshot })

end Hummin.StreamingJson
