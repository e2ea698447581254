/-
The main screen of the terminal UI. A frame is drawn as what changed since the frame before
it, with moves relative to where that one left the cursor, or in full where that is not
possible.
-/
import Hummin.DeltaDiff
import Hummin.TerminalGrid

namespace Hummin.MainScreen

open TerminalGrid

universe u

variable {α : Type u}

/-- A terminal of a fixed size: the cells it shows for a text, whose number is the text's
visible width, and how texts are normalized for it. -/
structure Display (α : Type u) where
  size : Size
  cells : JsString → List α
  normalizeTerminalOutput : JsString → JsString
  isTermuxSession : Bool

/-- A frame's lines, and the settings and overlays it is drawn with. -/
structure Frame where
  lines : List JsString
  clearOnShrink : Bool
  showHardwareCursor : Bool
  hasOverlayEntries : Bool
deriving DecidableEq

structure CursorPosition where
  row : Nat
  col : Nat
deriving DecidableEq

/-- What the renderer remembers of the frame before. -/
structure Screen where
  previousLines : List JsString
  previousWidth : Nat
  previousHeight : Nat
  cursorRow : Nat
  hardwareCursorRow : Nat
  maxLinesRendered : Nat
  previousViewportTop : Nat
deriving DecidableEq

def Screen.start : Screen := ⟨[], 0, 0, 0, 0, 0, 0⟩

/-! ### The lines of a frame -/

def cursorMarker : JsString := js ['\x1b', '_', 'p', 'i', ':', 'c', '\x07']

def segmentReset : JsString := js ['\x1b', '[', '0', 'm', '\x1b', ']', '8', ';', ';', '\x07']

/-- The last line before `bound` and from `viewportTop` on that has the cursor marker, and the
marker's index in it. -/
def findMarker (lines : List JsString) (viewportTop : Nat) : Nat → Option (Nat × Nat)
  | 0 => none
  | row + 1 =>
    if row < viewportTop then none
    else match Delta.indexOf cursorMarker (lines.getD row []) 0 with
      | some markerIndex => some (row, markerIndex)
      | none => findMarker lines viewportTop row

/-- The cursor's position, with its marker taken out; only the bottom lines are scanned. -/
def extractCursorPosition (display : Display α) (lines : List JsString) : List JsString × Option CursorPosition :=
  match findMarker lines (lines.length - display.size.height) lines.length with
  | none => (lines, none)
  | some (row, markerIndex) =>
    let line := lines.getD row []
    (lines.set row (line.take markerIndex ++ line.drop (markerIndex + cursorMarker.length)),
      some ⟨row, (display.cells (line.take markerIndex)).length⟩)

def applyLineResets (display : Display α) (lines : List JsString) : List JsString :=
  lines.map fun line => display.normalizeTerminalOutput line ++ segmentReset

/-- The lines as they are written, and the cursor's position. -/
def prepare (display : Display α) (lines : List JsString) : List JsString × Option CursorPosition :=
  let extracted := extractCursorPosition display lines
  (applyLineResets display extracted.1, extracted.2)

/-! ### What changed -/

def lineAt (lines : List JsString) (row : Nat) : JsString := lines.getD row []

/-- The first and the last changed line; appended lines are changed ones. -/
def changedRange (previous lines : List JsString) : Option (Nat × Nat) :=
  let changed := (List.range (max lines.length previous.length)).filter fun row =>
    decide (lineAt previous row ≠ lineAt lines row)
  if previous.length < lines.length then some (changed.head?.getD previous.length, lines.length - 1)
  else match changed.head?, changed.getLast? with
    | some first, some last => some (first, last)
    | _, _ => none

def widthChanged (display : Display α) (screen : Screen) : Bool :=
  decide (screen.previousWidth ≠ 0 ∧ screen.previousWidth ≠ display.size.width)

def heightChanged (display : Display α) (screen : Screen) : Bool :=
  decide (screen.previousHeight ≠ 0 ∧ screen.previousHeight ≠ display.size.height)

/-- The top of the viewport that the last frame was drawn in. -/
def prevViewportTop (display : Display α) (screen : Screen) : Nat :=
  let previousBufferLength :=
    if 0 < screen.previousHeight then screen.previousViewportTop + screen.previousHeight else display.size.height
  if heightChanged display screen then previousBufferLength - display.size.height else screen.previousViewportTop

/-- Whether the frame is drawn in full, and whether the screen is cleared for it. -/
def fullRedraw (display : Display α) (screen : Screen) (frame : Frame) (lines : List JsString) : Option Bool :=
  let top := prevViewportTop display screen
  if screen.previousLines = [] ∧ ¬ widthChanged display screen ∧ ¬ heightChanged display screen then some false
  else if widthChanged display screen then some true
  else if heightChanged display screen ∧ ¬ display.isTermuxSession then some true
  else if frame.clearOnShrink ∧ lines.length < screen.maxLinesRendered ∧ ¬ frame.hasOverlayEntries then some true
  else match changedRange screen.previousLines lines with
    | none => none
    | some (firstChanged, _) =>
      if lines.length ≤ firstChanged then
        if lines.length < screen.previousLines.length ∧
            (lines.length - 1 < top ∨ display.size.height < screen.previousLines.length - lines.length) then
          some true
        else none
      else if firstChanged < top then some true
      else none

/-! ### Drawing -/

/-- Move the hardware cursor to its position; without one it is hidden where it is. -/
def positionHardwareCursor (frame : Frame) (cursorPos : Option CursorPosition) (totalLines : Nat)
    (screen : Screen) : Screen × List (Op α) :=
  match cursorPos with
  | none => (screen, [.showCursor false])
  | some position =>
    if totalLines = 0 then (screen, [.showCursor false])
    else
      let targetRow := min position.row (totalLines - 1)
      let rowDelta : Int := targetRow - screen.hardwareCursorRow
      ({ screen with hardwareCursorRow := targetRow },
        moveBy rowDelta ++ [.column (position.col + 1), .showCursor frame.showHardwareCursor])

/-- What is remembered of a drawn frame, with the cursor positioned. -/
def finish (display : Display α) (frame : Frame) (lines : List JsString) (cursorPos : Option CursorPosition)
    (screen : Screen) (ops : List (Op α)) : Screen × List (Op α) :=
  let drawn := { screen with
    previousLines := lines
    previousWidth := display.size.width
    previousHeight := display.size.height }
  let positioned := positionHardwareCursor frame cursorPos lines.length drawn
  (positioned.1, ops ++ positioned.2)

def fullRender (display : Display α) (screen : Screen) (frame : Frame) (lines : List JsString)
    (cursorPos : Option CursorPosition) (clear : Bool) : Screen × List (Op α) :=
  let bufferLength := max display.size.height lines.length
  finish display frame lines cursorPos
    { screen with
      cursorRow := lines.length - 1
      hardwareCursorRow := lines.length - 1
      maxLinesRendered := if clear then lines.length else max screen.maxLinesRendered lines.length
      previousViewportTop := bufferLength - display.size.height }
    ([Op.synchronized true] ++ (if clear then [Op.eraseScreen, Op.home, Op.eraseScrollback] else []) ++
      drawLines false (lines.map display.cells) ++ [Op.synchronized false])

/-- All changes are in deleted lines: clear them without scrolling. -/
def clearDeleted (display : Display α) (screen : Screen) (frame : Frame) (lines : List JsString)
    (cursorPos : Option CursorPosition) : Screen × List (Op α) :=
  let targetRow := lines.length - 1
  let extraLines := screen.previousLines.length - lines.length
  let clearStartOffset := if lines.length = 0 then 0 else 1
  let moveBack := extraLines - 1 + clearStartOffset
  let lineDiff : Int := targetRow - screen.hardwareCursorRow
  if lines.length < screen.previousLines.length then
    finish display frame lines cursorPos
      { screen with
        cursorRow := targetRow
        hardwareCursorRow := targetRow
        previousViewportTop := prevViewportTop display screen }
      ([Op.synchronized true] ++ moveBy lineDiff ++ [Op.carriageReturn] ++
        (if 0 < extraLines ∧ 0 < clearStartOffset then [Op.down clearStartOffset] else []) ++
        eraseDown extraLines ++ (if 0 < moveBack then [Op.up moveBack] else []) ++ [Op.synchronized false])
  else
    finish display frame lines cursorPos { screen with previousViewportTop := prevViewportTop display screen } []

/-- Scroll until a row below the viewport is its last one. -/
def scrollTo (display : Display α) (screen : Screen) (moveTargetRow : Nat) : List (Op α) × Nat × Nat :=
  let top := prevViewportTop display screen
  let prevViewportBottom : Int := top + display.size.height - 1
  if prevViewportBottom < moveTargetRow then
    let currentScreenRow : Int := max 0 (min (display.size.height - 1) (screen.hardwareCursorRow - top))
    let moveToBottom := display.size.height - 1 - currentScreenRow
    let scroll := (moveTargetRow - prevViewportBottom).toNat
    ((if 0 < moveToBottom then [Op.down moveToBottom.toNat] else []) ++ List.replicate scroll Op.newline,
      top + scroll, moveTargetRow)
  else ([], top, screen.hardwareCursorRow)

/-- Draw the changed lines, and clear the rows of those that are no more. -/
def drawChanged (display : Display α) (screen : Screen) (frame : Frame) (lines : List JsString)
    (cursorPos : Option CursorPosition) (firstChanged lastChanged : Nat) : Screen × List (Op α) :=
  let appendStart := decide (screen.previousLines.length < lines.length ∧
    firstChanged = screen.previousLines.length ∧ 0 < firstChanged)
  let moveTargetRow := if appendStart then firstChanged - 1 else firstChanged
  let (scrolled, viewportTop, hardwareCursorRow) := scrollTo display screen moveTargetRow
  let lineDiff : Int := moveTargetRow - hardwareCursorRow
  let renderEnd := min lastChanged (lines.length - 1)
  let shrunk := decide (lines.length < screen.previousLines.length)
  let extraLines := screen.previousLines.length - lines.length
  let finalCursorRow := if shrunk ∧ renderEnd < lines.length - 1 then lines.length - 1 else renderEnd
  finish display frame lines cursorPos
    { screen with
      cursorRow := lines.length - 1
      hardwareCursorRow := finalCursorRow
      maxLinesRendered := max screen.maxLinesRendered lines.length
      previousViewportTop := max viewportTop (finalCursorRow + 1 - display.size.height) }
    ([.synchronized true] ++ scrolled ++ moveBy lineDiff ++ [if appendStart then .newline else .carriageReturn] ++
      drawLines true (((lines.take (renderEnd + 1)).drop firstChanged).map display.cells) ++
      (if shrunk then
        (if renderEnd < lines.length - 1 then [.down (lines.length - 1 - renderEnd)] else []) ++
          eraseNext extraLines ++ [.up extraLines]
      else []) ++ [.synchronized false])

/-- Nothing changed but perhaps the cursor. -/
def keepLines (display : Display α) (screen : Screen) (frame : Frame) (lines : List JsString)
    (cursorPos : Option CursorPosition) : Screen × List (Op α) :=
  positionHardwareCursor frame cursorPos lines.length
    { screen with
      previousViewportTop := prevViewportTop display screen
      previousHeight := display.size.height }

def doRender (display : Display α) (screen : Screen) (frame : Frame) : Screen × List (Op α) :=
  let (lines, cursorPos) := prepare display frame.lines
  match fullRedraw display screen frame lines with
  | some clear => fullRender display screen frame lines cursorPos clear
  | none => match changedRange screen.previousLines lines with
    | none => keepLines display screen frame lines cursorPos
    | some (firstChanged, lastChanged) =>
      if lines.length ≤ firstChanged then clearDeleted display screen frame lines cursorPos
      else drawChanged display screen frame lines cursorPos firstChanged lastChanged

/-! ### Frames on a terminal -/

/-- The renderer, the terminal and the last frame drawn. -/
structure State (α : Type u) where
  screen : Screen
  terminal : Terminal α
  frame : Option Frame

/-- A frame drawn on the terminal; its lines fit in the terminal's width. -/
def step (display : Display α) (state : State α) (frame : Frame) : Option (State α) :=
  if ∀ line ∈ (prepare display frame.lines).1, (display.cells line).length ≤ display.size.width then
    let drawn := doRender display state.screen frame
    some ⟨drawn.1, applyAll display.size state.terminal drawn.2, some frame⟩
  else none

def start : State α := ⟨Screen.start, Terminal.cleared, none⟩

end Hummin.MainScreen
