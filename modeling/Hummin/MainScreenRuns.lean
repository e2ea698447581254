/-
The screen shows the frame: as long as no frame wants its cursor above the viewport that is
kept, every frame leaves the terminal with the viewport's lines, and the renderer knows the
row of the terminal's cursor.
-/
import Hummin.Machine
import Hummin.MainScreenChanges

namespace Hummin.MainScreen

open List

open TerminalGrid

universe u

variable {α : Type u}

/-- What a row of the screen shows of some lines, blank past their end. -/
def shownAt (display : Display α) (lines : List JsString) (row : Nat) : Row α :=
  match lines[row]? with
  | some line => rowOf (display.cells line)
  | none => blank

/-- The terminal shows the last frame from `previousViewportTop` on, and its cursor is in the
row that the renderer believes. -/
structure Shows (display : Display α) (screen : Screen) (terminal : Terminal α) : Prop where
  within : terminal.Within display.size
  top : terminal.top = screen.previousViewportTop
  line : terminal.line = screen.hardwareCursorRow
  rows : ∀ row, terminal.top ≤ row → row < terminal.top + display.size.height →
    terminal.buffer row = shownAt display screen.previousLines row
  bounded : screen.previousLines.length ≤ terminal.top + display.size.height
  below : screen.previousLines ≠ [] → terminal.top < screen.previousLines.length
  initial : screen.previousLines = [] → terminal.top = 0 ∧ terminal.line = 0 ∧ terminal.column = 0
  noneEmpty : NoneEmpty screen.previousLines
  width : screen.previousWidth ≠ 0 → screen.previousWidth = display.size.width
  height : screen.previousHeight ≠ 0 → screen.previousHeight = display.size.height

variable {row : Nat}

theorem shownAt_of_le {display : Display α} {lines : List JsString} (hrow : lines.length ≤ row) :
    shownAt display lines row = blank := by
  simp [shownAt, hrow]

theorem shownAt_congr {display : Display α} {previous lines : List JsString}
    (hsame : previous[row]? = lines[row]?) : shownAt display previous row = shownAt display lines row := by
  rw [shownAt, shownAt, hsame]

section Paths

variable {display : Display α} {screen : Screen} {terminal : Terminal α} (hshows : Shows display screen terminal)

include hshows

theorem Shows.widthChanged : widthChanged display screen = false := by
  rw [MainScreen.widthChanged, decide_eq_false_iff_not]
  rintro ⟨hzero, hdiffer⟩
  exact hdiffer (hshows.width hzero)

theorem Shows.heightChanged : heightChanged display screen = false := by
  rw [MainScreen.heightChanged, decide_eq_false_iff_not]
  rintro ⟨hzero, hdiffer⟩
  exact hdiffer (hshows.height hzero)

theorem Shows.prevViewportTop : prevViewportTop display screen = terminal.top := by
  rw [MainScreen.prevViewportTop, hshows.heightChanged, hshows.top]
  rfl

/-- The cursor at a row of the viewport. -/
theorem Shows.position (frame : Frame) {cursorPos : Option CursorPosition} {totalLines : Nat}
    (htotal : totalLines = screen.previousLines.length)
    (hcursor : ∀ position ∈ cursorPos, terminal.top ≤ position.row ∧ position.row < totalLines) :
    Shows display (positionHardwareCursor (α := α) frame cursorPos totalLines screen).1
      (applyAll display.size terminal (positionHardwareCursor frame cursorPos totalLines screen).2) := by
  have hhidden (shown : Bool) : Shows display screen (applyAll display.size terminal [.showCursor shown]) := by
    obtain ⟨hwithin, htop, hline, hrows, hbounded, hbelow, hinitial, hnone, hwidth, hheight⟩ := hshows
    exact ⟨hwithin, htop, hline, hrows, hbounded, hbelow, hinitial, hnone, hwidth, hheight⟩
  cases cursorPos with
  | none => exact hhidden false
  | some position =>
    obtain ⟨htarget, hinside⟩ := hcursor position rfl
    have hpositive : ¬ totalLines = 0 := by omega
    have hrow : min position.row (totalLines - 1) = position.row := by omega
    have hbounded := hshows.bounded
    have hline := hshows.line
    simp only [positionHardwareCursor, if_neg hpositive, hrow]
    rw [applyAll_append, @applyAll_moveBy _ _ _ _ position.row (by omega) htarget (by omega)]
    refine ⟨⟨htarget, ?_⟩, hshows.top, rfl, hshows.rows, hshows.bounded, hshows.below, fun hempty => ?_,
      hshows.noneEmpty, hshows.width, hshows.height⟩
    · show position.row < terminal.top + display.size.height
      omega
    rw [hempty] at htotal
    exact absurd htotal hpositive

end Paths

variable {cursorPos : Option CursorPosition}

/-- A frame drawn by `ops` with its cursor positioned. -/
theorem shows_finish {display : Display α} {screen : Screen} {terminal : Terminal α} (frame : Frame)
    {lines : List JsString} {ops : List (Op α)}
    (hdrawn : Shows display
      { screen with
        previousLines := lines
        previousWidth := display.size.width
        previousHeight := display.size.height } (applyAll display.size terminal ops))
    (hcursor : ∀ position ∈ cursorPos, screen.previousViewportTop ≤ position.row ∧ position.row < lines.length) :
    Shows display (finish display frame lines cursorPos screen ops).1
      (applyAll display.size terminal (finish display frame lines cursorPos screen ops).2) := by
  rw [finish, applyAll_append]
  apply hdrawn.position frame rfl
  intro position hposition
  rw [hdrawn.top]
  exact hcursor position hposition

/-! ### A full redraw -/

theorem painted_cells (display : Display α) (buffer : Nat → Row α) (lines : List JsString) (row : Nat) :
    painted buffer 0 (lines.map display.cells) row =
      if row < lines.length then shownAt display lines row else buffer row := by
  by_cases hrow : row < lines.length
  · simp [painted, shownAt, hrow]
  · simp [painted, hrow]

/-- What a full redraw leaves on a terminal whose screen is blank with the cursor at its first
row, scrollback not counted. -/
theorem drawn_full {display : Display α} (hheight : 0 < display.size.height) {terminal : Terminal α}
    (htop : terminal.top = 0) (hline : terminal.line = 0) (hcolumn : terminal.column = 0)
    (hblank : ∀ row < display.size.height, terminal.buffer row = blank) (lines : List JsString) :
    let after := applyAll display.size terminal (drawLines false (lines.map display.cells))
    after.top = max display.size.height lines.length - display.size.height ∧ after.line = lines.length - 1 ∧
      (∀ row < max display.size.height lines.length, after.buffer row = shownAt display lines row) ∧
      (lines = [] → after.column = 0) := by
  intro after
  by_cases hlines : lines = []
  · subst hlines
    refine ⟨?_, hline, fun row hrow => ?_, fun _ => hcolumn⟩
    · show terminal.top = _
      rw [htop, length_nil]
      omega
    rw [length_nil] at hrow
    rw [shownAt_of_le (Nat.zero_le row)]
    exact hblank row (by omega)
  have hdrawn : Drawn display.size terminal after (lines.map display.cells) := by
    apply drawn_drawLines
    · simpa using hlines
    · exact ⟨by omega, by omega⟩
    · exact hcolumn
    · exact .inr fun row _ hrow => hblank row (by omega)
  refine ⟨?_, ?_, fun row hrow => ?_, fun hempty => absurd hempty hlines⟩
  · rw [hdrawn.top, htop, hline, length_map]
    omega
  · rw [hdrawn.line, hline, length_map]
    omega
  rw [hdrawn.buffer, hline, painted_cells]
  split
  · rfl
  next hpast =>
    rw [shownAt_of_le (Nat.le_of_not_lt hpast)]
    exact hblank row (by omega)

/-- A frame drawn in full on a terminal that is made blank first. -/
theorem shows_fullRender {display : Display α} (hheight : 0 < display.size.height) {screen : Screen}
    {terminal : Terminal α} (frame : Frame) {lines : List JsString} (hlines : NoneEmpty lines)
    (hcursor : ∀ position ∈ cursorPos, lines.length - display.size.height ≤ position.row ∧
      position.row < lines.length)
    {clear : Bool} (hready : clear = false → terminal.top = 0 ∧ terminal.line = 0 ∧ terminal.column = 0 ∧
      ∀ row < display.size.height, terminal.buffer row = blank) :
    Shows display (fullRender display screen frame lines cursorPos clear).1
      (applyAll display.size terminal (fullRender display screen frame lines cursorPos clear).2) := by
  rw [fullRender]
  apply shows_finish
  · rw [applyAll_append, applyAll_append, applyAll_append]
    generalize hcleared : applyAll display.size (applyAll display.size terminal [.synchronized true])
      (if clear then [.eraseScreen, .home, .eraseScrollback] else []) = cleared
    have hblank : cleared.top = 0 ∧ cleared.line = 0 ∧ cleared.column = 0 ∧
        ∀ row < display.size.height, cleared.buffer row = blank := by
      subst hcleared
      cases clear with
      | false => exact hready rfl
      | true =>
        refine ⟨rfl, Nat.sub_self _, rfl, fun row hrow => ?_⟩
        have hscreen : terminal.top ≤ terminal.top + row ∧
            terminal.top + row < terminal.top + display.size.height := by omega
        exact if_pos hscreen
    obtain ⟨htop, hline, hrows, hcolumn⟩ :=
      drawn_full hheight hblank.1 hblank.2.1 hblank.2.2.1 hblank.2.2.2 lines
    generalize applyAll display.size cleared (drawLines false (lines.map display.cells)) = after at *
    refine ⟨⟨?_, ?_⟩, htop, hline, fun row _ hrow => hrows row ?_, ?_, fun hsome => ?_,
      fun hempty => ⟨?_, ?_, hcolumn hempty⟩, hlines, fun _ => rfl, fun _ => rfl⟩
    · show after.top ≤ after.line
      omega
    · show after.line < after.top + display.size.height
      omega
    · have hunder : row < after.top + display.size.height := hrow
      omega
    · show lines.length ≤ after.top + display.size.height
      omega
    · have hpositive : 0 < lines.length := length_pos_of_ne_nil hsome
      show after.top < lines.length
      omega
    · have hnone : lines.length = 0 := length_eq_zero_iff.2 hempty
      show after.top = 0
      omega
    have hnone : lines.length = 0 := length_eq_zero_iff.2 hempty
    show after.line = 0
    omega
  · intro position hposition
    obtain ⟨hlow, hhigh⟩ := hcursor position hposition
    exact ⟨by simp only; omega, hhigh⟩

/-! ### Deleted lines -/

section Deleted

variable {size : Size} {terminal : Terminal α} {count extra : Nat}

/-- Rows after the first `count` are erased and the cursor is at the last row before them, or
at the first row. -/
theorem applyAll_clearRows {diff : Int} (hdiff : ((count - 1 : Nat) : Int) = terminal.line + diff)
    (htop : terminal.top ≤ count - 1) (hextra : 0 < extra) (hbottom : count + extra ≤ terminal.top + size.height) :
    applyAll size terminal ([Op.synchronized true] ++ moveBy diff ++ [Op.carriageReturn] ++
        (if 0 < extra ∧ 0 < (if count = 0 then 0 else 1) then [Op.down (if count = 0 then 0 else 1)] else []) ++
        eraseDown extra ++
        (if 0 < extra - 1 + (if count = 0 then 0 else 1) then
          [Op.up (extra - 1 + (if count = 0 then 0 else 1))] else []) ++ [Op.synchronized false]) =
      { terminal with buffer := erased terminal.buffer count extra, line := count - 1, column := 0 } := by
  have hsync : applyAll size terminal [.synchronized true] = terminal := rfl
  simp only [applyAll_append, hsync]
  rw [applyAll_moveBy hdiff htop (by omega)]
  have hstart : applyAll size { terminal with line := count - 1 } [.carriageReturn] =
      { terminal with line := count - 1, column := 0 } := rfl
  rw [hstart]
  by_cases hempty : count = 0
  · subst hempty
    have hnone : ¬ (0 < extra ∧ 0 < 0) := by omega
    rw [if_pos rfl, if_neg hnone]
    have hstay : applyAll size { terminal with line := 0 - 1, column := 0 } [] =
        { terminal with line := 0, column := 0 } := rfl
    rw [hstay, applyAll_eraseDown hextra (by simp only; omega)]
    simp only [Nat.zero_add, Nat.add_zero]
    by_cases hone : 0 < extra - 1
    · rw [if_pos hone]
      have hup : max terminal.top (extra - 1 - max 1 (extra - 1)) = 0 - 1 := by omega
      simp only [applyAll, foldl_cons, foldl_nil, apply, hup]
    rw [if_neg hone]
    have hline : extra - 1 = 0 - 1 := by omega
    simp only [applyAll, foldl_cons, foldl_nil, apply, hline]
  have hboth : 0 < extra ∧ 0 < 1 := ⟨hextra, Nat.one_pos⟩
  have hback : 0 < extra - 1 + 1 := Nat.succ_pos _
  rw [if_neg hempty, if_pos hboth, if_pos hback]
  have hdown : min (terminal.top + size.height - 1) (count - 1 + max 1 1) = count := by omega
  have hbelow : applyAll size { terminal with line := count - 1, column := 0 } [.down 1] =
      { terminal with line := count, column := 0 } := by
    simp only [applyAll, foldl_cons, foldl_nil, apply, hdown]
  rw [hbelow, applyAll_eraseDown hextra hbottom]
  have hup : max terminal.top (count + extra - 1 - max 1 (extra - 1 + 1)) = count - 1 := by omega
  simp only [applyAll, foldl_cons, foldl_nil, apply, hup]

end Deleted

theorem shows_clearDeleted {display : Display α} (hheight : 0 < display.size.height) {screen : Screen}
    {terminal : Terminal α} (hshows : Shows display screen terminal) (frame : Frame) {lines : List JsString}
    (hlines : NoneEmpty lines) (hshrunk : lines.length < screen.previousLines.length)
    (hsame : ∀ row < lines.length, screen.previousLines[row]? = lines[row]?)
    (htop : terminal.top ≤ lines.length - 1)
    (hcursor : ∀ position ∈ cursorPos, terminal.top ≤ position.row ∧ position.row < lines.length) :
    Shows display (clearDeleted display screen frame lines cursorPos).1
      (applyAll display.size terminal (clearDeleted display screen frame lines cursorPos).2) := by
  have hbounded := hshows.bounded
  have hcleared := @applyAll_clearRows α display.size terminal lines.length
    (screen.previousLines.length - lines.length) (((lines.length - 1 : Nat) : Int) - screen.hardwareCursorRow)
    (by rw [hshows.line]; omega) htop (by omega) (by omega)
  simp only [clearDeleted, if_pos hshrunk]
  apply shows_finish
  · rw [hcleared]
    refine ⟨⟨htop, ?_⟩, hshows.prevViewportTop.symm, rfl, fun row hlow hhigh => ?_, ?_, fun hsome => ?_,
      fun hempty => ?_, hlines, fun _ => rfl, fun _ => rfl⟩
    · show lines.length - 1 < terminal.top + display.size.height
      omega
    · show erased terminal.buffer lines.length _ row = shownAt display lines row
      rw [erased]
      split
      next hdeleted =>
        rw [shownAt_of_le hdeleted.1]
      rename_i hkept
      rw [hshows.rows row hlow hhigh]
      by_cases hrow : row < lines.length
      · exact shownAt_congr (hsame row hrow)
      · rw [shownAt_of_le (by omega), shownAt_of_le (by omega)]
    · show lines.length ≤ terminal.top + display.size.height
      omega
    · have hpositive : 0 < lines.length := length_pos_of_ne_nil hsome
      show terminal.top < lines.length
      omega
    have hnone : lines.length = 0 := length_eq_zero_iff.2 hempty
    refine ⟨?_, ?_, rfl⟩
    · show terminal.top = 0
      omega
    show lines.length - 1 = 0
    omega
  · intro position hposition
    rw [hshows.prevViewportTop]
    exact hcursor position hposition

/-! ### Changed lines -/

theorem painted_segment (display : Display α) (buffer : Nat → Row α) {lines : List JsString} {first renderEnd : Nat}
    (hend : renderEnd < lines.length) (row : Nat) :
    painted buffer first (((lines.take (renderEnd + 1)).drop first).map display.cells) row =
      if first ≤ row ∧ row ≤ renderEnd then shownAt display lines row else buffer row := by
  by_cases hrow : first ≤ row ∧ row ≤ renderEnd
  · obtain ⟨hlow, hhigh⟩ := hrow
    have hindex : first + (row - first) = row := by omega
    have hinside : row < lines.length := by omega
    have hline : ((lines.take (renderEnd + 1)).drop first)[row - first]? = lines[row]? := by
      rw [getElem?_drop, hindex, getElem?_take_of_lt (by omega)]
    rw [painted, getElem?_map, hline]
    simp [shownAt, hlow, hhigh, hinside]
  rw [if_neg hrow, painted]
  by_cases hlow : first ≤ row
  · have hnone : ((lines.take (renderEnd + 1)).drop first)[row - first]? = none := by
      rw [getElem?_eq_none_iff, length_drop, length_take]
      omega
    rw [getElem?_map, hnone]
    rfl
  split
  · rw [if_neg hlow]
  · rfl

/-- The rows below the last line are erased and the cursor is back at that line. -/
theorem applyAll_clearBelow {size : Size} {terminal : Terminal α} {extra : Nat} (hextra : 0 < extra)
    (htop : terminal.top ≤ terminal.line) (hbottom : terminal.line + extra < terminal.top + size.height) :
    applyAll size terminal (eraseNext extra ++ [Op.up extra]) =
      { terminal with buffer := erased terminal.buffer (terminal.line + 1) extra, column := 0 } := by
  have hup : max terminal.top (terminal.line + extra - max 1 extra) = terminal.line := by omega
  rw [applyAll_append, applyAll_eraseNext hbottom hextra]
  simp only [applyAll, foldl_cons, foldl_nil, apply, hup]

section Changed

variable {display : Display α} {screen : Screen} {terminal : Terminal α} {lines : List JsString}
  {firstChanged lastChanged : Nat} (hshows : Shows display screen terminal)
  (hchanged : Changed screen.previousLines lines firstChanged lastChanged) (hfirst : firstChanged < lines.length)
  (hsome : screen.previousLines ≠ [])

include hshows hchanged hfirst hsome

/-- The row the cursor is moved to is on the screen, so nothing is scrolled for it. -/
theorem target_le_bottom : (if decide (screen.previousLines.length < lines.length ∧
      firstChanged = screen.previousLines.length ∧ 0 < firstChanged) then firstChanged - 1 else firstChanged) <
    terminal.top + display.size.height := by
  have hbounded := hshows.bounded
  have hpositive : 0 < screen.previousLines.length := length_pos_of_ne_nil hsome
  have hle := hchanged.first_le
  have hlt := hchanged.last_lt
  split
  next happend =>
    have hstart := of_decide_eq_true happend
    omega
  rename_i happend
  simp only [decide_eq_true_eq, not_and] at happend
  by_cases hgrown : screen.previousLines.length < lines.length
  · have hprevious := (hchanged.appended hgrown).1
    have hnot := happend hgrown
    omega
  · omega

theorem scrollTo_target : scrollTo (α := α) display screen
      (if decide (screen.previousLines.length < lines.length ∧
        firstChanged = screen.previousLines.length ∧ 0 < firstChanged) then firstChanged - 1 else firstChanged) =
    ([], terminal.top, screen.hardwareCursorRow) := by
  have hbottom := target_le_bottom hshows hchanged hfirst hsome
  rw [scrollTo, hshows.prevViewportTop]
  apply if_neg
  omega

/-- The changed lines are drawn, and the rows of deleted ones erased. -/
theorem shows_drawChanged (hheight : 0 < display.size.height) (htop : terminal.top ≤ firstChanged)
    (hlines : NoneEmpty lines) (frame : Frame) {cursorPos : Option CursorPosition}
    (hcursor : ∀ position ∈ cursorPos, terminal.top ≤ position.row ∧
      lines.length - display.size.height ≤ position.row ∧ position.row < lines.length) :
    Shows display (drawChanged display screen frame lines cursorPos firstChanged lastChanged).1
      (applyAll display.size terminal
        (drawChanged display screen frame lines cursorPos firstChanged lastChanged).2) := by
  have hscroll := scrollTo_target hshows hchanged hfirst hsome
  have hbottom := target_le_bottom hshows hchanged hfirst hsome
  have hbounded := hshows.bounded
  have hbelow := hshows.below hsome
  simp only [drawChanged, hscroll]
  generalize hend : min lastChanged (lines.length - 1) = renderEnd
  have hle := hchanged.first_le
  have hlt := hchanged.last_lt
  have hinside : renderEnd < lines.length := by omega
  have hsegment : firstChanged ≤ renderEnd := by omega
  have hlength : (((lines.take (renderEnd + 1)).drop firstChanged).map display.cells).length =
      renderEnd + 1 - firstChanged := by
    rw [length_map, length_drop, length_take]
    omega
  generalize hbelow' : decide (screen.previousLines.length < lines.length ∧
    firstChanged = screen.previousLines.length ∧ 0 < firstChanged) = appendStart at *
  have happend : appendStart = true → screen.previousLines.length < lines.length ∧
      firstChanged = screen.previousLines.length ∧ 0 < firstChanged := by
    rintro rfl
    exact of_decide_eq_true hbelow'
  have htarget : terminal.top ≤ if appendStart then firstChanged - 1 else firstChanged := by
    split
    next hstart =>
      have happended := happend hstart
      omega
    · exact htop
  obtain ⟨hbuffer, hafterTop, hafterLine⟩ := @drawn_from α display.size
    (((lines.take (renderEnd + 1)).drop firstChanged).map display.cells) terminal firstChanged appendStart
    (by rw [← length_pos_iff, hlength]; omega)
    (((if appendStart then firstChanged - 1 else firstChanged : Nat) : Int) - screen.hardwareCursorRow)
    (by rw [hshows.line]; omega) (fun hstart => (happend hstart).2.2) htarget hbottom
  have hrest (tail : List (Op α)) (diff : Int) : applyAll display.size terminal ([Op.synchronized true] ++ [] ++
      moveBy diff ++ [if appendStart then Op.newline else Op.carriageReturn] ++
      drawLines true (((lines.take (renderEnd + 1)).drop firstChanged).map display.cells) ++ tail ++
      [Op.synchronized false]) =
      applyAll display.size (applyAll display.size terminal (moveBy diff ++
        [if appendStart then Op.newline else Op.carriageReturn] ++
        drawLines true (((lines.take (renderEnd + 1)).drop firstChanged).map display.cells))) tail := by
    simp only [applyAll_append]
    rfl
  apply shows_finish
  · rw [hrest]
    generalize applyAll display.size terminal _ = after at *
    rw [hlength] at hafterTop hafterLine
    -- the drawn rows, and around them the rows that did not change
    have hrows : ∀ row, terminal.top ≤ row → row < terminal.top + display.size.height →
        after.buffer row = if firstChanged ≤ row ∧ row ≤ renderEnd then shownAt display lines row
          else shownAt display screen.previousLines row := by
      intro row hlow hhigh
      rw [hbuffer, painted_segment display _ hinside]
      split
      · rfl
      · exact hshows.rows row hlow hhigh
    by_cases hshrunk : lines.length < screen.previousLines.length
    · have hlast := hchanged.deleted hshrunk
      have hwhole : renderEnd = lines.length - 1 := by omega
      have hnot : ¬ renderEnd < lines.length - 1 := by omega
      have hnot' : ¬ (decide (lines.length < screen.previousLines.length) = true ∧ renderEnd < lines.length - 1) :=
        fun hboth => hnot hboth.2
      have hline : after.line = lines.length - 1 := by omega
      have hkept : after.top = terminal.top := by omega
      rw [if_pos (decide_eq_true hshrunk), if_neg hnot, if_neg hnot', nil_append,
        applyAll_clearBelow (by omega) (by omega) (by omega)]
      refine ⟨⟨?_, ?_⟩, ?_, ?_, fun row hlow hhigh => ?_, ?_, fun _ => ?_, fun hempty => ?_, hlines, fun _ => rfl,
        fun _ => rfl⟩
      · show after.top ≤ after.line
        omega
      · show after.line < after.top + display.size.height
        omega
      · show after.top = max terminal.top (renderEnd + 1 - display.size.height)
        omega
      · show after.line = renderEnd
        omega
      · have hlow' : after.top ≤ row := hlow
        have hhigh' : row < after.top + display.size.height := hhigh
        show erased after.buffer (after.line + 1) (screen.previousLines.length - lines.length) row =
          shownAt display lines row
        rw [erased, hrows row (by omega) (by omega)]
        by_cases hpast : lines.length ≤ row
        · have hdrawn : ¬ (firstChanged ≤ row ∧ row ≤ renderEnd) := by omega
          rw [shownAt_of_le hpast, if_neg hdrawn]
          split
          · rfl
          · exact shownAt_of_le (by omega)
        have hkeep : ¬ (after.line + 1 ≤ row ∧
            row < after.line + 1 + (screen.previousLines.length - lines.length)) := by omega
        rw [if_neg hkeep]
        split
        · rfl
        · exact shownAt_congr (hchanged.before row (by omega))
      · show lines.length ≤ after.top + display.size.height
        omega
      · show after.top < lines.length
        omega
      · have hnone : lines.length = 0 := length_eq_zero_iff.2 hempty
        omega
    have hnot : ¬ decide (lines.length < screen.previousLines.length) = true := by simpa using hshrunk
    have hnot' : ¬ (decide (lines.length < screen.previousLines.length) = true ∧ renderEnd < lines.length - 1) :=
      fun hboth => hnot hboth.1
    rw [if_neg hnot, if_neg hnot']
    have hline : after.line = renderEnd := by omega
    have hscrolled : after.top = max terminal.top (renderEnd + 1 - display.size.height) := by omega
    have hgrown := hchanged.appended
    refine ⟨⟨?_, ?_⟩, hscrolled, hline, fun row hlow hhigh => ?_, ?_, fun _ => ?_, fun hempty => ?_, hlines,
      fun _ => rfl, fun _ => rfl⟩
    · show after.top ≤ after.line
      omega
    · show after.line < after.top + display.size.height
      omega
    · have hlow' : after.top ≤ row := hlow
      have hhigh' : row < after.top + display.size.height := hhigh
      show after.buffer row = shownAt display lines row
      by_cases hdrawn : firstChanged ≤ row ∧ row ≤ renderEnd
      · rw [hbuffer, painted_segment display _ hinside, if_pos hdrawn]
      rw [hrows row (by omega) (by omega), if_neg hdrawn]
      apply shownAt_congr
      by_cases hbefore : row < firstChanged
      · exact hchanged.before row hbefore
      · exact hchanged.after row (by omega)
    · show lines.length ≤ after.top + display.size.height
      omega
    · show after.top < lines.length
      omega
    · have hnone : lines.length = 0 := length_eq_zero_iff.2 hempty
      omega
  · intro position hposition
    obtain ⟨hlow, hunder, hhigh⟩ := hcursor position hposition
    refine ⟨?_, hhigh⟩
    simp only
    split <;> omega

end Changed

/-! ### Frames -/

/-- The marker is found in the bottom lines only. -/
theorem findMarker_bounds {lines : List JsString} {viewportTop bound markerIndex : Nat}
    (hfound : findMarker lines viewportTop bound = some (row, markerIndex)) : viewportTop ≤ row ∧ row < bound := by
  induction bound with
  | zero => cases hfound
  | succ bound ih =>
    rw [findMarker] at hfound
    split at hfound
    · cases hfound
    split at hfound
    · cases hfound
      omega
    obtain ⟨hlow, hhigh⟩ := ih hfound
    omega

theorem prepare_cursor {display : Display α} {lines : List JsString} {position : CursorPosition}
    (hposition : position ∈ (prepare display lines).2) :
    (prepare display lines).1.length - display.size.height ≤ position.row ∧
      position.row < (prepare display lines).1.length := by
  have hposition' : (extractCursorPosition display lines).2 = some position := hposition
  rw [prepare, applyLineResets, length_map]
  rw [extractCursorPosition] at hposition' ⊢
  split at hposition'
  · cases hposition'
  rename_i row markerIndex hfound
  cases hposition'
  have hbounds := findMarker_bounds hfound
  rw [length_set]
  exact hbounds

/-- The frame's cursor, if it has one, is not above the viewport that the last frame was drawn
in, unless the frame is drawn in full. -/
def CursorInView (display : Display α) (state : State α) (frame : Frame) : Prop :=
  ∀ position ∈ (prepare display frame.lines).2, prevViewportTop display state.screen ≤ position.row ∨
    (fullRedraw display state.screen frame (prepare display frame.lines).1).isSome = true

instance (display : Display α) (state : State α) (frame : Frame) : Decidable (CursorInView display state frame) :=
  inferInstanceAs (Decidable (∀ position ∈ (prepare display frame.lines).2, _))

/-- The buffer a full redraw of some lines leaves on a cleared terminal. -/
def fullBuffer (display : Display α) (frame : Frame) (lines : List JsString) : Nat → Row α :=
  (applyAll display.size Terminal.cleared (fullRender display Screen.start frame lines none false).2).buffer

/-- The screen shows the viewport's lines of the last frame, as a full redraw scrolled to that
viewport does, and the terminal's cursor is in the row that the renderer believes. -/
def FrameShown (display : Display α) (state : State α) : Prop := ∀ frame ∈ state.frame,
  (∀ row < display.size.height, state.terminal.buffer (state.terminal.top + row) =
    shownAt display (prepare display frame.lines).1 (state.screen.previousViewportTop + row)) ∧
  (∀ row < display.size.height, state.terminal.buffer (state.terminal.top + row) =
    fullBuffer display frame (prepare display frame.lines).1 (state.screen.previousViewportTop + row)) ∧
  (state.terminal.cursorRow : Int) = state.screen.hardwareCursorRow - state.screen.previousViewportTop

structure Invariant (display : Display α) (state : State α) : Prop where
  shows : Shows display state.screen state.terminal
  frame : ∀ frame ∈ state.frame, state.screen.previousLines = (prepare display frame.lines).1

theorem fullBuffer_eq {display : Display α} (hheight : 0 < display.size.height) (frame : Frame)
    (lines : List JsString) (row : Nat) : fullBuffer display frame lines row = shownAt display lines row := by
  have hops : fullBuffer display frame lines =
      (applyAll display.size Terminal.cleared (drawLines false (lines.map display.cells))).buffer := by
    simp only [fullBuffer, fullRender, finish, positionHardwareCursor, applyAll_append]
    rfl
  rw [hops]
  by_cases hlines : lines = []
  · subst hlines
    exact (shownAt_of_le (Nat.zero_le row)).symm
  have hdrawn : Drawn display.size Terminal.cleared
      (applyAll display.size Terminal.cleared (drawLines false (lines.map display.cells)))
      (lines.map display.cells) := by
    apply drawn_drawLines
    · simpa using hlines
    · exact ⟨Nat.le_refl 0, by show 0 < 0 + display.size.height; omega⟩
    · rfl
    · exact .inr fun _ _ _ => rfl
  rw [hdrawn.buffer]
  show painted _ 0 _ row = _
  rw [painted_cells]
  split
  · rfl
  next hpast =>
    exact (shownAt_of_le (Nat.le_of_not_lt hpast)).symm

variable {frame : Frame}

/-- Without clearing it, a frame is drawn in full on an empty screen only. -/
theorem fullRedraw_false {display : Display α} {screen : Screen} {lines : List JsString}
    (hfull : fullRedraw display screen frame lines = some false) : screen.previousLines = [] := by
  rw [fullRedraw] at hfull
  split at hfull
  next hfirst =>
    exact hfirst.1
  · exfalso
    repeat' split at hfull
    all_goals simp at hfull

/-- What holds of a frame that is not drawn in full. -/
theorem fullRedraw_none {display : Display α} {screen : Screen} {terminal : Terminal α}
    (hshows : Shows display screen terminal) {lines : List JsString}
    (hfull : fullRedraw display screen frame lines = none) :
    screen.previousLines ≠ [] ∧ ∀ firstChanged lastChanged,
      changedRange screen.previousLines lines = some (firstChanged, lastChanged) →
      (lines.length ≤ firstChanged → lines.length < screen.previousLines.length → terminal.top ≤ lines.length - 1) ∧
      (firstChanged < lines.length → terminal.top ≤ firstChanged) := by
  simp only [fullRedraw, hshows.widthChanged, hshows.heightChanged, hshows.prevViewportTop] at hfull
  split at hfull
  · cases hfull
  rename_i hsome
  refine ⟨fun hempty => hsome ⟨hempty, by simp, by simp⟩, fun firstChanged lastChanged hchanged => ?_⟩
  rw [hchanged] at hfull
  simp only [Bool.false_eq_true, if_false, false_and] at hfull
  split at hfull
  · cases hfull
  split at hfull
  next hdeleted =>
    refine ⟨fun _ hshrunk => ?_, fun hfirst => absurd hdeleted (Nat.not_le_of_lt hfirst)⟩
    split at hfull
    · cases hfull
    next hkept =>
      by_contra htop
      exact hkept ⟨hshrunk, .inl (Nat.lt_of_not_le htop)⟩
  next hdrawn =>
    refine ⟨fun hdeleted => absurd hdeleted hdrawn, fun _ => ?_⟩
    split at hfull
    · cases hfull
    next htop =>
      exact Nat.le_of_not_lt htop

theorem finish_previousLines (display : Display α) (frame : Frame) (lines : List JsString)
    (cursorPos : Option CursorPosition) (screen : Screen) (ops : List (Op α)) :
    (finish display frame lines cursorPos screen ops).1.previousLines = lines := by
  simp only [finish, positionHardwareCursor]
  split
  · rfl
  · split <;> rfl

/-- One frame. -/
theorem shows_doRender {display : Display α} (hheight : 0 < display.size.height) {screen : Screen}
    {terminal : Terminal α} (hshows : Shows display screen terminal) (frame : Frame)
    (hinview : ∀ position ∈ (prepare display frame.lines).2, prevViewportTop display screen ≤ position.row ∨
      (fullRedraw display screen frame (prepare display frame.lines).1).isSome = true) :
    Shows display (doRender display screen frame).1
        (applyAll display.size terminal (doRender display screen frame).2) ∧
      (doRender display screen frame).1.previousLines = (prepare display frame.lines).1 := by
  have hlines := noneEmpty_prepare display frame.lines
  have hcursor := fun position hposition => @prepare_cursor α display frame.lines position hposition
  simp only [doRender]
  generalize (prepare display frame.lines).1 = lines at *
  generalize (prepare display frame.lines).2 = cursorPos at *
  split
  next clear hfull =>
    refine ⟨shows_fullRender hheight frame hlines hcursor ?_, finish_previousLines ..⟩
    rintro rfl
    have hempty := fullRedraw_false hfull
    obtain ⟨htop, hline, hcolumn⟩ := hshows.initial hempty
    refine ⟨htop, hline, hcolumn, fun row hrow => ?_⟩
    rw [hshows.rows row (by omega) (by omega), hempty]
    exact shownAt_of_le (Nat.zero_le row)
  rename_i hfull
  have hview : ∀ position ∈ cursorPos, terminal.top ≤ position.row := by
    intro position hposition
    rcases hinview position hposition with htop | hredrawn
    · rw [hshows.prevViewportTop] at htop
      exact htop
    rw [hfull] at hredrawn
    cases hredrawn
  obtain ⟨hsome, hranges⟩ := fullRedraw_none hshows hfull
  split
  next hunchanged =>
    have hsame := changedRange_none hshows.noneEmpty hlines hunchanged
    have hkept : Shows display
        { screen with
          previousViewportTop := prevViewportTop display screen
          previousHeight := display.size.height } terminal := by
      rw [hshows.prevViewportTop]
      exact ⟨hshows.within, rfl, hshows.line, hshows.rows, hshows.bounded, hshows.below, hshows.initial,
        hshows.noneEmpty, hshows.width, fun _ => rfl⟩
    rw [← hsame] at hcursor ⊢
    refine ⟨hkept.position frame rfl fun position hposition =>
      ⟨hview position hposition, (hcursor position hposition).2⟩, ?_⟩
    simp only [keepLines, positionHardwareCursor]
    split
    · rfl
    · split <;> rfl
  rename_i firstChanged lastChanged hrange
  have hchanged := changedRange_some hshows.noneEmpty hlines hrange
  obtain ⟨hdeleted, hdrawn⟩ := hranges firstChanged lastChanged hrange
  split
  next hpast =>
    have hle := hchanged.first_le
    have hlt := hchanged.last_lt
    have hshrunk : lines.length < screen.previousLines.length := by omega
    refine ⟨shows_clearDeleted hheight hshows frame hlines hshrunk
      (fun row hrow => hchanged.before row (by omega)) (hdeleted hpast hshrunk)
      fun position hposition => ⟨hview position hposition, (hcursor position hposition).2⟩, ?_⟩
    simp only [clearDeleted, if_pos hshrunk]
    exact finish_previousLines ..
  next hfirst =>
    have hfirst' := Nat.lt_of_not_le hfirst
    exact ⟨shows_drawChanged hshows hchanged hfirst' hsome hheight (hdrawn hfirst') hlines frame
      fun position hposition => ⟨hview position hposition, hcursor position hposition⟩, finish_previousLines ..⟩

theorem invariant_start {display : Display α} (hheight : 0 < display.size.height) :
    Invariant display (start : State α) where
  shows := by
    refine ⟨⟨Nat.le_refl 0, ?_⟩, rfl, rfl, fun row _ _ => (shownAt_of_le (Nat.zero_le row)).symm, Nat.zero_le _,
      fun hsome => absurd rfl hsome, fun _ => ⟨rfl, rfl, rfl⟩, forall_mem_nil _,
      fun hzero => absurd rfl hzero, fun hzero => absurd rfl hzero⟩
    show 0 < 0 + display.size.height
    omega
  frame := fun _ hframe => by cases hframe

theorem invariant_step {display : Display α} (hheight : 0 < display.size.height) (state : State α) (frame : Frame)
    (next : State α) (hstate : Invariant display state) (hinview : CursorInView display state frame)
    (hstep : step display state frame = some next) : Invariant display next := by
  obtain ⟨-, rfl⟩ := of_guard hstep
  obtain ⟨hshows, hlines⟩ := shows_doRender hheight hstate.shows frame hinview
  refine ⟨hshows, fun other hother => ?_⟩
  cases hother
  exact hlines

theorem Invariant.frameShown {display : Display α} (hheight : 0 < display.size.height) {state : State α}
    (hstate : Invariant display state) : FrameShown display state := by
  intro frame hframe
  have hrows : ∀ row < display.size.height, state.terminal.buffer (state.terminal.top + row) =
      shownAt display (prepare display frame.lines).1 (state.screen.previousViewportTop + row) := by
    intro row hrow
    rw [← hstate.frame frame hframe, ← hstate.shows.top]
    exact hstate.shows.rows _ (by omega) (by omega)
  refine ⟨hrows, fun row hrow => ?_, ?_⟩
  · rw [hrows row hrow, fullBuffer_eq hheight]
  have hwithin := hstate.shows.within.1
  rw [← hstate.shows.line, ← hstate.shows.top, Terminal.cursorRow]
  omega

/-- The cursor's row is remembered as the frame has it. -/
theorem positionHardwareCursor_row (frame : Frame) {position : CursorPosition} {totalLines : Nat}
    (hrow : position.row < totalLines) (screen : Screen) :
    (positionHardwareCursor (α := α) frame (some position) totalLines screen).1 =
      { screen with hardwareCursorRow := position.row } := by
  have hpositive : ¬ totalLines = 0 := by omega
  have hmin : min position.row (totalLines - 1) = position.row := by omega
  simp only [positionHardwareCursor, if_neg hpositive, hmin]

/-- The viewport of a frame that is not drawn in full is not above the one before. -/
theorem doRender_cursor {display : Display α} {screen : Screen} {position : CursorPosition}
    (hposition : position ∈ (prepare display frame.lines).2)
    (hfull : fullRedraw display screen frame (prepare display frame.lines).1 = none) :
    (doRender display screen frame).1.hardwareCursorRow = position.row ∧
      prevViewportTop display screen ≤ (doRender display screen frame).1.previousViewportTop := by
  have hrow := (prepare_cursor hposition).2
  simp only [doRender]
  generalize (prepare display frame.lines).1 = lines at *
  have hcursor : (prepare display frame.lines).2 = some position := hposition
  rw [hfull, hcursor]
  have hfinish (screen' : Screen) (ops : List (Op α)) :
      (finish display frame lines (some position) screen' ops).1.hardwareCursorRow = position.row ∧
        (finish display frame lines (some position) screen' ops).1.previousViewportTop =
          screen'.previousViewportTop := by
    rw [finish, positionHardwareCursor_row frame hrow]
    exact ⟨rfl, rfl⟩
  simp only
  split
  · rw [keepLines, positionHardwareCursor_row frame hrow]
    exact ⟨rfl, le_rfl⟩
  rename_i firstChanged lastChanged _
  split
  · rw [clearDeleted]
    split
    · refine ⟨(hfinish _ _).1, ?_⟩
      rw [(hfinish _ _).2]
    refine ⟨(hfinish _ _).1, ?_⟩
    rw [(hfinish _ _).2]
  have hscrolled (target : Nat) :
      prevViewportTop display screen ≤ (scrollTo (α := α) display screen target).2.1 := by
    rw [scrollTo]
    split
    · exact Nat.le_add_right _ _
    · exact le_rfl
  rw [drawChanged]
  refine ⟨(hfinish _ _).1, ?_⟩
  rw [(hfinish _ _).2]
  exact le_trans (hscrolled _) (Nat.le_max_left _ _)

/-- A cursor above the viewport stops at the screen's first row. -/
theorem not_frameShown {display : Display α} {state next : State α}
    (hhidden : ¬ CursorInView display state frame) (hstep : step display state frame = some next) :
    ¬ FrameShown display next := by
  simp only [CursorInView, not_forall, not_or] at hhidden
  obtain ⟨position, hposition, habove, hfull⟩ := hhidden
  have hnone : fullRedraw display state.screen frame (prepare display frame.lines).1 = none := by
    simpa using hfull
  obtain ⟨hline, htop⟩ := doRender_cursor hposition hnone
  obtain ⟨-, rfl⟩ := of_guard hstep
  intro hshown
  have hrow := (hshown frame rfl).2.2
  simp only [hline] at hrow
  omega

/-- The states of a run show their frames just when no frame of it has its cursor above the
viewport that is kept. -/
theorem frames_shown_iff {display : Display α} (hheight : 0 < display.size.height) {frames : List Frame}
    {result : State α} (hrun : run (step display) start frames = some result) :
    (∀ front state, front <+: frames → run (step display) start front = some state → FrameShown display state) ↔
      EveryStep (step display) (CursorInView display) start frames :=
  forall_states_iff_everyStep (fun _ hstate => hstate.frameShown hheight) (invariant_step hheight)
    (fun _ _ _ hhidden hstep => not_frameShown hhidden hstep) (invariant_start hheight) hrun

/-- Two rows that show capital letters. -/
def twoRows : Display UInt16 := ⟨⟨80, 2⟩, fun text => text.filter fun unit => decide (65 ≤ unit ∧ unit ≤ 90), id, false⟩

def plainFrame (lines : List JsString) : Frame := ⟨lines, false, true, false⟩

/-- The second frame shrinks, so that the viewport stays below its first line, and has its
cursor there. -/
def cursorAboveFrames : List Frame :=
  [plainFrame [js ['A'], js ['B'], js ['C']], plainFrame [cursorMarker ++ js ['A'], js ['B']],
    plainFrame [js ['A'], js ['X']]]

/-- The third frame's changed line is drawn a row below its own. -/
theorem cursor_above_not_shown :
    (∀ frame ∈ cursorAboveFrames,
      (frame.lines.filter fun line => (Delta.indexOf cursorMarker line 0).isSome).length ≤ 1) ∧
    ∃ state, run (step twoRows) start cursorAboveFrames = some state ∧ ¬ FrameShown twoRows state := by
  refine ⟨by decide, ?_⟩
  have hcells : (run (step twoRows) start cursorAboveFrames).map (fun state =>
      (state.frame, state.terminal.buffer (state.terminal.top + 0) 0, state.screen.previousViewportTop)) =
      some (some (plainFrame [js ['A'], js ['X']]), some 66, 1) := by decide
  obtain ⟨state, hrun, hstate⟩ := Option.map_eq_some_iff.1 hcells
  simp only [Prod.mk.injEq] at hstate
  obtain ⟨hframe, hcell, htop⟩ := hstate
  refine ⟨state, hrun, fun hshown => ?_⟩
  have hrow := congrFun ((hshown _ hframe).1 0 (by decide)) 0
  rw [hcell, htop] at hrow
  cases hrow

/-- Grown, changed and shrunk frames with the cursor in their last line. -/
theorem frames_shown_iff_growing :
    let frames := [plainFrame [js ['A'], js ['B'] ++ cursorMarker],
      plainFrame [js ['A'], js ['B'], js ['C'] ++ cursorMarker],
      plainFrame [js ['A'], js ['X'], cursorMarker ++ js ['C']], plainFrame [js ['A'], js ['X'] ++ cursorMarker]]
    0 < twoRows.size.height ∧ (run (step twoRows) start frames).isSome = true ∧
      ∀ front state, front <+: frames → run (step twoRows) start front = some state → FrameShown twoRows state := by
  intro frames
  have hsome : (run (step twoRows) start frames).isSome = true := by decide
  obtain ⟨result, hrun⟩ := Option.isSome_iff_exists.1 hsome
  have hinview : EveryStep (step twoRows) (CursorInView twoRows) start frames := by decide
  exact ⟨by decide, hsome, (frames_shown_iff (by decide) hrun).2 hinview⟩

end Hummin.MainScreen
