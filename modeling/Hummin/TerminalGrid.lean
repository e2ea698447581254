/-
A terminal as a buffer of rows. The screen is `height` of them from `top` on, and the rows
before it are its scrollback. Output is a list of operations on the buffer and the cursor.
-/
import Mathlib.Data.List.Basic
import Mathlib.Logic.Function.Basic

namespace Hummin.TerminalGrid

open List

universe u

variable {α : Type u}

structure Size where
  width : Nat
  height : Nat
deriving DecidableEq

/-- The cells of a row by column; a column without a cell is blank. -/
abbrev Row (α : Type u) := Nat → Option α

def blank : Row α := fun _ => none

/-- The row that shows some cells from its first column on. -/
def rowOf (cells : List α) : Row α := fun column => cells[column]?

/-- A buffer, its first screen row, and the cursor's buffer row and column. -/
structure Terminal (α : Type u) where
  buffer : Nat → Row α
  top : Nat
  line : Nat
  column : Nat
  cursorShown : Bool

/-- The cells of a `print` fit in the row from the cursor on. -/
inductive Op (α : Type u)
  | print (cells : List α)
  | carriageReturn
  | newline
  | up (count : Nat)
  | down (count : Nat)
  | column (number : Nat)
  | home
  | eraseLine
  | eraseScreen
  | eraseScrollback
  | showCursor (shown : Bool)
  | synchronized (on : Bool)

namespace Terminal

/-- The cursor's row on the screen. -/
def cursorRow (terminal : Terminal α) : Nat := terminal.line - terminal.top

/-- The cursor is on the screen. -/
def Within (size : Size) (terminal : Terminal α) : Prop :=
  terminal.top ≤ terminal.line ∧ terminal.line < terminal.top + size.height

/-- A cleared terminal with the cursor at its first row. -/
def cleared : Terminal α := ⟨fun _ => blank, 0, 0, 0, true⟩

end Terminal

/-- One operation. A new line at the last row of the screen scrolls it by a blank row, moves up
and down stop at the screen's edges, and a move by zero rows is a move by one. -/
def apply (size : Size) (terminal : Terminal α) : Op α → Terminal α
  | .print cells =>
    { terminal with
      buffer := Function.update terminal.buffer terminal.line fun column =>
        if terminal.column ≤ column ∧ column < terminal.column + cells.length then
          cells[column - terminal.column]?
        else terminal.buffer terminal.line column
      column := terminal.column + cells.length }
  | .carriageReturn => { terminal with column := 0 }
  | .newline =>
    if terminal.line + 1 < terminal.top + size.height then
      { terminal with line := terminal.line + 1, column := 0 }
    else
      { terminal with
        buffer := Function.update terminal.buffer (terminal.line + 1) blank
        top := terminal.top + 1
        line := terminal.line + 1
        column := 0 }
  | .up count => { terminal with line := max terminal.top (terminal.line - max 1 count) }
  | .down count => { terminal with line := min (terminal.top + size.height - 1) (terminal.line + max 1 count) }
  | .column number => { terminal with column := min (size.width - 1) (number - 1) }
  | .home => { terminal with line := terminal.top, column := 0 }
  | .eraseLine => { terminal with buffer := Function.update terminal.buffer terminal.line blank }
  | .eraseScreen =>
    { terminal with buffer := fun line =>
        if terminal.top ≤ line ∧ line < terminal.top + size.height then blank else terminal.buffer line }
  | .eraseScrollback =>
    { terminal with
      buffer := fun line => terminal.buffer (terminal.top + line)
      top := 0
      line := terminal.line - terminal.top }
  | .showCursor shown => { terminal with cursorShown := shown }
  | .synchronized _ => terminal

def applyAll (size : Size) (terminal : Terminal α) (ops : List (Op α)) : Terminal α :=
  ops.foldl (apply size) terminal

theorem applyAll_append (size : Size) (terminal : Terminal α) (ops more : List (Op α)) :
    applyAll size terminal (ops ++ more) = applyAll size (applyAll size terminal ops) more :=
  foldl_append

theorem applyAll_cons (size : Size) (terminal : Terminal α) (op : Op α) (ops : List (Op α)) :
    applyAll size terminal (op :: ops) = applyAll size (apply size terminal op) ops :=
  rfl

/-! ### Moves -/

/-- A relative move by some rows, down when positive. -/
def moveBy (rows : Int) : List (Op α) :=
  if 0 < rows then [.down rows.toNat] else if rows < 0 then [.up (-rows).toNat] else []

/-- A move within the screen ends where it aims at. -/
theorem applyAll_moveBy {size : Size} {terminal : Terminal α} {rows : Int} {target : Nat}
    (htarget : (target : Int) = terminal.line + rows) (htop : terminal.top ≤ target)
    (hbottom : target < terminal.top + size.height) :
    applyAll size terminal (moveBy rows) = { terminal with line := target } := by
  rw [moveBy]
  split
  · have hline : min (terminal.top + size.height - 1) (terminal.line + max 1 rows.toNat) = target := by omega
    simp only [applyAll, foldl_cons, foldl_nil, apply, hline]
  split
  · have hline : max terminal.top (terminal.line - max 1 (-rows).toNat) = target := by omega
    simp only [applyAll, foldl_cons, foldl_nil, apply, hline]
  have hline : terminal.line = target := by omega
  simp only [applyAll, foldl_nil, ← hline]

/-! ### Printing lines -/

/-- One line at the cursor, over an erased row or over what the row has. -/
def drawLine (erase : Bool) (cells : List α) : List (Op α) :=
  if erase then [.eraseLine, .print cells] else [.print cells]

/-- Lines below one another, the first at the cursor. -/
def drawLines (erase : Bool) : List (List α) → List (Op α)
  | [] => []
  | [cells] => drawLine erase cells
  | cells :: next :: rest => drawLine erase cells ++ .newline :: drawLines erase (next :: rest)

/-- A buffer with lines from a row on. -/
def painted (buffer : Nat → Row α) (first : Nat) (lines : List (List α)) : Nat → Row α := fun line =>
  match lines[line - first]? with
  | some cells => if first ≤ line then rowOf cells else buffer line
  | none => buffer line

variable {size : Size} {terminal : Terminal α}

theorem applyAll_drawLine {erase : Bool} (cells : List α)
    (hcolumn : terminal.column = 0) (hrow : erase = true ∨ terminal.buffer terminal.line = blank) :
    applyAll size terminal (drawLine erase cells) =
      { terminal with
        buffer := Function.update terminal.buffer terminal.line (rowOf cells)
        column := cells.length } := by
  have hcells (row : Row α) (hblank : row = blank) :
      (fun column => if 0 ≤ column ∧ column < 0 + cells.length then cells[column - 0]? else row column) =
        rowOf cells := by
    funext column
    by_cases hwithin : column < cells.length
    · simp [rowOf, hwithin]
    · simp [rowOf, hwithin, hblank, blank]
  cases erase with
  | true =>
    simp only [drawLine, if_true, applyAll, foldl_cons, foldl_nil, apply, hcolumn]
    have herased : Function.update terminal.buffer terminal.line blank terminal.line = blank := by simp
    rw [hcells _ herased, Function.update_idem, Nat.zero_add]
  | false =>
    have hblank : terminal.buffer terminal.line = blank := by simpa using hrow
    simp only [drawLine, Bool.false_eq_true, if_false, applyAll, foldl_cons, foldl_nil, apply, hcolumn]
    rw [hcells _ hblank, Nat.zero_add]

/-- What `drawLines` has done to a terminal: its lines are painted from the cursor on, and the
screen has scrolled so far that the last of them is on it. -/
structure Drawn (size : Size) (before after : Terminal α) (lines : List (List α)) : Prop where
  buffer : after.buffer = painted before.buffer before.line lines
  top : after.top = max before.top (before.line + lines.length - size.height)
  line : after.line = before.line + lines.length - 1

variable (buffer : Nat → Row α) (first : Nat) (cells : List α)

theorem painted_singleton :
    painted buffer first [cells] = Function.update buffer first (rowOf cells) := by
  funext line
  by_cases hline : line = first
  · subst hline
    simp [painted]
  rw [Function.update_of_ne hline, painted]
  by_cases hbefore : line < first
  · have hnot : ¬ first ≤ line := by omega
    split <;> simp [hnot]
  have hnone : [cells][line - first]? = none := by
    rw [getElem?_eq_none_iff, length_singleton]
    omega
  simp [hnone]

/-- The row below the first is painted with the rest, whatever it had. -/
theorem painted_cons (next : List α) (rest : List (List α)) (row : Row α) :
    painted (Function.update (Function.update buffer first (rowOf cells)) (first + 1) row) (first + 1) (next :: rest) =
      painted buffer first (cells :: next :: rest) := by
  funext line
  rcases Nat.lt_trichotomy line first with hbefore | hfirst | hafter
  · have hnot : ¬ first + 1 ≤ line := by omega
    have hnot' : ¬ first ≤ line := by omega
    have hnext : line ≠ first + 1 := by omega
    have hother : line ≠ first := by omega
    have hzero : line - (first + 1) = 0 := by omega
    have hzero' : line - first = 0 := by omega
    simp [painted, hzero, hzero', hnot, hnot', hnext, hother]
  · subst hfirst
    have hzero : line - (line + 1) = 0 := by omega
    have hnot : ¬ line + 1 ≤ line := by omega
    simp [painted, hzero, hnot]
  have hshift : line - first = line - (first + 1) + 1 := by omega
  have hle : first ≤ line := by omega
  have hle' : first + 1 ≤ line := by omega
  simp only [painted, hshift, getElem?_cons_succ, hle, hle', if_true]
  split
  · rfl
  rename_i hnone
  have hnext : line ≠ first + 1 := by
    intro heq
    subst heq
    simp at hnone
  have hother : line ≠ first := by omega
  simp [hnext, hother]

theorem painted_update (row : Row α) {lines : List (List α)}
    (hlines : lines ≠ []) : painted (Function.update buffer first row) first lines = painted buffer first lines := by
  obtain ⟨cells, rest, rfl⟩ := exists_cons_of_ne_nil hlines
  funext line
  by_cases hline : line = first
  · subst hline
    simp [painted]
  · simp only [painted, Function.update_of_ne hline]

/-- A new line goes one row down, to the screen's rows or to a blank row that scrolls in. -/
theorem apply_newline {size : Size} {terminal : Terminal α} (hwithin : terminal.Within size) :
    ∃ row, (row = terminal.buffer (terminal.line + 1) ∧ terminal.line + 1 < terminal.top + size.height ∨
        row = blank ∧ terminal.line + 1 = terminal.top + size.height) ∧
      apply size terminal .newline =
        { terminal with
          buffer := Function.update terminal.buffer (terminal.line + 1) row
          top := max terminal.top (terminal.line + 2 - size.height)
          line := terminal.line + 1
          column := 0 } := by
  obtain ⟨htop, hbottom⟩ := hwithin
  by_cases hscroll : terminal.line + 1 < terminal.top + size.height
  · refine ⟨terminal.buffer (terminal.line + 1), .inl ⟨rfl, hscroll⟩, ?_⟩
    have hkept : max terminal.top (terminal.line + 2 - size.height) = terminal.top := by omega
    rw [apply, if_pos hscroll, Function.update_eq_self, hkept]
  refine ⟨blank, .inr ⟨rfl, by omega⟩, ?_⟩
  have hnext : max terminal.top (terminal.line + 2 - size.height) = terminal.top + 1 := by omega
  rw [apply, if_neg hscroll, hnext]

theorem drawn_drawLines {size : Size} {erase : Bool} {lines : List (List α)} {terminal : Terminal α}
    (hlines : lines ≠ []) (hwithin : terminal.Within size) (hcolumn : terminal.column = 0)
    (hrows : erase = true ∨ ∀ line, terminal.line ≤ line → line < terminal.top + size.height →
      terminal.buffer line = blank) :
    Drawn size terminal (applyAll size terminal (drawLines erase lines)) lines := by
  induction lines generalizing terminal with
  | nil => exact absurd rfl hlines
  | cons cells rest ih =>
    have hrow : erase = true ∨ terminal.buffer terminal.line = blank :=
      hrows.imp_right fun hblank => hblank _ (Nat.le_refl _) hwithin.2
    cases rest with
    | nil =>
      rw [drawLines, applyAll_drawLine cells hcolumn hrow]
      obtain ⟨htop, hbottom⟩ := hwithin
      refine ⟨(painted_singleton ..).symm, ?_, (Nat.add_sub_cancel ..).symm⟩
      show terminal.top = max terminal.top (terminal.line + 1 - size.height)
      omega
    | cons next rest =>
      rw [drawLines, applyAll_append, applyAll_drawLine cells hcolumn hrow, applyAll_cons]
      obtain ⟨row, hrowcase, hnewline⟩ := @apply_newline α size
        { terminal with
          buffer := Function.update terminal.buffer terminal.line (rowOf cells), column := cells.length } hwithin
      rw [hnewline]
      simp only at hrowcase ⊢
      obtain ⟨htop, hbottom⟩ := hwithin
      have hblank : erase = true ∨ ∀ line, terminal.line + 1 ≤ line →
          line < max terminal.top (terminal.line + 2 - size.height) + size.height →
          Function.update (Function.update terminal.buffer terminal.line (rowOf cells)) (terminal.line + 1) row
            line = blank := by
        refine hrows.imp_right fun hold line hlow hhigh => ?_
        have hother : line ≠ terminal.line := by omega
        rcases hrowcase with ⟨rfl, hscreen⟩ | ⟨rfl, hscreen⟩
        · rw [Function.update_eq_self, Function.update_of_ne hother]
          exact hold line (by omega) (by omega)
        by_cases hlast : line = terminal.line + 1
        · rw [hlast, Function.update_self]
        · omega
      obtain ⟨hbuffer, htop', hline'⟩ := @ih
        { terminal with
          buffer := Function.update (Function.update terminal.buffer terminal.line (rowOf cells))
            (terminal.line + 1) row
          top := max terminal.top (terminal.line + 2 - size.height)
          line := terminal.line + 1
          column := 0 } (by simp) (by simp only [Terminal.Within]; omega) rfl hblank
      refine ⟨hbuffer.trans (painted_cons ..), htop'.trans ?_, hline'.trans ?_⟩
      · simp only [length_cons]
        omega
      simp only [length_cons]
      omega

/-- Lines drawn from a row of the screen on, or from the row below the one before them, which
may scroll in. -/
theorem drawn_from {size : Size} {lines : List (List α)} {terminal : Terminal α} {first : Nat}
    {below : Bool}
    (hlines : lines ≠ []) {diff : Int}
    (hdiff : ((if below then first - 1 else first : Nat) : Int) = terminal.line + diff)
    (hbelow : below = true → 0 < first)
    (htop : terminal.top ≤ if below then first - 1 else first)
    (hbottom : (if below then first - 1 else first) < terminal.top + size.height) :
    let after := applyAll size terminal
      (moveBy diff ++ [if below then Op.newline else Op.carriageReturn] ++ drawLines true lines)
    after.buffer = painted terminal.buffer first lines ∧
      after.top = max terminal.top (first + lines.length - size.height) ∧
      after.line = first + lines.length - 1 := by
  intro after
  have hpositive : 0 < lines.length := length_pos_of_ne_nil hlines
  have hafter : after = applyAll size terminal
    (moveBy diff ++ [if below then Op.newline else Op.carriageReturn] ++ drawLines true lines) := rfl
  rw [applyAll_append, applyAll_append, applyAll_moveBy hdiff htop hbottom] at hafter
  cases below with
  | false =>
    have hdrawn := @drawn_drawLines α size true lines { terminal with line := first, column := 0 } hlines
      ⟨htop, hbottom⟩ rfl (.inl rfl)
    rw [hafter]
    exact ⟨hdrawn.buffer, hdrawn.top, hdrawn.line⟩
  | true =>
    simp only [if_true] at htop hbottom hafter
    have hfirst := hbelow rfl
    obtain ⟨row, -, hnewline⟩ := @apply_newline α size { terminal with line := first - 1 } ⟨htop, hbottom⟩
    have hstart : applyAll size { terminal with line := first - 1 } [.newline] =
        apply size { terminal with line := first - 1 } .newline := rfl
    have hline : first - 1 + 1 = first := by omega
    rw [hstart, hnewline] at hafter
    simp only [hline] at hafter
    have hdrawn := @drawn_drawLines α size true lines
      { terminal with
        buffer := Function.update terminal.buffer first row
        top := max terminal.top (first - 1 + 2 - size.height)
        line := first
        column := 0 } hlines (by simp only [Terminal.Within]; omega) rfl (.inl rfl)
    rw [hafter]
    refine ⟨hdrawn.buffer.trans (painted_update _ _ _ hlines), hdrawn.top.trans ?_, hdrawn.line⟩
    simp only
    omega

/-! ### Erasing rows -/

/-- Erase some rows from the cursor on, without scrolling. -/
def eraseDown : Nat → List (Op α)
  | 0 => []
  | 1 => [.carriageReturn, .eraseLine]
  | count + 2 => .carriageReturn :: .eraseLine :: .down 1 :: eraseDown (count + 1)

/-- Erase some rows below the cursor's. -/
def eraseNext (count : Nat) : List (Op α) := (List.replicate count [.newline, .eraseLine]).flatten

/-- A buffer without some rows. -/
def erased (buffer : Nat → Row α) (first count : Nat) : Nat → Row α := fun line =>
  if first ≤ line ∧ line < first + count then blank else buffer line

theorem erased_zero : erased buffer first 0 = buffer := by
  funext line
  have hempty : ¬ (first ≤ line ∧ line < first + 0) := by omega
  rw [erased, if_neg hempty]

theorem erased_succ (count : Nat) :
    erased (Function.update buffer first blank) (first + 1) count = erased buffer first (count + 1) := by
  funext line
  by_cases hfirst : line = first
  · subst hfirst
    simp [erased]
  have hrange : first + 1 ≤ line ∧ line < first + 1 + count ↔ first ≤ line ∧ line < first + (count + 1) := by omega
  simp only [erased, Function.update_of_ne hfirst, hrange]

theorem applyAll_eraseDown {count : Nat} {terminal : Terminal α} (hcount : 0 < count)
    (hwithin : terminal.line + count ≤ terminal.top + size.height) :
    applyAll size terminal (eraseDown count) =
      { terminal with
        buffer := erased terminal.buffer terminal.line count
        line := terminal.line + count - 1
        column := 0 } := by
  induction count generalizing terminal with
  | zero => exact absurd hcount (Nat.lt_irrefl 0)
  | succ count ih =>
    cases count with
    | zero =>
      have hone : erased terminal.buffer terminal.line 1 = Function.update terminal.buffer terminal.line blank := by
        rw [← erased_succ, erased_zero]
      rw [hone]
      rfl
    | succ count =>
      have hdown : min (terminal.top + size.height - 1) (terminal.line + max 1 1) = terminal.line + 1 := by omega
      rw [eraseDown, applyAll_cons, applyAll_cons, applyAll_cons]
      simp only [apply, hdown]
      rw [ih (Nat.succ_pos count) (by simp only; omega), ← erased_succ terminal.buffer terminal.line (count + 1)]
      simp only [Terminal.mk.injEq, true_and, and_true]
      omega

theorem applyAll_eraseNext {count : Nat} {terminal : Terminal α}
    (hwithin : terminal.line + count < terminal.top + size.height) (hcount : 0 < count) :
    applyAll size terminal (eraseNext count) =
      { terminal with
        buffer := erased terminal.buffer (terminal.line + 1) count
        line := terminal.line + count
        column := 0 } := by
  induction count generalizing terminal with
  | zero => exact absurd hcount (Nat.lt_irrefl 0)
  | succ count ih =>
    have hscreen : terminal.line + 1 < terminal.top + size.height := by omega
    have hsplit : (eraseNext (count + 1) : List (Op α)) = [Op.newline, Op.eraseLine] ++ eraseNext count := by
      rw [eraseNext, replicate_succ, flatten_cons]
      rfl
    have hone : applyAll size terminal [.newline, .eraseLine] =
        { terminal with
          buffer := Function.update terminal.buffer (terminal.line + 1) blank
          line := terminal.line + 1
          column := 0 } := by
      simp only [applyAll, foldl_cons, foldl_nil, apply, if_pos hscreen]
    rw [hsplit, applyAll_append, hone, ← erased_succ]
    by_cases hmore : 0 < count
    · rw [ih (by simp only; omega) hmore]
      simp only [Terminal.mk.injEq, true_and, and_true]
      omega
    obtain rfl : count = 0 := by omega
    rw [erased_zero]
    rfl

end Hummin.TerminalGrid
