/-
What a comparison of two frames says about them: outside the changed rows they are the same,
and the rows of appended and deleted lines are changed.
-/
import Hummin.MainScreen

namespace Hummin.MainScreen

open List

open TerminalGrid

/-- Written lines are not empty, as each ends with a reset. -/
def NoneEmpty (lines : List JsString) : Prop := ∀ line ∈ lines, line ≠ []

theorem noneEmpty_applyLineResets {α : Type*} (display : Display α) (lines : List JsString) :
    NoneEmpty (applyLineResets display lines) := by
  intro line hline
  obtain ⟨source, -, rfl⟩ := mem_map.1 hline
  simp [segmentReset, js]

theorem noneEmpty_prepare {α : Type*} (display : Display α) (lines : List JsString) :
    NoneEmpty (prepare display lines).1 :=
  noneEmpty_applyLineResets display _

theorem lineAt_eq_nil {lines : List JsString} {row : Nat}
    (hrow : lines.length ≤ row) : lineAt lines row = [] := by
  simp [lineAt, hrow]

variable {previous lines : List JsString}

theorem lineAt_ne_nil (hlines : NoneEmpty lines) {row : Nat} (hrow : row < lines.length) :
    lineAt lines row ≠ [] := by
  have hline : lineAt lines row = lines[row] := by simp [lineAt, hrow]
  rw [hline]
  exact hlines _ (getElem_mem hrow)

/-- Rows with the same text are the same rows of both frames. -/
theorem getElem?_eq_of_lineAt (hprevious : NoneEmpty previous)
    (hlines : NoneEmpty lines) {row : Nat} (hsame : lineAt previous row = lineAt lines row) :
    previous[row]? = lines[row]? := by
  by_cases hbefore : row < previous.length
  · have hboth : row < lines.length := by
      by_contra hnot
      rw [lineAt_eq_nil (Nat.le_of_not_lt hnot)] at hsame
      exact lineAt_ne_nil hprevious hbefore hsame
    simpa [lineAt, hbefore, hboth] using hsame
  have hneither : ¬ row < lines.length := by
    intro hnot
    rw [lineAt_eq_nil (Nat.le_of_not_lt hbefore)] at hsame
    exact lineAt_ne_nil hlines hnot hsame.symm
  rw [getElem?_eq_none (Nat.le_of_not_lt hbefore), getElem?_eq_none (Nat.le_of_not_lt hneither)]

/-- The rows that differ, in ascending order. -/
def changedRows (previous lines : List JsString) : List Nat :=
  (List.range (max lines.length previous.length)).filter fun row =>
    decide (lineAt previous row ≠ lineAt lines row)

variable {row : Nat}

theorem mem_changedRows :
    row ∈ changedRows previous lines ↔
      row < max lines.length previous.length ∧ lineAt previous row ≠ lineAt lines row := by
  simp [changedRows, mem_filter]

theorem changedRows_pairwise (previous lines : List JsString) :
    (changedRows previous lines).Pairwise (· < ·) :=
  List.Pairwise.filter _ pairwise_lt_range

theorem same_of_not_mem (hrow : row ∉ changedRows previous lines) :
    lineAt previous row = lineAt lines row := by
  by_contra hdiffer
  by_cases hbound : row < max lines.length previous.length
  · exact hrow (mem_changedRows.2 ⟨hbound, hdiffer⟩)
  rw [lineAt_eq_nil (by omega), lineAt_eq_nil (by omega)] at hdiffer
  exact hdiffer rfl

theorem head_changedRows_le {first row : Nat}
    (hfirst : (changedRows previous lines).head? = some first) (hrow : row ∈ changedRows previous lines) :
    first ≤ row := by
  have hsorted := changedRows_pairwise previous lines
  rcases hrows : changedRows previous lines with _ | ⟨head, rest⟩
  · rw [hrows] at hrow
    cases hrow
  rw [hrows] at hfirst hrow hsorted
  cases hfirst
  rcases mem_cons.1 hrow with rfl | hrest
  · exact le_rfl
  · exact le_of_lt ((pairwise_cons.1 hsorted).1 row hrest)

theorem le_last_changedRows {last row : Nat}
    (hlast : (changedRows previous lines).getLast? = some last) (hrow : row ∈ changedRows previous lines) :
    row ≤ last := by
  obtain ⟨init, hrows⟩ := getLast?_eq_some_iff.1 hlast
  have hsorted := changedRows_pairwise previous lines
  rw [hrows] at hsorted hrow
  rcases mem_append.1 hrow with hinit | hend
  · exact le_of_lt ((pairwise_append.1 hsorted).2.2 row hinit last mem_cons_self)
  · exact le_of_eq (mem_singleton.1 hend)

/-- What the range of changed rows says. -/
structure Changed (previous lines : List JsString) (first last : Nat) : Prop where
  before : ∀ row, row < first → previous[row]? = lines[row]?
  after : ∀ row, last < row → previous[row]? = lines[row]?
  first_le : first ≤ last
  last_lt : last < max lines.length previous.length
  appended : previous.length < lines.length → first ≤ previous.length ∧ last = lines.length - 1
  deleted : lines.length < previous.length → last = previous.length - 1

theorem changedRange_eq (previous lines : List JsString) : changedRange previous lines =
    if previous.length < lines.length then
      some ((changedRows previous lines).head?.getD previous.length, lines.length - 1)
    else match (changedRows previous lines).head?, (changedRows previous lines).getLast? with
      | some first, some last => some (first, last)
      | _, _ => none :=
  rfl

theorem changedRange_some (hprevious : NoneEmpty previous) (hlines : NoneEmpty lines)
    {first last : Nat} (hchanged : changedRange previous lines = some (first, last)) :
    Changed previous lines first last := by
  have hsame (row : Nat) (hrow : row ∉ changedRows previous lines) : previous[row]? = lines[row]? :=
    getElem?_eq_of_lineAt hprevious hlines (same_of_not_mem hrow)
  rw [changedRange_eq] at hchanged
  split at hchanged
  next hgrown =>
    have hrow : previous.length ∈ changedRows previous lines := by
      refine mem_changedRows.2 ⟨by omega, ?_⟩
      rw [lineAt_eq_nil le_rfl]
      exact (lineAt_ne_nil hlines hgrown).symm
    obtain ⟨head, hhead⟩ : ∃ head, (changedRows previous lines).head? = some head := by
      rw [← Option.isSome_iff_exists, isSome_head?]
      exact ne_nil_of_mem hrow
    rw [hhead] at hchanged
    obtain ⟨rfl, rfl⟩ : head = first ∧ lines.length - 1 = last := by simpa using hchanged
    have hle := head_changedRows_le hhead hrow
    refine ⟨fun row hbefore => hsame row fun hmem => ?_, fun row hafter => hsame row fun hmem => ?_, by omega,
      by omega, fun _ => ⟨hle, rfl⟩, fun hshrunk => by omega⟩
    · have hfirst := head_changedRows_le hhead hmem
      omega
    have hbound := (mem_changedRows.1 hmem).1
    omega
  rename_i hgrown
  split at hchanged
  next head end' hhead hend =>
    obtain ⟨rfl, rfl⟩ : head = first ∧ end' = last := by simpa using hchanged
    have hmem : end' ∈ changedRows previous lines := mem_of_getLast? hend
    refine ⟨fun row hbefore => hsame row fun hrow => ?_, fun row hafter => hsame row fun hrow => ?_,
      head_changedRows_le hhead hmem, (mem_changedRows.1 hmem).1, fun hmore => absurd hmore hgrown,
      fun hshrunk => ?_⟩
    · have hfirst := head_changedRows_le hhead hrow
      omega
    · have hlast := le_last_changedRows hend hrow
      omega
    have hrow : previous.length - 1 ∈ changedRows previous lines := by
      refine mem_changedRows.2 ⟨by omega, ?_⟩
      rw [@lineAt_eq_nil lines (previous.length - 1) (by omega)]
      exact lineAt_ne_nil hprevious (by omega)
    have hlast := le_last_changedRows hend hrow
    have hbound := (mem_changedRows.1 hmem).1
    omega
  · cases hchanged

theorem changedRange_none (hprevious : NoneEmpty previous) (hlines : NoneEmpty lines)
    (hchanged : changedRange previous lines = none) : previous = lines := by
  rw [changedRange_eq] at hchanged
  split at hchanged
  · cases hchanged
  have hempty : changedRows previous lines = [] := by
    rcases hrows : changedRows previous lines with _ | ⟨head, rest⟩
    · rfl
    rw [hrows, head?_cons, getLast?_cons] at hchanged
    cases hchanged
  apply ext_getElem?
  intro row
  apply getElem?_eq_of_lineAt hprevious hlines
  exact same_of_not_mem (by rw [hempty]; exact not_mem_nil)

end Hummin.MainScreen
