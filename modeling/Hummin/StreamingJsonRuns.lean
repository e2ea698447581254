/-
Runs of a streaming parser over pieces of text with snapshots between them.  A snapshot
is free once the root value has ended, so that the last one shows the value.
-/
import Hummin.StreamingJsonPhrase

namespace Hummin.StreamingJson

open List

open JsonText JsonRepair

/-! ### What snapshots cost -/

/-- What a fresh snapshot copies. -/
def openCost (stack : List Frame) : Int :=
  (stack.map fun frame => (frame.size : Int) + 1).sum

/-- Reading keeps the last snapshot and the credit, and marks what the value changes. -/
structure Progress (parser next : Parser) : Prop where
  snapshot : next.snapshot = parser.snapshot
  credit : next.credit = parser.credit
  cost : next.pathCost - openCost next.stack = parser.pathCost - openCost parser.stack
  shown : next.dirty = true ∨ (next.dirty = parser.dirty ∧ next.root = parser.root ∧
    (next.stack = [] → parser.stack = []))

variable (slot : Option Slot) (value : JsonValue) (parser : Parser)

theorem Progress.refl : Progress parser parser :=
  ⟨rfl, rfl, rfl, .inr ⟨rfl, rfl, id⟩⟩

theorem Progress.trans {parser middle next : Parser} (hfirst : Progress parser middle)
    (hsecond : Progress middle next) : Progress parser next := by
  refine ⟨hsecond.snapshot.trans hfirst.snapshot, hsecond.credit.trans hfirst.credit,
    hsecond.cost.trans hfirst.cost, ?_⟩
  rcases hsecond.shown with hdirty | ⟨hdirty, hroot, hstack⟩
  · exact .inl hdirty
  rcases hfirst.shown with hmarked | ⟨hsame, hkept, hempty⟩
  · exact .inl (hdirty.trans hmarked)
  · exact .inr ⟨hdirty.trans hsame, hroot.trans hkept, fun hnil => hempty (hstack hnil)⟩

theorem openCost_assign :
    openCost (assign slot value parser).stack = openCost parser.stack ∧
      (assign slot value parser).pathCost = parser.pathCost ∧
      (assign slot value parser).snapshot = parser.snapshot ∧
      (assign slot value parser).credit = parser.credit ∧
      (assign slot value parser).dirty = parser.dirty := by
  rw [assign.eq_def]
  cases slot with
  | none => exact ⟨rfl, rfl, rfl, rfl, rfl⟩
  | some slot =>
    cases slot with
    | root => exact ⟨rfl, rfl, rfl, rfl, rfl⟩
    | _ =>
      cases hstack : parser.stack with
      | nil => simp [hstack]
      | cons frame rest => simp [openCost]

theorem progress_count : Progress parser (count slot parser) := by
  rw [count.eq_def]
  split
  next slot frame rest hstack =>
    split
    · refine ⟨rfl, rfl, ?_, .inr ⟨rfl, rfl, ?_⟩⟩
      · rw [hstack]
        simp only [openCost, map_cons, sum_cons]
        omega
      · rintro ⟨⟩
    · exact .refl parser
  · exact .refl parser

theorem progress_place : Progress parser (place slot value parser) := by
  cases slot with
  | none => exact .refl parser
  | some slot =>
    have hcounted := progress_count (some slot) parser
    obtain ⟨hcost, hpath, hsnapshot, hcredit, -⟩ :=
      openCost_assign (some slot) value (count (some slot) parser)
    refine hcounted.trans ⟨hsnapshot, hcredit, ?_, .inl rfl⟩
    rw [place]
    rw [hcost, hpath]

theorem progress_valueEnded : Progress parser (valueEnded parser) := by
  rw [valueEnded]
  split
  · split
    · exact ⟨rfl, rfl, rfl, .inr ⟨rfl, rfl, id⟩⟩
    · exact .refl parser
  rename_i frame rest hstack
  refine ⟨rfl, rfl, ?_, .inr ⟨rfl, rfl, ?_⟩⟩
  · rw [hstack]
    rfl
  · rintro ⟨⟩

theorem progress_reportSet (path : Option Path) (value : JsonValue) (parser : Parser) :
    Progress parser (reportSet path value parser) := by
  cases path with
  | none => exact .refl parser
  | some path => exact ⟨rfl, rfl, rfl, .inr ⟨rfl, rfl, id⟩⟩

/-! ### Strings -/

theorem progress_startString : Progress parser (startString parser) := by
  rw [startString]
  split
  · exact ⟨rfl, rfl, rfl, .inr ⟨rfl, rfl, id⟩⟩
  apply (progress_place (valueSlot parser) (.str []) parser).trans
  apply (progress_reportSet (reportedPath (valueSlot parser) parser) (.str []) _).trans
  exact ⟨rfl, rfl, rfl, .inr ⟨rfl, rfl, id⟩⟩

variable (text : JsString)

theorem progress_reportText (parser : Parser) : Progress parser (reportText text parser) := by
  rw [reportText]
  split
  · exact .refl parser
  split
  · exact .refl parser
  · split <;> exact ⟨rfl, rfl, rfl, .inr ⟨rfl, rfl, id⟩⟩

theorem progress_appendString (parser : Parser) : Progress parser (appendString text parser) := by
  rw [appendString]
  split
  · exact .refl parser
  rename_i before hbefore
  have hread : Progress parser { parser with
      string := some { before with text := before.text ++ text } } :=
    ⟨rfl, rfl, rfl, .inr ⟨rfl, rfl, id⟩⟩
  dsimp only
  split
  · exact hread
  · exact hread.trans ((progress_place _ _ _).trans (progress_reportText text _))

theorem progress_appendRun (parser : Parser) : Progress parser (appendRun text parser) := by
  rw [appendRun]
  split
  · exact .refl parser
  · exact progress_appendString text parser

theorem progress_setEscape (escape : JsString) (parser : Parser) :
    Progress parser (setEscape escape parser) :=
  ⟨rfl, rfl, rfl, .inr ⟨rfl, rfl, id⟩⟩

theorem progress_continueEscape (unit : UInt16) (parser : Parser) :
    Progress parser (continueEscape unit parser).2 := by
  have hcleared : ∀ text, Progress parser (appendString text (setEscape [] parser)) :=
    fun text => (progress_setEscape [] parser).trans (progress_appendString text _)
  rw [continueEscape]
  split
  · split
    · exact hcleared _
    split
    · exact progress_setEscape _ parser
    · exact hcleared _
  split
  · split
    · exact progress_setEscape _ parser
    · exact hcleared _
  · exact hcleared _

theorem progress_endString : Progress parser (endString parser) := by
  rw [endString]
  split
  · exact .refl parser
  have hclosed : Progress parser { parser with string := none } :=
    ⟨rfl, rfl, rfl, .inr ⟨rfl, rfl, id⟩⟩
  dsimp only
  split
  · split
    · exact hclosed
    rename_i frame rest hstack
    refine ⟨rfl, rfl, ?_, .inr ⟨rfl, rfl, ?_⟩⟩
    · rw [hstack]
      rfl
    · rintro ⟨⟩
  · exact hclosed.trans (progress_valueEnded _)

theorem progress_readString (run : JsString) (parser : Parser) (text : JsString) :
    Progress parser (readString run parser text).1 := by
  induction text generalizing run parser with
  | nil => exact progress_appendRun run parser
  | cons unit rest ih =>
    have hplain : ∀ run next, Progress parser next → Progress parser
        (if unit = quote then (endString (appendRun run next), rest)
        else if unit = backslash then
          readString [] (setEscape [backslash] (appendRun run next)) rest
        else readString (run ++ [unit]) next rest).1 := by
      intro run next hnext
      have hrun := hnext.trans (progress_appendRun run next)
      split_ifs
      · exact hrun.trans (progress_endString _)
      · exact (hrun.trans (progress_setEscape _ _)).trans (ih _ _)
      · exact hnext.trans (ih _ _)
    rw [readString]
    by_cases hnone : escaping parser = []
    · rw [if_pos hnone]
      exact hplain run parser (.refl parser)
    rw [if_neg hnone]
    have hcontinued := progress_continueEscape unit parser
    split
    · exact hcontinued.trans (ih _ _)
    · exact hplain [] _ hcontinued

/-! ### Scalars and containers -/

theorem progress_endScalar : Progress parser (endScalar parser) := by
  have hended : Progress parser { parser with scalar := [], scalarSlot := none } :=
    ⟨rfl, rfl, rfl, .inr ⟨rfl, rfl, id⟩⟩
  rw [endScalar]
  split
  · exact hended.trans (progress_valueEnded _)
  exact (hended.trans ((progress_place _ _ _).trans (progress_reportSet _ _ _))).trans
    (progress_valueEnded _)

theorem progress_mark (scalar : JsString) (slot : Option Slot)
    (marked : Bool) :
    Progress parser { parser with
      scalar
      scalarSlot := slot
      dirty := parser.dirty || marked } := by
  refine ⟨rfl, rfl, rfl, ?_⟩
  cases marked with
  | false => exact .inr ⟨Bool.or_false _, rfl, id⟩
  | true => exact .inl (Bool.or_true _)

theorem progress_readScalar : Progress parser (readScalar parser text).1 := by
  have hread : ∀ units : JsString, Progress parser (if units.isEmpty then parser else { parser with
      scalar := parser.scalar ++ units
      dirty := parser.dirty || parser.scalarSlot.isSome }) := by
    intro units
    split
    · exact .refl parser
    · exact progress_mark parser _ _ _
  rw [readScalar]
  split
  · exact hread _
  · exact (hread _).trans (progress_endScalar _)

theorem progress_openContainer (container : Container) (parser : Parser) :
    Progress parser (openContainer container parser) := by
  have hplaced := progress_place (valueSlot parser) container.toJson parser
  rw [openContainer]
  apply hplaced.trans
  refine Progress.trans ?_ (progress_reportSet _ _ _)
  refine ⟨rfl, rfl, ?_, .inl rfl⟩
  simp only [openCost, map_cons, sum_cons]
  omega

theorem progress_closeContainer : Progress parser (closeContainer parser) := by
  rw [closeContainer]
  split
  · exact .refl parser
  rename_i frame rest hstack
  obtain ⟨hcost, hpath, hsnapshot, hcredit, hdirty⟩ :=
    openCost_assign frame.slot frame.container.toJson { parser with
      stack := rest
      pathCost := parser.pathCost - (frame.size + 1)
      dirty := true }
  have hclosed : Progress parser (assign frame.slot frame.container.toJson { parser with
      stack := rest
      pathCost := parser.pathCost - (frame.size + 1)
      dirty := true }) := by
    refine ⟨hsnapshot, hcredit, ?_, .inl hdirty⟩
    rw [hcost, hpath, hstack]
    simp only [openCost, map_cons, sum_cons]
    omega
  split
  · exact hclosed.trans (progress_valueEnded _)
  · exact (hclosed.trans (progress_reportSet _ _ _)).trans (progress_valueEnded _)

theorem progress_phase {parser : Parser} {frame : Frame} {rest : List Frame}
    (hstack : parser.stack = frame :: rest) (phase : Phase) :
    Progress parser { parser with stack := { frame with phase } :: rest } := by
  refine ⟨rfl, rfl, ?_, .inr ⟨rfl, rfl, ?_⟩⟩
  · rw [hstack]
    rfl
  · exact nofun

theorem progress_structural (unit : UInt16) (parser : Parser) :
    Progress parser (structural unit parser) := by
  rw [structural]
  split_ifs
  · exact .refl parser
  · exact progress_startString parser
  · exact progress_openContainer _ parser
  · exact progress_openContainer _ parser
  · exact progress_closeContainer parser
  · split
    · exact .refl parser
    rename_i frame rest hstack
    split
    · exact progress_phase hstack _
    · exact .refl parser
  · split
    · exact .refl parser
    next frame rest hstack =>
      exact progress_phase hstack _
  · exact progress_mark parser _ _ _

theorem progress_readPiece (fuel : Nat) (parser : Parser) (text : JsString) :
    Progress parser (readPiece fuel parser text) := by
  induction fuel generalizing parser text with
  | zero => exact .refl parser
  | succ fuel ih =>
    cases text with
    | nil => exact .refl parser
    | cons unit rest =>
      rw [readPiece]
      split_ifs
      · exact .refl parser
      · exact (progress_readString _ _ _).trans (ih _ _)
      · exact (progress_readScalar _ _).trans (ih _ _)
      · exact (progress_structural _ _).trans (ih _ _)

/-! ### The root while a scalar is read -/

namespace Reading

/-- A scalar is read at the root only while there is no root value. -/
def RootFree (reading : Reading) : Prop :=
  ∀ token, reading.mode = .scalar token (some .root) → reading.root = none

variable {reading : Reading}

theorem rootFree_of_mode
    (hmode : ∀ token slot, reading.mode ≠ .scalar token slot) : RootFree reading :=
  fun token hscalar => absurd hscalar (hmode token _)

theorem mode_closeContainer (reading : Reading) : reading.closeContainer.mode = reading.mode := by
  rw [closeContainer]
  split
  · rfl
  · rw [mode_valueEnded, mode_assign]

theorem mode_setPhase (phase : Level → Phase) (reading : Reading) :
    (reading.setPhase phase).mode = reading.mode := by
  rw [setPhase]
  split <;> rfl

theorem rootFree_structural (hmode : reading.mode = .between)
    (unit : UInt16) : RootFree (reading.structural unit) := by
  have hbetween : ∀ next : Reading, next.mode = reading.mode → RootFree next := by
    intro next hnext
    apply rootFree_of_mode
    rw [hnext, hmode]
    exact nofun
  rw [structural]
  split_ifs
  · exact hbetween reading rfl
  · apply rootFree_of_mode
    rw [startString]
    intro token slot hscalar
    split at hscalar <;> cases hscalar
  · exact hbetween _ (mode_assign _ _ reading)
  · exact hbetween _ (mode_assign _ _ reading)
  · exact hbetween _ (mode_closeContainer reading)
  · exact hbetween _ (mode_setPhase _ reading)
  · exact hbetween _ (mode_setPhase _ reading)
  rintro token hscalar
  obtain ⟨-, hslot⟩ := Mode.scalar.inj hscalar
  rw [valueSlot] at hslot
  split at hslot
  · split at hslot
    next hroot =>
      exact Option.isNone_iff_eq_none.mp hroot
    · cases hslot
  split at hslot
  · cases hslot
  split at hslot
  · obtain ⟨key, -, hkey⟩ := Option.map_eq_some_iff.mp hslot
    cases hkey
  · cases hslot

/-- In a string or after it. -/
def OutsideScalar (reading : Reading) : Prop :=
  ∀ token slot, reading.mode ≠ .scalar token slot

section

variable (houtside : OutsideScalar reading)
include houtside

theorem outsideScalar_appendText (text : JsString) : OutsideScalar (reading.appendText text) := by
  rw [appendText]
  split
  · rintro token slot ⟨⟩
  · rintro token slot ⟨⟩
  · exact houtside

theorem outsideScalar_setEscape (escape : JsString) : OutsideScalar (reading.setEscape escape) := by
  rw [setEscape]
  split
  · rintro token slot ⟨⟩
  · exact houtside

theorem outsideScalar_plain (unit : UInt16) : OutsideScalar (reading.plain unit) := by
  rw [plain]
  split_ifs
  · rw [endString]
    split
    · split <;> (intro token slot hscalar; cases hscalar)
    · intro token slot
      rw [mode_valueEnded]
      rintro ⟨⟩
    · exact houtside
  · exact outsideScalar_setEscape houtside _
  · exact outsideScalar_appendText houtside _

theorem outsideScalar_feedString
    (escape : JsString) (unit : UInt16) : OutsideScalar (reading.feedString escape unit) := by
  have hcleared := outsideScalar_setEscape houtside []
  rw [feedString]
  split
  · exact outsideScalar_plain houtside unit
  split
  · split
    · exact outsideScalar_appendText hcleared _
    split
    · exact outsideScalar_setEscape houtside _
    · exact outsideScalar_plain (outsideScalar_appendText hcleared _) unit
  split
  · split
    · exact outsideScalar_setEscape houtside _
    · exact outsideScalar_appendText hcleared _
  · exact outsideScalar_plain (outsideScalar_appendText hcleared _) unit

end

theorem rootFree_feed (hfree : RootFree reading) (unit : UInt16) :
    RootFree (reading.feed unit) := by
  rw [Reading.feed]
  split
  · exact hfree
  cases hmode : reading.mode with
  | between => exact rootFree_structural hmode unit
  | string target slot text escape =>
    apply rootFree_of_mode
    apply outsideScalar_feedString
    intro token other hscalar
    rw [hmode] at hscalar
    cases hscalar
  | scalar token slot =>
    have hended := mode_endScalar hmode
    dsimp only
    split
    · split
      · apply rootFree_of_mode
        rw [hended]
        rintro token other ⟨⟩
      · exact rootFree_structural hended unit
    rintro more hscalar
    cases hscalar
    exact hfree token hmode

theorem rootFree_foldl (hfree : RootFree reading) (text : JsString) :
    RootFree (text.foldl Reading.feed reading) := by
  induction text generalizing reading with
  | nil => exact hfree
  | cons unit rest ih => exact ih (rootFree_feed hfree unit)

end Reading

/-! ### Runs -/

/-- The calls of a parser's user. -/
inductive Call
  | append (piece : JsString)
  | snapshot

def Parser.call (parser : Parser) : Call → Parser
  | .append piece => append piece parser
  | .snapshot => (takeSnapshot parser).2

/-- The text that the calls append. -/
def received (calls : List Call) : JsString :=
  calls.flatMap fun call =>
    match call with
    | .append piece => piece
    | .snapshot => []

/-- A parser that has read a text. -/
structure Follows (text : JsString) (parser : Parser) : Prop where
  modal : Modal parser
  view : view parser = text.foldl Reading.feed Reading.start
  cost : parser.pathCost = openCost parser.stack
  credit : 0 ≤ parser.credit
  shown : parser.stack = [] → parser.root.isSome = true →
    parser.dirty = true ∨ parser.snapshot = parser.root

theorem follows_start : Follows [] Parser.start :=
  ⟨fun _ => rfl, rfl, rfl, Int.le_refl 0, fun _ hroot => nomatch hroot⟩

variable {token text : JsString} {parser : Parser}

theorem Follows.append (hfollows : Follows text parser)
    (piece : JsString) : Follows (text ++ piece) (append piece parser) := by
  obtain ⟨hview, hmodal⟩ := view_append hfollows.modal piece
  have hprogress : Progress { parser with
      credit := parser.credit + (creditPerAppend + creditPerCharacter * piece.length)
      changes := []
      string := parser.string.map fun opened => { opened with change := none } }
        (StreamingJson.append piece parser) := progress_readPiece _ _ _
  refine ⟨hmodal, ?_, ?_, ?_, ?_⟩
  · rw [hview, hfollows.view, foldl_append]
  · have hcost := hprogress.cost
    have hbefore := hfollows.cost
    dsimp only at hcost
    omega
  · have hcredit := hprogress.credit
    have hbefore := hfollows.credit
    dsimp only [creditPerAppend, creditPerCharacter] at hcredit
    omega
  intro hstack hroot
  rcases hprogress.shown with hdirty | ⟨hdirty, hsame, hempty⟩
  · exact .inl hdirty
  rw [hsame] at hroot
  rw [hdirty, hsame, hprogress.snapshot]
  exact hfollows.shown (hempty hstack) hroot

/-- A pending scalar does not show beside a root value. -/
theorem copyOpenPath_of_root (hmodal : Modal parser)
    (hfree : (view parser).RootFree) (hstack : parser.stack = [])
    (hroot : parser.root.isSome = true) :
    copyOpenPath (pendingScalar parser) parser = parser.root := by
  rw [copyOpenPath, hstack, copyFrames]
  split
  next value hpending =>
    exfalso
    rw [pendingScalar] at hpending
    split at hpending
    · cases hpending
    rename_i slot hslot
    split at hpending
    · cases hpending
    rename_i hscalar
    obtain ⟨shown, -, heq⟩ := Option.map_eq_some_iff.mp hpending
    cases heq
    have htoken : parser.scalar ≠ [] := by
      intro hnil
      apply hscalar
      rw [hnil]
      exact .inl rfl
    have hstring : parser.string = none := by
      by_contra hopen
      exact htoken (hmodal (Option.isSome_iff_ne_none.mpr hopen))
    have hnone : parser.root = none := by
      apply hfree parser.scalar
      simp [view, hstring, htoken, hslot]
    rw [hnone] at hroot
    cases hroot
  · rfl

/-- A snapshot is the last one, or a fresh one that is paid for. -/
theorem takeSnapshot_cases (parser : Parser) :
    takeSnapshot parser = (parser.snapshot, parser) ∨ ∃ cost ≤ parser.credit,
      takeSnapshot parser = (copyOpenPath (pendingScalar parser) parser, { parser with
        credit := parser.credit - cost
        dirty := false
        snapshot := copyOpenPath (pendingScalar parser) parser }) := by
  rw [takeSnapshot]
  split
  · exact .inl rfl
  dsimp only
  generalize parser.pathCost + (if (pendingScalar parser).isNone then 0 else 1) = cost
  split
  · exact .inl rfl
  next hpaid =>
    exact .inr ⟨cost, by omega, rfl⟩

theorem Follows.snapshot (hfollows : Follows text parser) :
    Follows text (takeSnapshot parser).2 := by
  rcases takeSnapshot_cases parser with hlast | ⟨cost, hpaid, hfresh⟩
  · rw [hlast]
    exact hfollows
  rw [hfresh]
  refine ⟨hfollows.modal, hfollows.view, hfollows.cost, ?_, ?_⟩
  · exact Int.sub_nonneg_of_le hpaid
  intro hstack hroot
  right
  apply copyOpenPath_of_root hfollows.modal _ hstack hroot
  rw [hfollows.view]
  apply Reading.rootFree_foldl
  exact Reading.rootFree_of_mode fun _ _ hscalar => nomatch hscalar

theorem follows_calls (hfollows : Follows text parser) (calls : List Call) :
    Follows (text ++ received calls) (calls.foldl Parser.call parser) := by
  induction calls generalizing text parser with
  | nil =>
    rw [received, flatMap_nil, append_nil]
    exact hfollows
  | cons call rest ih =>
    cases call with
    | append piece =>
      have hrest := ih (hfollows.append piece)
      rw [append_assoc] at hrest
      exact hrest
    | snapshot => exact ih hfollows.snapshot

/-- Once the root value has ended, a snapshot shows it. -/
theorem Follows.takeSnapshot_of_done (hfollows : Follows text parser) {value : JsonValue}
    (hdone : text.foldl Reading.feed Reading.start = ⟨some value, true, [], .between⟩) :
    (takeSnapshot parser).1 = some value := by
  have hview := hfollows.view.trans hdone
  have hroot : parser.root = some value := congrArg Reading.root hview
  have hstack : parser.stack = [] := by
    have hlevels := congrArg Reading.levels hview
    exact map_eq_nil_iff.mp hlevels
  have hmode := congrArg Reading.mode hview
  have hstring : parser.string = none := by
    cases hopen : parser.string with
    | none => rfl
    | some opened => simp [StreamingJson.view, hopen] at hmode
  have hscalar : parser.scalar = [] := by
    by_contra htoken
    simp [StreamingJson.view, hstring, htoken] at hmode
  have hpending : pendingScalar parser = none := by
    rw [pendingScalar, hscalar]
    split
    · rfl
    · rw [if_pos (.inl rfl)]
  have hcost := hfollows.cost
  rw [hstack, openCost, map_nil, sum_nil] at hcost
  rw [takeSnapshot, hpending]
  split
  next hclean =>
    rcases hfollows.shown hstack (by rw [hroot]; rfl) with hdirty | hsnapshot
    · cases hclean.symm.trans hdirty
    · exact hsnapshot.trans hroot
  · dsimp only
    rw [if_neg (by have hcredit := hfollows.credit; simp; omega), copyOpenPath, hstack]
    exact hroot

/-! ### Blank text -/

/-- A token of blank text outside JSON's own space. -/
def IsBlankToken (token : JsString) : Prop :=
  ∃ unit rest, token = unit :: rest ∧ isTrimmed unit = true ∧ isSpace unit = false

theorem IsBlankToken.ne_of_head (hblank : IsBlankToken token)
    (hhead : text.head?.any isTrimmed = false) (hne : text ≠ []) :
    ¬ token.isPrefixOf text = true := by
  obtain ⟨unit, rest, rfl, htrimmed, -⟩ := hblank
  obtain ⟨first, more, rfl⟩ := exists_cons_of_ne_nil hne
  intro hprefix
  obtain ⟨tail, heq⟩ := isPrefixOf_iff_prefix.mp hprefix
  cases heq
  rw [head?_cons, Option.any_some, htrimmed] at hhead
  cases hhead

/-- What numbers start with is not trimmed. -/
theorem readNumber_of_trimmed {unit : UInt16} (htrimmed : isTrimmed unit = true)
    (rest : JsString) : readNumber (unit :: rest) = none := by
  cases hread : readNumber (unit :: rest) with
  | none => rfl
  | some read =>
    obtain ⟨token, htext, -, ⟨first, hhead, hstart⟩, -⟩ := readNumber_token hread
    cases token with
    | nil => cases hhead
    | cons head more =>
      cases htext
      cases hhead
      exfalso
      rcases hstart with hdigit | rfl
      · simp only [isDigitUnit, isTrimmed, Bool.or_eq_true, Bool.and_eq_true,
          decide_eq_true_eq, beq_iff_eq] at hdigit htrimmed
        omega
      revert htrimmed
      decide

section

variable (hblank : IsBlankToken token)
include hblank

theorem IsBlankToken.numberOf : numberOf token = none := by
  obtain ⟨unit, rest, rfl, htrimmed, -⟩ := hblank
  rw [StreamingJson.numberOf, readNumber_of_trimmed htrimmed]

theorem IsBlankToken.scalarValue : scalarValue token = none := by
  have hself : ∀ text : JsString, text.head?.any isTrimmed = false → text ≠ [] →
      token ≠ text := by
    rintro text hhead hne rfl
    exact hblank.ne_of_head hhead hne (List.isPrefixOf_iff_prefix.mpr (prefix_refl token))
  rw [StreamingJson.scalarValue, if_neg (hself trueText rfl (by decide)),
    if_neg (hself falseText rfl (by decide)), if_neg (hself nullText rfl (by decide)),
    hblank.numberOf]
  rfl

theorem numberOf_dropLast :
    numberOf token.dropLast = none ∧ numberOf token.dropLast.dropLast = none := by
  have hdrop : ∀ text : JsString, text = [] ∨ IsBlankToken text → numberOf text = none ∧
      (text.dropLast = [] ∨ IsBlankToken text.dropLast) := by
    rintro text (rfl | hblank)
    · exact ⟨rfl, .inl rfl⟩
    refine ⟨hblank.numberOf, ?_⟩
    obtain ⟨unit, rest, rfl, htrimmed, hspace⟩ := hblank
    cases rest with
    | nil => exact .inl rfl
    | cons next rest =>
      exact .inr ⟨unit, (next :: rest).dropLast, rfl, htrimmed, hspace⟩
  have hfirst := (hdrop token (.inr hblank)).2
  exact ⟨(hdrop _ hfirst).1, (hdrop _ (hdrop _ hfirst).2).1⟩

theorem IsBlankToken.pendingScalarValue : pendingScalarValue token = none := by
  obtain ⟨honce, htwice⟩ := numberOf_dropLast hblank
  rw [StreamingJson.pendingScalarValue, if_neg (hblank.ne_of_head rfl (by decide)),
    if_neg (hblank.ne_of_head rfl (by decide)), if_neg (hblank.ne_of_head rfl (by decide)),
    hblank.numberOf]
  dsimp only
  split
  next digits hdigits =>
    split
    · rfl
    rw [mantissa] at hdigits
    have hnone : StreamingJson.numberOf digits = none := by
      split at hdigits
      · split at hdigits
        · cases hdigits
          exact htwice
        · cases hdigits
      split at hdigits
      · cases hdigits
        exact honce
      · cases hdigits
    rw [hnone]
    rfl
  · rfl

end

namespace Reading

/-- Blank text leaves a reading without a value. -/
structure Blank (reading : Reading) : Prop where
  root : reading.root = none
  levels : reading.levels = []
  done : reading.done = false
  mode : reading.mode = .between ∨
    ∃ token slot, reading.mode = .scalar token slot ∧ IsBlankToken token

theorem blank_start : Blank start :=
  ⟨rfl, rfl, rfl, .inl rfl⟩

variable {unit : UInt16}

theorem isSpace_of_trimmed (htrimmed : isTrimmed unit = true)
    (hdelimiter : isDelimiter unit = true) : isSpace unit = true := by
  have hcases : unit = 32 ∨ unit = 9 ∨ unit = 10 ∨ unit = 13 ∨ unit = 44 ∨ unit = 58 ∨
      unit = 123 ∨ unit = 125 ∨ unit = 91 ∨ unit = 93 ∨ unit = 34 := by
    simpa [isDelimiter, isSpace, commaUnit, colonUnit, openBrace, closeBrace, openBracket,
      closeBracket, quote, or_assoc] using hdelimiter
  revert htrimmed
  rcases hcases with rfl | rfl | rfl | rfl | rfl | rfl | rfl | rfl | rfl | rfl | rfl <;> decide

variable {reading : Reading}

theorem blank_structural (hblank : Blank reading) (htrimmed : isTrimmed unit = true) :
    Blank (reading.structural unit) := by
  by_cases hspace : isSpace unit = true
  · rw [structural, if_pos hspace]
    exact hblank
  have hdelimiter : isDelimiter unit = false := by
    by_contra hbad
    exact hspace (isSpace_of_trimmed htrimmed (by simpa using hbad))
  rw [structural_scalar hdelimiter]
  exact ⟨hblank.root, hblank.levels, hblank.done,
    .inr ⟨[unit], _, rfl, unit, [], rfl, htrimmed, by simpa using hspace⟩⟩

theorem blank_feed (hblank : Blank reading)
    (htrimmed : isTrimmed unit = true) : Blank (reading.feed unit) := by
  rw [Reading.feed, if_neg (by rw [hblank.done]; decide)]
  rcases hblank.mode with hmode | ⟨token, slot, hmode, htoken⟩
  · rw [hmode]
    exact blank_structural hblank htrimmed
  rw [hmode]
  dsimp only
  split
  · have hended : reading.endScalar = { reading with mode := .between } := by
      rw [endScalar, hmode]
      dsimp only
      rw [htoken.scalarValue, valueEnded]
      rw [hblank.levels, hblank.root]
      rfl
    have hclosed : Blank { reading with mode := .between } :=
      ⟨hblank.root, hblank.levels, hblank.done, .inl rfl⟩
    rw [hended]
    split
    · exact hclosed
    · exact blank_structural hclosed htrimmed
  obtain ⟨first, rest, rfl, hfirst, hspace⟩ := htoken
  exact ⟨hblank.root, hblank.levels, hblank.done,
    .inr ⟨_, slot, rfl, first, rest ++ [unit], rfl, hfirst, hspace⟩⟩

theorem blank_foldl (hblank : Blank reading) {text : JsString}
    (htext : isBlank text = true) : Blank (text.foldl Reading.feed reading) := by
  induction text generalizing reading with
  | nil => exact hblank
  | cons unit rest ih =>
    rw [isBlank, all_cons, Bool.and_eq_true] at htext
    exact ih (blank_feed hblank htext.1) htext.2

end Reading

theorem takeSnapshot_of_blank {parser : Parser} (hmodal : Modal parser)
    (hblank : (view parser).Blank) (hnone : parser.snapshot = none) :
    (takeSnapshot parser).1 = none ∧ (takeSnapshot parser).2.snapshot = none := by
  have hstack : parser.stack = [] := map_eq_nil_iff.mp hblank.levels
  have hpending : pendingScalar parser = none := by
    rw [pendingScalar]
    split
    · rfl
    split
    · rfl
    rename_i hscalar
    have htoken : parser.scalar ≠ [] := by
      intro hnil
      apply hscalar
      rw [hnil]
      exact .inl rfl
    have hstring : parser.string = none := by
      by_contra hopen
      exact htoken (hmodal (Option.isSome_iff_ne_none.mpr hopen))
    rcases hblank.mode with hmode | ⟨token, slot, hmode, hshape⟩
    · simp [view, hstring, htoken] at hmode
    have hsame : (view parser).mode = .scalar parser.scalar parser.scalarSlot := by
      simp [view, hstring, htoken]
    cases hsame.symm.trans hmode
    rw [hshape.pendingScalarValue]
    rfl
  have hcopy : copyOpenPath none parser = none := by
    rw [copyOpenPath, hstack]
    exact hblank.root
  rcases takeSnapshot_cases parser with hlast | ⟨cost, -, hfresh⟩
  · rw [hlast]
    exact ⟨hnone, hnone⟩
  rw [hfresh, hpending]
  exact ⟨hcopy, hcopy⟩

theorem blank_calls {calls : List Call} (hcalls : isBlank (received calls) = true)
    {parser : Parser} (hmodal : Modal parser) (hblank : (view parser).Blank)
    (hnone : parser.snapshot = none) :
    (takeSnapshot (calls.foldl Parser.call parser)).1 = none := by
  induction calls generalizing parser with
  | nil => exact (takeSnapshot_of_blank hmodal hblank hnone).1
  | cons call rest ih =>
    cases call with
    | append piece =>
      rw [received, flatMap_cons, isBlank, all_append, Bool.and_eq_true] at hcalls
      obtain ⟨hview, hkept⟩ := view_append hmodal piece
      apply ih hcalls.2 hkept
      · rw [hview]
        exact Reading.blank_foldl hblank hcalls.1
      · exact (progress_readPiece _ _ _).snapshot.trans hnone
    | snapshot =>
      have hview : view (takeSnapshot parser).2 = view parser ∧
          Modal (takeSnapshot parser).2 := by
        rcases takeSnapshot_cases parser with hlast | ⟨cost, -, hfresh⟩
        · rw [hlast]
          exact ⟨rfl, hmodal⟩
        rw [hfresh]
        exact ⟨rfl, hmodal⟩
      apply ih hcalls hview.2
      · rw [hview.1]
        exact hblank
      · exact (takeSnapshot_of_blank hmodal hblank hnone).2

/-! ### The final arguments -/

/-- However the text is cut and whenever snapshots are taken, the last snapshot is what
the parse of the whole text returns when it reports no error, and nothing when the text
is blank. -/
theorem streamed_arguments (syntaxMessage : JsString → JsString) (calls : List Call)
    (hnone : (parseToolCallArguments syntaxMessage (received calls)).argumentsError = none) :
    (takeSnapshot (calls.foldl Parser.call Parser.start)).1 =
      if isBlank (received calls) then none
      else some (parseToolCallArguments syntaxMessage (received calls)).arguments := by
  split
  next hblank =>
    exact blank_calls hblank (fun _ => rfl) Reading.blank_start rfl
  rename_i hblank
  obtain ⟨fields, harguments, hparse⟩ := parse_repairJson (by simpa using hblank) hnone
  have hfollows := follows_calls follows_start calls
  rw [nil_append] at hfollows
  rw [harguments]
  exact hfollows.takeSnapshot_of_done (Reading.feed_object hparse)

/-- An object with a raw tab, an invalid escape and a unicode escape that is cut. -/
def cutCalls : List Call :=
  [.append [123, 34, 97, 34, 58, 34, 9, 92, 113, 92, 117, 48, 48], .snapshot,
    .append [52, 49, 34, 125]]

theorem streamed_arguments_cutCalls :
    (takeSnapshot (cutCalls.foldl Parser.call Parser.start)).1 =
      some (.obj () [([97], .str [9, 92, 113, 65])]) :=
  streamed_arguments (fun _ => []) cutCalls (by rfl)

end Hummin.StreamingJson
