/-
The changes of a streaming parser rebuild its value. Every operation of the parser keeps the
changes of the piece such that, applied to the value before the piece, they give the value
shown now.
-/
import Hummin.JsonWrite
import Hummin.StreamingJsonChanges

namespace Hummin.StreamingJson

open List Option JsonTree

/-! ### Changes that grow -/

theorem replay_concat (changes : List Change) (change : Change) (value : Option JsonValue) :
    replay (changes ++ [change]) value = (replay changes value).bind change.apply := by
  rw [replay, foldlM_append, replay]
  cases changes.foldlM (fun value (change : Change) => change.apply value) value with
  | none => rfl
  | some result =>
    exact bind_fun_some _

theorem replay_append (first second : List Change) (value : Option JsonValue) :
    replay (first ++ second) value = (replay first value).bind (replay second) :=
  foldlM_append

/-- A change that adds text at a path: the string was set there, or text was appended. -/
inductive Change.Adds (path : Path) : Change → Prop
  | set (text : JsString) : Change.Adds path (.set path (.str text))
  | append (text : JsString) : Change.Adds path (.append path text)

/-- A change with text that follows it does what the change and an append of the text do. -/
theorem Change.Adds.apply_extend {path : Path} {change : Change} (hadds : change.Adds path)
    (text : JsString) {value after : Option JsonValue} (happly : change.apply value = some after) :
    (change.extend text).apply value = (Change.append path text).apply after := by
  cases hadds with
  | append before =>
    cases value with
    | none => cases happly
    | some whole =>
      simp only [Change.apply, Change.extend, bind_eq_bind, bind_some]
        at happly ⊢
      split at happly
      next old hold =>
        cases happly
        simp only [bind_some, getAt_replaceAt hold, replaceAt_replaceAt hold, append_assoc]
      · cases happly
  | set before =>
    rcases eq_nil_or_concat path with rfl | ⟨above, seg, rfl⟩
    · cases happly
      rfl
    rw [concat_eq_append] at happly ⊢
    cases value with
    | none => simp [Change.apply] at happly
    | some whole =>
      simp only [Change.apply, Change.extend, getLast?_concat, dropLast_concat,
        bind_eq_bind, bind_some] at happly ⊢
      obtain ⟨container, hcontainer, happly⟩ := bind_eq_some_iff.mp happly
      split at happly
      next hkind =>
        obtain ⟨changed, hdefine, happly⟩ := bind_eq_some_iff.mp happly
        cases happly
        have hget := getAt_replaceAt hcontainer changed
        have hchild := child_defineProperty hdefine
        have hstring : (whole.replaceAt above changed).getAt (above ++ [seg]) =
            some (.str before) := by
          rw [getAt_append_of_eq hget, getAt_cons, hchild]
          rfl
        simp only [hcontainer, bind_some, if_pos hkind, hstring,
          defineProperty_defineProperty hdefine]
        rw [replaceAt_append hget, replaceAt_cons hchild,
          replaceAt_nil, replaceAt_replaceAt hcontainer]
      · cases happly

theorem Change.Adds.extend {path : Path} {change : Change} (hadds : change.Adds path)
    (text : JsString) : (change.extend text).Adds path := by
  cases hadds with
  | set before => exact .set (before ++ text)
  | append before => exact .append (before ++ text)

/-! ### The invariant -/

/-- The open string stands at its slot, and the change it extends adds text at its path. -/
structure StringFits (parser : Parser) (opened : OpenString) : Prop where
  path : opened.path = pathIn opened.slot parser.stack
  slot : ∀ slot, opened.slot = some slot → SlotFits slot parser.stack
  placed : ∀ slot, opened.slot = some slot →
    shown parser = shownWith (some (slot, .str opened.text)) parser.stack parser.root
  change : ∀ index path, opened.change = some index → opened.path = some path →
    ∃ change, parser.changes[index]? = some change ∧ change.Adds path

/-- The changes of the piece take the value before it to the value shown now. -/
structure Sound (before : Option JsonValue) (parser : Parser) : Prop where
  replays : replay parser.changes before = some (shown parser)
  fits : Fits parser.stack
  string : ∀ opened, parser.string = some opened → opened.target = .value →
    StringFits parser opened
  scalar : ∀ slot, parser.scalarSlot = some slot → SlotFits slot parser.stack
  idle : parser.scalar = [] → parser.scalarSlot = none

variable {before : Option JsonValue} {parser : Parser}

/-- What is kept of the frame of the innermost container: only its value, its size, its key
and its phase change. -/
structure SameFrame (frame next : Frame) : Prop where
  slot : next.slot = frame.slot
  path : next.path = frame.path
  reportsInside : next.reportsInside = frame.reportsInside

variable {rest : List Frame}

theorem Fits.head {frame next : Frame} (hfits : Fits (frame :: rest))
    (hsame : SameFrame frame next) : Fits (next :: rest) := by
  obtain ⟨hpath, hreports, hslot, hrest⟩ := hfits
  refine ⟨?_, ?_, ?_, hrest⟩
  · rw [hsame.path, hsame.slot, hpath]
  · rw [hsame.reportsInside, hsame.path, hreports]
  rw [hsame.slot]
  exact hslot

variable {change : Change} {slot : Slot} {value : JsonValue} {next : Parser} {frame : Frame}

theorem pathIn_head {next : Frame} (hsame : SameFrame frame next) (slot : Option Slot)
    (rest : List Frame) : pathIn slot (next :: rest) = pathIn slot (frame :: rest) := by
  rw [pathIn.eq_def, pathIn.eq_def]
  cases slot with
  | none => rfl
  | some slot =>
    cases slot with
    | root => rfl
    | member key | element index => simp only [hsame.path, hsame.reportsInside]

/-- The value shown around a child of the innermost container. -/
theorem shownWith_head {next : Frame} (hsame : SameFrame frame next)
    {child other : Option (Slot × JsonValue)}
    (hchild : withChild child next.container = withChild other frame.container)
    (hempty : next.container.emptied = frame.container.emptied) (rest : List Frame)
    (root : Option JsonValue) :
    shownWith child (next :: rest) root = shownWith other (frame :: rest) root := by
  rw [shownWith_cons, shownWith_cons, hsame.slot, hchild, hempty]

theorem emptied_setSlot (slot : Slot) (value : JsonValue) (container : Container) :
    (setSlot slot value container).emptied = container.emptied := by
  cases container with
  | object fields => cases slot <;> rfl
  | array items =>
    cases slot with
    | root | member => rfl
    | element index =>
      rw [setSlot]
      split <;> rfl

/-! ### Writing a value -/

/-- What a write leaves: the value shows at its slot, and the slots and paths are the same. -/
structure Placed (slot : Slot) (value : JsonValue) (parser next : Parser) : Prop where
  shown : shown next = shownWith (some (slot, value)) parser.stack parser.root
  around : ∀ other, shownWith (some (slot, other)) next.stack next.root =
    shownWith (some (slot, other)) parser.stack parser.root
  fits : Fits parser.stack → Fits next.stack
  slots : ∀ other, SlotFits other parser.stack → SlotFits other next.stack
  paths : ∀ other, pathIn other next.stack = pathIn other parser.stack
  string : next.string = parser.string
  scalar : next.scalar = parser.scalar
  scalarSlot : next.scalarSlot = parser.scalarSlot
  changes : next.changes = parser.changes

theorem placed_of_root (hstack : parser.stack = [])
    (hnext : next.stack = []) (hroot : next.root = some value)
    (hstring : next.string = parser.string) (hscalar : next.scalar = parser.scalar)
    (hscalarSlot : next.scalarSlot = parser.scalarSlot)
    (hchanges : next.changes = parser.changes) : Placed .root value parser next := by
  refine ⟨?_, fun other => ?_, fun _ => ?_, fun other hother => ?_, fun other => ?_, hstring,
    hscalar, hscalarSlot, hchanges⟩
  · rw [shown, hstack, hnext, hroot]
    rfl
  · rw [hstack, hnext]
    rfl
  · rw [hnext]
    exact trivial
  · rw [hstack] at hother
    rwa [hnext]
  · rw [hstack, hnext]

theorem placed_of_frame {written : Frame} (hstack : parser.stack = frame :: rest)
    (hsame : SameFrame frame written)
    (hcontainer : written.container = setSlot slot value frame.container)
    (hnext : next.stack = written :: rest) (hroot : next.root = parser.root)
    (hstring : next.string = parser.string) (hscalar : next.scalar = parser.scalar)
    (hscalarSlot : next.scalarSlot = parser.scalarSlot)
    (hchanges : next.changes = parser.changes) : Placed slot value parser next := by
  have hempty : written.container.emptied = frame.container.emptied := by
    rw [hcontainer, emptied_setSlot]
  refine ⟨?_, fun other => ?_, fun hfits => ?_, fun other hother => ?_, fun other => ?_, hstring,
    hscalar, hscalarSlot, hchanges⟩
  · have hchild : withChild none written.container =
        withChild (some (slot, value)) frame.container := hcontainer
    rw [shown, hstack, hnext, hroot]
    exact shownWith_head hsame hchild hempty rest parser.root
  · rw [hstack, hnext, hroot]
    refine shownWith_head hsame ?_ hempty rest parser.root
    rw [hcontainer]
    exact setSlot_setSlot slot value other frame.container
  · rw [hstack] at hfits
    rw [hnext]
    exact hfits.head hsame
  · rw [hstack] at hother
    rw [hnext]
    change written.container.Takes other
    rw [hcontainer]
    exact Container.Takes.setSlot hother value
  · rw [hstack, hnext]
    exact pathIn_head hsame other rest

/-- A write goes to the root, or into the innermost container. -/
theorem placed_assign (hslot : SlotFits slot parser.stack) (value : JsonValue) :
    Placed slot value parser (assign (some slot) value parser) := by
  cases hstack : parser.stack with
  | nil =>
    rw [hstack] at hslot
    obtain rfl := hslot
    exact placed_of_root hstack hstack rfl rfl rfl rfl rfl
  | cons frame rest =>
    rw [hstack] at hslot
    have hassign : assign (some slot) value parser = { parser with
        stack := { frame with container := setSlot slot value frame.container } :: rest } := by
      rw [assign.eq_def]
      cases slot with
      | root =>
        obtain ⟨seg, hseg⟩ := Container.Takes.exists_seg hslot
        cases hseg
      | member key | element index => simp only [hstack]
    have hsame : SameFrame frame
        { frame with container := setSlot slot value frame.container } := ⟨rfl, rfl, rfl⟩
    rw [hassign]
    exact placed_of_frame hstack hsame rfl rfl rfl rfl rfl rfl rfl

/-- The cost of the open path does not show. -/
theorem placed_count (hplaced : Placed slot value (count (some slot) parser) next) :
    Placed slot value parser next := by
  rw [count.eq_def] at hplaced
  split at hplaced
  next slot' frame rest hslot hstack =>
    split at hplaced
    · obtain ⟨hshown, haround, hfits, hslots, hpaths, hstring, hscalar, hscalarSlot, hchanges⟩ :=
        hplaced
      have hsame : SameFrame { frame with size := frame.size + 1 } frame := ⟨rfl, rfl, rfl⟩
      refine ⟨?_, ?_, ?_, ?_, ?_, hstring, hscalar, hscalarSlot, hchanges⟩
      all_goals rw [hstack]
      · exact hshown
      · exact haround
      · exact hfits
      · exact hslots
      · exact fun other => (hpaths other).trans (pathIn_head hsame other rest).symm
    · exact hplaced
  · exact hplaced

theorem placed_place {slot : Slot} (hslot : SlotFits slot parser.stack) (value : JsonValue) :
    Placed slot value parser (place (some slot) value parser) := by
  have hcount : SlotFits slot (count (some slot) parser).stack := by
    rw [count.eq_def]
    split
    next slot' frame rest _ hstack =>
      rw [hstack] at hslot
      split
      · exact hslot
      rw [hstack]
      exact hslot
    · exact hslot
  obtain ⟨hshown, haround, hfits, hslots, hpaths, hstring, hscalar, hscalarSlot, hchanges⟩ :=
    placed_count (placed_assign hcount value)
  exact ⟨hshown, haround, hfits, hslots, hpaths, hstring, hscalar, hscalarSlot, hchanges⟩

theorem slotFits_of_valueSlot (hslot : valueSlot parser = some slot) :
    SlotFits slot parser.stack := by
  rw [valueSlot.eq_def] at hslot
  cases hstack : parser.stack with
  | nil =>
    simp only [hstack] at hslot
    split at hslot
    · exact (some.inj hslot).symm
    · cases hslot
  | cons frame rest =>
    simp only [hstack] at hslot
    cases hcontainer : frame.container with
    | array items =>
      simp only [hcontainer] at hslot
      cases hslot
      change frame.container.Takes _
      rw [hcontainer]
      exact ⟨items.length, le_rfl, rfl⟩
    | object fields =>
      simp only [hcontainer] at hslot
      split at hslot
      · obtain ⟨key, -, rfl⟩ := map_eq_some_iff.mp hslot
        change frame.container.Takes _
        rw [hcontainer]
        exact ⟨key, rfl⟩
      · cases hslot

/-- A value written at a slot and reported there, if anywhere. -/
theorem replay_reportSet (hsound : Sound before parser) (hslot : SlotFits slot parser.stack)
    (hplaced : Placed slot value parser next) :
    replay (reportSet (pathIn (some slot) parser.stack) value next).changes before =
      some (shown next) := by
  have hchanges := hplaced.changes
  cases hpath : pathIn (some slot) parser.stack with
  | none =>
    rw [reportSet, hchanges, hsound.replays, hplaced.shown, shown,
      shownWith_of_unreported hsound.fits hslot hpath]
  | some path =>
    change replay (next.changes ++ [Change.set path value]) before = _
    rw [replay_concat, hchanges, hsound.replays, hplaced.shown]
    exact apply_set hsound.fits hslot hpath parser.root none value

/-! ### Strings -/

theorem reportSet_stack (path : Option Path) (value : JsonValue) (parser : Parser) :
    (reportSet path value parser).stack = parser.stack ∧
      (reportSet path value parser).root = parser.root ∧
      (reportSet path value parser).string = parser.string ∧
      (reportSet path value parser).scalar = parser.scalar ∧
      (reportSet path value parser).scalarSlot = parser.scalarSlot ∧
      shown (reportSet path value parser) = shown parser := by
  cases path <;> exact ⟨rfl, rfl, rfl, rfl, rfl, rfl⟩

theorem sound_startString (hsound : Sound before parser) (hidle : parser.scalarSlot = none) :
    Sound before (startString parser) := by
  rw [startString]
  by_cases hkey : takesKey parser = true
  · rw [if_pos hkey]
    refine ⟨hsound.replays, hsound.fits, ?_, hsound.scalar, hsound.idle⟩
    rintro opened hopened htarget
    cases hopened
    cases htarget
  rw [if_neg hkey]
  dsimp only
  rw [reportedPath_eq]
  cases hslot : valueSlot parser with
  | none =>
    refine ⟨hsound.replays, hsound.fits, ?_, hsound.scalar, hsound.idle⟩
    rintro opened hopened -
    cases hopened
    refine ⟨rfl, ?_, ?_, ?_⟩
    · rintro other ⟨⟩
    · rintro other ⟨⟩
    · rintro change path ⟨⟩
  | some slot =>
    have hfit := slotFits_of_valueSlot hslot
    have hplaced := placed_place hfit (.str [])
    obtain ⟨hstack, hroot, -, hscalar, hscalarSlot, hshown⟩ := reportSet_stack
      (pathIn (some slot) parser.stack) (.str []) (place (some slot) (.str []) parser)
    have hnone : (reportSet (pathIn (some slot) parser.stack) (.str [])
        (place (some slot) (.str []) parser)).scalarSlot = none := by
      rw [hscalarSlot, hplaced.scalarSlot, hidle]
    refine ⟨?_, ?_, ?_, fun _ h => ?_, fun _ => hnone⟩
    · rw [replay_reportSet hsound hfit hplaced, ← hshown]
      rfl
    · rw [hstack]
      exact hplaced.fits hsound.fits
    · rintro opened hopened -
      cases hopened
      refine ⟨?_, ?_, ?_, ?_⟩
      · rw [hstack, hplaced.paths]
      · rintro slot' hslot'
        cases hslot'
        rw [hstack]
        exact hplaced.slots slot hfit
      · rintro slot' hslot'
        cases hslot'
        refine (hshown.trans hplaced.shown).trans ?_
        rw [← hplaced.around, ← hstack, ← hroot]
      rintro index path hindex hpath
      simp only at hpath
      rw [hpath] at hindex ⊢
      cases hindex
      exact ⟨.set path (.str []), by simp [reportSet, report], .set []⟩
    · cases h.symm.trans hnone

theorem exists_last {changes : List Change} {change : Change} {index : Nat}
    (hchange : changes[index]? = some change) (hlast : index + 1 = changes.length) :
    ∃ earlier, changes = earlier ++ [change] := by
  rcases eq_nil_or_concat changes with rfl | ⟨earlier, last, rfl⟩
  · simp at hlast
  rw [concat_eq_append, length_append, length_singleton] at hlast
  obtain rfl : index = earlier.length := by omega
  rw [concat_eq_append, getElem?_append_right le_rfl, Nat.sub_self] at hchange
  cases hchange
  exact ⟨earlier, concat_eq_append⟩

theorem modify_last (earlier : List Change) (last : Change) (change : Change → Change) :
    (earlier ++ [last]).modify ((earlier ++ [last]).length - 1) change =
      earlier ++ [change last] := by
  rw [length_append, length_singleton, Nat.add_sub_cancel]
  induction earlier with
  | nil => rfl
  | cons first earlier ih =>
    rw [cons_append, length_cons, modify_succ_cons, ih, cons_append]

section ReportText

variable {opened : OpenString} {path : Path} (text : JsString)

section

variable (hstring : parser.string = some opened)
include hstring

theorem reportText_unreported (hpath : opened.path = none) : reportText text parser = parser := by
  rw [reportText, hstring]
  simp only [hpath]

theorem reportText_extends
    (hpath : opened.path = some path)
    (hextends : opened.change.any fun index => index + 1 = parser.changes.length) :
    reportText text parser = { parser with
      changes := parser.changes.modify (parser.changes.length - 1) (Change.extend text) } := by
  rw [reportText, hstring]
  simp only [hpath]
  exact if_pos hextends

theorem reportText_appends
    (hpath : opened.path = some path)
    (hextends : ¬ opened.change.any fun index => index + 1 = parser.changes.length) :
    reportText text parser = { report (.append path text) parser with
      string := some { opened with change := some parser.changes.length } } := by
  rw [reportText, hstring]
  simp only [hpath]
  exact if_neg hextends

end

end ReportText

/-- The open string after more text of it, and the changes with the text. -/
structure TextReported (before : Option JsonValue) (opened : OpenString) (placed next : Parser) :
    Prop where
  eq : ∃ change changes, next = { placed with
    string := some { opened with change := change }, changes := changes }
  replays : replay next.changes before = some (shown placed)
  change : ∀ later index path, next.string = some later → later.change = some index →
    opened.path = some path → ∃ change, next.changes[index]? = some change ∧ change.Adds path

variable {placed : Parser}

/-- What the text of an open string does to the changes. -/
theorem textReported {opened : OpenString} {text : JsString} (hstring : placed.string = some opened)
    (hunreported : opened.path = none → replay placed.changes before = some (shown placed))
    (hreported : ∀ path, opened.path = some path → ∃ old, replay placed.changes before = some old ∧
        (Change.append path text).apply old = some (shown placed))
    (hchange : ∀ index path, opened.change = some index → opened.path = some path →
      ∃ change, placed.changes[index]? = some change ∧ change.Adds path) :
    TextReported before opened placed (reportText text placed) := by
  cases hpath : opened.path with
  | none =>
    rw [reportText_unreported text hstring hpath]
    refine ⟨⟨opened.change, placed.changes, by rw [← hstring]⟩, hunreported hpath, ?_⟩
    intro later index path hlater hindex hsome
    rw [hpath] at hsome
    cases hsome
  | some path =>
    obtain ⟨old, hold, happend⟩ := hreported path hpath
    by_cases hextends : opened.change.any fun index => index + 1 = placed.changes.length
    · -- the newest change is the string's own
      obtain ⟨index, hindex, hlast⟩ := (any_eq_true _ _).mp hextends
      obtain ⟨change, hget, hadds⟩ := hchange index path hindex hpath
      rw [decide_eq_true_eq] at hlast
      obtain ⟨earlier, hearlier⟩ := exists_last hget hlast
      have hmodify : placed.changes.modify (placed.changes.length - 1) (Change.extend text) =
          earlier ++ [change.extend text] := by
        rw [hearlier]
        exact modify_last earlier change (Change.extend text)
      rw [hearlier, replay_concat] at hold
      obtain ⟨middle, hmiddle, happly⟩ := bind_eq_some_iff.mp hold
      rw [reportText_extends text hstring hpath hextends, hmodify]
      refine ⟨⟨opened.change, _, by rw [← hstring]⟩, ?_, ?_⟩
      · rw [replay_concat, hmiddle, bind_some, hadds.apply_extend text happly, happend]
      intro later index' path' hlater hindex' hpath'
      rw [hpath, some_inj] at hpath'
      cases hstring.symm.trans hlater
      rw [hindex, some_inj] at hindex'
      rw [hearlier, length_append, length_singleton] at hlast
      obtain rfl : index' = earlier.length := by omega
      exact ⟨change.extend text, by simp, hpath' ▸ hadds.extend text⟩
    rw [reportText_appends text hstring hpath hextends]
    refine ⟨⟨some placed.changes.length, placed.changes ++ [Change.append path text], rfl⟩, ?_, ?_⟩
    · change replay (placed.changes ++ [Change.append path text]) before = _
      rw [replay_concat, hold, bind_some, happend]
    intro later index path' hlater hindex hpath'
    rw [hpath, some_inj] at hpath'
    cases hlater
    cases hindex
    exact ⟨.append path text, by simp [report], hpath' ▸ .append text⟩

/-- A string that is open with more of its text, in a parser that has it placed. -/
theorem sound_reportText {opened : OpenString} {text : JsString}
    (hfits : Fits placed.stack) (hscalar : ∀ slot, placed.scalarSlot = some slot →
      SlotFits slot placed.stack) (hidle : placed.scalar = [] → placed.scalarSlot = none)
    (hpath : opened.path = pathIn opened.slot placed.stack)
    (hslots : ∀ slot, opened.slot = some slot → SlotFits slot placed.stack)
    (hplaced : ∀ slot, opened.slot = some slot →
      shown placed = shownWith (some (slot, .str opened.text)) placed.stack placed.root)
    (htext : TextReported before opened placed (reportText text placed)) :
    Sound before (reportText text placed) := by
  obtain ⟨⟨change, changes, heq⟩, hreplays, hchange⟩ := htext
  rw [heq] at hreplays hchange ⊢
  refine ⟨hreplays, hfits, ?_, hscalar, hidle⟩
  rintro opened' hopened' -
  cases hopened'
  exact ⟨hpath, hslots, hplaced, fun index path hindex => hchange _ index path rfl hindex⟩

/-- An open string with text behind it. -/
structure Longer (opened : OpenString) (text : JsString) (longer : OpenString) : Prop where
  slot : longer.slot = opened.slot
  path : longer.path = opened.path
  change : longer.change = opened.change
  text : longer.text = opened.text ++ text

section

variable (hsound : Sound before parser)

include hsound

theorem sound_longer {opened longer : OpenString} {text : JsString} {read : Parser}
    (hfits : StringFits parser opened)
    (hlonger : Longer opened text longer) (hread : read = { parser with string := some longer }) :
    Sound before (reportText text (place longer.slot (.str longer.text) read)) := by
  have hstring : read.string = some longer := by rw [hread]
  have hstack : read.stack = parser.stack := by rw [hread]
  have hroot : read.root = parser.root := by rw [hread]
  have hscalar : read.scalar = parser.scalar := by rw [hread]
  have hscalarSlot : read.scalarSlot = parser.scalarSlot := by rw [hread]
  have hreplays : replay read.changes before = some (shown read) := by
    rw [shown, hstack, hroot, hread]
    exact hsound.replays
  have hchange : ∀ index path, longer.change = some index → longer.path = some path →
      ∃ change, read.changes[index]? = some change ∧ change.Adds path := by
    rw [hlonger.change, hlonger.path, hread]
    exact hfits.change
  have hpath : longer.path = pathIn longer.slot read.stack := by
    rw [hlonger.path, hlonger.slot, hstack]
    exact hfits.path
  rcases eq_none_or_eq_some longer.slot with hslot | ⟨slot, hslot⟩
  · have hnone : longer.path = none := by
      rw [hpath, hslot]
      rfl
    have hplace : place longer.slot (.str longer.text) read = read := by
      rw [hslot, place]
    rw [hplace]
    refine sound_reportText ?_ ?_ ?_ hpath ?_ ?_
      (textReported hstring (fun _ => hreplays) (fun path hsome => ?_) hchange)
    · rw [hstack]
      exact hsound.fits
    · rw [hstack, hscalarSlot]
      exact hsound.scalar
    · rw [hscalar, hscalarSlot]
      exact hsound.idle
    · exact fun slot hsome => absurd (hslot.symm.trans hsome) (by simp)
    · exact fun slot hsome => absurd (hslot.symm.trans hsome) (by simp)
    · cases hnone.symm.trans hsome
  have hopened : opened.slot = some slot := hlonger.slot.symm.trans hslot
  have hfit : SlotFits slot read.stack := by
    rw [hstack]
    exact hfits.slot slot hopened
  have hfitsRead : Fits read.stack := by
    rw [hstack]
    exact hsound.fits
  have hbefore : shown read = shownWith (some (slot, .str opened.text)) read.stack read.root := by
    rw [shown, hstack, hroot]
    exact hfits.placed slot hopened
  have hplaced := placed_place hfit (.str longer.text)
  rw [hslot] at hpath ⊢
  refine sound_reportText (hplaced.fits hfitsRead) (fun other hother => ?_) ?_ ?_ ?_ ?_
    (textReported (hplaced.string.trans hstring) (fun hnone => ?_) (fun path hsome => ?_) ?_)
  · rw [hplaced.scalarSlot, hscalarSlot] at hother
    exact hplaced.slots other (by rw [hstack]; exact hsound.scalar other hother)
  · rw [hplaced.scalar, hplaced.scalarSlot, hscalar, hscalarSlot]
    exact hsound.idle
  · rw [hslot, hplaced.paths, hpath]
  · intro other hother
    cases hslot.symm.trans hother
    exact hplaced.slots slot hfit
  · intro other hother
    cases hslot.symm.trans hother
    rw [hplaced.around, hplaced.shown]
  · rw [hnone] at hpath
    rw [hplaced.changes, hreplays, hplaced.shown, hbefore,
      shownWith_of_unreported hfitsRead hfit hpath.symm,
      shownWith_of_unreported hfitsRead hfit hpath.symm]
  · rw [hsome] at hpath
    refine ⟨shown read, by rw [hplaced.changes, hreplays], ?_⟩
    rw [hplaced.shown, hbefore, hlonger.text]
    exact apply_append hfitsRead hfit hpath.symm read.root opened.text text
  · rw [hplaced.changes]
    exact hchange

theorem sound_appendString (text : JsString) : Sound before (appendString text parser) := by
  rw [appendString]
  cases hstring : parser.string with
  | none => exact hsound
  | some opened =>
    dsimp only
    by_cases hkey : opened.target = .key
    · rw [if_pos hkey]
      refine ⟨hsound.replays, hsound.fits, ?_, hsound.scalar, hsound.idle⟩
      rintro opened' hopened' htarget
      cases hopened'
      cases hkey.symm.trans htarget
    rw [if_neg hkey]
    have hvalue : opened.target = .value := by
      cases htarget : opened.target with
      | key => exact absurd htarget hkey
      | value => rfl
    have hlonger : Longer opened text { opened with text := opened.text ++ text } :=
      ⟨rfl, rfl, rfl, rfl⟩
    exact sound_longer hsound (hsound.string opened hstring hvalue) hlonger rfl

/-! ### The rest of the parser -/

theorem sound_appendRun (run : JsString) : Sound before (appendRun run parser) := by
  rw [appendRun]
  split
  · exact hsound
  · exact sound_appendString hsound run

theorem sound_setEscape (escape : JsString) : Sound before (setEscape escape parser) := by
  refine ⟨hsound.replays, hsound.fits, ?_, hsound.scalar, hsound.idle⟩
  intro opened' hopened' htarget
  obtain ⟨opened, hopened, rfl⟩ := map_eq_some_iff.mp hopened'
  obtain ⟨hpath, hslots, hplaced, hchange⟩ := hsound.string opened hopened htarget
  exact ⟨hpath, hslots, hplaced, hchange⟩

theorem sound_continueEscape (unit : UInt16) : Sound before (continueEscape unit parser).2 := by
  have hcleared := sound_setEscape hsound []
  rw [continueEscape]
  split
  · split
    · exact sound_appendString hcleared _
    split
    · exact sound_setEscape hsound _
    · exact sound_appendString hcleared _
  split
  · split
    · exact sound_setEscape hsound _
    · exact sound_appendString hcleared _
  · exact sound_appendString hcleared _

/-- The innermost container takes another key or phase. -/
theorem sound_frame {frame next : Frame} {rest : List Frame} (hstring : parser.string = none)
    (hstack : parser.stack = frame :: rest)
    (hsame : SameFrame frame next) (hcontainer : next.container = frame.container) :
    Sound before { parser with stack := next :: rest } := by
  have hshown : shown { parser with stack := next :: rest } = shown parser := by
    have hchild : withChild none next.container = withChild none frame.container := hcontainer
    rw [shown, shown, hstack]
    exact shownWith_head hsame hchild (by rw [hcontainer]) rest parser.root
  have hfits := hsound.fits
  rw [hstack] at hfits
  refine ⟨by rw [hshown]; exact hsound.replays, hfits.head hsame, ?_, fun slot hslot => ?_,
    hsound.idle⟩
  · intro opened hopened
    cases hstring.symm.trans hopened
  have hfit := hsound.scalar slot hslot
  rw [hstack] at hfit
  change next.container.Takes slot
  rw [hcontainer]
  exact hfit

theorem sound_valueEnded (hstring : parser.string = none) : Sound before (valueEnded parser) := by
  rw [valueEnded.eq_def]
  split
  · split
    · refine ⟨hsound.replays, hsound.fits, ?_, hsound.scalar, hsound.idle⟩
      intro opened hopened
      cases hstring.symm.trans hopened
    · exact hsound
  next frame rest hstack =>
    exact sound_frame hsound hstring hstack ⟨rfl, rfl, rfl⟩ rfl

theorem sound_endString : Sound before (endString parser) := by
  have hclosed : Sound before { parser with string := none } := by
    refine ⟨hsound.replays, hsound.fits, ?_, hsound.scalar, hsound.idle⟩
    exact nofun
  rw [endString.eq_def]
  cases hstring : parser.string with
  | none => exact hsound
  | some opened =>
    dsimp only
    cases opened.target with
    | value => exact sound_valueEnded hclosed rfl
    | key =>
      dsimp only
      split
      · exact hclosed
      rename_i frame rest hstack
      have hframe : SameFrame frame { frame with key := some opened.text, phase := .colon } :=
        ⟨rfl, rfl, rfl⟩
      exact sound_frame hclosed rfl hstack hframe rfl

theorem sound_readString (run text : JsString) : Sound before (readString run parser text).1 := by
  induction text generalizing parser run with
  | nil => exact sound_appendRun hsound run
  | cons unit rest ih =>
    -- a unit that is read on its own
    have hplain (next : Parser) (hnext : Sound before next) (run : JsString) : Sound before
        (if unit = quote then (endString (appendRun run next), rest)
        else if unit = backslash then
          readString [] (setEscape [backslash] (appendRun run next)) rest
        else readString (run ++ [unit]) next rest).1 := by
      split_ifs
      · exact sound_endString (sound_appendRun hnext run)
      · exact ih (sound_setEscape (sound_appendRun hnext run) _) _
      · exact ih hnext _
    rw [readString]
    by_cases hescape : escaping parser = []
    · rw [if_pos hescape]
      exact hplain parser hsound run
    rw [if_neg hescape]
    have hcontinued := sound_continueEscape hsound unit
    split
    · exact ih hcontinued []
    · exact hplain _ hcontinued []

section

variable (hstring : parser.string = none)
include hstring

theorem sound_endScalar : Sound before (endScalar parser) := by
  have hended : Sound before { parser with scalar := [], scalarSlot := none } := by
    refine ⟨hsound.replays, hsound.fits, ?_, ?_, fun _ => rfl⟩
    · intro opened hopened
      cases hstring.symm.trans hopened
    · exact nofun
  rw [endScalar]
  cases scalarValue parser.scalar with
  | none => exact sound_valueEnded hended hstring
  | some value =>
    rcases eq_none_or_eq_some parser.scalarSlot with hslot | ⟨slot, hslot⟩
    · rw [hslot]
      exact sound_valueEnded hended hstring
    have hfit := hsound.scalar slot hslot
    have hplaced := @placed_place { parser with scalar := [], scalarSlot := none } slot hfit value
    rw [hslot]
    dsimp only
    rw [reportedPath_eq, hplaced.paths]
    obtain ⟨hstack, hroot, hsame, hscalar, hscalarSlot, hshown⟩ :=
      reportSet_stack (pathIn (some slot) parser.stack) value
        (place (some slot) value { parser with scalar := [], scalarSlot := none })
    have hnone := hsame.trans (hplaced.string.trans hstring)
    refine sound_valueEnded ⟨?_, ?_, ?_, ?_, fun _ => ?_⟩ hnone
    · rw [hshown]
      exact replay_reportSet hended hfit hplaced
    · rw [hstack]
      exact hplaced.fits hsound.fits
    · intro opened hopened
      cases hnone.symm.trans hopened
    · intro other hother
      rw [hscalarSlot, hplaced.scalarSlot] at hother
      cases hother
    · rw [hscalarSlot, hplaced.scalarSlot]

theorem sound_readScalar (hscalar : parser.scalar ≠ []) (text : JsString) :
    Sound before (readScalar parser text).1 := by
  have hread (units : JsString) (dirty : Bool) : Sound before
      { parser with scalar := parser.scalar ++ units, dirty := dirty } := by
    refine ⟨hsound.replays, hsound.fits, ?_, hsound.scalar, fun hnil => ?_⟩
    · intro opened hopened
      cases hstring.symm.trans hopened
    · exact absurd (append_eq_nil_iff.mp hnil).1 hscalar
  rw [readScalar]
  split
  · split
    · exact hsound
    · exact hread _ _
  split
  · exact sound_endScalar hsound hstring
  · exact sound_endScalar (hread _ _) hstring

theorem sound_openContainer (hidle : parser.scalarSlot = none) {container : Container}
    (hempty : container.emptied = container) : Sound before (openContainer container parser) := by
  rw [openContainer, reportedPath_eq]
  rcases eq_none_or_eq_some (valueSlot parser) with hslot | ⟨slot, hslot⟩
  · rw [hslot]
    refine ⟨hsound.replays, ⟨rfl, rfl, ?_, hsound.fits⟩, ?_, ?_, fun _ => hidle⟩
    · rintro other ⟨⟩
    · intro opened hopened
      cases hstring.symm.trans hopened
    intro slot hsome
    cases hidle.symm.trans hsome
  have hfit := slotFits_of_valueSlot hslot
  have hplaced := placed_place hfit container.toJson
  rw [hslot]
  have hshown (frame : Frame) (hframe : frame.container = container)
      (hframeSlot : frame.slot = some slot) :
      shownWith none (frame :: (place (some slot) container.toJson parser).stack)
        (place (some slot) container.toJson parser).root =
          shown (place (some slot) container.toJson parser) := by
    have hcontainer : (if (place (some slot) container.toJson parser).stack.length <
        maxReportedDepth then withChild none container else container.emptied) = container := by
      split
      · rfl
      · exact hempty
    rw [shownWith_cons, hframe, hframeSlot, hcontainer, map_some, hplaced.around, hplaced.shown]
  refine ⟨?_, ?_, ?_, ?_, ?_⟩
  · rw [(reportSet_stack _ _ _).2.2.2.2.2]
    refine Eq.trans ?_ (congrArg some (hshown _ rfl rfl).symm)
    rw [← replay_reportSet hsound hfit hplaced]
    cases pathIn (some slot) parser.stack <;> rfl
  · rw [(reportSet_stack _ _ _).1]
    refine ⟨(hplaced.paths (some slot)).symm, rfl, fun other hother => ?_,
      hplaced.fits hsound.fits⟩
    cases hother
    exact hplaced.slots slot hfit
  · intro opened hopened
    rw [(reportSet_stack _ _ _).2.2.1] at hopened
    cases (hplaced.string.trans hstring).symm.trans hopened
  · intro other hother
    rw [(reportSet_stack _ _ _).2.2.2.2.1] at hother
    cases (hplaced.scalarSlot.trans hidle).symm.trans hother
  intro _
  rw [(reportSet_stack _ _ _).2.2.2.2.1]
  exact hplaced.scalarSlot.trans hidle

theorem sound_closeContainer
    (hidle : parser.scalarSlot = none) : Sound before (closeContainer parser) := by
  rw [closeContainer.eq_def]
  split
  · exact hsound
  rename_i frame rest hstack
  have hfits := hsound.fits
  have hreplays := hsound.replays
  rw [shown, hstack] at hreplays
  rw [hstack] at hfits
  obtain ⟨hpath, hreports, hbelow, hrest⟩ := hfits
  dsimp only
  obtain ⟨closing, hclosing⟩ : ∃ closing, closing = { parser with
      stack := rest, pathCost := parser.pathCost - (frame.size + 1), dirty := true } := ⟨_, rfl⟩
  have hclosingStack : closing.stack = rest := by rw [hclosing]
  have hclosingRoot : closing.root = parser.root := by rw [hclosing]
  have hclosingString : closing.string = none := by
    rw [hclosing]
    exact hstring
  have hclosingSlot : closing.scalarSlot = none := by
    rw [hclosing]
    exact hidle
  have hclosingChanges : closing.changes = parser.changes := by rw [hclosing]
  rw [← hclosing]
  -- the parser with the value in its parent, once the changes give what it shows
  have hsound' (next : Parser) (hreplays : replay next.changes before = some (shown next))
      (hfits : Fits next.stack) (hstring : next.string = none)
      (hidle : next.scalarSlot = none) : Sound before (valueEnded next) := by
    refine sound_valueEnded ⟨hreplays, hfits, ?_, ?_, fun _ => hidle⟩ hstring
    · intro opened hopened
      cases hstring.symm.trans hopened
    intro slot hslot
    cases hidle.symm.trans hslot
  rcases eq_none_or_eq_some frame.slot with hslot | ⟨slot, hslot⟩
  · -- a container in an invalid position is not part of the value
    have hnone : frame.path = none := by
      rw [hpath, hslot]
      rfl
    have hinside : frame.reportsInside = false := by
      rw [hreports, hnone]
      rfl
    rw [hinside, if_neg (by decide), hnone, hslot]
    refine hsound' closing ?_ (by rw [hclosingStack]; exact hrest) hclosingString hclosingSlot
    rw [hclosingChanges, hreplays, shown, hclosingStack, hclosingRoot, shownWith_cons, hslot]
    rfl
  have hfit : SlotFits slot closing.stack := by
    rw [hclosingStack]
    exact hbelow slot hslot
  have hplaced := placed_assign hfit frame.container.toJson
  have hshown := hplaced.shown
  rw [hclosingStack, hclosingRoot] at hshown
  have hclosedFits : Fits (assign (some slot) frame.container.toJson closing).stack :=
    hplaced.fits (by rw [hclosingStack]; exact hrest)
  have hclosedChanges := hplaced.changes.trans hclosingChanges
  have hclosedString := hplaced.string.trans hclosingString
  have hclosedSlot := hplaced.scalarSlot.trans hclosingSlot
  rw [hslot]
  by_cases hinside : frame.reportsInside = true
  · rw [if_pos hinside]
    refine hsound' _ ?_ hclosedFits hclosedString hclosedSlot
    obtain ⟨slot', -, hslot', -, -, -, hvalue⟩ :=
      shownWith_reported ⟨hpath, hreports, hbelow, hrest⟩ hinside none parser.root
    cases hslot.symm.trans hslot'
    rw [hclosedChanges, hreplays, hvalue, hshown]
    rfl
  -- the whole value is reported as it closes, when the container itself is
  rw [if_neg hinside, hpath, hslot]
  obtain ⟨hstack', hroot', hstring', hscalar', hscalarSlot', hshown'⟩ := reportSet_stack
    (pathIn (some slot) rest) frame.container.toJson
    (assign (some slot) frame.container.toJson closing)
  refine hsound' _ ?_ (by rw [hstack']; exact hclosedFits)
    (hstring'.trans hclosedString) (hscalarSlot'.trans hclosedSlot)
  rw [hshown', hshown]
  rw [shownWith_cons, hslot, map_some] at hreplays
  cases hsome : pathIn (some slot) rest with
  | none =>
    rw [reportSet, hclosedChanges, hreplays,
      shownWith_of_unreported hrest (hbelow slot hslot) hsome,
      shownWith_of_unreported hrest (hbelow slot hslot) hsome]
  | some path =>
    change replay (_ ++ [Change.set path _]) before = _
    rw [replay_concat, hclosedChanges, hreplays]
    exact apply_set hrest (hbelow slot hslot) hsome parser.root (some _) _

theorem sound_structural
    (hscalar : parser.scalar = []) (unit : UInt16) : Sound before (structural unit parser) := by
  have hidle := hsound.idle hscalar
  rw [structural]
  split_ifs
  · exact hsound
  · exact sound_startString hsound hidle
  · exact sound_openContainer hsound hstring hidle rfl
  · exact sound_openContainer hsound hstring hidle rfl
  · exact sound_closeContainer hsound hstring hidle
  · split
    · exact hsound
    rename_i frame rest hstack
    split
    · exact sound_frame hsound hstring hstack ⟨rfl, rfl, rfl⟩ rfl
    · exact hsound
  · split
    · exact hsound
    next frame rest hstack =>
      exact sound_frame hsound hstring hstack ⟨rfl, rfl, rfl⟩ rfl
  refine ⟨hsound.replays, hsound.fits, ?_, fun slot hslot => slotFits_of_valueSlot hslot,
    fun hnil => ?_⟩
  · intro opened hopened
    cases hstring.symm.trans hopened
  · cases hnil

end

theorem sound_readPiece (fuel : Nat) (text : JsString) :
    Sound before (readPiece fuel parser text) := by
  induction fuel generalizing parser text with
  | zero => exact hsound
  | succ fuel ih =>
    cases text with
    | nil => exact hsound
    | cons unit rest =>
      rw [readPiece]
      split_ifs with hdone hopen hscalar
      · exact hsound
      · exact ih (sound_readString hsound [] _) _
      · have hstring : parser.string = none := by simpa using hopen
        exact ih (sound_readScalar hsound hstring (by simpa using hscalar) _) _
      have hstring : parser.string = none := by simpa using hopen
      exact ih (sound_structural hsound hstring (by simpa using hscalar) unit) rest

end

/-! ### Runs -/

/-- What holds of a parser between pieces: nothing is asked of the changes of the last one. -/
structure Settled (parser : Parser) : Prop where
  fits : Fits parser.stack
  string : ∀ opened, parser.string = some opened → opened.target = .value →
    StringFits { parser with changes := [] } { opened with change := none }
  scalar : ∀ slot, parser.scalarSlot = some slot → SlotFits slot parser.stack
  idle : parser.scalar = [] → parser.scalarSlot = none

theorem Sound.settled (hsound : Sound before parser) : Settled parser := by
  refine ⟨hsound.fits, ?_, hsound.scalar, hsound.idle⟩
  intro opened hopened htarget
  obtain ⟨hpath, hslots, hplaced, -⟩ := hsound.string opened hopened htarget
  refine ⟨hpath, hslots, hplaced, ?_⟩
  exact nofun

theorem settled_start : Settled .start := by
  refine ⟨trivial, ?_, ?_, fun _ => rfl⟩
  · exact nofun
  · exact nofun

/-- The changes of one piece take the value shown before it to the value shown after it. -/
theorem sound_append (hsettled : Settled parser) (text : JsString) :
    Sound (shown parser) (append text parser) := by
  have hstart : Sound (shown parser) { parser with
      credit := parser.credit + (creditPerAppend + creditPerCharacter * text.length)
      changes := []
      string := parser.string.map fun opened => { opened with change := none } } := by
    refine ⟨rfl, hsettled.fits, ?_, hsettled.scalar, hsettled.idle⟩
    intro opened' hopened' htarget
    obtain ⟨opened, hopened, rfl⟩ := map_eq_some_iff.mp hopened'
    obtain ⟨hpath, hslots, hplaced, hchange⟩ := hsettled.string opened hopened htarget
    exact ⟨hpath, hslots, hplaced, hchange⟩
  exact sound_readPiece hstart _ text

theorem settled_takeSnapshot (hsettled : Settled parser) :
    Settled (takeSnapshot parser).2 ∧ shown (takeSnapshot parser).2 = shown parser := by
  rcases takeSnapshot_cases parser with hlast | ⟨cost, -, hfresh⟩
  · rw [hlast]
    exact ⟨hsettled, rfl⟩
  rw [hfresh]
  refine ⟨⟨hsettled.fits, ?_, hsettled.scalar, hsettled.idle⟩, rfl⟩
  intro opened hopened htarget
  obtain ⟨hpath, hslots, hplaced, hchange⟩ := hsettled.string opened hopened htarget
  exact ⟨hpath, hslots, hplaced, hchange⟩

/-- The changes that the calls return, in order. -/
def changesOf : Parser → List Call → List Change
  | _, [] => []
  | parser, .append piece :: rest =>
    (append piece parser).changes ++ changesOf (append piece parser) rest
  | parser, .snapshot :: rest => changesOf (takeSnapshot parser).2 rest

theorem replay_changesOf (hsettled : Settled parser) (calls : List Call) :
    replay (changesOf parser calls) (shown parser) =
      some (shown (calls.foldl Parser.call parser)) := by
  induction calls generalizing parser with
  | nil => rfl
  | cons call rest ih =>
    cases call with
    | append piece =>
      have hsound := sound_append hsettled piece
      rw [changesOf, replay_append, hsound.replays, bind_some, foldl_cons]
      exact ih hsound.settled
    | snapshot =>
      obtain ⟨hnext, hshown⟩ := settled_takeSnapshot hsettled
      rw [changesOf, ← hshown, foldl_cons]
      exact ih hnext

theorem shownFrames_congr {first second : List Frame}
    (hlevels : first.map Frame.level = second.map Frame.level)
    (child : Option (Slot × JsonValue)) : shownFrames child first = shownFrames child second := by
  induction first generalizing second child with
  | nil => rw [map_eq_nil_iff.mp hlevels.symm]
  | cons frame rest ih =>
    cases second with
    | nil => cases hlevels
    | cons other others =>
      obtain ⟨hframe, hrest⟩ := cons.inj hlevels
      have hcontainer : frame.container = other.container := congrArg Level.container hframe
      have hslot : frame.slot = other.slot := congrArg Level.slot hframe
      have hlength : rest.length = others.length := by
        rw [← length_map Frame.level, hrest, length_map]
      rw [shownFrames, shownFrames, hcontainer, hslot, hlength]
      exact ih hrest _

theorem shown_congr {first second : Parser} (hview : view first = view second) :
    shown first = shown second := by
  have hroot : first.root = second.root := congrArg Reading.root hview
  rw [shown, shown, shownWith, shownWith,
    shownFrames_congr (congrArg Reading.levels hview) none, hroot]

/-- The changes that the calls return give, one after another, the value shown after the last
call, and it is the one that the text shows when it comes in one piece. -/
theorem changes_replay (calls : List Call) :
    replay (changesOf .start calls) none = some (shown (calls.foldl Parser.call .start)) ∧
      shown (calls.foldl Parser.call .start) = shown (append (received calls) .start) := by
  refine ⟨replay_changesOf settled_start calls, shown_congr ?_⟩
  rw [(follows_calls follows_start calls).view, nil_append,
    (view_append follows_start.modal (received calls)).1]
  rfl

open JsonText JsonRepair

/-- A copy built from the changes alone ends as the arguments of the final parse, containers
below the reported depth included. -/
theorem replay_arguments (syntaxMessage : JsString → JsString) (calls : List Call)
    (hblank : isBlank (received calls) = false)
    (hnone : (parseToolCallArguments syntaxMessage (received calls)).argumentsError = none) :
    replay (changesOf .start calls) none =
      some (some (parseToolCallArguments syntaxMessage (received calls)).arguments) := by
  obtain ⟨fields, harguments, hparse⟩ := parse_repairJson hblank hnone
  have hview := (follows_calls follows_start calls).view
  rw [nil_append, Reading.feed_object hparse] at hview
  have hstack : (calls.foldl Parser.call .start).stack = [] :=
    map_eq_nil_iff.mp (congrArg Reading.levels hview)
  have hroot : (calls.foldl Parser.call .start).root = some (.obj () fields) :=
    congrArg Reading.root hview
  refine (replay_changesOf settled_start calls).trans ?_
  rw [shown, shownWith, hstack, hroot, harguments]
  rfl

theorem replay_arguments_cutCalls :
    replay (changesOf .start cutCalls) none = some (some (.obj () [([97], .str [9, 92, 113, 65])])) :=
  replay_arguments (fun _ => []) cutCalls (by rfl) (by rfl)

end Hummin.StreamingJson
