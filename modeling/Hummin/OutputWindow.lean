/-
The output window: undelivered output is held, and text that can no longer be in the tail
the caller shows is replaced by counts.
-/
import Mathlib.Algebra.GroupWithZero.Nat
import Mathlib.Data.List.GetD
import Mathlib.Data.List.Infix
import Mathlib.Tactic.ByContra

namespace Hummin.OutputWindow

open List

/-- The UTF-8 bytes of a text. -/
abbrev Text := List UInt8

/-- The limits, whose arithmetic wraps around in the release build. -/
structure Window where
  maxBytes : UInt64
  maxLines : UInt64

def newlineCount (text : Text) : Nat := text.count 0x0A

/-- What a skip says of the text it stands for. -/
structure Skipped where
  bytes : Nat
  newlines : Nat
  endsWithNewline : Bool
deriving DecidableEq

def endsWithNewline (text : Text) : Bool := text.getLast? == some 0x0A

structure Event where
  stream : String
  text : Text
  skipped : Option Skipped
deriving DecidableEq

abbrev Segment := String × Text

structure Pending where
  window : Window
  segments : List Segment
  bytes : Nat
  newlines : Nat
  skipped : Option Skipped

def Pending.new (window : Window) : Pending := ⟨window, [], 0, 0, none⟩

/-- Whether the text after a cut still proves the cut text is outside the window. -/
def Window.proves (window : Window) (bytes newlines : Nat) : Prop :=
  window.maxBytes.toNat < bytes ∨ window.maxLines.toNat < newlines

instance (window : Window) (bytes newlines : Nat) :
    Decidable (window.proves bytes newlines) :=
  inferInstanceAs (Decidable (_ ∨ _))

/-- A subtraction of counters, which must not underflow. -/
def minus (count part : Nat) : Option Nat :=
  if part ≤ count then some (count - part) else none

/-! ### Trimming -/

structure Trim where
  segments : List Segment
  bytes : Nat
  newlines : Nat
  removed : Text

/-- Whole segments first. -/
def trimSegments (window : Window) (bytes newlines : Nat) (removed : Text) :
    List Segment → Option Trim
  | first :: second :: rest => do
    let restBytes ← minus bytes first.2.length
    let restNewlines ← minus newlines (newlineCount first.2)
    if window.proves restBytes restNewlines then
      trimSegments window restBytes restNewlines (removed ++ first.2) (second :: rest)
    else some ⟨first :: second :: rest, bytes, newlines, removed⟩
  | segments => some ⟨segments, bytes, newlines, removed⟩

def isCharBoundary (text : Text) (index : Nat) : Bool :=
  index == 0 || match text[index]? with
    | some byte => byte < 0x80 || 0xC0 ≤ byte
    | none => index == text.length

def floorBoundary (text : Text) : Nat → Nat
  | 0 => 0
  | index + 1 =>
    if isCharBoundary text (index + 1) then index + 1 else floorBoundary text index

/-- By bytes: keep more than `maxBytes` overall. -/
def byteCut (first : Text) (keepBytes : Nat) : Nat :=
  if keepBytes < first.length then floorBoundary first (first.length - keepBytes) else 0

def newlinePositions (index : Nat) : Text → List Nat
  | [] => []
  | byte :: rest =>
    if byte = 0x0A then index :: newlinePositions (index + 1) rest
    else newlinePositions (index + 1) rest

/-- By lines: keep more than `maxLines` newlines overall, starting at a newline. -/
def lineCut (first : Text) (keepNewlines cut : Nat) : Nat :=
  if 0 < keepNewlines then
    let positions := newlinePositions 0 first
    if keepNewlines ≤ positions.length then
      max cut (positions.getD (positions.length - keepNewlines) 0)
    else cut
  else first.length

/-- The bytes up to `cut`, which must be a character boundary, and those left. -/
def drain (text : Text) (cut : Nat) : Option (Text × Text) :=
  if cut ≤ text.length ∧ isCharBoundary text cut then some (text.take cut, text.drop cut)
  else none

def skip (removed : Text) (skipped : Option Skipped) : Option Skipped :=
  if removed = [] then skipped
  else
    let before := skipped.getD ⟨0, 0, false⟩
    some ⟨before.bytes + removed.length, before.newlines + newlineCount removed,
      endsWithNewline removed⟩

/-- The prefix of the first segment that goes is `cut` long. -/
def Trim.cut (window : Window) (trim : Trim) (first : Text) : Option Nat := do
  let restBytes ← minus trim.bytes first.length
  let restNewlines ← minus trim.newlines (newlineCount first)
  return lineCut first ((window.maxLines + 1).toNat - restNewlines)
    (byteCut first ((window.maxBytes + 1).toNat - restBytes))

/-- Replace the longest prefix whose remainder still proves exclusion by counts. -/
def Pending.trim (pending : Pending) : Option Pending := do
  let trim ← trimSegments pending.window pending.bytes pending.newlines [] pending.segments
  match trim.segments with
  | [] => none
  | (stream, first) :: rest => do
    let cut ← trim.cut pending.window first
    if 0 < cut then do
      let (drained, left) ← drain first cut
      let bytes ← minus trim.bytes drained.length
      let newlines ← minus trim.newlines (newlineCount drained)
      return ⟨pending.window, if left = [] then rest else (stream, left) :: rest,
        bytes, newlines, skip (trim.removed ++ drained) pending.skipped⟩
    else
      return ⟨pending.window, trim.segments, trim.bytes, trim.newlines,
        skip trim.removed pending.skipped⟩

/-! ### Calls -/

def pushText (stream : String) (text : Text) : List Segment → List Segment
  | [] => [(stream, text)]
  | [(last, existing)] =>
    if last = stream then [(last, existing ++ text)] else [(last, existing), (stream, text)]
  | first :: second :: rest => first :: pushText stream text (second :: rest)

/-- The text held and counted, before any trimming. -/
def Pending.add (stream : String) (text : Text) (pending : Pending) : Pending :=
  { pending with
    bytes := pending.bytes + text.length
    newlines := pending.newlines + newlineCount text
    segments := pushText stream text pending.segments }

def Pending.push (stream : String) (text : Text) (pending : Pending) : Option Pending :=
  if text = [] then some pending
  else
    let added := pending.add stream text
    if (4 * (pending.window.maxBytes + 1)).toNat < added.bytes ∨
        (4 * (pending.window.maxLines + 1)).toNat < added.newlines then added.trim
    else some added

def held (segments : List Segment) : Text := segments.flatMap Prod.snd

/-- One event carrying the skip and all text after it, or one event per segment. -/
def Pending.take (pending : Pending) : Pending × List Event :=
  (⟨pending.window, [], 0, 0, none⟩,
    match pending.skipped with
    | some skipped =>
      let stream := (pending.segments.getLast?.map Prod.fst).getD "stdout"
      [⟨stream, held pending.segments, some skipped⟩]
    | none => pending.segments.map fun (stream, text) => ⟨stream, text, none⟩)

inductive Call where
  | push (stream : String) (text : Text)
  | take

def Pending.step (pending : Pending) : Call → Option (Pending × List Event)
  | .push stream text => do
    let pushed ← pending.push stream text
    return (pushed, [])
  | .take => pending.take

def Pending.run (pending : Pending) : List Call → Option (Pending × List Event)
  | [] => some (pending, [])
  | call :: calls => do
    let (stepped, events) ← pending.step call
    let (reached, later) ← stepped.run calls
    return (reached, events ++ later)

/-- All text that the calls push. -/
def pushedText : List Call → Text
  | [] => []
  | .push _ text :: calls => text ++ pushedText calls
  | .take :: calls => pushedText calls

/-! ### One trimming -/

variable {window : Window} {segments : List Segment} {removed text : Text}
  {pending : Pending} {stream : String}

theorem minus_add (part rest : Nat) : minus (part + rest) part = some rest := by
  rw [minus, if_pos (Nat.le_add_right part rest), Nat.add_sub_cancel_left]

theorem held_cons (first : Segment) : held (first :: segments) = first.2 ++ held segments :=
  flatMap_cons

theorem newlineCount_append (front back : Text) :
    newlineCount (front ++ back) = newlineCount front + newlineCount back :=
  count_append

/-- The text proves what comes before it outside the window. -/
def Window.ProvedBy (window : Window) (text : Text) : Prop :=
  window.proves text.length (newlineCount text)

/-- More text after a cut proves no less. -/
theorem Window.ProvedBy.mono {few many : Text} (hproves : window.ProvedBy few)
    (hsublist : few.Sublist many) : window.ProvedBy many :=
  hproves.imp (lt_of_lt_of_le · hsublist.length_le) (lt_of_lt_of_le · (hsublist.count_le _))

/-- Whole segments go as long as what is left proves them outside the window, so what follows
the first segment left proves nothing. -/
theorem trimSegments_spec (segments : List Segment) (removed : Text) (hsome : segments ≠ []) :
    ∃ gone first rest,
      trimSegments window (held segments).length (newlineCount (held segments)) removed segments =
        some ⟨first :: rest, (held (first :: rest)).length,
          newlineCount (held (first :: rest)), removed ++ gone⟩ ∧
      held segments = gone ++ held (first :: rest) ∧
      (gone ≠ [] → window.ProvedBy (held (first :: rest))) ∧ ¬window.ProvedBy (held rest) := by
  induction segments generalizing removed with
  | nil => exact absurd rfl hsome
  | cons first rest ih =>
    cases rest with
    | nil =>
      refine ⟨[], first, [], ?_, rfl, fun hgone => absurd rfl hgone, ?_⟩
      · rw [trimSegments, append_nil]
        exact fun _ _ _ heq => nomatch heq
      · simp [Window.ProvedBy, Window.proves, held, newlineCount]
    | cons second rest =>
      have hstep : held (first :: second :: rest) = first.2 ++ held (second :: rest) :=
        held_cons first
      rw [trimSegments, hstep, length_append, newlineCount_append, minus_add, minus_add]
      simp only [Option.bind_eq_bind, Option.bind_some]
      split
      case isTrue hproves =>
        obtain ⟨gone, next, left, htrim, hheld, hgone, hrest⟩ :=
          ih (removed ++ first.2) (cons_ne_nil _ _)
        refine ⟨first.2 ++ gone, next, left, ?_, ?_, fun _ => ?_, hrest⟩
        · rw [htrim, append_assoc]
        · rw [hheld, append_assoc]
        by_cases hnil : gone = []
        · rw [← nil_append (held _), ← hnil, ← hheld]
          exact hproves
        · exact hgone hnil
      case isFalse hproves =>
        refine ⟨[], first, second :: rest, ?_, hstep.symm, fun hgone => absurd rfl hgone, hproves⟩
        rw [append_nil, hstep, length_append, newlineCount_append]

theorem floorBoundary_spec (text : Text) (index : Nat) :
    floorBoundary text index ≤ index ∧ isCharBoundary text (floorBoundary text index) := by
  induction index with
  | zero => exact ⟨le_rfl, rfl⟩
  | succ index ih =>
    rw [floorBoundary]
    split
    case isTrue hboundary => exact ⟨le_rfl, hboundary⟩
    case isFalse => exact ⟨ih.1.trans (Nat.le_succ index), ih.2⟩

theorem length_newlinePositions (index : Nat) (text : Text) :
    (newlinePositions index text).length = newlineCount text := by
  induction text generalizing index with
  | nil => rfl
  | cons byte rest ih =>
    rw [newlinePositions, newlineCount, count_cons, ← newlineCount, ← ih (index + 1)]
    by_cases hbyte : byte = 0x0A <;> simp [hbyte]

/-- From a newline on there are as many newlines as positions from its own. -/
theorem newlinePositions_spec (text : Text) (index : Nat) {place : Nat}
    (hplace : place < (newlinePositions index text).length) :
    ∃ offset, (newlinePositions index text)[place] = index + offset ∧
      text[offset]? = some 0x0A ∧
      newlineCount (text.drop offset) + place = (newlinePositions index text).length := by
  induction text generalizing index place with
  | nil => exact absurd hplace (Nat.not_lt_zero _)
  | cons byte rest ih =>
    by_cases hbyte : byte = 0x0A
    · simp only [newlinePositions, if_pos hbyte] at hplace ⊢
      cases place with
      | zero =>
        exact ⟨0, rfl, by rw [hbyte]; rfl,
          by simp [newlineCount, hbyte, length_newlinePositions]⟩
      | succ place =>
        obtain ⟨offset, hat, hnewline, hlength⟩ := ih (index + 1) (Nat.lt_of_succ_lt_succ hplace)
        refine ⟨offset + 1, ?_, hnewline, ?_⟩
        · rw [getElem_cons_succ, hat]
          omega
        rw [drop_succ_cons, length_cons, ← hlength]
        omega
    simp only [newlinePositions, if_neg hbyte] at hplace ⊢
    obtain ⟨offset, hat, hnewline, hlength⟩ := ih (index + 1) hplace
    exact ⟨offset + 1, by rw [hat]; omega, hnewline, hlength⟩

/-- The limits that `+ 1` does not wrap around. -/
structure Window.Bounded (window : Window) : Prop where
  maxBytes : (window.maxBytes + 1).toNat = window.maxBytes.toNat + 1
  maxLines : (window.maxLines + 1).toNat = window.maxLines.toNat + 1

/-- A cut inside the first segment, at a character, whose remainder proves it. -/
def Window.Cuts (window : Window) (first rest : Text) (cut : Nat) : Prop :=
  0 < cut → cut < first.length ∧ isCharBoundary first cut ∧
    window.ProvedBy (first.drop cut ++ rest)

theorem byteCut_cuts (hbounded : window.Bounded) (first : Text) {rest : Text}
    (hrest : ¬window.ProvedBy rest) :
    window.Cuts first rest (byteCut first ((window.maxBytes + 1).toNat - rest.length)) := by
  have hplus := hbounded.maxBytes
  unfold Window.ProvedBy Window.proves at hrest
  rw [byteCut]
  split
  case isTrue hkeep =>
    obtain ⟨hle, hboundary⟩ := floorBoundary_spec first
      (first.length - ((window.maxBytes + 1).toNat - rest.length))
    refine fun _ => ⟨by omega, hboundary, .inl ?_⟩
    rw [length_append, length_drop]
    omega
  case isFalse => exact fun hcut => absurd hcut (lt_irrefl 0)

theorem lineCut_cuts (hbounded : window.Bounded) {first rest : Text}
    (hrest : ¬window.ProvedBy rest) {cut : Nat} (hcut : window.Cuts first rest cut) :
    window.Cuts first rest
      (lineCut first ((window.maxLines + 1).toNat - newlineCount rest) cut) := by
  have hplus := hbounded.maxLines
  unfold Window.ProvedBy Window.proves at hrest
  have hkeep : 0 < (window.maxLines + 1).toNat - newlineCount rest := by omega
  rw [lineCut, if_pos hkeep]
  by_cases hle : (window.maxLines + 1).toNat - newlineCount rest ≤
      (newlinePositions 0 first).length
  · simp only [if_pos hle]
    have hplace := Nat.sub_lt (lt_of_lt_of_le hkeep hle) hkeep
    obtain ⟨offset, hat, hnewline, hcount⟩ := newlinePositions_spec first 0 hplace
    rw [getD_eq_getElem _ _ hplace, hat, Nat.zero_add]
    rcases le_total offset cut with hoffset | hoffset
    · rwa [max_eq_left hoffset]
    rw [max_eq_right hoffset]
    intro _
    refine ⟨(List.getElem?_eq_some_iff.mp hnewline).1, ?_, .inr ?_⟩
    · simp [isCharBoundary, hnewline]
    rw [newlineCount_append]
    omega
  · simpa only [if_neg hle] using hcut

/-! ### The counters and the text held -/

/-- The skip that stands for `omitted`, none when there is no such text. -/
def skipOf (omitted : Text) : Option Skipped :=
  if omitted = [] then none
  else some ⟨omitted.length, newlineCount omitted, endsWithNewline omitted⟩

theorem skip_skipOf (removed omitted : Text) :
    skip removed (skipOf omitted) = skipOf (omitted ++ removed) := by
  rcases eq_or_ne removed [] with rfl | hremoved
  · rw [skip, if_pos rfl, append_nil]
  rcases eq_or_ne omitted [] with rfl | homitted
  · simp [skipOf, skip, hremoved]
  · simp [skipOf, skip, hremoved, homitted, newlineCount, endsWithNewline]

/-- The counters are those of the text held, which proves the text omitted outside the window. -/
structure Pending.Holds (pending : Pending) (window : Window) (text : Text) : Prop where
  window_eq : pending.window = window
  bytes_eq : pending.bytes = (held pending.segments).length
  newlines_eq : pending.newlines = newlineCount (held pending.segments)
  text_eq : ∃ omitted, omitted ++ held pending.segments = text ∧
    pending.skipped = skipOf omitted ∧
    (omitted ≠ [] → window.proves pending.bytes pending.newlines)

theorem trim_holds (hbounded : window.Bounded) (hholds : pending.Holds window text)
    (hsome : pending.segments ≠ []) :
    ∃ trimmed, pending.trim = some trimmed ∧ trimmed.Holds window text ∧ trimmed.segments ≠ [] := by
  obtain ⟨rfl, hbytes, hnewlines, omitted, htext, hskipped, homitted⟩ := hholds
  obtain ⟨gone, ⟨stream, first⟩, rest, htrim, hheld, hgone, hrest⟩ :=
    @trimSegments_spec pending.window pending.segments [] hsome
  have hcuts := lineCut_cuts hbounded hrest (byteCut_cuts hbounded first hrest)
  set cut := lineCut first ((pending.window.maxLines + 1).toNat - newlineCount (held rest))
    (byteCut first ((pending.window.maxBytes + 1).toNat - (held rest).length)) with hcut
  have hat : Trim.cut pending.window ⟨(stream, first) :: rest,
      (held ((stream, first) :: rest)).length,
      newlineCount (held ((stream, first) :: rest)), gone⟩ first = some cut := by
    simp only [Trim.cut, held_cons, length_append, newlineCount_append, minus_add]
    exact congrArg some hcut.symm
  rw [nil_append] at htrim
  rw [Pending.trim, hbytes, hnewlines, htrim]
  simp only [Option.bind_eq_bind, Option.bind_some, hat, hskipped, skip_skipOf]
  by_cases hpos : 0 < cut
  · obtain ⟨hlt, hboundary, hproves⟩ := hcuts hpos
    have hsplit : held ((stream, first) :: rest) =
        first.take cut ++ held ((stream, first.drop cut) :: rest) := by
      rw [held_cons, held_cons, ← append_assoc, take_append_drop]
    have hleft : first.drop cut ≠ [] := by
      rw [ne_eq, drop_eq_nil_iff]
      omega
    rw [if_pos hpos, drain, if_pos ⟨hlt.le, hboundary⟩, hsplit]
    simp only [Option.bind_some, length_append, newlineCount_append, minus_add, if_neg hleft]
    refine ⟨_, rfl, ⟨rfl, rfl, rfl, omitted ++ (gone ++ first.take cut), ?_, rfl, ?_⟩,
      cons_ne_nil _ _⟩
    · rw [← htext, hheld, hsplit, append_assoc, append_assoc]
    · exact fun _ => hproves
  rw [if_neg hpos]
  refine ⟨_, rfl, ⟨rfl, rfl, rfl, omitted ++ gone, ?_, rfl, fun hsome => ?_⟩,
    cons_ne_nil _ _⟩
  · rw [← htext, hheld, append_assoc]
  by_cases hnil : gone = []
  · rw [hnil, append_nil] at hsome
    have hproves := homitted hsome
    rwa [hbytes, hnewlines, hheld, hnil, nil_append] at hproves
  · exact hgone hnil

theorem held_pushText (stream : String) (text : Text) (segments : List Segment) :
    held (pushText stream text segments) = held segments ++ text := by
  induction segments with
  | nil => simp [pushText, held]
  | cons first rest ih =>
    cases rest with
    | nil =>
      obtain ⟨last, existing⟩ := first
      rw [pushText]
      split <;> simp [held]
    | cons second rest => rw [pushText, held_cons, ih, ← append_assoc, ← held_cons]

theorem pushText_ne_nil (stream : String) (text : Text) (segments : List Segment) :
    pushText stream text segments ≠ [] := by
  fun_cases pushText stream text segments <;> exact cons_ne_nil _ _

theorem add_holds (stream : String) (added : Text) (hholds : pending.Holds window text) :
    (pending.add stream added).Holds window (text ++ added) := by
  obtain ⟨rfl, hbytes, hnewlines, omitted, rfl, hskipped, homitted⟩ := hholds
  refine ⟨rfl, ?_, ?_, omitted, ?_, hskipped, fun hsome => ?_⟩
  · simp only [Pending.add, held_pushText, length_append, hbytes]
  · simp only [Pending.add, held_pushText, newlineCount_append, hnewlines]
  · simp only [Pending.add, held_pushText, append_assoc]
  have hproves := homitted hsome
  unfold Window.proves at hproves ⊢
  simp only [Pending.add]
  omega

theorem push_holds (hbounded : window.Bounded) (stream : String) (added : Text)
    (hholds : pending.Holds window text) :
    ∃ pushed, pending.push stream added = some pushed ∧ pushed.Holds window (text ++ added) := by
  have hadd := add_holds stream added hholds
  rw [Pending.push]
  split
  case isTrue hnil => exact ⟨pending, rfl, by rwa [hnil, append_nil]⟩
  case isFalse =>
    dsimp only
    split
    · obtain ⟨trimmed, htrim, htrimmed, -⟩ :=
        trim_holds hbounded hadd (pushText_ne_nil stream added pending.segments)
      exact ⟨trimmed, htrim, htrimmed⟩
    · exact ⟨_, rfl, hadd⟩

/-! ### Runs -/

def Event.skippedBytes (event : Event) : Nat := (event.skipped.map Skipped.bytes).getD 0

def Event.skippedNewlines (event : Event) : Nat := (event.skipped.map Skipped.newlines).getD 0

/-- The text after the last skip. -/
def afterSkip (events : List Event) : Text :=
  events.foldl
    (fun after event => (if event.skipped.isSome then [] else after) ++ event.text) []

/-- Each skip stands for the text before its event, which what follows proves. -/
def Window.Omits (window : Window) (part : Text × Event) : Prop :=
  part.2.skipped = skipOf part.1 ∧
    (part.2.skipped ≠ none → window.ProvedBy part.2.text)

/-- The events with the text that each omits are the text delivered. -/
def Restores (window : Window) (delivered : Text) (events : List Event) : Prop :=
  ∃ parts : List (Text × Event), parts.map Prod.snd = events ∧
    (parts.flatMap fun part => part.1 ++ part.2.text) = delivered ∧
    ∀ part ∈ parts, window.Omits part

/-- What the events of a run, ended by a `take`, say of the text pushed. -/
structure Accounts (window : Window) (pushed : Text) (events : List Event) : Prop where
  bytes_sum : (events.map fun event => event.skippedBytes + event.text.length).sum =
    pushed.length
  newlines_sum :
    (events.map fun event => event.skippedNewlines + newlineCount event.text).sum =
      newlineCount pushed
  restores : Restores window pushed events
  tail_in : ∀ tail : Text, tail <:+ pushed → tail.length ≤ window.maxBytes.toNat →
    newlineCount tail ≤ window.maxLines.toNat → tail <:+ afterSkip events

theorem skipped_skipOf {event : Event} {omitted : Text}
    (hskipped : event.skipped = skipOf omitted) :
    event.skippedBytes = omitted.length ∧ event.skippedNewlines = newlineCount omitted := by
  unfold Event.skippedBytes Event.skippedNewlines
  rcases eq_or_ne omitted [] with rfl | homitted
  · simp [hskipped, skipOf, newlineCount]
  · simp [hskipped, skipOf, homitted]

theorem tail_of_parts (parts : List (Text × Event))
    (hparts : ∀ part ∈ parts, window.Omits part) :
    ∃ front, (parts.flatMap fun part => part.1 ++ part.2.text) =
        front ++ afterSkip (parts.map Prod.snd) ∧
      (front = [] ∨ window.ProvedBy (afterSkip (parts.map Prod.snd))) := by
  induction parts using reverseRecOn with
  | nil => exact ⟨[], rfl, .inl rfl⟩
  | append_singleton parts part ih =>
    obtain ⟨front, hfront, hproved⟩ := ih fun other hother =>
      hparts other (mem_append_left _ hother)
    obtain ⟨hskipped, hproves⟩ := hparts part (mem_append_right _ mem_cons_self)
    have hafter : afterSkip ((parts ++ [part]).map Prod.snd) =
        (if part.2.skipped.isSome then [] else afterSkip (parts.map Prod.snd)) ++ part.2.text := by
      simp [afterSkip]
    rw [hafter, flatMap_append, hfront, flatMap_singleton]
    by_cases hnil : part.1 = []
    · rw [hnil] at hskipped ⊢
      rw [hskipped]
      exact ⟨front, append_assoc .., hproved.imp_right (·.mono (sublist_append_left _ _))⟩
    rw [hskipped] at hproves ⊢
    refine ⟨front ++ afterSkip (parts.map Prod.snd) ++ part.1, ?_, .inr ?_⟩
    · simp [skipOf, hnil]
    · simpa [skipOf, hnil] using hproves

theorem accounts_of_restores {pushed : Text} {events : List Event}
    (hrestores : Restores window pushed events) : Accounts window pushed events := by
  have hkeep := hrestores
  obtain ⟨parts, rfl, rfl, hparts⟩ := hrestores
  refine ⟨?_, ?_, hkeep, fun tail htail hbytes hlines => ?_⟩
  · rw [length_flatMap, map_map]
    refine congrArg sum (map_congr_left fun part hpart => ?_)
    rw [length_append, ← (skipped_skipOf (hparts part hpart).1).1]
    rfl
  · rw [newlineCount, count_flatMap, map_map]
    refine congrArg sum (map_congr_left fun part hpart => ?_)
    exact (congrArg (· + newlineCount part.2.text) (skipped_skipOf (hparts part hpart).1).2).trans
      count_append.symm
  obtain ⟨front, hfront, hproved⟩ := tail_of_parts parts hparts
  rw [hfront] at htail
  have hafter := suffix_append front (afterSkip (parts.map Prod.snd))
  rcases hproved with rfl | hproves
  · rwa [nil_append] at htail
  refine suffix_of_suffix_length_le htail hafter (le_of_not_ge fun hle => ?_)
  have hsuffix := suffix_of_suffix_length_le hafter htail hle
  rcases hproves.mono hsuffix.sublist with hmore | hmore
  · exact absurd hmore hbytes.not_gt
  · exact absurd hmore hlines.not_gt

theorem Restores.append {front back : Text} {events later : List Event}
    (hfront : Restores window front events) (hback : Restores window back later) :
    Restores window (front ++ back) (events ++ later) := by
  obtain ⟨parts, rfl, rfl, hparts⟩ := hfront
  obtain ⟨others, rfl, rfl, hothers⟩ := hback
  exact ⟨parts ++ others, map_append, flatMap_append,
    fun part hpart => (mem_append.mp hpart).elim (hparts part) (hothers part)⟩

theorem take_restores (hholds : pending.Holds window text) :
    Restores window text pending.take.2 := by
  obtain ⟨rfl, hbytes, hnewlines, omitted, rfl, hskipped, homitted⟩ := hholds
  rw [hbytes, hnewlines] at homitted
  by_cases hnil : omitted = []
  · refine ⟨pending.segments.map fun segment => ([], ⟨segment.1, segment.2, none⟩), ?_, ?_, ?_⟩
    · simp [Pending.take, hskipped, hnil, skipOf, Function.comp_def]
    · rw [hnil, held, flatMap_map]
      rfl
    intro part hpart
    obtain ⟨segment, -, rfl⟩ := mem_map.mp hpart
    exact ⟨rfl, fun hsome => absurd rfl hsome⟩
  refine ⟨pending.take.2.map fun event => (omitted, event),
    by simp [Function.comp_def], ?_, ?_⟩
  · simp [Pending.take, hskipped, hnil, skipOf]
  intro part hpart
  simp only [Pending.take, hskipped, skipOf, if_neg hnil, map_singleton, mem_singleton] at hpart
  subst hpart
  exact ⟨(if_neg hnil).symm, fun _ => homitted hnil⟩

/-- Every run delivers the text pushed up to what is still held. -/
theorem run_holds (hbounded : window.Bounded) (calls : List Call)
    (hholds : pending.Holds window text) :
    ∃ reached events delivered left, pending.run calls = some (reached, events) ∧
      Restores window delivered events ∧ reached.Holds window left ∧
      delivered ++ left = text ++ pushedText calls := by
  induction calls generalizing pending text with
  | nil =>
    exact ⟨pending, [], [], text, rfl, ⟨[], rfl, rfl, nofun⟩, hholds, (append_nil _).symm⟩
  | cons call calls ih =>
    cases call with
    | push stream added =>
      obtain ⟨pushed, hpush, hpushed⟩ := push_holds hbounded stream added hholds
      obtain ⟨reached, events, delivered, left, hrun, hrest⟩ := ih hpushed
      refine ⟨reached, events, delivered, left, ?_, ?_⟩
      · rw [Pending.run, Pending.step, hpush]
        simp [hrun]
      · rwa [append_assoc] at hrest
    | take =>
      have hempty : (pending.take.1).Holds window [] := by
        obtain ⟨rfl, -⟩ := hholds
        exact ⟨rfl, rfl, rfl, [], rfl, rfl, fun hsome => absurd rfl hsome⟩
      obtain ⟨reached, events, delivered, left, hrun, hrestores, hleft, htext⟩ := ih hempty
      refine ⟨reached, pending.take.2 ++ events, text ++ delivered, left, ?_,
        (take_restores hholds).append hrestores, hleft, ?_⟩
      · rw [Pending.run, Pending.step]
        simp [hrun]
      rw [append_assoc, htext]
      rfl

/-- After any calls the counters are those of the text held, trimming what is held with any
more text empties nothing, and with one more `take` the events account for all text pushed. -/
def Window.Faithful (window : Window) : Prop :=
  ∀ calls, ∃ pending events, (Pending.new window).run calls = some (pending, events) ∧
    pending.bytes = (held pending.segments).length ∧
    pending.newlines = newlineCount (held pending.segments) ∧
    (∀ stream text, ∃ trimmed, (pending.add stream text).trim = some trimmed ∧
      trimmed.segments ≠ []) ∧
    Accounts window (pushedText calls) (events ++ pending.take.2)

/-- With a limit that `+ 1` wraps around, one newline is dropped at once. -/
theorem run_wrapped (hwrapped : window.maxBytes + 1 = 0 ∨ window.maxLines + 1 = 0) :
    (Pending.new window).run [.push "stdout" [0x0A]] =
      some (⟨window, [], 0, 0, some ⟨1, 1, true⟩⟩, []) := by
  have hcut : lineCut [0x0A] (window.maxLines + 1).toNat
      (byteCut [0x0A] (window.maxBytes + 1).toNat) = 1 := by
    rcases hwrapped with hzero | hzero
    · rw [hzero, lineCut]
      split
      · simp [newlinePositions, byteCut, floorBoundary, isCharBoundary]
      · rfl
    rw [hzero]
    rfl
  have hover : (4 * (window.maxBytes + 1)).toNat < 1 ∨ (4 * (window.maxLines + 1)).toNat < 1 :=
    hwrapped.imp (fun hzero => by rw [hzero]; decide) (fun hzero => by rw [hzero]; decide)
  have hpush : (Pending.new window).push "stdout" [0x0A] =
      ((Pending.new window).add "stdout" [0x0A]).trim :=
    (if_neg (cons_ne_nil _ _)).trans (if_pos hover)
  have hat : Trim.cut window
      ⟨[("stdout", [0x0A])], 0 + [(0x0A : UInt8)].length, 0 + newlineCount [0x0A], []⟩ [0x0A] =
        some 1 :=
    congrArg some hcut
  have htrim : ((Pending.new window).add "stdout" [0x0A]).trim =
      some ⟨window, [], 0, 0, some ⟨1, 1, true⟩⟩ := by
    rw [Pending.trim]
    simp only [Pending.add, Pending.new, pushText, trimSegments, Option.bind_eq_bind,
      Option.bind_some]
    rw [hat]
    rfl
  rw [Pending.run, Pending.step, hpush, htrim]
  rfl

/-- That drop leaves an event which skips the newline and has no text. -/
theorem not_faithful (hwrapped : window.maxBytes + 1 = 0 ∨ window.maxLines + 1 = 0) :
    ¬window.Faithful := by
  intro hfaithful
  obtain ⟨pending, events, hrun, -, -, -, haccounts⟩ := hfaithful [.push "stdout" [0x0A]]
  rw [run_wrapped hwrapped] at hrun
  cases hrun
  obtain ⟨parts, hevents, -, hparts⟩ := haccounts.restores
  have hmem : (⟨"stdout", [], some ⟨1, 1, true⟩⟩ : Event) ∈ parts.map Prod.snd := by
    rw [hevents]
    exact mem_cons_self
  obtain ⟨part, hpart, heq⟩ := mem_map.mp hmem
  have hproves := (hparts part hpart).2
  rw [heq] at hproves
  rcases hproves (Option.some_ne_none _) with hmore | hmore
  · exact absurd hmore (Nat.not_lt_zero _)
  · exact absurd hmore (Nat.not_lt_zero _)

theorem faithful_of_bounded (hbounded : window.Bounded) : window.Faithful := by
  intro calls
  have hnew : (Pending.new window).Holds window [] :=
    ⟨rfl, rfl, rfl, [], rfl, rfl, fun hsome => absurd rfl hsome⟩
  obtain ⟨reached, events, delivered, left, hrun, hrestores, hleft, htext⟩ :=
    run_holds hbounded calls hnew
  refine ⟨reached, events, hrun, hleft.bytes_eq, hleft.newlines_eq, fun stream text => ?_, ?_⟩
  · obtain ⟨trimmed, htrim, -, hsome⟩ := trim_holds hbounded (add_holds stream text hleft)
      (pushText_ne_nil stream text reached.segments)
    exact ⟨trimmed, htrim, hsome⟩
  rw [← nil_append (pushedText calls), ← htext]
  exact accounts_of_restores (hrestores.append (take_restores hleft))

/-- The window omits only what the caller cannot show unless a limit is the greatest. -/
theorem window_faithful_iff (window : Window) :
    window.Faithful ↔
      window.maxBytes ≠ 0xFFFFFFFFFFFFFFFF ∧ window.maxLines ≠ 0xFFFFFFFFFFFFFFFF := by
  have hwraps : ∀ limit : UInt64, limit = 0xFFFFFFFFFFFFFFFF ∨
      (limit + 1).toNat = limit.toNat + 1 := by
    intro limit
    rw [UInt64.toNat_add, ← UInt64.toNat_inj]
    have hlimit := limit.toNat_lt
    simp only [UInt64.reduceToNat]
    omega
  constructor
  · intro hfaithful
    constructor
    · rintro heq
      exact not_faithful (.inl (by rw [heq]; rfl)) hfaithful
    · rintro heq
      exact not_faithful (.inr (by rw [heq]; rfl)) hfaithful
  · rintro ⟨hbytes, hlines⟩
    exact faithful_of_bounded ⟨(hwraps _).resolve_left hbytes, (hwraps _).resolve_left hlines⟩

/-- A window without a limit of bytes drops the first newline from the tail. -/
theorem not_always_faithful : ¬∀ window : Window, window.Faithful :=
  fun hall => not_faithful (.inl rfl) (hall ⟨0xFFFFFFFFFFFFFFFF, 2000⟩)

end Hummin.OutputWindow
