/-
Reading the phrases of JSON text: a value is placed where it starts, and the fields and
items of a container up to its end are placed with the container.
-/
import Hummin.StreamingJsonText

namespace Hummin.StreamingJson

open List PropertyList

open JsonText JsonRepair

namespace Reading

/-! ### Between values -/

/-- Between values, before the root value has ended. -/
structure Ready (reading : Reading) : Prop where
  done : reading.done = false
  mode : reading.mode = .between

variable {reading : Reading}

theorem Ready.feed (hready : Ready reading) (unit : UInt16) :
    reading.feed unit = reading.structural unit := by
  rw [Reading.feed, if_neg (by rw [hready.done]; decide), hready.mode]

theorem Ready.feed_space (hready : Ready reading) {unit : UInt16}
    (hspace : isSpace unit = true) : reading.feed unit = reading := by
  rw [hready.feed, structural, if_pos hspace]

variable {spaces : JsString}

theorem Ready.feed_spaces (hready : Ready reading)
    (hspaces : ∀ unit ∈ spaces, isSpace unit = true) :
    spaces.foldl Reading.feed reading = reading := by
  induction spaces with
  | nil => rfl
  | cons unit rest ih =>
    rw [foldl_cons, hready.feed_space (hspaces unit mem_cons_self)]
    exact ih fun other hother => hspaces other (mem_cons_of_mem unit hother)

def isScalar : JsonValue → Bool
  | .null | .bool _ | .num _ => true
  | .str _ | .arr _ _ | .obj _ _ => false

/-- A value has ended: a scalar ends with the delimiter after it. -/
def Ends (value : JsonValue) (reached settled : Reading) : Prop :=
  reached = settled ∨ (isScalar value = true ∧ reached.done = false ∧
    ∃ token slot, reached.mode = .scalar token slot ∧ reached.endScalar = settled)

variable {text body after middle rest key : JsString} {value : JsonValue}

theorem Ends.feed {reached settled : Reading} (hends : Ends value reached settled)
    {unit : UInt16} (hunit : isDelimiter unit = true) : reached.feed unit = settled.feed unit := by
  rcases hends with rfl | ⟨-, hdone, token, slot, hmode, rfl⟩
  · rfl
  · exact feed_endScalar hdone hmode (mode_endScalar hmode) hunit

variable {unit : UInt16}

theorem isDelimiter_of_isSpace (hspace : isSpace unit = true) : isDelimiter unit = true := by
  rw [isDelimiter, hspace]
  rfl

/-- Space and a delimiter after a value. -/
theorem Ends.feed_spaces {reached settled : Reading}
    (hends : Ends value reached settled) (hready : Ready settled)
    (hspaces : ∀ unit ∈ spaces, isSpace unit = true) {unit : UInt16}
    (hunit : isDelimiter unit = true) :
    (spaces ++ [unit]).foldl Reading.feed reached = settled.structural unit := by
  cases spaces with
  | nil =>
    rw [nil_append, foldl_cons, foldl_nil, hends.feed hunit, hready.feed]
  | cons space spaces =>
    have hspace := hspaces space mem_cons_self
    rw [cons_append, foldl_cons, hends.feed (isDelimiter_of_isSpace hspace),
      hready.feed_space hspace, foldl_append, hready.feed_spaces fun other hother =>
        hspaces other (mem_cons_of_mem space hother), foldl_cons, foldl_nil,
      hready.feed]

theorem Ready.feed_unit (hready : Ready reading)
    (hspaces : ∀ unit ∈ spaces, isSpace unit = true) (unit : UInt16) :
    (spaces ++ [unit]).foldl Reading.feed reading = reading.structural unit := by
  rw [foldl_append, hready.feed_spaces hspaces, foldl_cons, foldl_nil, hready.feed]

/-! ### Phrases -/

/-- The container of a level has ended: it is placed in the levels below. -/
def closedWith (slot : Option Slot) (container : Container) (below : List Level)
    (reading : Reading) : Reading :=
  valueEnded (assign slot container.toJson { reading with levels := below })

/-- The fields as they are put into an object. -/
def putFields (entries fields : List (JsString × JsonValue)) : List (JsString × JsonValue) :=
  entries.foldl (fun fields entry => PropertyList.put keyPrecedes entry.1 entry.2 fields) fields

/-- What reading the units of a phrase does. -/
def ReadsPhrase (units : JsString) : Phrase → Prop
  | .value value => ∀ reading slot, Ready reading → reading.valueSlot = some slot →
      Ends value (units.foldl Reading.feed reading)
        (reading.assign (some slot) value).valueEnded
  | .items items => ∀ reading level below before, Ready reading →
      reading.levels = level :: below → level.container = .array before →
      units.foldl Reading.feed reading =
        closedWith level.slot (.array (before ++ items)) below reading
  | .fields entries => ∀ reading level below before, Ready reading →
      reading.levels = level :: below → level.container = .object before →
      level.phase = .key →
      units.foldl Reading.feed reading =
        closedWith level.slot (.object (putFields entries before)) below reading

/-- The text before repair has units that are read as the phrase. -/
def Reads (text : JsString) (phrase : Phrase) (rest : JsString) : Prop :=
  ∃ units after, text = units ++ after ∧ repair false 0 after = rest ∧
    ReadsPhrase units phrase

/-! ### Values -/

theorem takesKey_of_valueSlot {slot : Slot} (hslot : reading.valueSlot = some slot) :
    reading.takesKey = false := by
  rw [valueSlot] at hslot
  rw [takesKey]
  split at hslot
  · rfl
  rename_i level below hlevels
  split at hslot
  next items hitems =>
    rw [hitems]
    rfl
  rename_i fields hfields
  split at hslot
  next hphase =>
    rcases hphase with hphase | hphase <;> simp [hphase]
  · cases hslot

theorem exists_unit (hspace : skipSpace (repair false 0 text) = unit :: body) :
    ∃ spaces after, text = spaces ++ unit :: after ∧
      (∀ space ∈ spaces, isSpace space = true) ∧ repair (unit == 34) 0 after = body := by
  obtain ⟨spaces, hsplit, hspaces⟩ := skipSpace_split (repair false 0 text)
  rw [hspace] at hsplit
  obtain ⟨after, rfl, hafter⟩ := exists_of_repair (quote_notMem_of_spaces hspaces) hsplit
  cases after with
  | nil =>
    rw [repair] at hafter
    cases hafter
  | cons first after =>
    rw [repair] at hafter
    obtain ⟨rfl, hbody⟩ := cons.inj hafter
    exact ⟨spaces, after, rfl, hspaces, hbody⟩

theorem reads_str {string rest : JsString}
    (hspace : skipSpace (repair false 0 text) = quoteUnit :: body)
    (hbody : JsonQuote.readBody body = some (string, rest)) :
    Reads text (.value (.str string)) rest := by
  obtain ⟨spaces, after, rfl, hspaces, hrepair⟩ := exists_unit hspace
  have hinside : repair true 0 after = body := hrepair
  rw [← hinside] at hbody
  obtain ⟨raw, after, rfl, hafter, hreads⟩ := exists_readsString hbody
  refine ⟨spaces ++ quoteUnit :: (raw ++ [34]), after, by simp [quoteUnit], hafter, ?_⟩
  intro reading slot hready hslot
  have hstart : reading.structural quoteUnit = { reading.assign (some slot) (.str []) with
      mode := .string .value (some slot) [] [] } := by
    rw [structural, if_neg (by decide), if_pos (by rfl), startString,
      takesKey_of_valueSlot hslot, hslot]
    rfl
  have htext : InText { reading.assign (some slot) (.str []) with
      mode := .string .value (some slot) [] [] } :=
    ⟨(done_assign _ _ reading).trans hready.done, _, _, _, rfl⟩
  have hmode : { reading with mode := Mode.between } = reading := by
    rw [← hready.mode]
  left
  have hsplit : spaces ++ quoteUnit :: (raw ++ [34]) =
      (spaces ++ [quoteUnit]) ++ (raw ++ [34]) := by simp
  rw [hsplit, foldl_append, hready.feed_unit hspaces, hstart, hreads _ htext, appendRun]
  split
  next hempty =>
    rw [isEmpty_iff.mp hempty, endString]
    dsimp only
    rw [← assign_mode, hmode]
  rw [appendText]
  dsimp only
  rw [assign_mode, assign_assign, endString, nil_append]
  dsimp only
  rw [← assign_mode, hmode]

theorem isDelimiter_of_isScalarUnit (hunit : isScalarUnit unit = true) :
    isDelimiter unit = false := by
  by_contra hdelimiter
  rw [Bool.not_eq_false] at hdelimiter
  have hcases : unit = 32 ∨ unit = 9 ∨ unit = 10 ∨ unit = 13 ∨ unit = 44 ∨ unit = 58 ∨
      unit = 123 ∨ unit = 125 ∨ unit = 91 ∨ unit = 93 ∨ unit = 34 := by
    simpa [isDelimiter, isSpace, commaUnit, colonUnit, openBrace, closeBrace, openBracket,
      closeBracket, quote, or_assoc] using hdelimiter
  revert hunit
  rcases hcases with rfl | rfl | rfl | rfl | rfl | rfl | rfl | rfl | rfl | rfl | rfl <;> decide

theorem structural_scalar (hunit : isDelimiter unit = false)
    (reading : Reading) :
    reading.structural unit = { reading with mode := .scalar [unit] reading.valueSlot } := by
  simp only [isDelimiter, Bool.or_eq_false_iff, beq_eq_false_iff_ne] at hunit
  obtain ⟨⟨⟨⟨⟨⟨⟨hspace, hcomma⟩, hcolon⟩, hopen⟩, hclose⟩, hbracket⟩, hbracket'⟩, hquote⟩ := hunit
  rw [structural, if_neg (by rw [hspace]; decide), if_neg hquote, if_neg hopen, if_neg hbracket,
    if_neg (not_or.mpr ⟨hclose, hbracket'⟩), if_neg hcolon, if_neg hcomma]

theorem scalarValue_token (hread : JsonText.readScalar text = some (value, rest)) :
    ∃ token, text = token ++ rest ∧ token ≠ [] ∧
      (∀ unit ∈ token, isScalarUnit unit = true) ∧ scalarValue token = some value ∧
      isScalar value = true := by
  obtain ⟨token, htext, hne, hunits, hcases⟩ := readScalar_token hread
  refine ⟨token, htext, hne, hunits, ?_⟩
  rcases hcases with ⟨rfl, rfl⟩ | ⟨rfl, rfl⟩ | ⟨rfl, rfl⟩ | ⟨number, rfl, hnumber, hstart⟩
  · exact ⟨rfl, rfl⟩
  · exact ⟨rfl, rfl⟩
  · exact ⟨rfl, rfl⟩
  obtain ⟨unit, hhead, hdigit⟩ := hstart
  -- A number starts with a digit or a sign, a keyword with a letter.
  have hkeyword : ∀ keyword : JsString, keyword.head?.any (fun unit =>
      isDigitUnit unit || unit == minusUnit) = false → token ≠ keyword := by
    rintro keyword hletter rfl
    rw [hhead] at hletter
    rcases hdigit with hdigit | hminus
    · simp [hdigit] at hletter
    · simp [hminus] at hletter
  rw [scalarValue, if_neg (hkeyword trueText rfl), if_neg (hkeyword falseText rfl),
    if_neg (hkeyword nullText rfl), numberOf, hnumber]
  exact ⟨rfl, rfl⟩

theorem reads_scalar {value : JsonValue} (hspace : skipSpace (repair false 0 text) = unit :: body)
    (hread : JsonText.readScalar (unit :: body) = some (value, rest)) :
    Reads text (.value value) rest := by
  obtain ⟨spaces, hsplit, hspaces⟩ := skipSpace_split (repair false 0 text)
  obtain ⟨token, htoken, hne, hunits, hvalue, hscalar⟩ := scalarValue_token hread
  rw [hspace, htoken, ← append_assoc] at hsplit
  have hquote : (34 : UInt16) ∉ spaces ++ token := by
    rw [mem_append, not_or]
    exact ⟨quote_notMem_of_spaces hspaces, quote_notMem_of_token hunits⟩
  obtain ⟨after, rfl, hafter⟩ := exists_of_repair hquote hsplit
  refine ⟨spaces ++ token, after, rfl, hafter, ?_⟩
  intro reading slot hready hslot
  obtain ⟨first, more, rfl⟩ := exists_cons_of_ne_nil hne
  have hplain : ∀ other ∈ first :: more, isDelimiter other = false :=
    fun other hother => isDelimiter_of_isScalarUnit (hunits other hother)
  have hfirst := structural_scalar (hplain first mem_cons_self) reading
  have hall := @feed_scalar { reading with mode := .scalar [first] reading.valueSlot } [first]
    reading.valueSlot hready.done rfl more
    fun other hother => hplain other (mem_cons_of_mem first hother)
  have hmode : { reading with mode := Mode.between } = reading := by
    rw [← hready.mode]
  right
  rw [foldl_append, hready.feed_spaces hspaces, foldl_cons, hready.feed, hfirst, hall]
  refine ⟨hscalar, hready.done, _, _, rfl, ?_⟩
  rw [endScalar]
  dsimp only
  rw [singleton_append, hvalue]
  rw [hmode, hslot]

/-! ### Containers -/

/-- An opened container, its level on top of where its empty value is placed. -/
def openedWith (container : Container) (slot : Slot) (reading : Reading) : Reading :=
  { reading.assign (some slot) container.toJson with
    levels := ⟨container, some slot, none, if container.isArray then .value else .key⟩ ::
      (reading.assign (some slot) container.toJson).levels }

theorem openContainer_eq {slot : Slot} (hslot : reading.valueSlot = some slot)
    (container : Container) : reading.openContainer container = openedWith container slot reading := by
  rw [openContainer, hslot]
  rfl

theorem Ready.openedWith (hready : Ready reading) (container : Container) (slot : Slot) :
    Ready (openedWith container slot reading) :=
  ⟨(done_assign _ _ reading).trans hready.done, (mode_assign _ _ reading).trans hready.mode⟩

/-- A container that closes is placed over the empty one. -/
theorem closedWith_openedWith (container closed : Container) (slot : Slot) (reading : Reading) :
    closedWith (some slot) closed (reading.assign (some slot) container.toJson).levels
        (openedWith container slot reading) =
      (reading.assign (some slot) closed.toJson).valueEnded := by
  rw [← assign_assign (some slot) container.toJson closed.toJson reading]
  rfl

/-- The values of containers, empty or with the phrase inside. -/
theorem reads_empty {text body rest : JsString} {start close : UInt16} {container : Container}
    (hstart : ∀ reading : Reading, reading.structural start = reading.openContainer container)
    (hclose : ∀ reading : Reading, reading.structural close = reading.closeContainer)
    (hne : start ≠ 34) (hne' : close ≠ 34)
    (hspace : skipSpace (repair false 0 text) = start :: body)
    (hrest : skipSpace body = close :: rest) : Reads text (.value container.toJson) rest := by
  obtain ⟨spaces, after, rfl, hspaces, hbody⟩ := exists_unit hspace
  have hinner : repair false 0 after = body := by
    rw [← hbody]
    congr 1
    simpa using hne
  rw [← hinner] at hrest
  obtain ⟨spaces', after', rfl, hspaces', hafter⟩ := exists_unit hrest
  refine ⟨spaces ++ start :: (spaces' ++ [close]), after', by simp, ?_, ?_⟩
  · rw [← hafter]
    congr 1
    simpa using hne'
  intro reading slot hready hslot
  left
  have hsplit : spaces ++ start :: (spaces' ++ [close]) =
      (spaces ++ [start]) ++ (spaces' ++ [close]) := by simp
  rw [hsplit, foldl_append, hready.feed_unit hspaces, hstart, openContainer_eq hslot,
    (hready.openedWith container slot).feed_unit hspaces', hclose]
  exact closedWith_openedWith container container slot reading

/-- A container with the phrase of its fields or items. -/
theorem reads_filled {text body rest : JsString} {start : UInt16}
    {container closed : Container} {inside : Phrase} (hstart : ∀ reading : Reading,
      reading.structural start = reading.openContainer container)
    (hne : start ≠ 34) (hspace : skipSpace (repair false 0 text) = start :: body)
    (hinside : ∀ text, repair false 0 text = body → Reads text inside rest)
    (hclosed : ∀ units reading slot, ReadsPhrase units inside → Ready reading →
      units.foldl Reading.feed (openedWith container slot reading) =
        closedWith (some slot) closed (reading.assign (some slot) container.toJson).levels
          (openedWith container slot reading)) : Reads text (.value closed.toJson) rest := by
  obtain ⟨spaces, after, rfl, hspaces, hbody⟩ := exists_unit hspace
  have hinner : repair false 0 after = body := by
    rw [← hbody]
    congr 1
    simpa using hne
  obtain ⟨units, after', rfl, hafter, hunits⟩ := hinside after hinner
  refine ⟨spaces ++ start :: units, after', by simp, hafter, ?_⟩
  intro reading slot hready hslot
  left
  have hsplit : spaces ++ start :: units = (spaces ++ [start]) ++ units := by simp
  rw [hsplit, foldl_append, hready.feed_unit hspaces, hstart, openContainer_eq hslot,
    hclosed units reading slot hunits hready]
  exact closedWith_openedWith container closed slot reading

/-! ### Items -/

/-- A reading whose innermost container has changed. -/
theorem Ready.levels (hready : Ready reading) (levels : List Level) :
    Ready { reading with levels } :=
  ⟨hready.done, hready.mode⟩

variable {below : List Level}

variable {before : List JsonValue}

/-- An item goes to the end of its array. -/
theorem item_ended {level : Level}
    (hlevels : reading.levels = level :: below) (hcontainer : level.container = .array before)
    (item : JsonValue) :
    (reading.assign (some (.element before.length)) item).valueEnded = { reading with
      levels := { level with container := .array (before ++ [item]), phase := .comma } ::
        below } := by
  simp [assign, valueEnded, hlevels, hcontainer, setSlot]

theorem valueSlot_of_array {level : Level} (hlevels : reading.levels = level :: below)
    (hcontainer : level.container = .array before) :
    reading.valueSlot = some (.element before.length) := by
  rw [valueSlot, hlevels]
  dsimp only
  rw [hcontainer]

/-- The text of an item and of the delimiter after it. -/
theorem reads_delimited (hvalue : Reads text (.value value) middle)
    (hunit : isDelimiter unit = true) (hne : unit ≠ 34) (hspace : skipSpace middle = unit :: rest) :
    ∃ units after, text = units ++ after ∧ repair false 0 after = rest ∧
      ∀ reading slot, Ready reading → reading.valueSlot = some slot →
        Ready (reading.assign (some slot) value).valueEnded →
        units.foldl Reading.feed reading =
          (reading.assign (some slot) value).valueEnded.structural unit := by
  obtain ⟨units, after, rfl, rfl, hunits⟩ := hvalue
  obtain ⟨spaces, after', rfl, hspaces, hafter⟩ := exists_unit hspace
  refine ⟨units ++ (spaces ++ [unit]), after', by simp, ?_, ?_⟩
  · rw [← hafter]
    congr 1
    simpa using hne
  intro reading slot hready hslot hended
  rw [foldl_append]
  exact (hunits reading slot hready hslot).feed_spaces hended hspaces hunit

variable {item : JsonValue}

theorem reads_lastItem (hitem : Reads text (.value item) middle)
    (hclose : skipSpace middle = closeBracket :: rest) : Reads text (.items [item]) rest := by
  obtain ⟨units, after, rfl, hafter, hunits⟩ :=
    reads_delimited hitem (by decide) (by decide) hclose
  refine ⟨units, after, rfl, hafter, ?_⟩
  intro reading level below before hready hlevels hcontainer
  have hended := item_ended hlevels hcontainer item
  rw [hunits reading _ hready (valueSlot_of_array hlevels hcontainer)
    (by rw [hended]; exact hready.levels _), hended]
  rfl

theorem reads_moreItems {others rest : JsString}
    {items : List JsonValue} (hitem : Reads text (.value item) middle)
    (hcomma : skipSpace middle = commaUnit :: others)
    (hitems : ∀ text, repair false 0 text = others → Reads text (.items items) rest) :
    Reads text (.items (item :: items)) rest := by
  obtain ⟨units, after, rfl, hafter, hunits⟩ :=
    reads_delimited hitem (by decide) (by decide) hcomma
  obtain ⟨more, after', rfl, hafter', hmore⟩ := hitems after hafter
  refine ⟨units ++ more, after', by simp, hafter', ?_⟩
  intro reading level below before hready hlevels hcontainer
  have hended := item_ended hlevels hcontainer item
  have hphase : Reading.structural commaUnit { reading with
      levels := { level with container := .array (before ++ [item]), phase := .comma } ::
        below } = { reading with
      levels := { level with container := .array (before ++ [item]), phase := .value } ::
        below } := rfl
  rw [foldl_append, hunits reading _ hready (valueSlot_of_array hlevels hcontainer)
    (by rw [hended]; exact hready.levels _), hended, hphase,
    hmore _ _ below (before ++ [item]) (hready.levels _) rfl rfl, append_assoc]
  rfl

/-! ### Fields -/

theorem field_ended {level : Level} {below : List Level}
    {before : List (JsString × JsonValue)} (hlevels : reading.levels = level :: below)
    (hcontainer : level.container = .object before) (key : JsString) (value : JsonValue) :
    (reading.assign (some (.member key)) value).valueEnded = { reading with
      levels := { level with
        container := .object (put keyPrecedes key value before)
        phase := .comma } :: below } := by
  simp [assign, valueEnded, hlevels, hcontainer, setSlot]

/-- A key and its colon. -/
theorem reads_key {rest : JsString}
    (hkey : parseKey (repair false 0 text) = some (key, rest)) :
    ∃ units after, text = units ++ after ∧ repair false 0 after = rest ∧
      ∀ reading level below before, Ready reading → reading.levels = level :: below →
        level.container = .object before → level.phase = .key →
        units.foldl Reading.feed reading = { reading with
          levels := { level with key := some key, phase := .value } :: below } := by
  obtain ⟨body, middle, hspace, hbody, hcolon⟩ := parseKey_eq_some hkey
  obtain ⟨spaces, after, rfl, hspaces, hrepair⟩ := exists_unit hspace
  have hinside : repair true 0 after = body := hrepair
  rw [← hinside] at hbody
  obtain ⟨raw, after, rfl, rfl, hreads⟩ := exists_readsString hbody
  obtain ⟨spaces', after', rfl, hspaces', hafter⟩ := exists_unit hcolon
  refine ⟨spaces ++ quoteUnit :: (raw ++ 34 :: (spaces' ++ [colonUnit])), after',
    by simp [quoteUnit], hafter, ?_⟩
  intro reading level below before hready hlevels hcontainer hphase
  have htakes : reading.takesKey = true := by
    simp [takesKey, hlevels, hcontainer, hphase, Container.isArray]
  have hstart : reading.structural quoteUnit =
      { reading with mode := .string .key none [] [] } := by
    rw [structural, if_neg (by decide), if_pos (by rfl), startString, if_pos htakes]
  have htext : InText { reading with mode := .string .key none [] [] } :=
    ⟨hready.done, _, _, _, rfl⟩
  have happended : appendRun key { reading with mode := .string .key none [] [] } =
      { reading with mode := .string .key none key [] } := by
    rw [appendRun]
    split
    next hempty =>
      rw [isEmpty_iff.mp hempty]
    · rfl
  have hended : Reading.endString { reading with mode := .string .key none key [] } =
      { reading with
        levels := { level with key := some key, phase := .colon } :: below } := by
    rw [endString, hlevels, hready.mode]
  have hsplit : spaces ++ quoteUnit :: (raw ++ 34 :: (spaces' ++ [colonUnit])) =
      (spaces ++ [quoteUnit]) ++ ((raw ++ [34]) ++ (spaces' ++ [colonUnit])) := by simp
  rw [hsplit, foldl_append, hready.feed_unit hspaces, hstart, foldl_append,
    hreads _ htext, happended, hended, (hready.levels _).feed_unit hspaces']
  have hobject : (Container.object before).isArray = false := rfl
  simp only [structural, setPhase, hcontainer, hobject]
  rfl

/-- A key, its value and the delimiter after it. -/
theorem reads_field (hkey : parseKey (repair false 0 text) = some (key, after))
    (hvalue : ∀ text, repair false 0 text = after → Reads text (.value value) middle)
    (hunit : isDelimiter unit = true) (hne : unit ≠ 34)
    (hspace : skipSpace middle = unit :: rest) :
    ∃ units others, text = units ++ others ∧ repair false 0 others = rest ∧
      ∀ reading level below before, Ready reading → reading.levels = level :: below →
        level.container = .object before → level.phase = .key →
        units.foldl Reading.feed reading = Reading.structural unit { reading with
          levels := { level with
            container := .object (put keyPrecedes key value before)
            key := some key
            phase := .comma } :: below } := by
  obtain ⟨keyUnits, afterKey, rfl, hafter, hkeyed⟩ := reads_key hkey
  obtain ⟨units, others, rfl, hothers, hunits⟩ :=
    reads_delimited (hvalue afterKey hafter) hunit hne hspace
  refine ⟨keyUnits ++ units, others, by simp, hothers, ?_⟩
  intro reading level below before hready hlevels hcontainer hphase
  have hready' := hready.levels ({ level with key := some key, phase := .value } :: below)
  have hended := @field_ended { reading with
    levels := { level with key := some key, phase := .value } :: below } _ below before rfl
    hcontainer key value
  have hslot : Reading.valueSlot { reading with
      levels := { level with key := some key, phase := .value } :: below } =
        some (.member key) := by
    rw [valueSlot]
    rw [hcontainer]
    rfl
  rw [foldl_append, hkeyed reading level below before hready hlevels hcontainer hphase,
    hunits _ _ hready' hslot (by rw [hended]; exact hready'.levels _), hended]

theorem reads_lastField (hkey : parseKey (repair false 0 text) = some (key, after))
    (hvalue : ∀ text, repair false 0 text = after → Reads text (.value value) middle)
    (hclose : skipSpace middle = closeBrace :: rest) :
    Reads text (.fields [(key, value)]) rest := by
  obtain ⟨units, others, rfl, hothers, hunits⟩ :=
    reads_field hkey hvalue (by decide) (by decide) hclose
  refine ⟨units, others, rfl, hothers, ?_⟩
  intro reading level below before hready hlevels hcontainer hphase
  rw [hunits reading level below before hready hlevels hcontainer hphase]
  rfl

theorem reads_moreFields {others rest key : JsString} {value : JsonValue}
    {fields : List (JsString × JsonValue)}
    (hkey : parseKey (repair false 0 text) = some (key, after))
    (hvalue : ∀ text, repair false 0 text = after → Reads text (.value value) middle)
    (hcomma : skipSpace middle = commaUnit :: others)
    (hfields : ∀ text, repair false 0 text = others → Reads text (.fields fields) rest) :
    Reads text (.fields ((key, value) :: fields)) rest := by
  obtain ⟨units, afterField, rfl, hafter, hunits⟩ :=
    reads_field hkey hvalue (by decide) (by decide) hcomma
  obtain ⟨more, after', rfl, hafter', hmore⟩ := hfields afterField hafter
  refine ⟨units ++ more, after', by simp, hafter', ?_⟩
  intro reading level below before hready hlevels hcontainer hphase
  have hcomma : Reading.structural commaUnit { reading with
      levels := { level with
        container := .object (put keyPrecedes key value before)
        key := some key
        phase := .comma } :: below } = { reading with
      levels := { level with
        container := .object (put keyPrecedes key value before)
        key := some key
        phase := .key } :: below } := rfl
  rw [foldl_append, hunits reading level below before hready hlevels hcontainer hphase,
    hcomma, hmore _ _ below _ (hready.levels _) rfl rfl rfl]
  rfl

/-! ### Derivations -/

/-- The text of a phrase is read as the phrase, also before it is repaired. -/
theorem reads_of_derives {repaired rest : JsString} {phrase : Phrase}
    (hderives : Derives repaired phrase rest) :
    ∀ text, repair false 0 text = repaired → Reads text phrase rest := by
  induction hderives with
  | str hspace hbody =>
    rintro text rfl
    exact reads_str hspace hbody
  | emptyArr hspace hclose =>
    rintro text rfl
    exact @reads_empty _ _ _ _ _ (.array []) (fun _ => rfl) (fun _ => rfl) (by decide)
      (by decide) hspace hclose
  | arr hspace _ _ ih =>
    rintro text rfl
    apply @reads_filled _ _ _ _ (.array []) (.array _) _ (fun _ => rfl) (by decide) hspace ih
    intro units reading slot hunits hready
    exact hunits _ _ _ [] (hready.openedWith _ slot) rfl rfl
  | emptyObj hspace hclose =>
    rintro text rfl
    exact @reads_empty _ _ _ _ _ (.object []) (fun _ => rfl) (fun _ => rfl) (by decide)
      (by decide) hspace hclose
  | obj hspace _ _ ih =>
    rintro text rfl
    apply @reads_filled _ _ _ _ (.object []) (.object _) _ (fun _ => rfl) (by decide) hspace
      ih
    intro units reading slot hunits hready
    exact hunits _ _ _ [] (hready.openedWith _ slot) rfl rfl rfl
  | scalar hspace _ _ _ hread =>
    rintro text rfl
    exact reads_scalar hspace hread
  | lastItem _ hclose ih =>
    rintro text rfl
    exact reads_lastItem (ih text rfl) hclose
  | moreItems _ hcomma _ ihItem ihItems =>
    rintro text rfl
    exact reads_moreItems (ihItem text rfl) hcomma ihItems
  | lastField hkey _ hclose ih =>
    rintro text rfl
    exact reads_lastField hkey ih hclose
  | moreFields hkey _ hcomma _ ihValue ihFields =>
    rintro text rfl
    exact reads_moreFields hkey ihValue hcomma ihFields

variable {fields : List (JsString × JsonValue)}

/-- Text whose repair is an object ends the reading with the object as its root. -/
theorem feed_object (hparse : parse (repairJson text) = some (.obj () fields)) :
    text.foldl Reading.feed start = ⟨some (.obj () fields), true, [], .between⟩ := by
  obtain ⟨rest, hderives, -⟩ := (parse_eq_some_iff _ _).mp hparse
  obtain ⟨units, after, rfl, -, hunits⟩ := reads_of_derives hderives text rfl
  have hended := hunits start .root ⟨rfl, rfl⟩ rfl
  rcases hended with hreached | ⟨hscalar, -⟩
  · rw [foldl_append, hreached]
    exact foldl_feed_done rfl after
  · cases hscalar

end Reading

end Hummin.StreamingJson
