/-
The system state of a transcript: every system message is a change of the prompt,
its sections and its tools, and replaying them in order gives the current ones.
Replaying a replay changes nothing.
-/
import Hummin.JsonParsed
import Hummin.SessionEntry

namespace Hummin.Session

open List Option PropertyList JsMap

/-- The blocks' texts, joined. -/
def contentText : Content → JsString → JsString
  | .text text, _ => text
  | .blocks blocks, separator =>
    separator.intercalate (blocks.filterMap fun block =>
      match block with
      | .text text => some text
      | _ => none)

def lineSeparator : JsString := js ['\n']
def paragraphSeparator : JsString := js ['\n', '\n']

def systemMessages (messages : List AgentMessage) : List SystemMessage :=
  messages.filterMap fun message =>
    match message with
    | .system message => some message
    | _ => none

/-- The tools by name after a message's changes. -/
def applyTools (tools : List (JsString × Tool)) (message : SystemMessage) :
    List (JsString × Tool) :=
  let kept := (message.toolsRemoved.getD []).foldl
    (fun tools name => PropertyList.erase name tools) tools
  (message.toolsAdded.getD []).foldl (fun tools tool => JsMap.set tool.name tool tools) kept

def currentToolMap (messages : List SystemMessage) : List (JsString × Tool) :=
  messages.foldl applyTools []

def getCurrentTools (messages : List AgentMessage) : List Tool :=
  (currentToolMap (systemMessages messages)).map Prod.snd

/-- The sections by name after a message's changes. -/
def applySections (sections : List (JsString × JsString)) (message : SystemMessage) :
    List (JsString × JsString) :=
  (message.sections.getD []).foldl (fun sections change =>
    match change.2 with
    | none => PropertyList.erase change.1 sections
    | some text => JsMap.set change.1 text sections) sections

/-- The text of a message; missing content was replaced by none. -/
def systemText (message : SystemMessage) : JsString :=
  contentText (message.content.getD (.text [])) lineSeparator

/-- `Object.fromEntries` of the sections: names in own-property order. -/
def sectionsObject (sections : List (JsString × JsString)) :
    List (JsString × Option JsString) :=
  sections.foldl (fun fields change =>
    PropertyList.put keyPrecedes change.1 (some change.2) fields) []

def currentText (messages : List SystemMessage) : JsString :=
  paragraphSeparator.intercalate
    ((messages.map systemText).filter fun text => !text.isEmpty)

def currentSections (messages : List SystemMessage) : List (JsString × JsString) :=
  messages.foldl applySections []

/-- One message that holds the current prompt and tools. -/
def replayedSystem (messages : List SystemMessage) : SystemMessage :=
  let sections := currentSections messages
  let tools := (currentToolMap messages).map Prod.snd
  { content := some (.text (currentText messages))
    sections := if sections.isEmpty then none else some (sectionsObject sections)
    toolsAdded := if tools.isEmpty then none else some tools
    toolsRemoved := none
    timestamp := (messages.head?.map SystemMessage.timestamp).getD 0 }

/-- Replay system messages into one, when there are any. -/
def replaySystem (messages : List SystemMessage) : Option SystemMessage :=
  if messages.isEmpty ∧ ((currentToolMap messages).map Prod.snd).isEmpty then none
  else some (replayedSystem messages)

def getCurrentSystemMessage (messages : List AgentMessage) : Option SystemMessage :=
  replaySystem (systemMessages messages)

/-! ### Maps keyed by name -/

/-- A map from names to tools of these names. -/
structure ToolMap (tools : List (JsString × Tool)) : Prop where
  distinct : (PropertyList.keys tools).Nodup
  named : ∀ pair ∈ tools, pair.1 = pair.2.name

variable {tools : List (JsString × Tool)}

theorem ToolMap.set (htools : ToolMap tools)
    (tool : Tool) : ToolMap (JsMap.set tool.name tool tools) where
  distinct := keys_set_nodup tool.name tool htools.distinct
  named := by
    intro pair hpair
    rcases JsMap.mem_set htools.distinct hpair with rfl | hpair
    · rfl
    · exact htools.named pair hpair

theorem ToolMap.erase (htools : ToolMap tools) (name : JsString) : ToolMap (erase name tools) where
  distinct := keys_erase_nodup name htools.distinct
  named pair hpair := htools.named pair (mem_of_mem_filter hpair)

theorem toolMap_applyTools (htools : ToolMap tools)
    (message : SystemMessage) : ToolMap (applyTools tools message) := by
  have hkept : ∀ (names : List JsString) (tools : List (JsString × Tool)),
      ToolMap tools →
        ToolMap (names.foldl (fun tools name => erase name tools) tools) := by
    intro names
    induction names with
    | nil => exact fun _ htools => htools
    | cons name rest ih => exact fun tools htools => ih _ (htools.erase name)
  have hadded : ∀ (added : List Tool) (tools : List (JsString × Tool)),
      ToolMap tools →
        ToolMap (added.foldl (fun tools tool => JsMap.set tool.name tool tools) tools) := by
    intro added
    induction added with
    | nil => exact fun _ htools => htools
    | cons tool rest ih => exact fun tools htools => ih _ (htools.set tool)
  exact hadded _ _ (hkept _ _ htools)

variable (messages : List SystemMessage)

theorem toolMap_currentToolMap : ToolMap (currentToolMap messages) := by
  have hfold : ∀ (messages : List SystemMessage) (tools : List (JsString × Tool)),
      ToolMap tools → ToolMap (messages.foldl applyTools tools) := by
    intro messages
    induction messages with
    | nil => exact fun _ htools => htools
    | cons message rest ih =>
      exact fun tools htools => ih _ (toolMap_applyTools htools message)
  exact hfold messages [] ⟨nodup_nil, by simp⟩

/-- Declaring the tools of a map again gives the map. -/
theorem ToolMap.replay (htools : ToolMap tools) :
    (tools.map Prod.snd).foldl (fun tools tool => JsMap.set tool.name tool tools) [] =
      tools := by
  have hpairs : tools.map (fun pair => (pair.2.name, pair.2)) = tools := by
    conv_rhs => rw [← map_id tools]
    apply map_congr_left
    intro pair hpair
    exact Prod.ext (htools.named pair hpair).symm rfl
  have hfold : (tools.map Prod.snd).foldl
      (fun tools tool => JsMap.set tool.name tool tools) [] =
        JsMap.ofPairs (tools.map fun pair => (pair.2.name, pair.2)) := by
    rw [JsMap.ofPairs, foldl_map, foldl_map]
  rw [hfold, hpairs, ofPairs_of_nodup htools.distinct]

/-! ### Sections -/

/-- A section's value as JSON. -/
def sectionJson : Option JsString → JsonValue
  | none => .null
  | some text => .str text

theorem sectionJson_injective : Function.Injective sectionJson := by
  intro first second heq
  cases first <;> cases second <;> simp_all [sectionJson]

theorem mapValues_injective {K V W : Type} {f : V → W} (hf : Function.Injective f) :
    Function.Injective (mapValues f : List (K × V) → List (K × W)) := by
  apply Function.Injective.list_map
  rintro ⟨key, value⟩ ⟨key', value'⟩ heq
  obtain ⟨hkey, hvalue⟩ := Prod.mk.inj heq
  exact Prod.ext hkey (hf hvalue)

variable (sections : List (JsString × JsString))

/-- Read as JSON, the sections are the fields of an object. -/
theorem mapValues_sectionsObject :
    mapValues sectionJson (sectionsObject sections) =
      JsonText.fromEntries (mapValues .str sections) := by
  have hfold : ∀ (sections : List (JsString × JsString))
      (fields : List (JsString × Option JsString)),
      mapValues sectionJson (sections.foldl (fun fields change =>
        put keyPrecedes change.1 (some change.2) fields) fields) =
      (mapValues JsonTree.str sections).foldl (fun fields entry =>
        put keyPrecedes entry.1 entry.2 fields)
          (mapValues sectionJson fields) := by
    intro sections
    induction sections with
    | nil => intro fields; rfl
    | cons change rest ih =>
      intro fields
      rw [foldl_cons, ih, mapValues_put]
      rfl
  exact hfold sections []

theorem keys_sectionsObject_nodup : (keys (sectionsObject sections)).Nodup := by
  have hfold : ∀ (sections : List (JsString × JsString))
      (fields : List (JsString × Option JsString)), (keys fields).Nodup →
      (keys (sections.foldl (fun fields change =>
        put keyPrecedes change.1 (some change.2) fields) fields)).Nodup := by
    intro sections
    induction sections with
    | nil => exact fun _ hfields => hfields
    | cons change rest ih =>
      exact fun fields hfields => ih _ (keys_put_nodup _ _ _ hfields)
  exact hfold sections [] nodup_nil

/-- No section of an object is a removal. -/
theorem exists_sectionsObject_eq : ∃ texts, sectionsObject sections = mapValues some texts := by
  have hfold : ∀ (sections : List (JsString × JsString))
      (fields : List (JsString × JsString)),
      sections.foldl (fun fields change =>
        put keyPrecedes change.1 (some change.2) fields)
          (mapValues some fields) =
        mapValues some (sections.foldl (fun fields change =>
          put keyPrecedes change.1 change.2 fields) fields) := by
    intro sections
    induction sections with
    | nil => intro fields; rfl
    | cons change rest ih =>
      intro fields
      rw [foldl_cons, ← mapValues_put, ih]
      rfl
  exact ⟨_, hfold sections []⟩

/-- Setting the sections of an object again gives the object. -/
theorem sectionsObject_replay {sections texts : List (JsString × JsString)}
    (htexts : sectionsObject sections = mapValues some texts) :
    applySections [] ⟨none, some (sectionsObject sections), none, none, 0⟩ = texts ∧
      sectionsObject texts = sectionsObject sections := by
  have hdistinct : (PropertyList.keys texts).Nodup := by
    have hkeys := keys_sectionsObject_nodup sections
    rw [htexts] at hkeys
    simpa [PropertyList.keys, mapValues, Function.comp_def] using hkeys
  constructor
  · rw [applySections, getD_some, htexts, mapValues, foldl_map]
    exact ofPairs_of_nodup hdistinct
  apply mapValues_injective sectionJson_injective
  have hjson : mapValues sectionJson (sectionsObject sections) =
      mapValues .str texts := by
    rw [htexts]
    simp [mapValues, sectionJson]
  have hordered : JsonText.Ordered (mapValues .str texts) := by
    rw [← hjson, mapValues_sectionsObject]
    exact (@JsonText.fromEntries_spec _ (fun _ => True) fun _ _ => trivial).1
  rw [mapValues_sectionsObject, JsonText.fromEntries_of_ordered hordered, hjson]

theorem isEmpty_of_sectionsObject {sections : List (JsString × JsString)}
    (hkeys : keys (sectionsObject sections) = []) : sections.isEmpty = true := by
  cases sections with
  | nil => rfl
  | cons change rest =>
    exfalso
    have hget : ∀ (changes : List (JsString × JsString))
        (fields : List (JsString × Option JsString)),
        (get change.1 fields).isSome = true →
        (get change.1 (changes.foldl (fun fields change =>
          put keyPrecedes change.1 (some change.2) fields)
            fields)).isSome = true := by
      intro changes
      induction changes with
      | nil => exact fun _ hfields => hfields
      | cons other changes ih =>
        intro fields hfields
        apply ih
        rw [get_put]
        split
        · rfl
        · exact hfields
    have hsome := hget rest (put keyPrecedes change.1 (some change.2) [])
      (by rw [get_put_self]; rfl)
    rw [get_isSome_iff] at hsome
    have hmem : change.1 ∈ keys (sectionsObject (change :: rest)) := hsome
    rw [hkeys] at hmem
    simp at hmem

/-! ### Replaying a replay -/

/-- The message up to its time. -/
def SystemMessage.SameState (message other : SystemMessage) : Prop :=
  message.content = other.content ∧ message.sections = other.sections ∧
    message.toolsAdded = other.toolsAdded ∧ message.toolsRemoved = other.toolsRemoved

variable (timestamp : Instant)

theorem currentText_replayed :
    currentText [{ replayedSystem messages with timestamp }] = currentText messages := by
  have htext : systemText { replayedSystem messages with timestamp } =
      currentText messages := rfl
  rw [currentText, map_singleton, htext]
  by_cases hempty : (currentText messages).isEmpty = true
  · rw [isEmpty_iff.mp hempty]
    rfl
  rw [filter_cons_of_pos (by simpa using hempty), filter_nil,
    intercalate_singleton]

theorem currentSections_replayed :
    (replayedSystem [{ replayedSystem messages with timestamp }]).sections =
      (replayedSystem messages).sections := by
  obtain ⟨texts, htexts⟩ := exists_sectionsObject_eq (currentSections messages)
  obtain ⟨hreplay, hobject⟩ := sectionsObject_replay htexts
  by_cases hempty : (currentSections messages).isEmpty = true
  · have hnone : (replayedSystem messages).sections = none := if_pos hempty
    have hsections : currentSections [{ replayedSystem messages with timestamp }] =
        [] := by
      rw [currentSections, foldl_cons, foldl_nil, applySections, hnone]
      rfl
    rw [hnone, replayedSystem]
    exact if_pos (by rw [hsections]; rfl)
  have hsome : (replayedSystem messages).sections =
      some (sectionsObject (currentSections messages)) := if_neg hempty
  have hsections : currentSections [{ replayedSystem messages with timestamp }] =
      texts := by
    rw [← hreplay, currentSections, foldl_cons, foldl_nil, applySections, applySections, hsome]
  have hfull : ¬ texts.isEmpty = true := by
    intro hnil
    rw [isEmpty_iff.mp hnil] at hobject
    have hkeys : keys (sectionsObject (currentSections messages)) = [] := by
      rw [← hobject]
      rfl
    exact hempty (isEmpty_of_sectionsObject hkeys)
  rw [hsome, ← hobject, replayedSystem]
  exact (if_neg (by rw [hsections]; exact hfull)).trans (by rw [hsections])

theorem currentTools_replayed :
    currentToolMap [{ replayedSystem messages with timestamp }] =
      currentToolMap messages := by
  rw [currentToolMap, foldl_cons, foldl_nil, applyTools]
  have hremoved : ({ replayedSystem messages with timestamp } :
      SystemMessage).toolsRemoved = none := rfl
  have hreplay := (toolMap_currentToolMap messages).replay
  rw [hremoved, getD_none, foldl_nil]
  by_cases hempty : ((currentToolMap messages).map Prod.snd).isEmpty = true
  · have hnone : ({ replayedSystem messages with timestamp } :
        SystemMessage).toolsAdded = none := if_pos hempty
    rw [hnone, getD_none, foldl_nil]
    exact (map_eq_nil_iff.mp (isEmpty_iff.mp hempty)).symm
  have hsome : ({ replayedSystem messages with timestamp } :
      SystemMessage).toolsAdded = some ((currentToolMap messages).map Prod.snd) :=
    if_neg hempty
  rw [hsome, getD_some]
  exact hreplay

/-- A replay replays to itself, whatever time it is given. -/
theorem replaySystem_replayed :
    ∃ replayed, replaySystem [{ replayedSystem messages with timestamp }] =
        some replayed ∧ replayed.SameState (replayedSystem messages) := by
  refine ⟨_, if_neg (by simp), ?_, ?_, ?_, rfl⟩
  · exact congrArg (fun text => some (Content.text text))
      (currentText_replayed messages timestamp)
  · exact currentSections_replayed messages timestamp
  exact congrArg (fun tools : List (JsString × Tool) =>
    if (tools.map Prod.snd).isEmpty then none else some (tools.map Prod.snd))
    (currentTools_replayed messages timestamp)

end Hummin.Session
