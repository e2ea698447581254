/-
Appending a compaction.  It stores the replay of the system messages that the
session shows, and the entries it keeps show none, so the current prompt and tools
stay what they were.
-/
import Hummin.SessionManager

namespace Hummin.Session

open List Option PropertyList JsMap

/-! ### Paths after an append -/

variable {current : Option SessionEntry}

variable {path : List SessionEntry}

/-- The walk looks up the parents of the entries it visits, and nothing else. -/
theorem climb_congr {index other : EntryIndex} {fuel : Nat}
    (hlookup : ∀ entry ∈ path, ∀ id ∈ entry.parentId, get id other = get id index)
    (hpath : climb index fuel current = some path) : climb other fuel current = some path := by
  induction fuel generalizing current path with
  | zero =>
    cases current with
    | none => simpa [climb] using hpath
    | some entry => cases hpath
  | succ fuel ih =>
    cases current with
    | none => simpa [climb] using hpath
    | some entry =>
      rw [climb, map_eq_some_iff] at hpath ⊢
      obtain ⟨above, habove, rfl⟩ := hpath
      refine ⟨above, ?_, rfl⟩
      have hparent : (entry.parentId.bind fun id => get id other) =
          entry.parentId.bind fun id => get id index := by
        cases hid : entry.parentId with
        | none => rfl
        | some id => exact hlookup entry (by simp) id hid
      rw [hparent]
      exact ih (fun other hother => hlookup other (by simp [hother])) habove

/-- The entries of a walk are its start and entries of the index. -/
theorem mem_of_climb {index : EntryIndex} {fuel : Nat}
    (hpath : climb index fuel current = some path) {entry : SessionEntry} (hentry : entry ∈ path) :
    current = some entry ∨ ∃ id, (id, entry) ∈ index := by
  induction fuel generalizing current path with
  | zero =>
    cases current with
    | none =>
      cases hpath
      simp at hentry
    | some _ => cases hpath
  | succ fuel ih =>
    cases current with
    | none =>
      cases hpath
      simp at hentry
    | some start =>
      rw [climb, map_eq_some_iff] at hpath
      obtain ⟨above, habove, rfl⟩ := hpath
      rcases mem_append.mp hentry with hentry | hentry
      · rcases ih habove hentry with hparent | hindex
        · obtain ⟨id, -, hget⟩ := bind_eq_some_iff.mp hparent
          exact .inr ⟨id, mem_of_get_eq_some hget⟩
        · exact .inr hindex
      · exact .inl (congrArg some (mem_singleton.mp hentry).symm)

/-- The leaf is an entry of the session. -/
def Manager.LeafKnown (manager : Manager) : Prop :=
  ∀ id ∈ manager.leafId, JsMap.has id manager.byId = true

/-- The id occurs nowhere in the session. -/
def Manager.Unused (manager : Manager) (id : EntryId) : Prop :=
  JsMap.has id manager.byId = false ∧ ∀ pair ∈ manager.byId,
    pair.2.id ≠ id ∧ pair.2.parentId ≠ some id ∧ ∀ edit ∈ pair.2.edit?, edit.1 ≠ id

/-- The path to the leaf. -/
def Manager.activePath (manager : Manager) : Option (List SessionEntry) :=
  buildSessionPath manager.getEntries (some manager.leafId) (some manager.byId)

variable {environment : Environment} {manager next : Manager}

theorem activePath_eq (hleaf : manager.LeafKnown) :
    manager.activePath = climb manager.byId (climbFuel manager.byId)
      (manager.leafId.bind fun id => get id manager.byId) := by
  rw [Manager.activePath]
  cases hid : manager.leafId with
  | none => simp [buildSessionPath, climb]
  | some id =>
    obtain ⟨entry, hentry⟩ := isSome_iff_exists.mp (hleaf id hid)
    simp [buildSessionPath, hentry]

variable {edits : List (EntryId × Option Content)} {entry : SessionEntry}

variable {id : EntryId}

/-- What an append that returns has done. -/
theorem appendEntry_ok (hok : appendEntry environment manager entry = (.ok id, next)) :
    id = entry.id ∧ next.fileEntries = manager.fileEntries ++ [FileEntry.entry entry] ∧
      next.byId = JsMap.set entry.id entry manager.byId ∧
      next.leafId = some entry.id := by
  rw [appendEntry, persistEntry] at hok
  split_ifs at hok <;> simp only [Prod.mk.injEq, Except.ok.injEq] at hok
  · obtain ⟨rfl, rfl⟩ := hok
    exact ⟨rfl, rfl, rfl, rfl⟩
  · obtain ⟨rfl, rfl⟩ := hok
    exact ⟨rfl, rfl, rfl, rfl⟩
  · cases hok.1

/-- The new entry ends the path. -/
theorem activePath_appendEntry
    (hleaf : manager.LeafKnown) (hparent : entry.parentId = manager.leafId)
    (hunused : manager.Unused entry.id)
    (hok : appendEntry environment manager entry = (.ok id, next))
    (hpath : manager.activePath = some path) :
    next.activePath = some (path ++ [entry]) ∧
      ∀ other ∈ path, ∃ key, (key, other) ∈ manager.byId := by
  obtain ⟨-, -, hindex, hnext⟩ := appendEntry_ok hok
  have hset := set_of_not_has hunused.1 entry
  rw [activePath_eq hleaf] at hpath
  have hmem : ∀ other ∈ path, ∃ key, (key, other) ∈ manager.byId := by
    intro other hother
    rcases mem_of_climb hpath hother with hstart | hindexed
    · obtain ⟨key, -, hget⟩ := bind_eq_some_iff.mp hstart
      exact ⟨key, mem_of_get_eq_some hget⟩
    · exact hindexed
  refine ⟨?_, hmem⟩
  have hnextLeaf : next.LeafKnown := by
    intro leaf hmemLeaf
    rw [hnext] at hmemLeaf
    cases hmemLeaf
    rw [hindex, JsMap.has, get_set, if_pos rfl]
    rfl
  have hlookup : ∀ key, key ≠ entry.id →
      get key next.byId = get key manager.byId := by
    intro key hkey
    rw [hindex, get_set, if_neg hkey]
  have hstart : (manager.leafId.bind fun key => get key next.byId) =
      manager.leafId.bind fun key => get key manager.byId := by
    cases hid : manager.leafId with
    | none => rfl
    | some key =>
      apply hlookup
      rintro rfl
      have hknown := hleaf _ hid
      rw [hunused.1] at hknown
      cases hknown
  have hold : climb next.byId (climbFuel manager.byId)
      (manager.leafId.bind fun key => get key next.byId) = some path := by
    rw [hstart]
    apply climb_congr _ hpath
    intro other hother key hkey
    apply hlookup
    rintro rfl
    obtain ⟨name, hname⟩ := hmem other hother
    exact (hunused.2 _ hname).2.1 hkey
  have hfuel : climbFuel next.byId = climbFuel manager.byId + 1 := by
    rw [climbFuel, climbFuel, hindex, hset, length_append]
    rfl
  have hentry : (next.leafId.bind fun key => get key next.byId) =
      some entry := by
    rw [hnext, bind_some, hindex, get_set, if_pos rfl]
  rw [activePath_eq hnextLeaf, hentry, hfuel, climb, hparent, hold]
  rfl

/-! ### The current system message -/

theorem systemMessages_append (front back : List AgentMessage) :
    systemMessages (front ++ back) = systemMessages front ++ systemMessages back := by
  rw [systemMessages, filterMap_append]
  rfl

theorem systemMessages_eq_nil {messages : List AgentMessage}
    (hroles : ∀ message ∈ messages, message.role ≠ .system) : systemMessages messages = [] := by
  rw [systemMessages, filterMap_eq_nil_iff]
  intro message hmessage
  cases message with
  | system message => exact absurd rfl (hroles _ hmessage)
  | _ => rfl

/-- An entry that is neither a system message nor the first one shows no system
message. -/
theorem role_projectLater (hentry : entry.isSystem = false) :
    ∀ message ∈ (projectLater edits entry).messages, message.role ≠ .system := by
  have hsource : entry.isCompaction = false →
      ∀ message ∈ sessionEntryToContextMessages entry, message.role ≠ .system := by
    intro hcompaction message hmessage
    rw [sessionEntryToContextMessages] at hmessage
    cases hbody : entry.body with
    | message inner =>
      rw [hbody] at hmessage
      rw [mem_singleton.mp hmessage, role_normalizeMessage]
      cases inner with
      | system _ => simp [SessionEntry.isSystem, hbody] at hentry
      | _ => simp [AgentMessage.role]
    | compaction fields =>
      simp [SessionEntry.isCompaction, SessionEntry.compaction?, hbody] at hcompaction
    | branchSummary fromId summary _ _ _ =>
      rw [hbody] at hmessage
      dsimp only at hmessage
      split at hmessage
      · simp at hmessage
      rw [mem_singleton.mp hmessage]
      simp [AgentMessage.role]
    | customMessage _ _ _ _ =>
      rw [hbody] at hmessage
      rw [mem_singleton.mp hmessage]
      simp [AgentMessage.role]
    | _ => simp [hbody] at hmessage
  intro message hmessage
  rw [projectLater] at hmessage
  split at hmessage
  · simp at hmessage
  rename_i hcompaction
  have hroles := hsource (by simpa using hcompaction)
  generalize get entry.id edits = edit at hmessage
  rcases edit with _ | _ | content
  · exact hroles message hmessage
  · simp [projectContextEntry] at hmessage
  obtain ⟨inner, hinner, rfl⟩ := mem_map.mp hmessage
  rw [role_replaceContent]
  exact hroles inner hinner

theorem systemMessages_projectLater {entries : List SessionEntry}
    (hentries : ∀ entry ∈ entries, entry.isSystem = false) :
    systemMessages ((entries.map (projectLater edits)).flatMap ProjectedEntry.messages) = [] := by
  apply systemMessages_eq_nil
  intro message hmessage
  obtain ⟨projected, hprojected, hmessage⟩ := mem_flatMap.mp hmessage
  obtain ⟨entry, hentry, rfl⟩ := mem_map.mp hprojected
  exact role_projectLater (hentries entry hentry) message hmessage

/-- A compaction at the end of a path leads the projection and is its only source
of system messages. -/
theorem systemMessages_projectPath_compaction {path : List SessionEntry}
    {entry : SessionEntry} {fields : Compaction} (hfields : entry.compaction? = some fields)
    (hpath : ∀ other ∈ path, other.id ≠ entry.id ∧ ∀ edit ∈ other.edit?, edit.1 ≠ entry.id) :
    systemMessages (projectPath (path ++ [entry])).messages = fields.systemMessage.toList := by
  have hbody : entry.body = .compaction fields := body_of_compaction? hfields
  have hselect : selectEntries (path ++ [entry]) =
      entry :: keptEntries fields.firstKeptEntryId path := by
    rw [selectEntries_eq hfields (by simp) fun other hother => (hpath other hother).1,
      append_nil]
  have hkept : ∀ other ∈ keptEntries fields.firstKeptEntryId path,
      other ∈ path ∧ other.isSystem = false := by
    intro other hother
    rw [keptEntries, mem_filter] at hother
    exact ⟨(dropWhile_sublist _).subset hother.1, by simpa using hother.2⟩
  have hedit : get entry.id
      (contextEdits (entry :: keptEntries fields.firstKeptEntryId path)) = none := by
    apply get_contextEdits_eq_none
    refine forall_mem_cons.mpr ⟨?_, fun other hother => (hpath other (hkept other hother).1).2⟩
    simp [SessionEntry.edit?, hbody]
  rw [projectPath]
  rw [hselect, projectEntries, flatMap_cons, systemMessages_append,
    systemMessages_projectLater fun other hother => (hkept other hother).2,
    append_nil, projectFirst, hedit]
  cases hsystem : fields.systemMessage <;>
    simp [projectContextEntry, sessionEntryToContextMessages, hbody, hsystem, systemMessages]

theorem buildSessionProjection_eq (manager : Manager) :
    manager.buildSessionProjection = manager.activePath.map projectPath := rfl

/-- A compaction that stores the current system message shows it. -/
theorem appendBody_compaction_system (hleaf : manager.LeafKnown)
    (hunused : manager.Unused (newEntryId environment manager))
    (hpath : manager.activePath = some path)
    {fields : Compaction}
    (hstored : fields.systemMessage =
      (getCurrentSystemMessage (projectPath path).messages).map fun message =>
        { message with timestamp := environment.now })
    (hok : appendBody environment manager (.compaction fields) = (.ok id, next)) :
    ∃ after, next.buildSessionProjection = some after ∧
      Option.Rel SystemMessage.SameState (getCurrentSystemMessage after.messages)
        (getCurrentSystemMessage (projectPath path).messages) := by
  obtain ⟨hnext, hmem⟩ := activePath_appendEntry hleaf rfl hunused hok hpath
  have hentries : ∀ other ∈ path, other.id ≠ newEntryId environment manager ∧
      ∀ edit ∈ other.edit?, edit.1 ≠ newEntryId environment manager := by
    intro other hother
    obtain ⟨key, hkey⟩ := hmem other hother
    exact ⟨(hunused.2 _ hkey).1, (hunused.2 _ hkey).2.2⟩
  refine ⟨_, by rw [buildSessionProjection_eq, hnext]; rfl, ?_⟩
  have hsystem := @systemMessages_projectPath_compaction path
    ⟨newEntryId environment manager, manager.leafId, environment.now,
      .compaction fields⟩ fields rfl hentries
  rw [getCurrentSystemMessage, hsystem, hstored]
  cases hcurrent : getCurrentSystemMessage (projectPath path).messages with
  | none => exact .none
  | some current =>
    have hreplayed : current =
        replayedSystem (systemMessages (projectPath path).messages) := by
      rw [getCurrentSystemMessage, replaySystem] at hcurrent
      split at hcurrent
      · cases hcurrent
      · exact (some.inj hcurrent).symm
    obtain ⟨replayed, hreplay, hsame⟩ := replaySystem_replayed
      (systemMessages (projectPath path).messages) environment.now
    rw [hreplayed, map_some, toList_some, hreplay]
    exact .some hsame

/-- A compaction keeps the current prompt, sections and tools. -/
theorem appendCompaction_keeps_system (hleaf : manager.LeafKnown)
    (hunused : manager.Unused (newEntryId environment manager))
    {summary : JsString} {firstKeptEntryId : Option EntryId} {tokensBefore : Nat}
    {details : Option JsonValue} {fromHook : Option Bool} {usage : Option Usage} {id : EntryId}
    (hok : appendCompaction environment manager summary firstKeptEntryId tokensBefore
      details fromHook usage = (.ok id, next)) :
    ∃ before after, manager.buildSessionProjection = some before ∧
      next.buildSessionProjection = some after ∧
      Option.Rel SystemMessage.SameState (getCurrentSystemMessage after.messages)
        (getCurrentSystemMessage before.messages) := by
  rw [appendCompaction] at hok
  cases hbefore : manager.buildSessionProjection with
  | none =>
    rw [hbefore] at hok
    cases (Prod.mk.inj hok).1
  | some before =>
    rw [hbefore] at hok
    obtain ⟨path, hpath, rfl⟩ :=
      map_eq_some_iff.mp ((buildSessionProjection_eq manager).symm.trans hbefore)
    obtain ⟨after, hafter, hsame⟩ :=
      appendBody_compaction_system hleaf hunused hpath rfl hok
    exact ⟨_, after, rfl, hafter, hsame⟩

/-- A session with a prompt, a question, a changed prompt and an older compaction. -/
def promptedSession : Manager :=
  let prompt : SystemMessage :=
    { content := some (.text (js ['p']))
      sections := some [(js ['7'], some (js ['s'])), (js ['n'], some (js ['t']))]
      toolsAdded := some [⟨js ['r'], [], .null⟩]
      toolsRemoved := none
      timestamp := 0 }
  let change : SystemMessage :=
    { content := some (.blocks [.text (js ['q'])])
      sections := some [(js ['n'], none)]
      toolsAdded := none
      toolsRemoved := none
      timestamp := 4 }
  let prompted := (perform (letterEnvironment 'a')
    (newSession (js ['s']) (js ['f']) 0) (.appendMessage (.system prompt))).2
  let asked := (perform (letterEnvironment 'b') prompted (.appendMessage (.user none 1))).2
  let compacted := (perform (letterEnvironment 'c') asked
    (.appendCompaction (js ['x']) (some (js (List.replicate 8 'b'))) 9 none none none)).2
  (perform (letterEnvironment 'd') compacted (.appendMessage (.system change))).2

theorem appendCompaction_keeps_system_promptedSession :
    ∃ before after, promptedSession.buildSessionProjection = some before ∧
      (appendCompaction (letterEnvironment 'e') promptedSession (js ['y'])
        (some (js (List.replicate 8 'b'))) 9 none none none).2.buildSessionProjection =
          some after ∧
      Option.Rel SystemMessage.SameState (getCurrentSystemMessage after.messages)
        (getCurrentSystemMessage before.messages) := by
  have hleaf : promptedSession.LeafKnown := by
    rintro id ⟨⟩
    decide
  have hunused : promptedSession.Unused
      (newEntryId (letterEnvironment 'e') promptedSession) := by
    unfold Manager.Unused
    decide
  exact appendCompaction_keeps_system hleaf hunused rfl

end Hummin.Session
