/-
A write that throws.  The common append takes its entry back, so the session in
memory stays as it was; an operation that moved the leaf before it appended leaves
the leaf where it moved it.
-/
import Hummin.SessionManager

namespace Hummin.Session

/-- The session in memory: the entries, the index, the label maps and the leaf. -/
structure Memory where
  fileEntries : List FileEntry
  byId : EntryIndex
  labelsById : List (EntryId × JsString)
  labelTimestampsById : List (EntryId × Instant)
  leafId : Option EntryId
deriving DecidableEq

def Manager.memory (manager : Manager) : Memory where
  fileEntries := manager.fileEntries
  byId := manager.byId
  labelsById := manager.labelsById
  labelTimestampsById := manager.labelTimestampsById
  leafId := manager.leafId

/-- Entries are written to a file. -/
def Manager.writesFile (manager : Manager) : Prop :=
  manager.persist = true ∧ manager.sessionFile.isSome = true

/-- The environment with a file that takes or refuses the write. -/
def Environment.withWrites (environment : Environment) (writes : Bool) : Environment :=
  { environment with writes }

/-- A whole UUID is not the id of an entry. -/
def Environment.Unique (environment : Environment) (manager : Manager) : Prop :=
  JsMap.has (environment.uuids idAttempts) manager.byId = false

variable {environment : Environment} {manager : Manager}

theorem newEntryId_not_has (hunique : environment.Unique manager) :
    JsMap.has (newEntryId environment manager) manager.byId = false := by
  apply @generateId_not_taken (fun id => JsMap.has id manager.byId)
  exact hunique

/-- A refused write takes the entry back. -/
theorem appendEntry_refused (hfile : manager.writesFile) {entry : SessionEntry}
    (hnew : JsMap.has entry.id manager.byId = false) :
    appendEntry (environment.withWrites false) manager entry = (.error .write, manager) := by
  obtain ⟨hpersist, hsome⟩ := hfile
  have hopen : ¬ (manager.persist = false ∨ manager.sessionFile = none) := by
    rw [hpersist]
    rintro (hfalse | hnone)
    · cases hfalse
    rw [hnone] at hsome
    cases hsome
  rw [appendEntry, persistEntry, if_neg hopen]
  simp only [Environment.withWrites, Bool.false_eq_true, if_false,
    List.dropLast_concat, JsMap.erase_set_of_not_has hnew]

theorem appendBody_refused (hfile : manager.writesFile)
    (hunique : environment.Unique manager) (body : EntryBody) :
    appendBody (environment.withWrites false) manager body = (.error .write, manager) :=
  appendEntry_refused hfile (newEntryId_not_has hunique)

theorem branchWithSummary_refused (hfile : manager.writesFile)
    (hunique : environment.Unique manager) {branchFromId : Option EntryId}
    (hfound : branchFromId.filter (fun id => !JsMap.has id manager.byId) = none)
    (summary : JsString) (details : Option JsonValue) (fromHook : Option Bool)
    (usage : Option Usage) :
    branchWithSummary (environment.withWrites false) manager branchFromId summary
      details fromHook usage =
        (.error .write, { manager with leafId := branchFromId }) := by
  have hmovedFile : { manager with leafId := branchFromId }.writesFile := hfile
  have hmovedUnique : environment.Unique { manager with leafId := branchFromId } :=
    hunique
  rw [branchWithSummary, hfound]
  exact appendEntry_refused hmovedFile (newEntryId_not_has hmovedUnique)

/-- The operation does not move the leaf before it appends. -/
def Operation.KeepsLeaf (manager : Manager) : Operation → Prop
  | .branchWithSummary branchFromId _ _ _ _ => branchFromId = manager.leafId
  | _ => True

/-- An operation that would have succeeded throws when its write is refused; it
keeps the session unless it moved the leaf. -/
theorem perform_refused (hfile : manager.writesFile)
    (hunique : environment.Unique manager) {operation : Operation} {id : EntryId}
    (hworks : (perform (environment.withWrites true) manager operation).1 = .ok id) :
    perform (environment.withWrites false) manager operation =
      (.error .write, { manager with leafId :=
        match operation with
        | .branchWithSummary branchFromId _ _ _ _ => branchFromId
        | _ => manager.leafId }) := by
  cases operation with
  | appendCompaction summary firstKeptEntryId tokensBefore details fromHook usage =>
    simp only [perform, appendCompaction] at hworks ⊢
    cases hprojection : manager.buildSessionProjection with
    | none =>
      rw [hprojection] at hworks
      cases hworks
    | some projection => exact appendBody_refused hfile hunique _
  | appendContextEdit targetId replacement =>
    simp only [perform, appendContextEdit] at hworks ⊢
    split at hworks
    · cases hworks
    split at hworks
    · cases hworks
    split at hworks
    next hbranch =>
      rw [if_pos hbranch]
      split at hworks
      · cases hworks
      · exact appendBody_refused hfile hunique _
    · cases hworks
  | appendLabelChange targetId label =>
    simp only [perform, appendLabelChange] at hworks ⊢
    split at hworks
    next hfound =>
      rw [if_pos hfound, appendBody_refused hfile hunique]
    · cases hworks
  | branchWithSummary branchFromId summary details fromHook usage =>
    simp only [perform] at hworks ⊢
    cases hfound : branchFromId.filter fun id => !JsMap.has id manager.byId with
    | some id =>
      rw [branchWithSummary, hfound] at hworks
      cases hworks
    | none => exact branchWithSummary_refused hfile hunique hfound _ _ _ _
  | _ => exact appendBody_refused hfile hunique _

/-- When the write of an operation throws, the operation throws and the session in
memory is as before exactly when the leaf was not moved first. -/
theorem failed_write_atomic_iff (hfile : manager.writesFile)
    (hunique : environment.Unique manager) {operation : Operation} {id : EntryId}
    (hworks : (perform (environment.withWrites true) manager operation).1 = .ok id) :
    ((perform (environment.withWrites false) manager operation).1 = .error .write ∧
        (perform (environment.withWrites false) manager operation).2.memory =
          manager.memory) ↔
      operation.KeepsLeaf manager := by
  rw [perform_refused hfile hunique hworks]
  cases operation with
  | branchWithSummary branchFromId _ _ _ _ =>
    simp [Manager.memory, Operation.KeepsLeaf]
  | _ => simp [Manager.memory, Operation.KeepsLeaf]

/-! ### A session of two messages -/

def askedTwice : Manager :=
  let first := perform (letterEnvironment 'a')
    (newSession (js ['s']) (js ['f']) 0) (.appendMessage (.user none 0))
  (perform (letterEnvironment 'b') first.2 (.appendMessage (.user none 1))).2

/-- Going back to the first message with a summary. -/
def goBack : Operation :=
  .branchWithSummary (some (js (List.replicate 8 'a'))) (js ['s']) none none none

/-- A label is written or the session stays as it is. -/
theorem failed_write_atomic_labelledMessage :
    let label := Operation.appendLabelChange (js (List.replicate 8 'a'))
      (some (js ['l']))
    let failed := perform ((letterEnvironment 'c').withWrites false) askedTwice label
    failed.1 = .error .write ∧ failed.2.memory = askedTwice.memory := by
  have hworks : (perform ((letterEnvironment 'c').withWrites true) askedTwice
      (.appendLabelChange (js (List.replicate 8 'a')) (some (js ['l'])))).1 =
        .ok (js (List.replicate 8 'c')) := by decide
  exact (failed_write_atomic_iff ⟨rfl, rfl⟩ (by unfold Environment.Unique; decide)
    hworks).mpr trivial

/-- The summary of a branch is not written, and the leaf has moved. -/
theorem failed_write_moves_leaf :
    (perform ((letterEnvironment 'c').withWrites true) askedTwice goBack).1 =
        .ok (js (List.replicate 8 'c')) ∧
      ¬ ((perform ((letterEnvironment 'c').withWrites false) askedTwice goBack).1 = .error .write ∧
        (perform ((letterEnvironment 'c').withWrites false) askedTwice goBack).2.memory =
          askedTwice.memory) := by
  decide

end Hummin.Session
