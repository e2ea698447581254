/-
Whole runs of a session manager: appends, refused writes, moves of the leaf and paths
taken out.  The entries stay a tree, and the indices stay theirs.
-/
import Hummin.BranchedSession
import Hummin.Machine
import Hummin.SessionRollback

namespace Hummin.Session

open List Option

/-- Start a new branch from an earlier entry. -/
def branch (manager : Manager) (branchFromId : EntryId) : Outcome Unit :=
  if JsMap.has branchFromId manager.byId then
    (.ok (), { manager with leafId := some branchFromId })
  else (.error (.notFound branchFromId), manager)

/-- Go before all entries. -/
def resetLeaf (manager : Manager) : Manager :=
  { manager with leafId := none }

inductive Call
  | perform (environment : Environment) (operation : Operation)
  | branch (branchFromId : EntryId)
  | resetLeaf
  | createBranchedSession (environment : BranchEnvironment) (leafId : EntryId)

def Manager.step (manager : Manager) : Call → Option Manager
  | .perform environment operation => some (perform environment manager operation).2
  | .branch branchFromId => some (branch manager branchFromId).2
  | .resetLeaf => some (resetLeaf manager)
  | .createBranchedSession environment leafId =>
    some (createBranchedSession environment manager leafId).2

/-- The whole UUIDs that the call draws are not ids of the session. -/
def DrawsFresh (manager : Manager) : Call → Prop
  | .perform environment _ => environment.Unique manager
  | .createBranchedSession environment _ =>
    FreshUuids environment.uuids (manager.getEntries.map SessionEntry.id)
  | _ => True

/-! ### Trees and indices -/

variable {manager next : Manager} {entry : SessionEntry} {entries more : List SessionEntry}

/-- An entry with a new id below an entry that is there keeps the tree. -/
theorem IsTree.concat (htree : IsTree entries) (hnew : ∀ other ∈ entries, other.id ≠ entry.id)
    (hparent : ∀ id ∈ entry.parentId, ∃ other ∈ entries, other.id = id) :
    IsTree (entries ++ [entry]) := by
  obtain ⟨depth, hdepth⟩ := htree.rooted
  constructor
  · rw [map_append, map_singleton, ← concat_eq_append]
    apply htree.distinct.concat
    intro hmem
    obtain ⟨other, hother, heq⟩ := List.mem_map.mp hmem
    exact hnew other hother heq
  refine ⟨Function.update depth entry.id ((entry.parentId.map depth).getD 0 + 1), ?_⟩
  intro child hchild parent hup
  rw [mem_append, mem_singleton] at hchild
  obtain ⟨other, hother, rfl⟩ : ∃ other ∈ entries, other.id = parent := by
    rcases hchild with hchild | rfl
    · exact (hdepth child hchild parent hup).1
    · exact hparent parent hup
  refine ⟨⟨other, mem_append_left _ hother, rfl⟩, ?_⟩
  rw [Function.update_of_ne (hnew other hother)]
  rcases hchild with hchild | rfl
  · rw [Function.update_of_ne (hnew child hchild)]
    exact (hdepth child hchild _ hup).2
  rw [Function.update_self, Option.mem_def.mp hup]
  exact Nat.lt_succ_self _

theorem isTree_of_linked (hdistinct : (entries.map SessionEntry.id).Nodup)
    (hlinked : Linked none entries) : IsTree entries := by
  induction entries using reverseRecOn with
  | nil => exact ⟨hdistinct, fun _ => 0, by simp⟩
  | append_singleton front entry ih =>
    rw [linked_append] at hlinked
    rw [map_append, map_singleton, nodup_append] at hdistinct
    refine (ih hdistinct.1 hlinked.1).concat ?_ ?_
    · intro other hother
      exact hdistinct.2.2 _ (mem_map_of_mem hother) _ mem_cons_self
    intro id hid
    rw [hlinked.2.1, lastId, or_none] at hid
    obtain ⟨last, hlast, rfl⟩ := map_eq_some_iff.mp hid
    exact ⟨last, mem_of_getLast? hlast, rfl⟩

def Manager.indices (manager : Manager) :
    EntryIndex × List (EntryId × JsString) × List (EntryId × Instant) :=
  (manager.byId, manager.labelsById, manager.labelTimestampsById)

/-- Indexing reads no more of a manager than its indices. -/
theorem indices_foldl (hsame : manager.indices = next.indices) :
    (entries.foldl indexEntry manager).indices = (entries.foldl indexEntry next).indices := by
  induction entries generalizing manager next with
  | nil => exact hsame
  | cons entry rest ih =>
    apply ih
    simp only [Manager.indices, Prod.mk.injEq] at hsame
    obtain ⟨hbyId, hlabels, htimes⟩ := hsame
    rw [indexEntry, indexEntry]
    split
    · simp only [Manager.setLabel, hbyId, hlabels, htimes]
      split <;> rfl
    · simp only [Manager.indices, hbyId, hlabels, htimes]

/-- The entries are a tree, the indices are theirs, and the leaf is one of them. -/
structure Manager.WellFormed (manager : Manager) : Prop where
  tree : IsTree manager.getEntries
  indexed : manager.indices = (buildIndex manager).indices
  leaf : ∀ id ∈ manager.leafId, ∃ entry ∈ manager.getEntries, entry.id = id

/-- A session whose entries are a tree, indexed anew. -/
theorem wellFormed_of_built {built : Manager} (htree : IsTree built.getEntries)
    (hfile : next.fileEntries = built.fileEntries)
    (hindices : next.indices = (buildIndex built).indices)
    (hleaf : next.leafId = (buildIndex built).leafId) : next.WellFormed := by
  have hentries : next.getEntries = built.getEntries := by
    rw [Manager.getEntries, hfile]
    rfl
  refine ⟨hentries ▸ htree, ?_, ?_⟩
  · rw [hindices, buildIndex, buildIndex, hentries]
    exact indices_foldl rfl
  intro id hid
  rw [hleaf, leafId_buildIndex, lastId, or_none] at hid
  obtain ⟨last, hlast, rfl⟩ := map_eq_some_iff.mp hid
  exact ⟨last, hentries ▸ mem_of_getLast? hlast, rfl⟩

/-! ### What every call keeps -/

namespace Manager.WellFormed

variable {environment : Environment} (hformed : manager.WellFormed)

include hformed

theorem byId_built : manager.byId = buildEntryIndex manager.getEntries :=
  (congrArg Prod.fst hformed.indexed).trans (byId_buildIndex _)

theorem byId_eq : manager.byId = manager.getEntries.map fun entry => (entry.id, entry) := by
  rw [hformed.byId_built, buildEntryIndex_eq hformed.tree.distinct]

theorem has_iff {id : EntryId} :
    JsMap.has id manager.byId = true ↔ ∃ entry ∈ manager.getEntries, entry.id = id := by
  rw [JsMap.has, PropertyList.get_isSome_iff, hformed.byId_eq, PropertyList.keys, List.map_map]
  exact List.mem_map

/-- No walk to the root goes on for ever or meets an entry twice. -/
theorem exists_getBranch (fromId : Option EntryId) : ∃ path, manager.getBranch fromId = some path ∧
    (path.map SessionEntry.id).Nodup ∧ ∀ other ∈ path, other ∈ manager.getEntries := by
  rw [getBranch]
  cases hget : (fromId.or manager.leafId).bind fun id => PropertyList.get id manager.byId with
  | none => exact ⟨[], by cases climbFuel manager.byId <;> rfl, nodup_nil, forall_mem_nil _⟩
  | some entry =>
    obtain ⟨id, -, hentry⟩ := bind_eq_some_iff.mp hget
    have hpair := PropertyList.mem_of_get_eq_some hentry
    rw [hformed.byId_eq] at hpair
    obtain ⟨other, hother, heq⟩ := List.mem_map.mp hpair
    cases heq
    obtain ⟨path, hclimb, -, hdistinct, hmem⟩ := hformed.tree.climb_eq hother
    rw [hformed.byId_built]
    exact ⟨path, hclimb, hdistinct, hmem⟩

theorem move {leafId : Option EntryId} (hleaf : ∀ id ∈ leafId, JsMap.has id manager.byId = true) :
    { manager with leafId }.WellFormed :=
  ⟨hformed.tree, hformed.indexed.trans (indices_foldl rfl),
    fun id hid => hformed.has_iff.mp (hleaf id hid)⟩

/-- The entry that an append adds, as indexing it would. -/
theorem push (hnew : JsMap.has entry.id manager.byId = false)
    (hparent : ∀ id ∈ entry.parentId, ∃ other ∈ manager.getEntries, other.id = id)
    (hfile : next.fileEntries = manager.fileEntries ++ [.entry entry])
    (hindices : next.indices = (indexEntry manager entry).indices)
    (hleaf : next.leafId = some entry.id) : next.WellFormed := by
  have hentries : next.getEntries = manager.getEntries ++ [entry] := by
    rw [getEntries, hfile, filterMap_append]
    rfl
  refine ⟨?_, ?_, ?_⟩
  · rw [hentries]
    refine hformed.tree.concat (fun other hother heq => ?_) hparent
    rw [hformed.has_iff.mpr ⟨other, hother, heq⟩] at hnew
    cases hnew
  · rw [hindices, buildIndex, hentries, foldl_append]
    exact @indices_foldl _ _ [entry] (hformed.indexed.trans (indices_foldl rfl))
  intro id hid
  rw [hleaf] at hid
  cases hid
  exact ⟨entry, hentries ▸ mem_append_right _ mem_cons_self, rfl⟩

omit hformed in
/-- The common append adds its entry, or throws and takes it back. -/
theorem appendBody_cases (hunique : environment.Unique manager) (body : EntryBody) :
    ∃ entry, entry.parentId = manager.leafId ∧ entry.timestamp = environment.now ∧
      entry.body = body ∧ JsMap.has entry.id manager.byId = false ∧
      ((∃ flushed, appendBody environment manager body = (.ok entry.id,
        { manager with
          fileEntries := manager.fileEntries ++ [.entry entry]
          byId := JsMap.set entry.id entry manager.byId
          leafId := some entry.id
          flushed })) ∨
        appendBody environment manager body = (.error .write, manager)) := by
  have hnew := newEntryId_not_has hunique
  refine ⟨⟨newEntryId environment manager, _, _, _⟩, rfl, rfl, rfl, hnew, ?_⟩
  rw [Session.appendBody, appendEntry, persistEntry]
  split_ifs
  · exact .inl ⟨_, rfl⟩
  · exact .inl ⟨_, rfl⟩
  right
  simp only [dropLast_concat, JsMap.erase_set_of_not_has hnew]

theorem appendBody (hunique : environment.Unique manager) {body : EntryBody}
    (hbody : ∀ targetId label, body ≠ .label targetId label) :
    (appendBody environment manager body).2.WellFormed := by
  obtain ⟨entry, hparent, -, rfl, hnew, ⟨flushed, happend⟩ | happend⟩ :=
    appendBody_cases hunique body
  · rw [happend]
    apply hformed.push hnew (hparent ▸ hformed.leaf) rfl _ rfl
    rw [indexEntry]
    split
    next heq => exact absurd heq (hbody _ _)
    · rfl
  rw [happend]
  exact hformed

/-- Whatever an operation meets, and also when its write is refused after it moved the leaf. -/
theorem perform (hunique : environment.Unique manager) (operation : Operation) :
    (perform environment manager operation).2.WellFormed := by
  cases operation with
  | appendCompaction summary firstKeptEntryId tokensBefore details fromHook usage =>
    rw [Session.perform, appendCompaction]
    split
    · exact hformed
    · exact hformed.appendBody hunique (by rintro _ _ ⟨⟩)
  | appendContextEdit targetId replacement =>
    rw [Session.perform, appendContextEdit]
    split
    · exact hformed
    split
    · exact hformed
    split
    · split
      · exact hformed
      · exact hformed.appendBody hunique (by rintro _ _ ⟨⟩)
    · exact hformed
  | appendLabelChange targetId label =>
    rw [Session.perform, appendLabelChange]
    split
    · obtain ⟨entry, hparent, htime, hbody, hnew, ⟨flushed, happend⟩ | happend⟩ :=
        appendBody_cases hunique (.label targetId label)
      · rw [happend]
        obtain ⟨-, hleaf, hfile⟩ := byId_setLabel _ _ _ _
        apply hformed.push hnew (hparent ▸ hformed.leaf) hfile _ hleaf
        simp only [indexEntry, hbody, htime, Manager.setLabel]
        split <;> rfl
      rw [happend]
      exact hformed
    · exact hformed
  | branchWithSummary branchFromId summary details fromHook usage =>
    rw [Session.perform, branchWithSummary]
    split
    · exact hformed
    next hfound =>
      have hmoved : { manager with leafId := branchFromId }.WellFormed := by
        apply hformed.move
        rintro id rfl
        simpa using hfound
      exact hmoved.appendBody hunique (by rintro _ _ ⟨⟩)
  | _ => exact hformed.appendBody hunique (by rintro _ _ ⟨⟩)

theorem createBranchedSession {environment : BranchEnvironment} {leafId : EntryId}
    (hfresh : FreshUuids environment.uuids (manager.getEntries.map SessionEntry.id)) :
    (createBranchedSession environment manager leafId).2.WellFormed := by
  obtain ⟨path, hpath, hdistinct, hmem⟩ := hformed.exists_getBranch (some leafId)
  rw [Session.createBranchedSession, hpath]
  cases path with
  | nil => exact hformed
  | cons first rest =>
    have htree : ∀ (header : SessionHeader) (built : Manager), built.fileEntries =
        .session header :: (branchedEntries environment manager (first :: rest)).map
          FileEntry.entry → IsTree built.getEntries := by
      intro header built hfile
      have hsame : built.getEntries = branchedEntries environment manager (first :: rest) := by
        rw [getEntries, hfile, filterMap_cons, filterMap_map]
        exact filterMap_some
      rw [hsame]
      refine isTree_of_linked (distinct_branchedEntries hdistinct (hfresh.mono ?_))
        linked_branchedEntries
      intro id hid
      obtain ⟨other, hother, rfl⟩ := List.mem_map.mp hid
      exact mem_map_of_mem (hmem other hother)
    dsimp only
    split_ifs <;> exact wellFormed_of_built (htree _ _ rfl) (foldl_indexEntry _ _).2.2 rfl rfl

theorem step {call : Call} (hfresh : DrawsFresh manager call)
    (hstep : manager.step call = some next) : next.WellFormed := by
  cases call with
  | perform environment operation =>
    cases hstep
    exact hformed.perform hfresh operation
  | branch branchFromId =>
    cases hstep
    rw [branch]
    split
    next hhas =>
      apply hformed.move
      rintro id ⟨⟩
      exact hhas
    · exact hformed
  | resetLeaf =>
    cases hstep
    apply hformed.move
    rintro id ⟨⟩
  | createBranchedSession environment leafId =>
    cases hstep
    exact hformed.createBranchedSession hfresh

end Manager.WellFormed

/-- Whatever is called after a session was opened whose entries are a tree: the entries stay a
tree whose walks end, the leaf stays one of them, and opening the session again would build the
indices that it has. -/
theorem run_keeps_tree {loaded : Manager} (htree : IsTree loaded.getEntries) {calls : List Call}
    (hfresh : EveryStep Manager.step DrawsFresh (buildIndex loaded) calls)
    (hrun : run Manager.step (buildIndex loaded) calls = some manager) :
    manager.WellFormed ∧ manager.buildSessionProjection.isSome = true ∧
      ∀ fromId, ∃ path, manager.getBranch fromId = some path ∧
        (path.map SessionEntry.id).Nodup ∧ ∀ entry ∈ path, entry ∈ manager.getEntries := by
  have hstart : (buildIndex loaded).WellFormed :=
    wellFormed_of_built htree (foldl_indexEntry _ _).2.2 rfl rfl
  have hformed : manager.WellFormed := by
    apply everyStep_invariant _ hstart hfresh (prefix_refl calls) hrun
    exact fun _ _ _ hformed hfresh hstep => hformed.step hfresh hstep
  refine ⟨hformed, ?_, hformed.exists_getBranch⟩
  rw [Manager.buildSessionProjection, buildSessionProjection, isSome_map]
  cases hleaf : manager.leafId with
  | none => rfl
  | some id =>
    obtain ⟨path, hpath, -⟩ := hformed.exists_getBranch (some id)
    obtain ⟨entry, hentry⟩ :=
      isSome_iff_exists.mp (hformed.has_iff.mpr (hformed.leaf id hleaf))
    rw [Manager.getBranch, some_or, bind_some, hentry] at hpath
    simp only [buildSessionPath, getD_some, hentry, some_or, hpath, isSome_some]

/-- A message, and one more before all entries. -/
def twoRoots : List Call :=
  [.perform (letterEnvironment 'a') (.appendMessage (.user none 0)), .resetLeaf,
    .perform (letterEnvironment 'b') (.appendMessage (.user none 2))]

theorem run_keeps_tree_twoRoots :
    ∃ manager, run Manager.step (buildIndex (newSession (js ['s']) (js ['f']) 0)) twoRoots =
      some manager ∧ manager.WellFormed := by
  have htree : IsTree (newSession (js ['s']) (js ['f']) 0).getEntries :=
    ⟨nodup_nil, fun _ => 0, by rintro _ ⟨⟩⟩
  refine ⟨_, rfl, (@run_keeps_tree _ _ htree twoRoots ?_ rfl).1⟩
  refine ⟨rfl, ?_⟩
  rintro _ ⟨⟩
  refine ⟨trivial, ?_⟩
  rintro _ ⟨⟩
  exact ⟨rfl, fun _ _ => trivial⟩

end Hummin.Session
