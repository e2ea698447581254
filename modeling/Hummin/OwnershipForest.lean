/-
The committed records form a forest, and the scheduler's memory mirrors the part of it that
is published.
-/
import Hummin.OwnershipChains

namespace Hummin.Scheduler

open List Option Function

variable {stored next : Stored} {commit : Commit} {change : Write} {id : Nat}

namespace Stored

/-- Every record hangs from one minted before it. -/
structure Forest (stored : Stored) : Prop where
  taskId : ∀ id record, stored.tasks id = some record → record.id = id
  taskBound : ∀ id record, stored.tasks id = some record → id < stored.nextId
  taskParent : ∀ id record, stored.tasks id = some record →
    stored.has (parentNode record.toTaskNode) = true ∧ (parentNode record.toTaskNode).id < id
  edgeBound : ∀ id owner, stored.conversations id = some owner → id < stored.nextId
  owner : ∀ id owner, stored.conversations id = some (some owner) →
    (stored.tasks owner).isSome = true ∧ owner < id

/-- Ownership fields never change, and an ended task stays as it is. -/
structure Grows (stored next : Stored) : Prop where
  task : ∀ id record, stored.tasks id = some record →
    ∃ later, next.tasks id = some later ∧ later.toTaskNode = record.toTaskNode ∧
      (record.isLive = false → later = record)
  edge : ∀ id owner, stored.conversations id = some owner → next.conversations id = some owner
  nextId : stored.nextId ≤ next.nextId

theorem Grows.refl (stored : Stored) : Grows stored stored :=
  ⟨fun _ record hrecord => ⟨record, hrecord, rfl, fun _ => rfl⟩, fun _ _ howner => howner,
    Nat.le_refl _⟩

theorem Grows.trans {last : Stored} (hfirst : Grows stored next) (hsecond : Grows next last) :
    Grows stored last := by
  refine ⟨?_, ?_, Nat.le_trans hfirst.nextId hsecond.nextId⟩
  · intro id record hrecord
    obtain ⟨middle, hmiddle, hfields, hended⟩ := hfirst.task id record hrecord
    obtain ⟨later, hlater, hlaterFields, hlaterEnded⟩ := hsecond.task id middle hmiddle
    refine ⟨later, hlater, hlaterFields.trans hfields, ?_⟩
    intro hdead
    obtain rfl := hended hdead
    exact hlaterEnded hdead
  intro id owner howner
  exact hsecond.edge id owner (hfirst.edge id owner howner)

theorem Grows.has (hgrows : Grows stored next) {node : Node} (hnode : stored.has node = true) :
    next.has node = true := by
  cases node with
  | task id =>
    obtain ⟨record, hrecord⟩ := isSome_iff_exists.mp hnode
    obtain ⟨later, hlater, -⟩ := hgrows.task id record hrecord
    exact isSome_iff_exists.mpr ⟨later, hlater⟩
  | conversation id =>
    obtain ⟨owner, howner⟩ := isSome_iff_exists.mp hnode
    exact isSome_iff_exists.mpr ⟨owner, hgrows.edge id owner howner⟩

/-- What a write needs, and what it makes. -/
theorem write_cases (hwrite : stored.write change = some next) :
    (∃ id owner, change = .conversation id owner ∧ stored.nextId ≤ id ∧
      (∀ task ∈ owner, (stored.tasks task).isSome = true) ∧
      next = { stored with
        conversations := update stored.conversations id (some owner)
        nextId := id + 1 }) ∨
    (∃ record previous, change = .task record ∧ stored.tasks record.id = some previous ∧
      previous.isLive = true ∧ previous.toTaskNode = record.toTaskNode ∧
      next = stored.putTask record) ∨
    (∃ record, change = .task record ∧ stored.tasks record.id = none ∧
      stored.nextId ≤ record.id ∧ record.isLive = true ∧
      stored.has (parentNode record.toTaskNode) = true ∧
      next = { stored.putTask record with nextId := record.id + 1 }) := by
  cases change with
  | conversation id owner =>
    left
    rw [Stored.write] at hwrite
    split at hwrite
    next hcheck =>
      refine ⟨id, owner, rfl, hcheck.1, ?_, (some.inj hwrite).symm⟩
      rintro task rfl
      exact hcheck.2
    · cases hwrite
  | task record =>
    right
    rw [Stored.write] at hwrite
    split at hwrite
    next previous hprevious =>
      left
      split at hwrite
      next hcheck =>
        exact ⟨record, previous, rfl, hprevious, hcheck.1, hcheck.2, (some.inj hwrite).symm⟩
      · cases hwrite
    next hnew =>
      right
      split at hwrite
      next hcheck =>
        exact ⟨record, rfl, hnew, hcheck.1, hcheck.2.1, hcheck.2.2, (some.inj hwrite).symm⟩
      · cases hwrite

variable {record : TaskRecord}

theorem tasks_putTask_self : (stored.putTask record).tasks record.id = some record :=
  update_self ..

theorem tasks_putTask_of_ne (hne : id ≠ record.id) :
    (stored.putTask record).tasks id = stored.tasks id :=
  update_of_ne hne ..

theorem Forest.tasks_eq_none (hforest : Forest stored) (hid : stored.nextId ≤ id) :
    stored.tasks id = none := by
  cases htask : stored.tasks id with
  | none => rfl
  | some record => exact absurd (hforest.taskBound id record htask) (Nat.not_lt_of_le hid)

theorem Forest.conversations_eq_none (hforest : Forest stored) (hid : stored.nextId ≤ id) :
    stored.conversations id = none := by
  cases hedge : stored.conversations id with
  | none => rfl
  | some owner => exact absurd (hforest.edgeBound id owner hedge) (Nat.not_lt_of_le hid)

theorem grows_putTask {bound : Nat} (hbound : stored.nextId ≤ bound)
    (hkept : ∀ previous, stored.tasks record.id = some previous →
      previous.isLive = true ∧ previous.toTaskNode = record.toTaskNode) :
    Grows stored { stored.putTask record with nextId := bound } := by
  refine ⟨?_, fun _ _ howner => howner, hbound⟩
  intro id previous hprevious
  by_cases hid : id = record.id
  · subst hid
    obtain ⟨hlive, hfields⟩ := hkept previous hprevious
    refine ⟨record, tasks_putTask_self, hfields.symm, ?_⟩
    intro hdead
    rw [hlive] at hdead
    cases hdead
  · exact ⟨previous, (tasks_putTask_of_ne hid).trans hprevious, rfl, fun _ => rfl⟩

theorem Forest.grows_write (hforest : Forest stored) (hwrite : stored.write change = some next) :
    Grows stored next := by
  obtain ⟨id, owner, rfl, hid, -, rfl⟩ | ⟨record, previous, rfl, hprevious, hlive, hfields, rfl⟩ |
    ⟨record, rfl, hnew, hid, -, -, rfl⟩ := write_cases hwrite
  · refine ⟨fun _ record hrecord => ⟨record, hrecord, rfl, fun _ => rfl⟩, ?_, Nat.le_succ_of_le hid⟩
    intro other found hfound
    have hne : other ≠ id := by
      rintro rfl
      cases (hforest.conversations_eq_none hid).symm.trans hfound
    exact (update_of_ne hne ..).trans hfound
  · apply grows_putTask (Nat.le_refl _)
    intro other hother
    cases hprevious.symm.trans hother
    exact ⟨hlive, hfields⟩
  apply grows_putTask (Nat.le_succ_of_le hid)
  intro other hother
  cases hnew.symm.trans hother

/-- A record may be put where it hangs from an older node that exists. -/
theorem Forest.putTask (hforest : Forest stored) {record : TaskRecord} {bound : Nat}
    (hgrows : Grows stored { stored.putTask record with nextId := bound })
    (hbound : record.id < bound)
    (hparent : stored.has (parentNode record.toTaskNode) = true ∧
      (parentNode record.toTaskNode).id < record.id) :
    Forest { stored.putTask record with nextId := bound } := by
  refine ⟨?_, ?_, ?_, ?_, ?_⟩
  · intro id found hfound
    by_cases hid : id = record.id
    · subst hid
      cases tasks_putTask_self.symm.trans hfound
      rfl
    · exact hforest.taskId id found ((tasks_putTask_of_ne hid).symm.trans hfound)
  · intro id found hfound
    by_cases hid : id = record.id
    · rw [hid]
      exact hbound
    exact Nat.lt_of_lt_of_le (hforest.taskBound id found
      ((tasks_putTask_of_ne hid).symm.trans hfound)) hgrows.nextId
  · intro id found hfound
    by_cases hid : id = record.id
    · subst hid
      cases tasks_putTask_self.symm.trans hfound
      exact ⟨hgrows.has hparent.1, hparent.2⟩
    obtain ⟨hhas, horder⟩ := hforest.taskParent id found
      ((tasks_putTask_of_ne hid).symm.trans hfound)
    exact ⟨hgrows.has hhas, horder⟩
  · intro id owner howner
    exact Nat.lt_of_lt_of_le (hforest.edgeBound id owner howner) hgrows.nextId
  intro id owner howner
  obtain ⟨htask, horder⟩ := hforest.owner id owner howner
  exact ⟨@Grows.has _ _ hgrows (.task owner) htask, horder⟩

variable {owner : Option TaskId}

theorem Forest.owner_lt (hforest : Forest stored)
    (hstored : stored.conversations id = some owner) : ∀ task ∈ owner, task < id := by
  rintro task rfl
  exact (hforest.owner id task hstored).2

theorem Forest.bound_of_has (hforest : Forest stored) {node : Node}
    (hnode : stored.has node = true) : node.id < stored.nextId := by
  cases node with
  | task id =>
    obtain ⟨record, hrecord⟩ := isSome_iff_exists.mp hnode
    exact hforest.taskBound id record hrecord
  | conversation id =>
    obtain ⟨owner, howner⟩ := isSome_iff_exists.mp hnode
    exact hforest.edgeBound id owner howner

theorem Forest.write (hforest : Forest stored) (hwrite : stored.write change = some next) :
    Forest next := by
  have hgrows := hforest.grows_write hwrite
  obtain ⟨id, owner, rfl, hid, howners, rfl⟩ |
    ⟨record, previous, rfl, hprevious, hlive, hfields, rfl⟩ |
    ⟨record, rfl, hnew, hid, -, hparent, rfl⟩ := write_cases hwrite
  · refine ⟨hforest.taskId, ?_, ?_, ?_, ?_⟩
    · intro task record hrecord
      exact Nat.lt_of_lt_of_le (hforest.taskBound task record hrecord) hgrows.nextId
    · intro task record hrecord
      obtain ⟨hhas, horder⟩ := hforest.taskParent task record hrecord
      exact ⟨hgrows.has hhas, horder⟩
    · intro other found hfound
      by_cases hother : other = id
      · rw [hother]
        exact Nat.lt_succ_self id
      exact Nat.lt_of_lt_of_le (hforest.edgeBound other found
        ((update_of_ne hother ..).symm.trans hfound)) hgrows.nextId
    intro other task hfound
    by_cases hother : other = id
    · subst hother
      dsimp only at hfound
      rw [update_self] at hfound
      have htask := howners task (some.inj hfound)
      exact ⟨htask, Nat.lt_of_lt_of_le (@Forest.bound_of_has _ hforest (.task task) htask) hid⟩
    · exact hforest.owner other task ((update_of_ne hother ..).symm.trans hfound)
  · apply hforest.putTask hgrows (hforest.taskBound record.id previous hprevious)
    rw [← hfields]
    exact hforest.taskParent record.id previous hprevious
  · apply hforest.putTask hgrows (Nat.lt_succ_self _)
    exact ⟨hparent, Nat.lt_of_lt_of_le (hforest.bound_of_has hparent) hid⟩

theorem apply_cons_eq_some (happly : stored.apply (change :: commit) = some next) :
    ∃ middle, stored.write change = some middle ∧ middle.apply commit = some next := by
  rw [Stored.apply, foldlM_cons] at happly
  exact bind_eq_some_iff.mp happly

theorem Forest.grows_apply (hforest : Forest stored) (happly : stored.apply commit = some next) :
    Grows stored next := by
  induction commit generalizing stored with
  | nil =>
    obtain rfl := some.inj happly
    exact .refl stored
  | cons change commit ih =>
    obtain ⟨middle, hwrite, hrest⟩ := apply_cons_eq_some happly
    exact (hforest.grows_write hwrite).trans (ih (hforest.write hwrite) hrest)

theorem Forest.apply (hforest : Forest stored) (happly : stored.apply commit = some next) :
    Forest next := by
  induction commit generalizing stored with
  | nil =>
    cases happly
    exact hforest
  | cons change commit ih =>
    obtain ⟨middle, hwrite, hrest⟩ := apply_cons_eq_some happly
    exact ih (hforest.write hwrite) hrest

/-- A commit's edges are stored as it wrote them. -/
theorem Forest.edge_apply (hforest : Forest stored) (happly : stored.apply commit = some next)
    {edge : ConversationId × Option TaskId} (hedge : edge ∈ commit.edges) :
    next.conversations edge.1 = some edge.2 := by
  induction commit generalizing stored with
  | nil => cases hedge
  | cons change commit ih =>
    obtain ⟨middle, hwrite, hrest⟩ := apply_cons_eq_some happly
    have hmiddle := hforest.write hwrite
    obtain ⟨other, hother, hsome⟩ := mem_filterMap.mp hedge
    rcases mem_cons.mp hother with rfl | hlater
    · cases other with
      | task record => cases hsome
      | conversation id owner =>
        cases hsome
        apply (hmiddle.grows_apply hrest).edge
        rw [Stored.write] at hwrite
        split at hwrite
        · cases hwrite
          exact update_self ..
        · cases hwrite
    · exact ih hmiddle hrest (mem_filterMap.mpr ⟨other, hlater, hsome⟩)

theorem tasks_write_task (hwrite : stored.write (.task record) = some next) :
    next.tasks = update stored.tasks record.id (some record) := by
  obtain ⟨_, _, heq, -⟩ | ⟨_, _, heq, -, -, -, rfl⟩ | ⟨_, heq, -, -, -, -, rfl⟩ := write_cases hwrite
  · cases heq
  · cases heq
    rfl
  cases heq
  rfl

theorem tasks_write_conversation
    (hwrite : stored.write (.conversation id owner) = some next) : next.tasks = stored.tasks := by
  rw [Stored.write] at hwrite
  split at hwrite
  · cases hwrite
    rfl
  · cases hwrite

/-- A commit's records keep their ownership fields to its end. -/
theorem Forest.record_apply (hforest : Forest stored) (happly : stored.apply commit = some next)
    {record : TaskRecord} (hrecord : record ∈ commit.records) :
    ∃ later, next.tasks record.id = some later ∧ later.toTaskNode = record.toTaskNode := by
  induction commit generalizing stored with
  | nil => cases hrecord
  | cons change commit ih =>
    obtain ⟨middle, hwrite, hrest⟩ := apply_cons_eq_some happly
    have hmiddle := hforest.write hwrite
    obtain ⟨other, hother, hsome⟩ := mem_filterMap.mp hrecord
    rcases mem_cons.mp hother with rfl | hlater
    · cases other with
      | conversation id owner => cases hsome
      | task found =>
        obtain rfl := some.inj hsome
        have hput : middle.tasks found.id = some found := by
          rw [tasks_write_task hwrite, update_self]
        obtain ⟨later, hfound, hsame, -⟩ := (hmiddle.grows_apply hrest).task found.id found hput
        exact ⟨later, hfound, hsame⟩
    · exact ih hmiddle hrest (mem_filterMap.mpr ⟨other, hlater, hsome⟩)

/-- A terminal record replaces a live one. -/
theorem live_of_write_terminal (hterminal : record.state = .terminal)
    (hwrite : stored.write (.task record) = some next) :
    ∃ previous, stored.tasks record.id = some previous ∧ previous.isLive = true := by
  obtain ⟨_, _, heq, -⟩ | ⟨_, previous, heq, hprevious, hlive, -⟩ | ⟨_, heq, -, -, hlive, -⟩ :=
    write_cases hwrite
  · cases heq
  · cases heq
    exact ⟨previous, hprevious, hlive⟩
  cases heq
  rw [TaskRecord.isLive, hterminal] at hlive
  cases hlive

end Stored

namespace Memory

variable {memory : Memory} {node : Node}

/-- What memory knows of a node is what is stored. -/
structure Agrees (memory : Memory) (stored : Stored) : Prop where
  fields : ∀ id fields, memory.taskNode id = some fields →
    ∃ record, stored.tasks id = some record ∧ record.toTaskNode = fields
  edge : ∀ id owner, memory.edges id = some owner → stored.conversations id = some owner

/-- The live tasks are those stored. -/
def MirrorsLive (memory : Memory) (stored : Stored) : Prop :=
  ∀ id, memory.live id = (stored.tasks id).filter TaskRecord.isLive

theorem Agrees.grows (hagrees : Agrees memory stored) (hgrows : Stored.Grows stored next) :
    Agrees memory next := by
  constructor
  · intro id fields hfields
    obtain ⟨record, hrecord, rfl⟩ := hagrees.fields id fields hfields
    obtain ⟨later, hlater, hsame, -⟩ := hgrows.task id record hrecord
    exact ⟨later, hlater, hsame⟩
  intro id owner howner
  exact hgrows.edge id owner (hagrees.edge id owner howner)

theorem Agrees.congr {later : Memory} (hagrees : Agrees memory stored)
    (hsame : SameNodes memory later) : Agrees later stored := by
  constructor
  · intro id fields hfields
    exact hagrees.fields id fields ((hsame.taskNode id).symm.trans hfields)
  intro id owner howner
  rw [hsame.edges] at howner
  exact hagrees.edge id owner howner

/-- A known node hangs where its record says. -/
theorem Agrees.hangs (hagrees : Agrees memory stored) (hforest : Stored.Forest stored) {up : Node}
    (hup : memory.parent node = some (some up)) : stored.has up = true := by
  cases node with
  | task id =>
    rw [Memory.parent, map_eq_some_iff] at hup
    obtain ⟨fields, hfields, hparent⟩ := hup
    obtain ⟨record, hrecord, rfl⟩ := hagrees.fields id fields hfields
    cases hparent
    exact (hforest.taskParent id record hrecord).1
  | conversation id =>
    rw [Memory.parent, map_eq_some_iff] at hup
    obtain ⟨edge, hedge, hparent⟩ := hup
    obtain ⟨owner, rfl, rfl⟩ := map_eq_some_iff.mp hparent
    exact (hforest.owner id owner (hagrees.edge id _ hedge)).1

/-! ### Publications -/

theorem live_relist (node : Node) : (memory.relist node).live = memory.live :=
  (relists_relist node).live

variable {record : TaskRecord}

theorem live_track :
    (memory.track record).live =
      update memory.live record.id (if record.isLive then some record else none) := by
  rw [Memory.track]
  split
  next hterminal =>
    rw [(relists_relist_dropIfUnneeded _).live, TaskRecord.isLive, hterminal]
    rfl
  rename_i hlive
  have hisLive : record.isLive = true := by
    rw [TaskRecord.isLive, bne_iff_ne]
    exact hlive
  rw [hisLive, if_pos rfl]
  split
  · rfl
  rw [live_relist]
  rfl

theorem taskNode_track_self :
    (memory.track record).taskNode record.id = some record.toTaskNode := by
  rw [Memory.track]
  split
  · rw [(relists_relist_dropIfUnneeded _).taskNode]
    exact taskNode_setEnded_self
  split
  · exact taskNode_setLive_self
  rw [(relists_relist _).taskNode]
  exact taskNode_setLive_self

theorem taskNode_track_of_ne (hne : id ≠ record.id) :
    (memory.track record).taskNode id = memory.taskNode id := by
  rw [Memory.track]
  split
  · rw [(relists_relist_dropIfUnneeded _).taskNode, Memory.taskNode, Memory.setEnded]
    dsimp only
    rw [update_of_ne hne, update_of_ne hne, Memory.taskNode]
  split
  · exact taskNode_setLive_of_ne hne
  rw [(relists_relist _).taskNode]
  exact taskNode_setLive_of_ne hne

theorem edges_track : (memory.track record).edges = memory.edges := by
  rw [Memory.track]
  split
  · rw [(relists_relist_dropIfUnneeded _).edges]
    rfl
  split
  · rfl
  rw [(relists_relist _).edges]
  rfl

theorem Agrees.track (hagrees : Agrees memory stored) {record : TaskRecord}
    (hrecord : ∃ later, stored.tasks record.id = some later ∧
      later.toTaskNode = record.toTaskNode) : Agrees (memory.track record) stored := by
  constructor
  · intro id fields hfields
    by_cases hid : id = record.id
    · subst hid
      cases taskNode_track_self.symm.trans hfields
      exact hrecord
    · exact hagrees.fields id fields ((taskNode_track_of_ne hid).symm.trans hfields)
  intro id owner howner
  rw [edges_track] at howner
  exact hagrees.edge id owner howner

/-- A stored record's fields fit what memory knows. -/
theorem Agrees.fits (hagrees : Agrees memory stored) (hforest : Stored.Forest stored)
    {record : TaskRecord} (hrecord : ∃ later, stored.tasks record.id = some later ∧
      later.toTaskNode = record.toTaskNode) : Fits memory record := by
  obtain ⟨later, hlater, hsame⟩ := hrecord
  constructor
  · intro fields hfields
    obtain ⟨found, hfound, rfl⟩ := hagrees.fields record.id fields hfields
    cases hlater.symm.trans hfound
    exact hsame
  rw [← hsame]
  exact (hforest.taskParent record.id later hlater).2

/-- An index that is tidy, agrees with the store, and has the loaded chains it says. -/
structure Exact (memory : Memory) (stored : Stored) : Prop extends Tidy memory where
  chained : Chained memory
  agrees : Agrees memory stored

theorem Exact.track (hexact : Exact memory stored) (hforest : Stored.Forest stored)
    {record : TaskRecord} (hrecord : ∃ later, stored.tasks record.id = some later ∧
      later.toTaskNode = record.toTaskNode)
    (hends : record.state = .terminal → memory.live record.id ≠ none) :
    Exact (memory.track record) stored := by
  have hfits := hexact.agrees.fits hforest hrecord
  exact ⟨hexact.toTidy.track hfits, hexact.chained.track hexact.toHung hfits hends,
    hexact.agrees.track hrecord⟩

variable {owner : Option TaskId}

theorem Exact.setEdge (hexact : Exact memory stored) (hforest : Stored.Forest stored)
    {id : ConversationId} (hnew : memory.edges id = none)
    (hstored : stored.conversations id = some owner) : Exact (memory.setEdge id owner) stored := by
  have howner := hforest.owner_lt hstored
  have hagrees : Agrees (memory.putEdge id owner) stored := by
    refine ⟨hexact.agrees.fields, ?_⟩
    intro other found hfound
    by_cases hother : other = id
    · subst hother
      rw [putEdge] at hfound
      dsimp only at hfound
      rw [update_self] at hfound
      cases hfound
      exact hstored
    · exact hexact.agrees.edge other found ((update_of_ne hother ..).symm.trans hfound)
  exact ⟨hexact.toTidy.setEdge hnew howner, hexact.chained.setEdge hnew howner,
    hagrees.congr (relists_relist_dropIfUnneeded _).toSameNodes⟩

theorem live_setEdge {id : ConversationId} : (memory.setEdge id owner).live = memory.live :=
  (relists_relist_dropIfUnneeded _).live

theorem extends_setEdge {id : ConversationId}
    (hnew : memory.edges id = none) (howner : ∀ task ∈ owner, task < id) :
    Extends memory (memory.setEdge id owner) :=
  (installs_putEdge hnew howner).extends.trans
    (relists_relist_dropIfUnneeded _).toSameNodes.extends

theorem Fits.extends_track (hfits : Fits memory record) : Extends memory (memory.track record) := by
  rw [Memory.track]
  split
  · exact hfits.installs_setEnded.extends.trans (relists_relist_dropIfUnneeded _).toSameNodes.extends
  split
  · exact hfits.installs_setLive.extends
  · exact hfits.installs_markUnloaded.extends.trans (relists_relist _).toSameNodes.extends

theorem Exact.publishEdges (hexact : Exact memory stored) (hforest : Stored.Forest stored)
    {edges : List (ConversationId × Option TaskId)}
    (hedges : ∀ edge ∈ edges, stored.conversations edge.1 = some edge.2) :
    Exact (edges.foldl Memory.publishEdge memory) stored ∧
      (edges.foldl Memory.publishEdge memory).live = memory.live ∧
      Extends memory (edges.foldl Memory.publishEdge memory) := by
  induction edges generalizing memory with
  | nil => exact ⟨hexact, rfl, .refl memory⟩
  | cons edge edges ih =>
    have hstep : Exact (memory.publishEdge edge) stored ∧
        (memory.publishEdge edge).live = memory.live ∧
        Extends memory (memory.publishEdge edge) := by
      rw [publishEdge]
      split
      · exact ⟨hexact, rfl, .refl memory⟩
      rename_i hunknown
      rw [not_isSome_iff_eq_none] at hunknown
      have hstored := hedges edge mem_cons_self
      exact ⟨hexact.setEdge hforest hunknown hstored, live_setEdge,
        extends_setEdge hunknown (hforest.owner_lt hstored)⟩
    obtain ⟨hrest, hlive, hextends⟩ := ih hstep.1 fun other hother =>
      hedges other (mem_cons_of_mem edge hother)
    exact ⟨hrest, hlive.trans hstep.2.1, hstep.2.2.trans hextends⟩

/-- Memory and the store take a commit's records in step. -/
theorem Exact.trackAll {final : Stored} (hexact : Exact memory final)
    (hfinal : Stored.Forest final) (hlive : MirrorsLive memory stored)
    (happly : stored.apply commit = some next)
    (hrecords : ∀ record ∈ commit.records, ∃ later, final.tasks record.id = some later ∧
      later.toTaskNode = record.toTaskNode) :
    Exact (commit.records.foldl Memory.track memory) final ∧
      MirrorsLive (commit.records.foldl Memory.track memory) next ∧
      Extends memory (commit.records.foldl Memory.track memory) := by
  induction commit generalizing memory stored with
  | nil =>
    cases happly
    exact ⟨hexact, hlive, .refl memory⟩
  | cons change commit ih =>
    obtain ⟨middle, hwrite, hrest⟩ := Stored.apply_cons_eq_some happly
    cases change with
    | conversation id owner =>
      apply ih hexact _ hrest hrecords
      intro task
      rw [Stored.tasks_write_conversation hwrite]
      exact hlive task
    | task record =>
      have hfirst := hrecords record mem_cons_self
      have htracked : Exact (memory.track record) final := by
        apply hexact.track hfinal hfirst
        intro hterminal
        obtain ⟨previous, hprevious, hwasLive⟩ := Stored.live_of_write_terminal hterminal hwrite
        rw [hlive, hprevious, filter_some_pos hwasLive]
        exact some_ne_none _
      have hmiddle : MirrorsLive (memory.track record) middle := by
        intro task
        rw [live_track, Stored.tasks_write_task hwrite]
        by_cases htask : task = record.id
        · rw [htask, update_self, update_self, filter_some]
        rw [update_of_ne htask, update_of_ne htask]
        exact hlive task
      obtain ⟨hrestExact, hrestLive, hextends⟩ := ih htracked hmiddle hrest
        fun other hother => hrecords other (mem_cons_of_mem record hother)
      exact ⟨hrestExact, hrestLive, (hexact.agrees.fits hfinal hfirst).extends_track.trans hextends⟩

theorem Exact.publish (hexact : Exact memory stored) (hforest : Stored.Forest stored)
    (hlive : MirrorsLive memory stored) (happly : stored.apply commit = some next) :
    Exact (memory.publish commit) next ∧ MirrorsLive (memory.publish commit) next ∧
      Extends memory (memory.publish commit) := by
  have hfinal := hforest.apply happly
  have hnext : Exact memory next :=
    ⟨hexact.toTidy, hexact.chained, hexact.agrees.grows (hforest.grows_apply happly)⟩
  obtain ⟨hedged, hsame, hextends⟩ :=
    hnext.publishEdges hfinal fun edge => hforest.edge_apply happly
  have hedgedLive : MirrorsLive (commit.edges.foldl Memory.publishEdge memory) stored := by
    intro id
    rw [hsame]
    exact hlive id
  obtain ⟨htracked, htrackedLive, htrackedExtends⟩ :=
    hedged.trackAll hfinal hedgedLive happly fun record => hforest.record_apply happly
  exact ⟨htracked, htrackedLive, hextends.trans htrackedExtends⟩

theorem taskNode_foldl_publishEdge {id : TaskId} (edges : List (ConversationId × Option TaskId)) :
    (edges.foldl Memory.publishEdge memory).taskNode id = memory.taskNode id := by
  induction edges generalizing memory with
  | nil => rfl
  | cons edge edges ih =>
    rw [foldl_cons, ih, publishEdge]
    split
    · rfl
    · exact (relists_relist_dropIfUnneeded _).taskNode id

theorem taskNode_foldl_track {id : TaskId} {records : List TaskRecord}
    (hid : ∀ record ∈ records, record.id ≠ id) :
    (records.foldl Memory.track memory).taskNode id = memory.taskNode id := by
  induction records generalizing memory with
  | nil => rfl
  | cons record records ih =>
    rw [foldl_cons, ih fun other hother => hid other (mem_cons_of_mem record hother)]
    exact taskNode_track_of_ne (hid record mem_cons_self).symm

/-- A publication makes nothing known of the tasks it does not write. -/
theorem taskNode_publish_of_ne {id : TaskId} (hid : ∀ record ∈ commit.records, record.id ≠ id) :
    (memory.publish commit).taskNode id = memory.taskNode id :=
  (taskNode_foldl_track hid).trans (taskNode_foldl_publishEdge commit.edges)

end Memory

end Hummin.Scheduler
