/-
Chain loads: what a load installs keeps the index exact, and where it arrives the tasks it
passed have a loaded chain.
-/
import Hummin.OwnershipForest

namespace Hummin.Scheduler

open List Option

variable {memory : Memory} {stored next admitted candidates : Stored} {commit : Commit}
  {load : Load} {node : Node}

namespace Stored

/-- What a commit adds it writes. -/
theorem has_of_write {change : Write} (hwrite : stored.write change = some next)
    (hnode : next.has node = true) :
    stored.has node = true ∨ Commit.writes [change] node = true := by
  obtain ⟨id, owner, rfl, -, -, rfl⟩ | ⟨record, _, rfl, -, -, -, rfl⟩ |
    ⟨record, rfl, -, -, -, -, rfl⟩ := write_cases hwrite
  · cases node with
    | task task => exact .inl hnode
    | conversation other =>
      by_cases hother : other = id
      · right
        simp [Commit.writes, Commit.edges, Write.edge?, hother]
      left
      rw [Stored.has] at hnode ⊢
      dsimp only at hnode
      rwa [Function.update_of_ne hother] at hnode
  · cases node with
    | conversation other => exact .inl hnode
    | task id =>
      by_cases hid : id = record.id
      · right
        simp [Commit.writes, Commit.records, Write.record?, hid]
      left
      rw [Stored.has] at hnode ⊢
      rwa [tasks_putTask_of_ne hid] at hnode
  cases node with
  | conversation other => exact .inl hnode
  | task id =>
    by_cases hid : id = record.id
    · right
      simp [Commit.writes, Commit.records, Write.record?, hid]
    left
    rw [Stored.has] at hnode ⊢
    rwa [tasks_putTask_of_ne hid] at hnode

theorem writes_cons (change : Write) :
    Commit.writes (change :: commit) node = true ↔
      Commit.writes [change] node = true ∨ Commit.writes commit node = true := by
  cases node <;> cases change <;>
    simp [Commit.writes, Commit.records, Commit.edges, Write.record?, Write.edge?]

theorem has_of_apply (happly : stored.apply commit = some next) (hnode : next.has node = true) :
    stored.has node = true ∨ Commit.writes commit node = true := by
  induction commit generalizing stored with
  | nil =>
    cases happly
    exact .inl hnode
  | cons change commit ih =>
    obtain ⟨middle, hwrite, hrest⟩ := apply_cons_eq_some happly
    rw [writes_cons]
    rcases ih hrest with hmiddle | hwrites
    · exact (has_of_write hwrite hmiddle).imp_right .inl
    · exact .inr (.inr hwrites)

/-- New conversations have new ids. -/
theorem Forest.nextId_le_of_mem_edges (hforest : Forest stored)
    (happly : stored.apply commit = some next) {edge : ConversationId × Option TaskId}
    (hedge : edge ∈ commit.edges) : stored.nextId ≤ edge.1 := by
  induction commit generalizing stored with
  | nil => cases hedge
  | cons change commit ih =>
    obtain ⟨middle, hwrite, hrest⟩ := apply_cons_eq_some happly
    obtain ⟨other, hother, hsome⟩ := mem_filterMap.mp hedge
    rcases mem_cons.mp hother with rfl | hlater
    · obtain ⟨id, owner, rfl, hid, -⟩ | ⟨_, _, rfl, -⟩ | ⟨_, rfl, -⟩ := write_cases hwrite
      · cases hsome
        exact hid
      · cases hsome
      · cases hsome
    exact Nat.le_trans (hforest.grows_write hwrite).nextId
      (ih (hforest.write hwrite) hrest (mem_filterMap.mpr ⟨other, hlater, hsome⟩))

/-- An ended task is not written again. -/
theorem Forest.id_ne_of_ended (hforest : Forest stored) (happly : stored.apply commit = some next)
    {id : TaskId} {ended : TaskRecord} (hended : stored.tasks id = some ended)
    (hdead : ended.isLive = false) {record : TaskRecord} (hrecord : record ∈ commit.records) :
    record.id ≠ id := by
  induction commit generalizing stored with
  | nil => cases hrecord
  | cons change commit ih =>
    obtain ⟨middle, hwrite, hrest⟩ := apply_cons_eq_some happly
    obtain ⟨other, hother, hsome⟩ := mem_filterMap.mp hrecord
    rcases mem_cons.mp hother with rfl | hlater
    · rintro rfl
      obtain ⟨_, _, rfl, -⟩ | ⟨_, previous, rfl, hprevious, hlive, -⟩ | ⟨_, rfl, hnone, -⟩ :=
        write_cases hwrite
      · cases hsome
      · cases hsome
        cases hended.symm.trans hprevious
        rw [hdead] at hlive
        cases hlive
      cases hsome
      cases hended.symm.trans hnone
    obtain ⟨later, hfound, -, hsame⟩ := (hforest.grows_write hwrite).task id ended hended
    rw [hsame hdead] at hfound
    exact ih (hforest.write hwrite) hrest hfound (mem_filterMap.mpr ⟨other, hlater, hsome⟩)

end Stored

variable {overlay : Overlay}

theorem Overlay.mem_records_of_task {id : TaskId}
    (htask : (overlay.task id).isSome = true) : ∃ record ∈ Commit.records overlay, record.id = id := by
  rw [Overlay.task, find?_isSome] at htask
  obtain ⟨record, hrecord, hid⟩ := htask
  exact ⟨record, hrecord, of_decide_eq_true hid⟩

theorem Overlay.isSome_edge_iff {id : ConversationId} :
    (overlay.edge id).isSome = Commit.writes overlay (.conversation id) := by
  rw [Overlay.edge, isSome_map, isSome_find?, Commit.writes]

theorem Overlay.mem_edges_of_edge {id : ConversationId} {owner : Option TaskId}
    (hedge : overlay.edge id = some owner) : (id, owner) ∈ Commit.edges overlay := by
  rw [Overlay.edge, map_eq_some_iff] at hedge
  obtain ⟨edge, hfound, rfl⟩ := hedge
  have hid := find?_some hfound
  rw [← of_decide_eq_true hid]
  exact mem_of_find?_eq_some hfound

namespace Memory

/-- A load underway: the tasks it passed lead up to where it is.  It passes stored nodes
only, and where it is exists under the job's candidates. -/
structure LoadSound (memory : Memory) (stored admitted candidates : Stored) (load : Load) :
    Prop where
  passed : ∀ id ∈ load.passed, (stored.tasks id).isSome = true ∧
    (memory.taskNode id ≠ none → Above memory (.task id) load.here)
  stored : load.passed ≠ [] → stored.has load.here = true
  apply : admitted.apply load.overlay = some candidates
  here : candidates.has load.here = true

theorem Exact.congr {later : Memory} (hexact : Exact memory stored) (htidy : Tidy later)
    (hsame : SameNodes memory later) (hunloaded : ∀ id ∈ memory.unloaded, id ∈ later.unloaded) :
    Exact later stored :=
  ⟨htidy, hexact.chained.congr hsame hunloaded, hexact.agrees.congr hsame⟩

theorem Exact.pin (hexact : Exact memory stored) : Exact (memory.pin node) stored :=
  hexact.congr hexact.toTidy.pin ⟨rfl, rfl, rfl⟩ fun _ hid => hid

/-- Where a load arrives at a rooted node, the passed tasks have a loaded chain. -/
theorem Exact.loaded (hexact : Exact memory stored) {passed : List TaskId}
    (hpassed : ∀ id ∈ passed, memory.taskNode id ≠ none → Rooted memory (.task id)) :
    Exact (memory.loaded passed) stored := by
  have hsame : SameNodes memory (memory.loaded passed) := ⟨rfl, rfl, rfl⟩
  refine ⟨hexact.toTidy.loaded passed, ?_, hexact.agrees.congr hsame⟩
  intro id hknown hloaded
  rw [hsame.taskNode] at hknown
  apply Rooted.mono _ hsame.extends
  by_cases hid : id ∈ passed
  · exact hpassed id hid hknown
  apply hexact.chained id hknown
  intro hunloaded
  apply hloaded
  rw [Memory.loaded, mem_filter, decide_eq_true_eq]
  exact ⟨hunloaded, hid⟩

variable {id : TaskId} {record : TaskRecord}

theorem Exact.settle (hexact : Exact memory stored) (hforest : Stored.Forest stored)
    (hnew : memory.taskNode id = none) (hrecord : stored.tasks id = some record) :
    Exact (memory.settle id record.toTaskNode) stored := by
  have hordered := (hforest.taskParent id record hrecord).2
  have hagrees : Agrees (memory.putSettled id record.toTaskNode) stored := by
    refine ⟨?_, hexact.agrees.edge⟩
    intro other fields hfields
    by_cases hother : other = id
    · subst hother
      cases (taskNode_putSettled_self hnew).symm.trans hfields
      exact ⟨record, hrecord, rfl⟩
    · exact hexact.agrees.fields other fields ((taskNode_putSettled_of_ne hother).symm.trans hfields)
  exact ⟨hexact.toTidy.settle hnew hordered, hexact.chained.settle hnew hordered,
    hagrees.congr (relists_relist_dropIfUnneeded _).toSameNodes⟩

variable {fields : TaskNode}

theorem extends_settle (hnew : memory.taskNode id = none)
    (hordered : (parentNode fields).id < id) : Extends memory (memory.settle id fields) :=
  (installs_putSettled hnew hordered).extends.trans
    (relists_relist_dropIfUnneeded _).toSameNodes.extends

theorem taskNode_settle_self (hnew : memory.taskNode id = none) :
    (memory.settle id fields).taskNode id = some fields :=
  ((relists_relist_dropIfUnneeded _).taskNode id).trans (taskNode_putSettled_self hnew)

theorem taskNode_settle_of_ne {task : TaskId} (hne : task ≠ id) :
    (memory.settle id fields).taskNode task = memory.taskNode task :=
  ((relists_relist_dropIfUnneeded _).taskNode task).trans (taskNode_putSettled_of_ne hne)

theorem parent_setEdge_self {id : ConversationId} {owner : Option TaskId} :
    (memory.setEdge id owner).parent (.conversation id) = some (owner.map Node.task) :=
  ((relists_relist_dropIfUnneeded _).parent _).trans parent_putEdge_self

theorem LoadSound.rooted (hload : LoadSound memory stored admitted candidates load)
    (hrooted : Rooted memory load.here) :
    ∀ id ∈ load.passed, memory.taskNode id ≠ none → Rooted memory (.task id) :=
  fun id hid hknown => hrooted.of_above ((hload.passed id hid).2 hknown)

/-- A stored task that memory does not know has ended. -/
theorem MirrorsLive.isLive_eq_false (hlive : MirrorsLive memory stored)
    (hunknown : memory.taskNode id = none)
    (hrecord : stored.tasks id = some record) : record.isLive = false := by
  by_contra hnot
  have hmirror := hlive id
  rw [live_eq_none_of_taskNode hunknown, hrecord,
    filter_some_pos (Bool.not_eq_false _ ▸ hnot)] at hmirror
  cases hmirror

section

variable (hload : LoadSound memory stored admitted candidates load)

include hload

variable {owner : Option TaskId}

/-- A load that passed a task is at a stored node, which no candidate creates. -/
theorem LoadSound.passed_eq_nil_of_edge (hgrows : Stored.Grows stored admitted)
    (hforest : Stored.Forest stored) (hadmitted : Stored.Forest admitted) {id : ConversationId}
    (hhere : load.here = .conversation id) (hedge : load.overlay.edge id = some owner) :
    load.passed = [] := by
  by_contra hpassed
  have hstored := hload.stored hpassed
  rw [hhere] at hstored
  have hbound : id < stored.nextId := hforest.bound_of_has hstored
  have hnew : admitted.nextId ≤ id :=
    hadmitted.nextId_le_of_mem_edges hload.apply (Overlay.mem_edges_of_edge hedge)
  exact absurd (Nat.lt_of_lt_of_le hbound hgrows.nextId) (Nat.not_lt_of_le hnew)

theorem LoadSound.passed_eq_nil_of_task (hgrows : Stored.Grows stored admitted)
    (hadmitted : Stored.Forest admitted)
    (hlive : MirrorsLive memory stored) {id : TaskId} (hhere : load.here = .task id)
    (hunknown : memory.taskNode id = none) (htask : (load.overlay.task id).isSome = true) :
    load.passed = [] := by
  by_contra hpassed
  have hstored := hload.stored hpassed
  rw [hhere] at hstored
  obtain ⟨ended, hended⟩ := isSome_iff_exists.mp hstored
  have hdead := hlive.isLive_eq_false hunknown hended
  obtain ⟨later, hlater, -, hsame⟩ := hgrows.task id ended hended
  rw [hsame hdead] at hlater
  obtain ⟨record, hrecord, hid⟩ := Overlay.mem_records_of_task htask
  exact hadmitted.id_ne_of_ended hload.apply hlater hdead hrecord hid

/-- Going up from a node that hangs from another keeps the load sound. -/
theorem LoadSound.up (hexact : Exact memory stored) (hforest : Stored.Forest stored)
    (hgrows : Stored.Grows stored candidates) {up : Node}
    (hup : memory.parent load.here = some (some up)) :
    LoadSound memory stored admitted candidates { load with here := up } := by
  have hstored := hexact.agrees.hangs hforest hup
  refine ⟨?_, fun _ => hstored, hload.apply, hgrows.has hstored⟩
  intro id hid
  refine ⟨(hload.passed id hid).1, fun hknown => ?_⟩
  exact ((hload.passed id hid).2 hknown).tail hup

/-- Passing the known task a load has come to keeps it sound. -/
theorem LoadSound.pass (hexact : Exact memory stored) (hforest : Stored.Forest stored)
    (hgrows : Stored.Grows stored candidates) {id : TaskId} {fields : TaskNode}
    (hhere : load.here = .task id) (hfields : memory.taskNode id = some fields) :
    LoadSound memory stored admitted candidates
      { load with passed := load.passed ++ [id], here := parentNode fields } := by
  have hup : memory.parent load.here = some (some (parentNode fields)) :=
    hhere ▸ parent_task_of_taskNode hfields
  have honward := hload.up hexact hforest hgrows hup
  refine ⟨?_, fun _ => hexact.agrees.hangs hforest hup, hload.apply, honward.here⟩
  refine forall_mem_append.mpr ⟨honward.passed, forall_mem_singleton.mpr ?_⟩
  obtain ⟨record, hrecord, -⟩ := hexact.agrees.fields id fields hfields
  exact ⟨isSome_iff_exists.mpr ⟨record, hrecord⟩,
    fun _ => .single (parent_task_of_taskNode hfields)⟩

/-- Passing the ended task a load has come to and installed keeps it sound. -/
theorem LoadSound.settle (hforest : Stored.Forest stored) (hgrows : Stored.Grows stored candidates)
    {id : TaskId} {record : TaskRecord}
    (hhere : load.here = .task id) (hnew : memory.taskNode id = none)
    (hrecord : stored.tasks id = some record) :
    LoadSound (memory.settle id record.toTaskNode) stored admitted candidates
      { load with passed := load.passed ++ [id], here := parentNode record.toTaskNode } := by
  obtain ⟨hparent, hordered⟩ := hforest.taskParent id record hrecord
  have hstored : (stored.tasks id).isSome = true := isSome_iff_exists.mpr ⟨record, hrecord⟩
  have hup := parent_task_of_taskNode (@taskNode_settle_self memory id record.toTaskNode hnew)
  refine ⟨?_, fun _ => hparent, hload.apply, hgrows.has hparent⟩
  intro other hother
  by_cases hid : other = id
  · rw [hid]
    exact ⟨hstored, fun _ => .single hup⟩
  have hold : other ∈ load.passed := by
    rcases mem_append.mp hother with hold | hlast
    · exact hold
    · exact absurd (mem_singleton.mp hlast) hid
  refine ⟨(hload.passed other hold).1, fun hknown => ?_⟩
  rw [taskNode_settle_of_ne hid] at hknown
  have habove := (hload.passed other hold).2 hknown
  rw [hhere] at habove
  exact (habove.mono (extends_settle hnew hordered)).tail hup

theorem LoadSound.setEdge {id : ConversationId} (hnew : memory.edges id = none)
    (howner : ∀ task ∈ owner, task < id) :
    LoadSound (memory.setEdge id owner) stored admitted candidates load := by
  refine ⟨?_, hload.stored, hload.apply, hload.here⟩
  intro task htask
  refine ⟨(hload.passed task htask).1, fun hknown => ?_⟩
  have hsame : (memory.setEdge id owner).taskNode task = memory.taskNode task :=
    (relists_relist_dropIfUnneeded _).taskNode task
  rw [hsame] at hknown
  exact ((hload.passed task htask).2 hknown).mono (extends_setEdge hnew howner)

theorem LoadSound.pin : LoadSound (memory.pin node) stored admitted candidates load :=
  ⟨hload.passed, hload.stored, hload.apply, hload.here⟩

end

/-- What one climbed node leaves. -/
def ClimbSound (stored admitted candidates : Stored) : Climb → Prop
  | .on memory _ load => Exact memory stored ∧ MirrorsLive memory stored ∧
      LoadSound memory stored admitted candidates load
  | .arrived memory _ => Exact memory stored ∧ MirrorsLive memory stored
  | .missing => True

/-- A record no candidate or unpublished commit writes is stored. -/
theorem LoadSound.stored_here (hload : LoadSound memory stored admitted candidates load)
    (hread : (memory.parent load.here).isSome = true ∨ Commit.writes load.overlay load.here = true ∨
      (admitted.has load.here = true → stored.has load.here = true))
    (hunknown : memory.parent load.here = none)
    (hunwritten : Commit.writes load.overlay load.here = false) : stored.has load.here = true := by
  rcases hread with hknown | hwritten | hstored
  · rw [hunknown] at hknown
    cases hknown
  · rw [hunwritten] at hwritten
    cases hwritten
  rcases Stored.has_of_apply hload.apply hload.here with hadmitted | hwritten
  · exact hstored hadmitted
  rw [hunwritten] at hwritten
  cases hwritten

section Climb

variable (hexact : Exact memory stored) (hforest : Stored.Forest stored)
  (hlive : MirrorsLive memory stored) (hadmittedGrows : Stored.Grows stored admitted)
  (hadmitted : Stored.Forest admitted)
  (hload : LoadSound memory stored admitted candidates load)

include hexact hforest hlive hadmittedGrows hadmitted hload

theorem climbSound_task {id : TaskId} (hhere : load.here = .task id) :
    ClimbSound stored admitted candidates (memory.climb stored load) := by
  have hgrows := hadmittedGrows.trans (hadmitted.grows_apply hload.apply)
  rw [Memory.climb, hhere]
  dsimp only
  split
  next fields hfields =>
    split
    · exact ⟨hexact, hlive, hload.pass hexact hforest hgrows hhere hfields⟩
    rename_i hloaded
    refine ⟨hexact.loaded (hload.rooted ?_), hlive⟩
    rw [hhere]
    exact hexact.chained id (hfields ▸ some_ne_none _) hloaded
  rename_i hunknown
  split
  next htask =>
    have hpassed := hload.passed_eq_nil_of_task hadmittedGrows hadmitted hlive hhere hunknown
      htask
    refine ⟨hexact.loaded ?_, hlive⟩
    rw [hpassed]
    exact fun _ hid => absurd hid not_mem_nil
  rename_i htask
  split
  · trivial
  rename_i record hrecord
  split
  · refine ⟨(hexact.settle hforest hunknown hrecord).pin, ?_,
      (hload.settle hforest hgrows hhere hunknown hrecord).pin⟩
    intro task
    rw [← hlive task]
    exact congrFun (relists_relist_dropIfUnneeded _).live task
  next hnot =>
    have hdead := hlive.isLive_eq_false hunknown hrecord
    rw [TaskRecord.isLive, bne_eq_false_iff_eq] at hdead
    exact absurd hdead hnot

section

variable
  (hread : (memory.parent load.here).isSome = true ∨ Commit.writes load.overlay load.here = true ∨ (admitted.has load.here = true → stored.has load.here = true))
include hread

theorem climbSound_conversation {id : ConversationId} (hhere : load.here = .conversation id) :
    ClimbSound stored admitted candidates (memory.climb stored load) := by
  have hcandidates := hadmitted.apply hload.apply
  have hgrows := hadmittedGrows.trans (hadmitted.grows_apply hload.apply)
  rw [Memory.climb, hhere]
  dsimp only
  cases hoverlay : load.overlay.edge id with
  | some owner =>
    -- Created in this commit: nothing was passed on the way.
    have hpassed := hload.passed_eq_nil_of_edge hadmittedGrows hforest hadmitted hhere hoverlay
    rw [Memory.edge, hoverlay]
    cases owner with
    | none =>
      refine ⟨hexact.loaded ?_, hlive⟩
      rw [hpassed]
      exact fun _ hid => absurd hid not_mem_nil
    | some owner =>
      have hstored := hadmitted.edge_apply hload.apply (Overlay.mem_edges_of_edge hoverlay)
      refine ⟨hexact, hlive, ?_, ?_, hload.apply, (hcandidates.owner id owner hstored).1⟩
      · intro task htask
        rw [hpassed] at htask
        cases htask
      · exact fun hne => absurd hpassed hne
  | none =>
    rw [Memory.edge, hoverlay]
    cases hedge : memory.edges id with
    | some owner =>
      have hparent : memory.parent load.here = some (owner.map Node.task) := by
        rw [hhere, Memory.parent, hedge, map_some]
      cases owner with
      | none => exact ⟨hexact.loaded (hload.rooted (.root hparent)), hlive⟩
      | some owner => exact ⟨hexact, hlive, hload.up hexact hforest hgrows hparent⟩
    | none =>
      have hunknown : memory.parent load.here = none := by
        rw [hhere, Memory.parent, hedge, map_none]
      have hunwritten : Commit.writes load.overlay load.here = false := by
        rw [hhere, ← Overlay.isSome_edge_iff, hoverlay, isSome_none]
      have hhas := hload.stored_here hread hunknown hunwritten
      rw [hhere] at hhas
      obtain ⟨owner, hstored⟩ := isSome_iff_exists.mp hhas
      have howner := hforest.owner_lt hstored
      have hinstalled : Exact ((memory.setEdge id owner).pin (.conversation id)) stored :=
        (hexact.setEdge hforest hedge hstored).pin
      have hinstalledLoad : LoadSound ((memory.setEdge id owner).pin (.conversation id)) stored
          admitted candidates load := (hload.setEdge hedge howner).pin
      have hinstalledLive :
          MirrorsLive ((memory.setEdge id owner).pin (.conversation id)) stored := by
        intro task
        rw [← hlive task]
        exact congrFun live_setEdge task
      have hparent : ((memory.setEdge id owner).pin (.conversation id)).parent load.here =
          some (owner.map Node.task) := by
        rw [hhere]
        exact parent_setEdge_self
      rw [hstored]
      cases owner with
      | none => exact ⟨hinstalled.loaded (hinstalledLoad.rooted (.root hparent)), hinstalledLive⟩
      | some owner =>
        exact ⟨hinstalled, hinstalledLive, hinstalledLoad.up hinstalled hforest hgrows hparent⟩

theorem climbSound : ClimbSound stored admitted candidates (memory.climb stored load) := by
  cases hhere : load.here with
  | task id => exact climbSound_task hexact hforest hlive hadmittedGrows hadmitted hload hhere
  | conversation id =>
    exact climbSound_conversation hexact hforest hlive hadmittedGrows hadmitted hload hread hhere

end

end Climb

end Memory

end Hummin.Scheduler
