/-
Whole jobs on the ownership index, one after another: the chains a job loads, the publication
of its commit, and the sweep after its pins are gone.
-/
import Hummin.OwnershipRuns

namespace Hummin.Scheduler

open List Option

namespace Memory

/-- A chain load to its end.  Every node above has a smaller id, which bounds the climb. -/
def loadFrom (stored : Stored) : Nat → Memory → Load → Memory
  | 0, memory, _ => memory
  | bound + 1, memory, load =>
    match memory.climb stored load with
    | .on memory _ load => loadFrom stored bound memory load
    | .arrived memory _ => memory
    | .missing => memory

def loadChain (memory : Memory) (stored : Stored) (overlay : Overlay) (start : Node) : Memory :=
  loadFrom stored (start.id + 1) memory ⟨overlay, [], start⟩

/-- Load the chains of the tasks in `unloaded`; an earlier load of the loop may have passed one. -/
def loadScopes (memory : Memory) (stored : Stored) : Memory :=
  memory.unloaded.foldl
    (fun memory id => if id ∈ memory.unloaded then memory.loadChain stored [] (.task id) else memory)
    memory

/-- The nodes whose chains a commit loads at its admission: above the tasks it creates or
ends, and the owners of the conversations it creates. -/
def memberships (stored : Stored) (commit : Commit) : List Node :=
  ((commit.records.filter fun record =>
    (stored.tasks record.id).isNone || record.state == .terminal).map fun record =>
      parentNode record.toTaskNode) ++
  (commit.edges.filterMap Prod.snd).map Node.task

/-- Load the chains of several nodes, with a commit's candidates. -/
def loadChains (memory : Memory) (stored : Stored) (overlay : Overlay) (nodes : List Node) : Memory :=
  nodes.foldl (fun memory node => memory.loadChain stored overlay node) memory

/-- The end of the only job: its pins go, and the sweep their release asks for runs. -/
def endJob (memory : Memory) : Memory :=
  (memory.pins.foldl unpin memory).sweep

variable {memory : Memory} {stored admitted candidates : Stored} {load : Load} {node : Node}

/-! ### Loads -/

/-- How far one climbed node brings a load: to a smaller id, with what it leaves unloaded. -/
def ClimbGoes (memory : Memory) (stored : Stored) (load : Load) : Climb → Prop
  | .on later _ onward => onward.here.id < load.here.id ∧
      (∀ id ∈ later.unloaded, id ∈ memory.unloaded ∨ id ∈ onward.passed) ∧
      (∀ id ∈ load.passed, id ∈ onward.passed)
  | .arrived later _ => ∀ id ∈ later.unloaded, id ∈ memory.unloaded ∧ id ∉ load.passed
  | .missing => stored.has load.here = false

variable {id : TaskId}

theorem mem_unloaded_loaded {passed : List TaskId} :
    id ∈ (memory.loaded passed).unloaded ↔ id ∈ memory.unloaded ∧ id ∉ passed := by
  rw [loaded, mem_filter, decide_eq_true_eq]

theorem unloaded_setEdge {id : ConversationId} {owner : Option TaskId} :
    (memory.setEdge id owner).unloaded = memory.unloaded :=
  (relists_relist_dropIfUnneeded _).unloaded

theorem mem_unloaded_settle {task : TaskId} {fields : TaskNode} :
    task ∈ (memory.settle id fields).unloaded ↔ task ∈ memory.unloaded ∨ task = id := by
  have hunloaded : (memory.settle id fields).unloaded = (memory.putSettled id fields).unloaded :=
    (relists_relist_dropIfUnneeded _).unloaded
  rw [hunloaded, putSettled, mem_add]

theorem climbGoes (hexact : Exact memory stored) (hforest : stored.Forest)
    (hcandidates : candidates.Forest) (happly : stored.apply load.overlay = some candidates) :
    ClimbGoes memory stored load (memory.climb stored load) := by
  rw [climb]
  split
  next id hhere =>
    split
    next fields hfields =>
      split
      · refine ⟨?_, fun _ hid => .inl hid, fun _ hid => mem_append_left _ hid⟩
        rw [hhere]
        exact hexact.ordered _ _ (parent_task_of_taskNode hfields)
      · exact fun _ hid => mem_unloaded_loaded.mp hid
    split
    · exact fun _ hid => mem_unloaded_loaded.mp hid
    split
    next hnone =>
      rw [ClimbGoes, hhere, Stored.has, hnone, isSome_none]
    rename_i record hrecord
    have hordered := (hforest.taskParent id record hrecord).2
    split
    · refine ⟨hhere ▸ hordered, ?_, fun _ hid => mem_append_left _ hid⟩
      intro task htask
      rcases mem_unloaded_settle.mp htask with hold | rfl
      · exact .inl hold
      · exact .inr (mem_append_right _ (mem_singleton.mpr rfl))
    · exact ⟨hhere ▸ hordered, fun _ hid => .inl hid, fun _ hid => mem_append_left _ hid⟩
  rename_i id hhere
  split
  · exact fun _ hid => mem_unloaded_loaded.mp hid
  next owner hedge =>
    refine ⟨?_, fun _ hid => .inl hid, fun _ hid => hid⟩
    rw [hhere]
    rw [edge] at hedge
    split at hedge
    next found hfound =>
      cases hedge
      have hedge := hforest.edge_apply happly (Overlay.mem_edges_of_edge hfound)
      exact (hcandidates.owner id owner hedge).2
    · exact (hforest.owner id owner (hexact.agrees.edge id _ hedge)).2
  dsimp only
  split
  · intro task htask
    have hloaded := mem_unloaded_loaded.mp htask
    exact ⟨unloaded_setEdge ▸ hloaded.1, hloaded.2⟩
  rename_i owner howner
  refine ⟨?_, ?_, fun _ hid => hid⟩
  · rw [hhere]
    cases hfound : stored.conversations id with
    | none =>
      rw [hfound] at howner
      cases howner
    | some found =>
      rw [hfound] at howner
      obtain rfl : found = some owner := howner
      exact (hforest.owner id owner hfound).2
  · intro task htask
    exact .inl (unloaded_setEdge ▸ htask)

/-- An index that mirrors the store, as it is within a job and between jobs when no commit
is unpublished. -/
structure Mirrors (memory : Memory) (stored : Stored) : Prop extends Exact memory stored where
  live : MirrorsLive memory stored
  marked : ∀ id ∈ memory.unloaded, (stored.tasks id).isSome = true

/-- A sound load, with no commit unpublished. -/
structure Loading (memory : Memory) (stored candidates : Stored) (load : Load) : Prop
    extends Mirrors memory stored where
  load : LoadSound memory stored stored candidates load

/-- What one climbed node of a load leaves, and how far it brings it. -/
theorem Loading.climb (hloading : Loading memory stored candidates load) (hforest : stored.Forest) :
    match memory.climb stored load with
    | .on later _ onward => Loading later stored candidates onward ∧
        ClimbGoes memory stored load (memory.climb stored load)
    | .arrived later _ => Mirrors later stored ∧
        ClimbGoes memory stored load (memory.climb stored load)
    | .missing => stored.has load.here = false := by
  have hsound := climbSound hloading.toExact hforest hloading.live (.refl stored) hforest
    hloading.load (.inr (.inr id))
  have hgoes := climbGoes hloading.toExact hforest (hforest.apply hloading.load.apply)
    hloading.load.apply
  cases hresult : memory.climb stored load with
  | on later pinned onward =>
    rw [hresult] at hsound hgoes
    refine ⟨⟨⟨hsound.1, hsound.2.1, ?_⟩, hsound.2.2⟩, hgoes⟩
    intro id hid
    rcases hgoes.2.1 id hid with hold | hpassed
    · exact hloading.marked id hold
    · exact (hsound.2.2.passed id hpassed).1
  | arrived later pinned =>
    rw [hresult] at hsound hgoes
    exact ⟨⟨hsound.1, hsound.2, fun id hid => hloading.marked id (hgoes id hid).1⟩, hgoes⟩
  | missing =>
    rw [hresult] at hgoes
    exact hgoes

theorem Loading.loadFrom {bound : Nat} (hloading : Loading memory stored candidates load)
    (hforest : stored.Forest) : Mirrors (Memory.loadFrom stored bound memory load) stored := by
  induction bound generalizing memory load with
  | zero => exact hloading.toMirrors
  | succ bound ih =>
    have hclimb := hloading.climb hforest
    rw [Memory.loadFrom]
    cases hresult : memory.climb stored load with
    | on later pinned onward =>
      rw [hresult] at hclimb
      exact ih hclimb.1
    | arrived later pinned =>
      rw [hresult] at hclimb
      exact hclimb.1
    | missing => exact hloading.toMirrors

/-- A load that can only pass stored nodes arrives, and nothing it passed is left unloaded. -/
theorem Loading.unloaded_loadFrom {bound : Nat} (hloading : Loading memory stored stored load)
    (hforest : stored.Forest) (hbound : load.here.id < bound) {unloaded : List TaskId}
    (hunloaded : ∀ id ∈ memory.unloaded, id ∈ unloaded ∨ id ∈ load.passed) :
    ∀ id ∈ (Memory.loadFrom stored bound memory load).unloaded,
      id ∈ unloaded ∧ id ∉ load.passed := by
  induction bound generalizing memory load with
  | zero => exact absurd hbound (Nat.not_lt_zero _)
  | succ bound ih =>
    have hclimb := hloading.climb hforest
    rw [Memory.loadFrom]
    cases hresult : memory.climb stored load with
    | on later pinned onward =>
      rw [hresult] at hclimb
      obtain ⟨hlower, hlater, hpassed⟩ := hclimb.2
      have honward := ih hclimb.1 (Nat.lt_of_lt_of_le hlower (Nat.le_of_lt_succ hbound))
        fun id hid => by
          rcases hlater id hid with hold | hnew
          · exact (hunloaded id hold).imp_right (hpassed id)
          · exact .inr hnew
      intro id hid
      exact ⟨(honward id hid).1, fun hold => (honward id hid).2 (hpassed id hold)⟩
    | arrived later pinned =>
      rw [hresult] at hclimb
      intro id hid
      obtain ⟨hold, hnot⟩ := hclimb.2 id hid
      exact ⟨(hunloaded id hold).resolve_right hnot, hnot⟩
    | missing =>
      rw [hresult] at hclimb
      have hhere := hloading.load.here
      rw [show stored.has load.here = false from hclimb] at hhere
      cases hhere

variable {overlay : Overlay}

theorem Mirrors.loading (hmirrors : Mirrors memory stored)
    (happly : stored.apply overlay = some candidates) (hnode : candidates.has node = true) :
    Loading memory stored candidates ⟨overlay, [], node⟩ :=
  ⟨hmirrors, nofun, fun hne => absurd rfl hne, happly, hnode⟩

theorem Mirrors.loadChain (hmirrors : Mirrors memory stored) (hforest : stored.Forest)
    (happly : stored.apply overlay = some candidates)
    (hnode : candidates.has node = true) : Mirrors (memory.loadChain stored overlay node) stored :=
  (hmirrors.loading happly hnode).loadFrom hforest

/-- The load of a task marked unloaded passes it first. -/
theorem exists_climb_of_mem_unloaded (hid : id ∈ memory.unloaded)
    (hstored : (stored.tasks id).isSome = true) :
    ∃ later pinned onward, memory.climb stored ⟨[], [], .task id⟩ = .on later pinned onward ∧
      onward.passed = [id] := by
  obtain ⟨record, hrecord⟩ := isSome_iff_exists.mp hstored
  rw [Memory.climb]
  dsimp only
  split
  · rw [if_pos hid]
    exact ⟨_, _, _, rfl, rfl⟩
  rw [if_neg (show ¬ (Overlay.task [] id).isSome = true from Bool.false_ne_true), hrecord]
  dsimp only
  split <;> exact ⟨_, _, _, rfl, rfl⟩

/-- The load of an unloaded task leaves it loaded, and none unloaded that was not. -/
theorem Mirrors.unloaded_loadChain (hmirrors : Mirrors memory stored) (hforest : stored.Forest)
    (hid : id ∈ memory.unloaded) :
    ∀ other ∈ (memory.loadChain stored [] (.task id)).unloaded,
      other ∈ memory.unloaded ∧ other ≠ id := by
  have hstored := hmirrors.marked id hid
  have hloading : Loading memory stored stored ⟨[], [], .task id⟩ := hmirrors.loading rfl hstored
  obtain ⟨later, pinned, onward, hfirst, hpassed⟩ := exists_climb_of_mem_unloaded hid hstored
  have hclimb := hloading.climb hforest
  rw [hfirst] at hclimb
  have hrest := @Loading.unloaded_loadFrom _ _ _ id hclimb.1 hforest hclimb.2.1 memory.unloaded
    hclimb.2.2.1
  rw [Memory.loadChain, Node.id, Memory.loadFrom, hfirst]
  intro other hother
  obtain ⟨hold, hnot⟩ := hrest other hother
  rw [hpassed] at hnot
  exact ⟨hold, fun heq => hnot (mem_singleton.mpr heq)⟩

theorem Mirrors.foldl_loadChain (hmirrors : Mirrors memory stored) (hforest : stored.Forest)
    (ids : List TaskId) :
    Mirrors (ids.foldl (fun memory id => if id ∈ memory.unloaded
      then memory.loadChain stored [] (.task id) else memory) memory) stored ∧
    ∀ other ∈ (ids.foldl (fun memory id => if id ∈ memory.unloaded
      then memory.loadChain stored [] (.task id) else memory) memory).unloaded,
      other ∈ memory.unloaded ∧ other ∉ ids := by
  induction ids generalizing memory with
  | nil => exact ⟨hmirrors, fun _ hother => ⟨hother, not_mem_nil⟩⟩
  | cons id ids ih =>
    rw [foldl_cons]
    split
    next hid =>
      have hload : stored.has (.task id) = true := hmirrors.marked id hid
      have hloaded : Mirrors (memory.loadChain stored [] (.task id)) stored :=
        hmirrors.loadChain hforest rfl hload
      obtain ⟨hrest, hunloaded⟩ := ih hloaded
      refine ⟨hrest, fun other hother => ?_⟩
      obtain ⟨hlater, hnot⟩ := hunloaded other hother
      obtain ⟨hold, hne⟩ := hmirrors.unloaded_loadChain hforest hid other hlater
      exact ⟨hold, not_mem_cons_of_ne_of_not_mem hne hnot⟩
    next hid =>
      obtain ⟨hrest, hunloaded⟩ := ih hmirrors
      refine ⟨hrest, fun other hother => ?_⟩
      obtain ⟨hold, hnot⟩ := hunloaded other hother
      exact ⟨hold, not_mem_cons_of_ne_of_not_mem (fun heq => hid (heq ▸ hold)) hnot⟩

/-- After the scopes are loaded, every live task's chain is. -/
theorem Mirrors.loadScopes (hmirrors : Mirrors memory stored) (hforest : stored.Forest) :
    Mirrors (memory.loadScopes stored) stored ∧ (memory.loadScopes stored).unloaded = [] := by
  obtain ⟨hloaded, hunloaded⟩ := hmirrors.foldl_loadChain hforest memory.unloaded
  refine ⟨hloaded, eq_nil_iff_forall_not_mem.mpr fun id hid => ?_⟩
  obtain ⟨hold, hnot⟩ := hunloaded id hid
  exact hnot hold

/-! ### Publication and the end of a job -/

/-- The needed tasks outside `unloaded` have a loaded chain. -/
def NeededChained (memory : Memory) : Prop :=
  ∀ id, memory.taskNode id ≠ none → id ∉ memory.unloaded → memory.needed (.task id) = true →
    Rooted memory (.task id)

theorem Listed.neededChained_sweep (hlisted : Listed memory) (hchained : NeededChained memory) :
    NeededChained memory.sweep := by
  have hforgets := forgets_sweep memory
  intro id hknown hloaded hneeded
  obtain ⟨hold, hstays⟩ := taskNode_of_sweep hknown
  rw [hforgets.needed] at hneeded
  have hunmarked : id ∉ memory.unloaded :=
    fun hid => hloaded ((hforgets.unloaded id).mpr ⟨hid, hstays⟩)
  apply (hchained id hold hunmarked hneeded).forgets hforgets
  exact fun up habove => hlisted.kept_above hforgets hneeded habove

theorem NeededChained.unpin (hchained : NeededChained memory) :
    NeededChained (memory.unpin node) := by
  obtain ⟨hsame, hunloaded⟩ := @sameNodes_unpin memory node
  have hbelow : (memory.unpin node).below = memory.below := by
    rw [Memory.unpin]
    split
    · rfl
    · exact below_dropIfUnneeded node
  intro id hknown hloaded hneeded
  rw [hsame.taskNode] at hknown
  rw [hunloaded] at hloaded
  rw [hsame.needed (congrFun hbelow _)] at hneeded
  exact (hchained id hknown hloaded hneeded).mono hsame.extends

theorem pins_unpin : (memory.unpin node).pins = memory.pins.erase node := by
  rw [Memory.unpin]
  split
  · rfl
  · exact (relists_dropIfUnneeded node).pins

theorem diff_self (pins : List Node) : pins.diff pins = [] := by
  induction pins with
  | nil => rfl
  | cons node pins ih => rw [diff_cons, erase_cons_head, ih]

/-- What the end of a job needs of the index, which its publication's sweep may have cut. -/
structure Ending (memory : Memory) (stored : Stored) : Prop extends Tidy memory where
  chained : NeededChained memory
  agrees : Agrees memory stored
  live : MirrorsLive memory stored
  marked : ∀ id ∈ memory.unloaded, (stored.tasks id).isSome = true

section

variable (hending : Ending memory stored)
include hending

theorem Ending.unpin : Ending (memory.unpin node) stored := by
  obtain ⟨hsame, hunloaded⟩ := @sameNodes_unpin memory node
  refine ⟨hending.toTidy.unpin, hending.chained.unpin, hending.agrees.congr hsame, ?_, ?_⟩
  · intro id
    rw [hsame.live]
    exact hending.live id
  rw [hunloaded]
  exact hending.marked

theorem Ending.unpinAll (pins : List Node) :
    Ending (pins.foldl Memory.unpin memory) stored ∧
      (pins.foldl Memory.unpin memory).pins = memory.pins.diff pins := by
  induction pins generalizing memory with
  | nil => exact ⟨hending, rfl⟩
  | cons node pins ih =>
    have hfirst : Ending (memory.unpin node) stored := hending.unpin
    obtain ⟨hrest, hpins⟩ := ih hfirst
    refine ⟨hrest, hpins.trans ?_⟩
    rw [pins_unpin, diff_cons]

theorem Ending.sweep : Ending memory.sweep stored := by
  have hforgets := forgets_sweep memory
  refine ⟨hending.toTidy.sweep, hending.toListed.neededChained_sweep hending.chained,
    hending.agrees.sweep, ?_, ?_⟩
  · intro id
    rw [hforgets.live]
    exact hending.live id
  intro id hid
  exact hending.marked id ((hforgets.unloaded id).mp hid).1

/-- A job's end leaves an exact index with nothing pinned or queued. -/
theorem Ending.endJob :
    Mirrors memory.endJob stored ∧ memory.endJob.pins = [] ∧ memory.endJob.dropQueue = [] := by
  obtain ⟨hunpinned, hpins⟩ := hending.unpinAll memory.pins
  have hswept := hunpinned.sweep
  have hnone : memory.endJob.pins = [] := by
    rw [Memory.endJob, (forgets_sweep _).pins, hpins, diff_self]
  refine ⟨⟨⟨hswept.toTidy, ?_, hswept.agrees⟩, hswept.live, hswept.marked⟩, hnone, rfl⟩
  intro id hknown hloaded
  apply hswept.chained id hknown hloaded
  by_contra hunneeded
  rw [Bool.not_eq_true] at hunneeded
  obtain ⟨fields, hfields⟩ := ne_none_iff_exists'.mp hknown
  have hkept := hswept.kept (.task id) (parent_task_of_taskNode hfields ▸ some_ne_none _)
    hunneeded
  rw [show (memory.pins.foldl Memory.unpin memory).sweep.pins = [] from hnone] at hkept
  exact hkept.elim not_mem_nil not_mem_nil

end

/-- A publication marks only tasks of its commit. -/
theorem mem_unloaded_track {record : TaskRecord}
    (hid : id ∈ (memory.track record).unloaded) : id ∈ memory.unloaded ∨ id = record.id := by
  rw [Memory.track] at hid
  split at hid
  · rw [(relists_relist_dropIfUnneeded _).unloaded] at hid
    exact .inl hid
  split at hid
  · exact .inl hid
  rw [(relists_relist _).unloaded, markUnloaded] at hid
  split at hid
  · exact .inl hid
  · exact mem_add.mp hid

theorem mem_unloaded_foldl_track {records : List TaskRecord}
    (hid : id ∈ (records.foldl Memory.track memory).unloaded) :
    id ∈ memory.unloaded ∨ ∃ record ∈ records, id = record.id := by
  induction records generalizing memory with
  | nil => exact .inl hid
  | cons record records ih =>
    rcases ih hid with hfirst | ⟨other, hother, heq⟩
    · rcases mem_unloaded_track hfirst with hold | heq
      · exact .inl hold
      · exact .inr ⟨record, mem_cons_self, heq⟩
    · exact .inr ⟨other, mem_cons_of_mem record hother, heq⟩

theorem unloaded_foldl_publishEdge (edges : List (ConversationId × Option TaskId)) :
    (edges.foldl Memory.publishEdge memory).unloaded = memory.unloaded := by
  induction edges generalizing memory with
  | nil => rfl
  | cons edge edges ih =>
    rw [foldl_cons, ih, publishEdge]
    split
    · rfl
    · exact unloaded_setEdge

variable {commit : Commit}

/-- A publication leaves an index its job's end can put right. -/
theorem Mirrors.observe {next : Stored} (hmirrors : Mirrors memory stored)
    (hforest : stored.Forest) (happly : stored.apply commit = some next) :
    Ending (memory.observe commit) next := by
  obtain ⟨hexact, hlive, -⟩ := hmirrors.toExact.publish hforest hmirrors.live happly
  have hending : Ending (memory.publish commit) next := by
    refine ⟨hexact.toTidy, fun id hknown hloaded _ => hexact.chained id hknown hloaded,
      hexact.agrees, hlive, ?_⟩
    intro id hid
    rcases mem_unloaded_foldl_track hid with hold | ⟨record, hrecord, rfl⟩
    · rw [unloaded_foldl_publishEdge] at hold
      exact @Stored.Grows.has _ _ (hforest.grows_apply happly) (.task id) (hmirrors.marked id hold)
    obtain ⟨later, hlater, -⟩ := hforest.record_apply happly hrecord
    exact isSome_iff_exists.mpr ⟨later, hlater⟩
  exact hending.sweep

theorem Mirrors.loadChains (hmirrors : Mirrors memory stored) (hforest : stored.Forest)
    (happly : stored.apply overlay = some candidates) {nodes : List Node}
    (hnodes : ∀ node ∈ nodes, candidates.has node = true) :
    Mirrors (memory.loadChains stored overlay nodes) stored := by
  induction nodes generalizing memory with
  | nil => exact hmirrors
  | cons node nodes ih =>
    apply ih (hmirrors.loadChain hforest happly (hnodes node mem_cons_self))
    exact fun other hother => hnodes other (mem_cons_of_mem node hother)

/-- A commit's candidates have the nodes it loads at its admission. -/
theorem has_memberships {next : Stored} (hforest : stored.Forest)
    (happly : stored.apply commit = some next) :
    ∀ node ∈ memberships stored commit, next.has node = true := by
  have hnext := hforest.apply happly
  intro node hnode
  rcases mem_append.mp hnode with habove | howners
  · obtain ⟨record, hrecord, rfl⟩ := mem_map.mp habove
    obtain ⟨later, hlater, hsame⟩ := hforest.record_apply happly (mem_filter.mp hrecord).1
    rw [← hsame]
    exact (hnext.taskParent record.id later hlater).1
  obtain ⟨owner, howner, rfl⟩ := mem_map.mp howners
  obtain ⟨⟨id, found⟩, hedge, rfl⟩ := mem_filterMap.mp howner
  exact (hnext.owner id owner (hforest.edge_apply happly hedge)).1

end Memory

end Hummin.Scheduler
