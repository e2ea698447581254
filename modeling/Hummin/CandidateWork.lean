/-
Owned work under a commit's candidates: walks down the index and the links of the commit's
new tasks find work of the candidate tree only, and all of it that was there before.
-/
import Hummin.OwnershipJobs
import Hummin.WaitGraph

namespace Hummin.Scheduler

open List Option

namespace Stored

variable {stored next : Stored} {overlay : Overlay} {node : Node}

/-- The commit creates its tasks, one record each, and replaces none. -/
structure Creates (stored : Stored) (overlay : Overlay) : Prop where
  absent : ∀ record ∈ Commit.records overlay, stored.tasks record.id = none
  pending : ∀ record ∈ Commit.records overlay, record.state = .pending
  distinct : ((Commit.records overlay).map TaskRecord.id).Nodup

/-- With one record for each task, the candidates are the commit's records and what was there. -/
theorem tasks_apply (happly : stored.apply overlay = some next)
    (hdistinct : ((Commit.records overlay).map TaskRecord.id).Nodup) (id : TaskId) :
    next.tasks id = match Overlay.task overlay id with
      | some record => some record
      | none => stored.tasks id := by
  induction overlay generalizing stored with
  | nil =>
    cases happly
    rfl
  | cons change overlay ih =>
    obtain ⟨middle, hwrite, hrest⟩ := apply_cons_eq_some happly
    cases change with
    | conversation conversation owner =>
      have hmiddle := ih hrest hdistinct
      rw [tasks_write_conversation hwrite] at hmiddle
      exact hmiddle
    | task record =>
      obtain ⟨hfirst, hlater⟩ := nodup_cons.mp hdistinct
      have hmiddle := ih hrest hlater
      rw [tasks_write_task hwrite] at hmiddle
      have hcons : Overlay.task (Write.task record :: overlay) id =
          if record.id = id then some record else Overlay.task overlay id := by
        change find? _ (record :: Commit.records overlay) = _
        rw [find?_cons]
        split
        · next htrue => rw [if_pos (of_decide_eq_true htrue)]
        next hfalse =>
          rw [if_neg (of_decide_eq_false hfalse)]
          rfl
      rw [hmiddle, hcons]
      by_cases hid : record.id = id
      · subst hid
        have hnone : Overlay.task overlay record.id = none := by
          rw [Overlay.task, find?_eq_none]
          intro other hother hsame
          exact hfirst (mem_map.mpr ⟨other, hother, of_decide_eq_true hsame⟩)
        rw [if_pos rfl, hnone]
        exact Function.update_self ..
      · rw [if_neg hid, Function.update_of_ne fun heq => hid heq.symm]

end Stored

/-- Links run where the records hang. -/
def Links.Hang (links : Links) (stored : Stored) : Prop :=
  ∀ child up, child ∈ links up → stored.parent child = some (some up)

theorem Links.Hang.update {links : Links} {stored : Stored} {child up : Node}
    (hlinks : links.Hang stored) (hparent : stored.parent child = some (some up)) :
    Links.Hang (Function.update links up (links up ++ [child])) stored := by
  intro other above hother
  by_cases habove : above = up
  · subst habove
    rw [Function.update_self] at hother
    rcases mem_append.mp hother with hold | hnew
    · exact hlinks other above hold
    rw [mem_singleton.mp hnew]
    exact hparent
  rw [Function.update_of_ne habove] at hother
  exact hlinks other above hother

namespace Memory

variable {memory : Memory} {stored candidates : Stored} {overlay : Overlay} {node up : Node}

/-- Memory mirrors the store, every chain is loaded, and a commit creates its candidates. -/
structure Staged (memory : Memory) (stored candidates : Stored) (overlay : Overlay) : Prop
    extends Mirrors memory stored where
  forest : stored.Forest
  loaded : memory.unloaded = []
  apply : stored.apply overlay = some candidates
  creates : stored.Creates overlay

namespace Staged

variable (hstaged : Staged memory stored candidates overlay)

include hstaged

theorem grows : stored.Grows candidates :=
  hstaged.forest.grows_apply hstaged.apply

theorem candidateForest : candidates.Forest :=
  hstaged.forest.apply hstaged.apply

theorem candidateAgrees : Agrees memory candidates :=
  hstaged.agrees.grows hstaged.grows

variable {id : TaskId} {record : TaskRecord}

theorem tasks_of_task
    (htask : Overlay.task overlay id = some record) : candidates.tasks id = some record := by
  rw [Stored.tasks_apply hstaged.apply hstaged.creates.distinct, htask]

/-- The records a decision reads are the candidates'. -/
theorem tasks_of_recordIn
    (hrecord : memory.recordIn overlay id = some record) : candidates.tasks id = some record := by
  rw [recordIn] at hrecord
  rw [Stored.tasks_apply hstaged.apply hstaged.creates.distinct]
  cases htask : Overlay.task overlay id with
  | some found =>
    rw [htask] at hrecord
    exact hrecord
  | none =>
    rw [htask] at hrecord
    rw [hstaged.live id] at hrecord
    exact (filter_eq_some_iff.mp hrecord).1

/-- It reads every live record of the candidates. -/
theorem recordIn_of_live (hrecord : candidates.tasks id = some record)
    (hlive : record.isLive = true) : memory.recordIn overlay id = some record := by
  rw [Stored.tasks_apply hstaged.apply hstaged.creates.distinct] at hrecord
  rw [recordIn]
  cases htask : Overlay.task overlay id with
  | some found =>
    rw [htask] at hrecord
    exact hrecord
  | none =>
    rw [htask] at hrecord
    dsimp only at hrecord ⊢
    rw [hstaged.live id, hrecord, filter_some_pos hlive]

variable {fields : TaskNode}

theorem tasks_of_taskNode (hfields : memory.taskNode id = some fields) :
    ∃ record, candidates.tasks id = some record ∧ record.toTaskNode = fields :=
  hstaged.candidateAgrees.fields id fields hfields

theorem tasks_of_nodeIn (hfields : memory.nodeIn overlay id = some fields) :
    ∃ record, candidates.tasks id = some record ∧ record.toTaskNode = fields := by
  rw [nodeIn] at hfields
  cases hrecord : memory.recordIn overlay id with
  | some record =>
    rw [hrecord] at hfields
    exact ⟨record, hstaged.tasks_of_recordIn hrecord, some.inj hfields⟩
  | none =>
    rw [hrecord] at hfields
    apply hstaged.tasks_of_taskNode
    have hlive : memory.live id = none := by
      rw [recordIn] at hrecord
      split at hrecord
      · cases hrecord
      · exact hrecord
    rw [taskNode, hlive]
    exact hfields

theorem conversations_of_edge {id : ConversationId} {owner : Option TaskId}
    (hedge : memory.edge overlay id = some owner) : candidates.conversations id = some owner := by
  rw [edge] at hedge
  split at hedge
  next found hfound =>
    cases hedge
    exact hstaged.forest.edge_apply hstaged.apply (Overlay.mem_edges_of_edge hfound)
  · exact hstaged.candidateAgrees.edge id owner hedge

/-- The candidates keep what memory knows. -/
theorem fits : OverlayFits memory overlay := by
  intro id record htask fields hfields
  obtain ⟨found, hfound, rfl⟩ := hstaged.tasks_of_taskNode hfields
  cases (hstaged.tasks_of_task htask).symm.trans hfound
  rfl

/-! ### Walks down -/

theorem parent_of_linkAbove {found : Option Node}
    (habove : memory.linkAbove overlay node = some found) : candidates.parent node = some found := by
  cases node with
  | conversation id =>
    obtain ⟨owner, howner, rfl⟩ := map_eq_some_iff.mp habove
    rw [Stored.parent, hstaged.conversations_of_edge howner, map_some]
  | task id =>
    rw [linkAbove] at habove
    split at habove
    · cases habove
    rename_i hended
    obtain ⟨fields, hfields, rfl⟩ := map_eq_some_iff.mp habove
    rw [Bool.or_eq_true, not_or, not_isSome_iff_eq_none] at hended
    have hknown : memory.taskNode id = some fields := by
      rw [taskNode, hended.1]
      exact hfields
    obtain ⟨record, hrecord, rfl⟩ := hstaged.tasks_of_taskNode hknown
    rw [Stored.parent, hrecord, map_some]

theorem hang_linkFrom {bound : Nat} {links : Links} {child parent : Node}
    (hlinks : links.Hang candidates) (hparent : candidates.parent child = some (some parent)) :
    (memory.linkFrom overlay bound links child parent).Hang candidates := by
  induction bound generalizing links child parent with
  | zero => exact hlinks
  | succ bound ih =>
    have hlinked := hlinks.update hparent
    rw [linkFrom]
    split
    · exact hlinks
    split
    next above habove =>
      split
      · exact hlinked
      · exact ih hlinked (hstaged.parent_of_linkAbove habove)
    · exact hlinked

theorem hang_links : (memory.links overlay).Hang candidates := by
  have hfold : ∀ (records : List TaskRecord) (links : Links),
      (∀ record ∈ records, record ∈ Commit.records overlay) → links.Hang candidates →
      (records.foldl (fun links record =>
        if (memory.live record.id).isSome || (memory.settled record.id).isSome then links
        else memory.linkFrom overlay record.id links (.task record.id)
          (parentNode record.toTaskNode)) links).Hang candidates := by
    intro records
    induction records with
    | nil => exact fun _ _ hlinks => hlinks
    | cons record records ih =>
      intro links hrecords hlinks
      rw [foldl_cons]
      apply ih _ fun other hother => hrecords other (mem_cons_of_mem record hother)
      split
      · exact hlinks
      apply hstaged.hang_linkFrom hlinks
      obtain ⟨later, hlater, hsame⟩ :=
        hstaged.forest.record_apply hstaged.apply (hrecords record mem_cons_self)
      rw [Stored.parent, hlater, map_some, hsame]
  exact hfold _ _ (fun _ hrecord => hrecord) fun _ _ hchild => absurd hchild not_mem_nil

/-- A walk goes from a node to its children in the candidate tree. -/
theorem parent_of_mem_childrenIn (hchild : node ∈ memory.childrenIn overlay up) :
    candidates.parent node = some (some up) := by
  rcases mem_append.mp hchild with hbelow | hlink
  · exact hstaged.candidateAgrees.parent (hstaged.below node up hbelow)
  · exact hstaged.hang_links node up hlink

variable {enter : TaskId → Bool}

theorem opens_of_enters
    (henters : memory.enters overlay false enter node = true) : candidates.opens node = true := by
  cases node with
  | conversation id => rfl
  | task id =>
    rw [enters] at henters
    split at henters
    · cases henters
    rename_i fields hfields
    obtain ⟨record, hrecord, rfl⟩ := hstaged.tasks_of_nodeIn hfields
    rw [Stored.opens, hrecord]
    rw [Bool.false_or, Bool.and_eq_true] at henters
    exact henters.1

/-- What a walk enters, ordinary traversal of the candidates reaches and goes on below. -/
theorem reaches_of_entered {start : Node}
    (hentered : TreeWalk.Entered (memory.childrenIn overlay) (memory.enters overlay false enter)
      start node) :
    node = start ∨ (candidates.Reaches start node ∧ candidates.opens node = true) := by
  induction hentered with
  | start => exact .inl rfl
  | child _ hchild henters ih =>
    right
    have hparent := hstaged.parent_of_mem_childrenIn hchild
    refine ⟨?_, hstaged.opens_of_enters henters⟩
    rcases ih with rfl | ⟨hup, hopens⟩
    · exact .child hparent
    · exact .through hup hopens hparent

variable {done : List TaskId}

/-- What a walk finds is owned work of the candidates. -/
theorem owns_of_mem_ownedLive {depth : Nat} {owner id : TaskId}
    (hid : id ∈ memory.ownedLive depth overlay done owner) : candidates.Owns owner id := by
  obtain ⟨visited, hvisited, rfl⟩ := mem_map.mp hid
  obtain ⟨hwalked, hordinary⟩ := mem_filter.mp hvisited
  obtain ⟨found, hfound, hvisit⟩ := mem_filterMap.mp hwalked
  obtain ⟨up, hup, hchild⟩ := TreeWalk.exists_entered_of_mem_walk hfound
  cases found with
  | conversation _ => cases hvisit
  | task id =>
    obtain ⟨fields, hfields, rfl⟩ := map_eq_some_iff.mp hvisit
    rw [Visit.ordinary, Bool.and_eq_true] at hordinary
    obtain ⟨record, hrecord⟩ := isSome_iff_exists.mp hordinary.1
    obtain ⟨hcandidate, hlive⟩ := filter_eq_some_iff.mp hrecord
    have hnode : memory.nodeIn overlay id = some record.toTaskNode := by
      rw [nodeIn, hcandidate]
    cases hnode.symm.trans hfields
    have hparent := hstaged.parent_of_mem_childrenIn hchild
    refine ⟨record, hstaged.tasks_of_recordIn hcandidate, hlive, ?_, ?_⟩
    · exact Bool.not_eq_true' _ ▸ hordinary.2
    rcases hstaged.reaches_of_entered hup with rfl | ⟨hreaches, hopens⟩
    · exact .child hparent
    · exact .through hreaches hopens hparent

/-- A task that was there before the commit keeps its record. -/
theorem tasks_of_old (hold : (stored.tasks id).isSome = true) :
    candidates.tasks id = stored.tasks id := by
  have hnone : Overlay.task overlay id = none := by
    rw [Overlay.task, find?_eq_none]
    intro record hrecord hsame
    obtain rfl := of_decide_eq_true hsame
    rw [hstaged.creates.absent record hrecord] at hold
    cases hold
  rw [Stored.tasks_apply hstaged.apply hstaged.creates.distinct, hnone]

/-- A walk comes to all the owned work that was there before the commit, but for what lies
below the tasks it does not enter. -/
theorem mem_ownedLive_or {depth : Nat} {owner id : TaskId}
    (hdepth : candidates.nextId ≤ depth) (hold : (stored.tasks id).isSome = true)
    (howns : candidates.Owns owner id) :
    id ∈ memory.ownedLive depth overlay done owner ∨
      ∃ passed ∈ done, candidates.Reaches (.task owner) (.task passed) ∧
        candidates.Owns passed id := by
  obtain ⟨record, hrecord, hlive, hordinary, hreaches⟩ := howns
  have hrecordIn := hstaged.recordIn_of_live hrecord hlive
  have hmemory : memory.live id = some record := by
    rw [hstaged.live id, ← hstaged.tasks_of_old hold, hrecord, filter_some_pos hlive]
  have hrooted : Rooted memory (.task id) := by
    apply hstaged.chained id
    · rw [taskNode, hmemory]
      exact some_ne_none _
    rw [hstaged.loaded]
    exact not_mem_nil
  have hneeded : memory.needed (.task id) = true := by
    rw [needed, isLive, hmemory]
    rfl
  have hrank : ∀ up child, child ∈ memory.childrenIn overlay up →
      up.id < child.id ∧ child.id < candidates.nextId := fun up child hchild =>
    hstaged.candidateForest.parent_lt (hstaged.parent_of_mem_childrenIn hchild)
  rcases @Listed.entered_or_rejected _ _ _ _ _ (fun id => decide (id ∉ done)) hstaged.toListed
    hstaged.candidateAgrees hstaged.fits hreaches hrooted hneeded with hentered |
    ⟨passed, hpassed, hstart, -, hbelow⟩
  · left
    have hwalked := (TreeWalk.mem_walk_iff hrank (Nat.le_trans hdepth (Nat.le_add_left _ _))).mpr
      hentered
    apply List.mem_map.mpr
    refine ⟨⟨id, record.toTaskNode, some record⟩, mem_filter.mpr ⟨?_, ?_⟩, rfl⟩
    · apply mem_filterMap.mpr
      refine ⟨.task id, hwalked, ?_⟩
      rw [visit, nodeIn, hrecordIn]
      rw [map_some, filter_some_pos hlive]
    rw [Visit.ordinary, isSome_some, hordinary]
    rfl
  right
  refine ⟨passed, ?_, hstart, record, hrecord, hlive, hordinary, hbelow⟩
  exact Decidable.not_not.mp (of_decide_eq_false hpassed)

theorem pending_of_new (hnew : stored.tasks id = none)
    (hrecord : candidates.tasks id = some record) : record.state = .pending := by
  rw [Stored.tasks_apply hstaged.apply hstaged.creates.distinct] at hrecord
  split at hrecord
  next found hfound =>
    obtain rfl := some.inj hrecord
    exact hstaged.creates.pending found (mem_of_find?_eq_some hfound)
  · cases hnew.symm.trans hrecord

/-- New tasks lead to new tasks only. -/
theorem old_of_leadsTo {other : TaskId} (hedge : candidates.LeadsTo id other)
    (hold : (stored.tasks other).isSome = true) : (stored.tasks id).isSome = true := by
  rcases hedge.2 with ⟨record, on, policy, hrecord, hwaiting, -⟩ | ⟨-, -, -, -, hreaches⟩
  · by_contra hnew
    rw [not_isSome_iff_eq_none] at hnew
    cases (hstaged.pending_of_new hnew hrecord).symm.trans hwaiting
  · exact @Stored.Reaches.has_start _ _ (.task id) _ hreaches hstaged.forest hstaged.grows hold

theorem candidateNames (hnames : stored.Names) : candidates.Names := by
  intro id record on policy hrecord hwaiting member hmember
  have hold : (stored.tasks id).isSome = true := by
    by_contra hnew
    rw [not_isSome_iff_eq_none] at hnew
    cases (hstaged.pending_of_new hnew hrecord).symm.trans hwaiting
  rw [hstaged.tasks_of_old hold] at hrecord
  have hnamed := hnames id record on policy hrecord hwaiting member hmember
  exact @Stored.Grows.has _ _ hstaged.grows (.task member) hnamed

end Staged

end Memory

end Hummin.Scheduler
