/-
Every committed store has a wait-for graph without cycles, and the search for a wait cycle is
exact in every state the operations lead to.
-/
import Hummin.DurableWaits
import Hummin.ExceptBind
import Hummin.WaitSearch
import Hummin.WaitsAcyclic

namespace Hummin.Scheduler

open List Option

open Relation

variable {stored candidates next : Stored} {tx later : Transaction}

namespace Stored

theorem apply_append {commit more : Commit} (happly : stored.apply commit = some candidates) :
    stored.apply (commit ++ more) = candidates.apply more := by
  rw [Stored.apply, foldlM_append]
  rw [Stored.apply] at happly
  rw [happly]
  rfl

theorem apply_singleton {change : Write} : stored.apply [change] = stored.write change := by
  rw [Stored.apply, foldlM_cons]
  exact bind_fun_some _

variable {record : TaskRecord}

/-- A write that replaces a live record keeps its ownership fields. -/
theorem write_replace {previous : TaskRecord} (hprevious : stored.tasks record.id = some previous)
    (hlive : previous.isLive = true) (hsame : previous.toTaskNode = record.toTaskNode) :
    stored.write (.task record) = some (stored.putTask record) := by
  rw [Stored.write, hprevious]
  exact if_pos ⟨hlive, hsame⟩

/-- A write that creates a task below a node that exists. -/
theorem write_create (hforest : stored.Forest)
    (hnew : stored.nextId ≤ record.id) (hlive : record.isLive = true)
    (hparent : stored.has (parentNode record.toTaskNode) = true) :
    stored.write (.task record) =
      some { stored.putTask record with nextId := record.id + 1 } := by
  rw [Stored.write, hforest.tasks_eq_none hnew]
  exact if_pos ⟨hnew, hlive, hparent⟩

end Stored

/-! ### Transactions -/

namespace Transaction

variable {scope : Option ConversationId}

/-- A child's owner exists, and the child is not background. -/
theorem owner_of_conversationOf {conversationId : Option ConversationId} {owner : TaskId}
    {background : Bool} {conversation : ConversationId}
    (hconversation : tx.conversationOf stored scope (some owner) conversationId background =
      .ok conversation) : (tx.currentTask stored owner).isSome = true ∧ background = false := by
  rw [conversationOf] at hconversation
  split at hconversation
  · cases hconversation
  rename_i record hrecord
  split at hconversation
  · cases hconversation
  next hforeground =>
    exact ⟨isSome_iff_exists.mpr ⟨record, hrecord⟩, Bool.eq_false_iff.mpr hforeground⟩

/-- A transaction's staged records make its candidates of the committed ones. -/
structure Stages (stored : Stored) (tx : Transaction) (candidates : Stored) : Prop where
  apply : stored.apply tx.overlay = some candidates
  creates : stored.Creates tx.overlay
  minted : candidates.nextId = tx.minted
  sane : candidates.Sane

namespace Stages

variable (hstages : Stages stored tx candidates) (hforest : stored.Forest)

include hstages

theorem currentTask : tx.currentTask stored = candidates.tasks := by
  funext id
  rw [Transaction.currentTask]
  exact (Stored.tasks_apply hstages.apply hstages.creates.distinct id).symm

include hforest

theorem has_of_hasConversation {id : ConversationId}
    (hhas : tx.hasConversation stored id = true) : candidates.has (.conversation id) = true := by
  rw [hasConversation, Bool.or_eq_true] at hhas
  rcases hhas with hedge | hstored
  · obtain ⟨owner, howner⟩ := isSome_iff_exists.mp hedge
    have hfound := hforest.edge_apply hstages.apply (Overlay.mem_edges_of_edge howner)
    exact isSome_iff_exists.mpr ⟨owner, hfound⟩
  · exact @Stored.Grows.has _ _ (hforest.grows_apply hstages.apply) (.conversation id) hstored

/-- One more record staged. -/
theorem snoc {change : Write} (hwrite : candidates.write change = some next)
    (hquiet : candidates.Quiet change) (hnew : ∀ record, change = .task record →
      candidates.tasks record.id = none ∧ record.state = .pending)
    (hminted : next.nextId = later.minted) (hoverlay : later.overlay = tx.overlay ++ [change]) :
    Stages stored later next := by
  have hrecords : Commit.records later.overlay =
      Commit.records tx.overlay ++ Commit.records [change] := by
    rw [hoverlay]
    exact filterMap_append
  have hfresh : ∀ record ∈ Commit.records [change],
      candidates.tasks record.id = none ∧ record.state = .pending := by
    intro record hrecord
    obtain ⟨written, hwritten, hsome⟩ := mem_filterMap.mp hrecord
    obtain rfl := mem_singleton.mp hwritten
    cases written with
    | conversation _ _ => cases hsome
    | task found =>
      obtain rfl := some.inj hsome
      exact hnew found rfl
  have hgrows := hforest.grows_apply hstages.apply
  refine ⟨?_, ⟨?_, ?_, ?_⟩, hminted, hstages.sane.write hquiet hwrite⟩
  · rw [hoverlay, Stored.apply_append hstages.apply, Stored.apply_singleton, hwrite]
  · intro record hrecord
    rw [hrecords] at hrecord
    rcases mem_append.mp hrecord with hearlier | hlast
    · exact hstages.creates.absent record hearlier
    cases hstored : stored.tasks record.id with
    | none => rfl
    | some found =>
      obtain ⟨kept, hkept, -⟩ := hgrows.task record.id found hstored
      cases (hfresh record hlast).1.symm.trans hkept
  · intro record hrecord
    rw [hrecords] at hrecord
    rcases mem_append.mp hrecord with hearlier | hlast
    · exact hstages.creates.pending record hearlier
    · exact (hfresh record hlast).2
  rw [hrecords, map_append, nodup_append]
  refine ⟨hstages.creates.distinct, ?_, ?_⟩
  · cases change with
    | conversation _ _ => exact nodup_nil
    | task record => exact pairwise_singleton _ _
  intro first hfirst second hsecond heq
  obtain ⟨record, hrecord, rfl⟩ := mem_map.mp hfirst
  obtain ⟨other, hother, rfl⟩ := mem_map.mp hsecond
  obtain ⟨found, hfound, -⟩ := hforest.record_apply hstages.apply hrecord
  rw [heq, (hfresh other hother).1] at hfound
  cases hfound

theorem create {scope : Option ConversationId} {create : Create}
    (hcreate : tx.create stored scope create = .ok later) : ∃ next, Stages stored later next := by
  cases create with
  | conversation skipped owner =>
    rw [Transaction.create] at hcreate
    split at hcreate
    · cases hcreate
    rename_i hnone
    cases hcreate
    have howner : owner.all (fun owner => (candidates.tasks owner).isSome) = true := by
      rw [hstages.currentTask] at hnone
      cases owner with
      | none => rfl
      | some owner =>
        rw [all_some]
        by_contra hmissing
        rw [not_isSome_iff_eq_none] at hmissing
        rw [filter_some, hmissing] at hnone
        cases hnone
    have hwrite : candidates.write (.conversation (tx.minted + skipped) owner) = some
        { candidates with
          conversations := Function.update candidates.conversations (tx.minted + skipped)
            (some owner)
          nextId := tx.minted + skipped + 1 } := by
      rw [Stored.write]
      apply if_pos
      exact ⟨hstages.minted ▸ Nat.le_add_right _ _, howner⟩
    exact ⟨_, hstages.snoc hforest hwrite trivial (by rintro _ ⟨⟩) rfl rfl⟩
  | task skipped owner conversationId background =>
    rw [Transaction.create] at hcreate
    split at hcreate
    · cases hcreate
    rename_i conversation hconversation
    split at hcreate
    next hhas =>
      cases hcreate
      have hbound : candidates.nextId ≤ tx.minted + skipped :=
        hstages.minted ▸ Nat.le_add_right _ _
      have howner : ∀ task, owner = some task →
          (candidates.tasks task).isSome = true ∧ background = false := by
        rintro task rfl
        rw [← hstages.currentTask]
        exact owner_of_conversationOf hconversation
      have hparent : candidates.has (parentNode ⟨conversation, owner, background⟩) = true := by
        cases owner with
        | none => exact hstages.has_of_hasConversation hforest hhas
        | some task => exact (howner task rfl).1
      have hwrite := @Stored.write_create candidates
        ⟨⟨conversation, owner, background⟩, tx.minted + skipped, .pending, false⟩
        hstages.sane.forest hbound rfl hparent
      refine ⟨_, hstages.snoc hforest hwrite ⟨by rintro ids policy ⟨⟩, fun task htask => (howner task htask).2⟩
        ?_ rfl rfl⟩
      intro record hrecord
      cases hrecord
      exact ⟨hstages.sane.forest.tasks_eq_none hbound, rfl⟩
    · cases hcreate

end Stages

variable {creates : List Create}

theorem Stages.foldlM_create (hforest : stored.Forest) (hstages : Stages stored tx candidates)
    (hcreate : creates.foldlM (Transaction.create stored scope) tx = .ok later) :
    ∃ final, Stages stored later final := by
  induction creates generalizing tx candidates with
  | nil =>
    cases hcreate
    exact ⟨candidates, hstages⟩
  | cons create creates ih =>
    obtain ⟨middle, hfirst, hrest⟩ := (foldlM_except_cons_eq_ok_iff ..).mp hcreate
    obtain ⟨next, hnext⟩ := hstages.create hforest hfirst
    exact ih hnext hrest

theorem stages_createAll (hsane : stored.Sane) (hcreate : createAll stored scope creates = .ok tx) :
    ∃ candidates, Stages stored tx candidates := by
  have hstart : Stages stored ⟨[], stored.nextId⟩ stored := by
    refine ⟨rfl, ⟨?_, ?_, nodup_nil⟩, rfl, hsane⟩
    · exact fun _ hrecord => absurd hrecord not_mem_nil
    · exact fun _ hrecord => absurd hrecord not_mem_nil
  exact hstart.foldlM_create hsane.forest hcreate

end Transaction

/-! ### Changes of tasks -/

theorem Update.node (record : TaskRecord) (update : Update) :
    (update.record record).toTaskNode = record.toTaskNode ∧ (update.record record).id = record.id := by
  cases update <;> exact ⟨rfl, rfl⟩

/-- Only an abort mark leaves a waiting task waiting. -/
theorem Update.waits {record : TaskRecord} {update : Update} {on : List TaskId} {policy : JoinPolicy}
    (hwaiting : (update.record record).state = .waiting on policy) :
    record.state = .waiting on policy ∧ (update.record record).abortRequested = true := by
  cases update with
  | mark => exact ⟨hwaiting, rfl⟩
  | _ => cases hwaiting

variable {updates : List (TaskId × Update)}

theorem Stored.Sane.setTasks {records : List TaskRecord}
    {tasks : TaskId → Option TaskRecord} (hsane : stored.Sane)
    (hset : Scheduler.setTasks stored.tasks updates = .ok (records, tasks)) :
    ∃ next, stored.apply (records.map Write.task) = some next ∧ next.Sane := by
  induction updates generalizing stored records with
  | nil =>
    cases hset
    exact ⟨stored, rfl, hsane⟩
  | cons change updates ih =>
    obtain ⟨id, update⟩ := change
    rw [Scheduler.setTasks] at hset
    split at hset
    · cases hset
    rename_i record hrecord
    split at hset
    · cases hset
    rename_i hlive
    obtain ⟨⟨later, final⟩, hrest, hresult⟩ := (except_bind_eq_ok_iff ..).mp hset
    cases hresult
    obtain ⟨hnode, hsame⟩ := update.node record
    obtain rfl := hsane.forest.taskId id record hrecord
    have hwrite : stored.write (.task (update.record record)) =
        some (stored.putTask (update.record record)) :=
      Stored.write_replace (hsame ▸ hrecord) (bne_iff_ne.mpr hlive) hnode.symm
    have hquiet : stored.Quiet (.task (update.record record)) := by
      constructor
      · intro on policy hwaiting
        obtain ⟨hwaited, hmarked⟩ := Update.waits hwaiting
        refine ⟨record, hsame ▸ hrecord, hwaited, fun hunmarked => ?_⟩
        cases hmarked.symm.trans hunmarked
      rw [hnode]
      exact fun owner howner => hsane.ordinary _ record owner hrecord howner
    have hput : (stored.putTask (update.record record)).tasks =
        Function.update stored.tasks record.id (some (update.record record)) := by
      rw [Stored.putTask, hsame]
    rw [← hput] at hrest
    obtain ⟨next, hnext, hnextSane⟩ := ih (hsane.write hquiet hwrite) hrest
    refine ⟨next, ?_, hnextSane⟩
    rw [map_cons, Stored.apply, foldlM_cons, hwrite]
    exact hnext


/-! ### Decisions -/

variable {commit : Commit} {creates : List Create}

theorem World.sane_decideCommit {scope : Option ConversationId} (hsane : stored.Sane)
    (hdecided : World.decideCommit stored scope creates updates = .ok commit) :
    ∃ next, stored.apply commit = some next ∧ next.Sane := by
  obtain ⟨tx, hcreate, hrest⟩ := (except_bind_eq_ok_iff ..).mp hdecided
  obtain ⟨⟨records, tasks⟩, hset, hrest⟩ := (except_bind_eq_ok_iff ..).mp hrest
  obtain ⟨-, -, hresult⟩ := (except_bind_eq_ok_iff ..).mp hrest
  cases hresult
  obtain ⟨candidates, hstages⟩ := Transaction.stages_createAll hsane hcreate
  rw [hstages.currentTask] at hset
  obtain ⟨next, hnext, hnextSane⟩ := hstages.sane.setTasks hset
  exact ⟨next, (Stored.apply_append hstages.apply).trans hnext, hnextSane⟩

namespace Memory

variable {memory : Memory} {ended : TaskId → Option (Option TaskRecord)} {current : TaskId}
  {policy : JoinPolicy} {on : List TaskId}

variable {overlay : Overlay}

/-- A check that read every member has the tasks the wait adds an edge to. -/
theorem mem_targets {targets missing : List TaskId}
    (htargets : memory.targets overlay ended current policy on = .ok (targets, missing)) :
    ∀ id ∈ on, (id ∈ missing ∧ memory.member overlay ended id = none) ∨
      ∃ record, memory.member overlay ended id = some (some record) ∧
        (record.isLive = true → record.owner ≠ some current → id ∈ targets) := by
  induction on generalizing targets missing with
  | nil => exact nofun
  | cons id on ih =>
    intro other hother
    rw [Memory.targets] at htargets
    split at htargets
    next hnone =>
      obtain ⟨⟨rest, unread⟩, hrest, hresult⟩ := (except_bind_eq_ok_iff ..).mp htargets
      cases hresult
      rcases mem_cons.mp hother with rfl | hlater
      · exact .inl ⟨mem_cons_self, hnone⟩
      exact (ih hrest other hlater).imp_left fun hunread =>
        ⟨mem_cons_of_mem id hunread.1, hunread.2⟩
    · cases htargets
    rename_i record hrecord
    split at htargets
    · cases htargets
    obtain ⟨⟨rest, unread⟩, hrest, hresult⟩ := (except_bind_eq_ok_iff ..).mp htargets
    cases hresult
    rcases mem_cons.mp hother with rfl | hlater
    · refine .inr ⟨record, hrecord, fun hlive howner => ?_⟩
      rw [if_pos ⟨hlive, howner⟩]
      exact mem_cons_self
    refine (ih hrest other hlater).imp_right ?_
    rintro ⟨found, hfound, hadded⟩
    refine ⟨found, hfound, fun hlive howner => ?_⟩
    split
    · exact mem_cons_of_mem id (hadded hlive howner)
    · exact hadded hlive howner

/-- An accepted wait read every member, and none it adds an edge to leads back. -/
theorem checkWait_accepted (hchecked : memory.checkWait tx ended current on policy = .accepted) :
    ∃ targets, (∀ id ∈ on, ∃ record, memory.member tx.overlay ended id = some (some record) ∧
        (record.isLive = true → record.owner ≠ some current → id ∈ targets)) ∧
      (targets ≠ [] → memory.waitCycle tx.minted tx.overlay current targets = none) := by
  rw [checkWait] at hchecked
  split at hchecked
  · cases hchecked
  rename_i targets missing htargets
  split at hchecked
  · cases hchecked
  rename_i hread
  rw [ne_eq, Decidable.not_not] at hread
  subst hread
  refine ⟨targets, fun id hid => ?_, fun hsome => ?_⟩
  · exact (mem_targets htargets id hid).resolve_left fun hunread =>
      not_mem_nil hunread.1
  rw [if_neg hsome] at hchecked
  split at hchecked
  · next hnone => exact hnone
  · cases hchecked

theorem exists_checkWait_accepted {mode : Mode}
    (haccepted : memory.validateWait stored tx mode current on policy = .accepted) :
    ∃ ended, memory.checkWait tx ended current on policy = .accepted ∧
      ∀ id found, ended id = some found → found = stored.tasks id := by
  rw [validateWait] at haccepted
  split at haccepted
  · cases haccepted
  split at haccepted
  · refine ⟨_, haccepted, fun id found hfound => ?_⟩
    split at hfound
    · exact (some.inj hfound).symm
    · cases hfound
  · exact ⟨_, haccepted, nofun⟩

theorem Staged.tasks_of_member (hstaged : Staged memory stored candidates overlay)
    (hended : ∀ id found, ended id = some found → found = stored.tasks id) {id : TaskId}
    {record : TaskRecord} (hmember : memory.member overlay ended id = some (some record)) :
    candidates.tasks id = some record := by
  rw [member] at hmember
  split at hmember
  next found hfound =>
    cases some.inj hmember
    exact hstaged.tasks_of_recordIn hfound
  · have hstored := hended id (some record) hmember
    exact (hstaged.tasks_of_old (isSome_iff_exists.mpr ⟨record, hstored.symm⟩)).trans
      hstored.symm

end Memory

theorem World.gated_eq_ok {memory : Memory} {task : TaskId} {mode : Mode} {current : TaskRecord}
    (hgated : World.gated memory task mode = .ok current) :
    memory.live task = some current ∧ current.state = .running := by
  rw [World.gated] at hgated
  split at hgated
  · cases hgated
  rename_i record hrecord
  split at hgated
  · cases hgated
  rename_i hrunning
  split at hgated
  · cases hgated
  cases hgated
  exact ⟨hrecord, Decidable.not_not.mp hrunning⟩

/-- A wait that is stored closes no cycle. -/
theorem World.sane_decideWait {memory : Memory} {task : TaskId} {mode : Mode}
    {on : List TaskId} {policy : JoinPolicy}
    (hsane : stored.Sane) (hmirrors : memory.Mirrors stored) (hloaded : memory.unloaded = [])
    (hdecided : World.decideWait stored memory task mode creates on policy = .ok commit) :
    ∃ next, stored.apply commit = some next ∧ next.Sane := by
  obtain ⟨current, hgated, hrest⟩ := (except_bind_eq_ok_iff ..).mp hdecided
  obtain ⟨tx, hcreate, hrest⟩ := (except_bind_eq_ok_iff ..).mp hrest
  obtain ⟨candidates, hstages⟩ := Transaction.stages_createAll hsane hcreate
  have hstaged : Memory.Staged memory stored candidates tx.overlay :=
    ⟨hmirrors, hsane.forest, hloaded, hstages.apply, hstages.creates⟩
  obtain ⟨hlive, -⟩ := World.gated_eq_ok hgated
  rw [hmirrors.live task] at hlive
  obtain ⟨hcurrent, hisLive⟩ := filter_eq_some_iff.mp hlive
  have hcandidate : candidates.tasks task = some current :=
    (hstaged.tasks_of_old (isSome_iff_exists.mpr ⟨current, hcurrent⟩)).trans hcurrent
  split at hrest
  · cases hrest
  · cases hrest
  rename_i haccepted
  obtain ⟨-, -, hresult⟩ := (except_bind_eq_ok_iff ..).mp hrest
  cases hresult
  obtain ⟨ended, hchecked, hended⟩ := Memory.exists_checkWait_accepted haccepted
  obtain ⟨targets, hmembers, hnone⟩ := Memory.checkWait_accepted hchecked
  have hwrite : candidates.write (.task { current with state := .waiting on policy }) =
      some (candidates.putTask { current with state := .waiting on policy }) := by
    have hprevious : candidates.tasks current.id = some current := by
      rw [hsane.forest.taskId task current hcurrent]
      exact hcandidate
    exact @Stored.write_replace candidates { current with state := .waiting on policy } current
      hprevious hisLive rfl
  refine ⟨_, ?_, hstages.sane.wait hcandidate ?_ ?_ hwrite⟩
  · rw [Stored.apply_append hstages.apply, Stored.apply_singleton, hwrite]
  · intro member hmember
    obtain ⟨record, hrecord, -⟩ := hmembers member hmember
    exact isSome_iff_exists.mpr ⟨record, hstaged.tasks_of_member hended hrecord⟩
  intro member hmember record hrecord hrecordLive howner hback
  obtain ⟨found, hfound, hadded⟩ := hmembers member hmember
  cases (hstaged.tasks_of_member hended hfound).symm.trans hrecord
  have htarget := hadded hrecordLive howner
  obtain ⟨-, hexact⟩ := hstaged.waitCycle_exact hsane.names (le_of_eq hstages.minted)
    ⟨current, hcurrent, hisLive⟩ targets
  have hsome := hexact.mpr ⟨member, htarget, hback⟩
  rw [hnone (ne_nil_of_mem htarget)] at hsome
  cases hsome

/-! ### Runs -/

namespace World

variable {world : World} {memory : Memory}

/-- Between operations the store is sane, and memory mirrors it. -/
structure Sound (world : World) : Prop where
  sane : world.stored.Sane
  mirrors : world.memory.Mirrors world.stored

theorem ending_of_mirrors (hmirrors : memory.Mirrors stored) : memory.Ending stored :=
  ⟨hmirrors.toTidy, fun id hknown hloaded _ => hmirrors.chained id hknown hloaded, hmirrors.agrees,
    hmirrors.live, hmirrors.marked⟩

theorem sound_finish {decided : Except String Commit} (hsane : stored.Sane)
    (hmirrors : memory.Mirrors stored) (hdecided : ∀ commit, decided = .ok commit →
      ∃ next, stored.apply commit = some next ∧ next.Sane) :
    Sound (finish stored memory decided) := by
  have hidle : Sound ⟨stored, memory.endJob⟩ := ⟨hsane, (ending_of_mirrors hmirrors).endJob.1⟩
  cases decided with
  | error _ => exact hidle
  | ok commit =>
    obtain ⟨next, happly, hnext⟩ := hdecided commit rfl
    rw [finish, happly]
    refine ⟨hnext, ?_⟩
    have hloads := hmirrors.loadChains hsane.forest happly
      (Memory.has_memberships hsane.forest happly)
    exact (hloads.observe hsane.forest happly).endJob.1

theorem mirrors_reopened (hforest : stored.Forest) : (reopened stored).1.Mirrors stored := by
  have hopened := State.sound_opened hforest
  refine ⟨hopened.exact, hopened.live, ?_⟩
  intro id hid
  rcases Memory.mem_unloaded_foldl_track hid with hold | ⟨record, hrecord, rfl⟩
  · exact absurd hold not_mem_nil
  · exact isSome_iff_exists.mpr ⟨record, (hforest.mem_scanLive.mp hrecord).1⟩

theorem has_of_writes {overlay : Overlay} {node : Node} (hforest : stored.Forest)
    (happly : stored.apply overlay = some candidates)
    (hnode : (Commit.writes overlay node || stored.has node) = true) :
    candidates.has node = true := by
  rcases Bool.or_eq_true _ _ ▸ hnode with hwrites | hhas
  · cases node with
    | task id =>
      obtain ⟨record, hrecord, hid⟩ := any_eq_true.mp hwrites
      obtain ⟨later, hlater, -⟩ := hforest.record_apply happly hrecord
      rw [of_decide_eq_true hid] at hlater
      exact isSome_iff_exists.mpr ⟨later, hlater⟩
    | conversation id =>
      obtain ⟨edge, hedge, hid⟩ := any_eq_true.mp hwrites
      have hfound := hforest.edge_apply happly hedge
      rw [of_decide_eq_true hid] at hfound
      exact isSome_iff_exists.mpr ⟨edge.2, hfound⟩
  · exact (hforest.grows_apply happly).has hhas

theorem Sound.step (hsound : Sound world) (operation : Operation) : Sound (world.step operation) := by
  have hforest := hsound.sane.forest
  cases operation with
  | commit scopes loads scope creates updates =>
    apply sound_finish hsound.sane _ fun commit => sane_decideCommit hsound.sane
    have hstart : (if scopes = true then world.memory.loadScopes world.stored
        else world.memory).Mirrors world.stored := by
      split
      · exact (hsound.mirrors.loadScopes hforest).1
      · exact hsound.mirrors
    cases hcreate : Transaction.createAll world.stored scope creates with
    | error _ =>
      apply hstart.loadChains hforest (show world.stored.apply [] = some world.stored from rfl)
      exact fun node hnode => has_of_writes hforest rfl (mem_filter.mp hnode).2
    | ok tx =>
      obtain ⟨candidates, hstages⟩ := Transaction.stages_createAll hsound.sane hcreate
      apply hstart.loadChains hforest hstages.apply
      exact fun node hnode => has_of_writes hforest hstages.apply (mem_filter.mp hnode).2
  | wait task mode creates on policy =>
    obtain ⟨hmirrors, hloaded⟩ := hsound.mirrors.loadScopes hforest
    exact sound_finish hsound.sane hmirrors fun commit =>
      sane_decideWait hsound.sane hmirrors hloaded
  | reopen =>
    exact sound_finish hsound.sane (mirrors_reopened hforest) fun commit =>
      sane_decideCommit hsound.sane

theorem sound_start : Sound start := by
  refine ⟨⟨⟨nofun, nofun, nofun, nofun, nofun⟩, nofun, nofun, ?_⟩, ⟨Memory.exact_empty _, ?_, nofun⟩⟩
  · intro id hcycle
    obtain ⟨other, ⟨⟨_, hrecord, -⟩, -⟩, -⟩ := TransGen.head'_iff.mp hcycle
    cases hrecord
  · exact fun _ => rfl

theorem sound_run (operations : List Operation) : Sound (run operations) := by
  have hfold : ∀ {world : World}, Sound world → Sound (operations.foldl World.step world) := by
    induction operations with
    | nil => exact fun hsound => hsound
    | cons operation operations ih => exact fun hsound => ih (hsound.step operation)
  exact hfold sound_start

/-- Durable waits never deadlock: after any operations the wait-for graph has no cycle, and
under any commit's candidates the search returns a path of the graph exactly when a member
of `on` leads to the waiting task. -/
theorem waits_never_deadlock (operations : List Operation) :
    Acyclic (run operations).stored.WaitsFor ∧
    ∀ (scope : Option ConversationId) (creates : List Create) (tx : Transaction)
      (candidates : Stored) (task : TaskId) (on : List TaskId),
      Transaction.createAll (run operations).stored scope creates = .ok tx →
      (run operations).stored.apply tx.overlay = some candidates →
      (run operations).stored.Live task →
      (∀ path, ((run operations).memory.loadScopes (run operations).stored).waitCycle tx.minted
          tx.overlay task on = some path →
        Search.IsPath (· ∈ on) candidates.WaitsFor path task) ∧
      ((((run operations).memory.loadScopes (run operations).stored).waitCycle tx.minted
          tx.overlay task on).isSome = true ↔
        ∃ member ∈ on, ReflTransGen candidates.WaitsFor member task) := by
  have hsound := sound_run operations
  refine ⟨hsound.sane.acyclic, ?_⟩
  intro scope creates tx candidates task on hcreate happly hlive
  obtain ⟨found, hstages⟩ := Transaction.stages_createAll hsound.sane hcreate
  obtain rfl := Option.some.inj (hstages.apply.symm.trans happly)
  obtain ⟨hmirrors, hloaded⟩ := hsound.mirrors.loadScopes hsound.sane.forest
  have hstaged : Memory.Staged _ (run operations).stored found tx.overlay :=
    ⟨hmirrors, hsound.sane.forest, hloaded, hstages.apply, hstages.creates⟩
  exact hstaged.waitCycle_exact hsound.sane.names (le_of_eq hstages.minted) hlive on

/-- Two tasks of one conversation run, and the first waits on the second. -/
def exampleOperations : List Operation :=
  [.commit false [] none
    [.conversation 0 none, .task 0 none (some 0) false, .task 0 none (some 0) false]
    [(1, .running), (2, .running)],
   .wait 1 .run [] [2] .allSettled]

/-- The second cannot wait on the first. -/
theorem waits_never_deadlock_exampleOperations :
    Acyclic (run exampleOperations).stored.WaitsFor ∧
      ∃ member ∈ [1], ReflTransGen (run exampleOperations).stored.WaitsFor member 2 := by
  obtain ⟨hacyclic, hexact⟩ := waits_never_deadlock exampleOperations
  refine ⟨hacyclic, ?_⟩
  obtain ⟨-, hpath⟩ := hexact none [] ⟨[], 3⟩ _ 2 [1] rfl rfl ⟨_, rfl, rfl⟩
  exact hpath.mp (by decide)

end World

end Hummin.Scheduler
