/-
Runs of the ownership index.  Commits are admitted by jobs on the Session line and published
later, in order; chain loads of the job on the line stop at every node while publications
go on, and a job's pins go when it ends.
-/
import Hummin.Machine
import Hummin.OwnedWork
import Hummin.OwnershipLoads

namespace Hummin.Scheduler

open List

open Option hiding or_assoc

/-- The job on the line: what it pinned so far, and the chain load it is in. -/
structure Job where
  pins : List Node
  load : Option Load

structure State where
  /-- The records as published. -/
  stored : Stored
  memory : Memory
  line : Option Job
  /-- Admitted commits that are not published, in order, with the pins of their jobs. -/
  pending : List (Commit × List Node)
  /-- The pins of jobs that have not ended, though nothing of theirs is unpublished. -/
  ending : List (List Node)

namespace State

/-- The records with every admitted commit in place. -/
def admitted (state : State) : Option Stored :=
  state.pending.foldlM (fun stored commit => stored.apply commit.1) state.stored

/-- A read of the node a load has come to waits for its unpublished writers; what memory or
the commit's own candidates have is not read. -/
def readable (state : State) (load : Load) : Bool :=
  (state.memory.parent load.here).isSome || Commit.writes load.overlay load.here ||
    state.pending.all fun commit => !Commit.writes commit.1 load.here

end State

inductive Action
  /-- A job comes on the line. -/
  | start
  /-- The job loads the chain of a node, with the candidates it has staged. -/
  | load (start : Node) (overlay : Overlay)
  /-- The chain load deals with the node it has come to. -/
  | climb
  /-- The job leaves the line, with the commit it admits, if any. -/
  | leave (commit : Option Commit)
  | publish
  /-- A job ends, which releases its pins. -/
  | finish (index : Nat)
  /-- A sweep in a job of its own. -/
  | sweep

/-- What a climbed node makes of the job on the line. -/
def State.climbed (state : State) (job : Job) : Climb → State
  | .on memory pinned load =>
    { state with memory := memory, line := some ⟨job.pins ++ pinned.toList, some load⟩ }
  | .arrived memory pinned =>
    { state with memory := memory, line := some ⟨job.pins ++ pinned.toList, none⟩ }
  | .missing => { state with line := some ⟨job.pins, none⟩ }

def step (state : State) : Action → Option State
  | .start =>
    match state.line with
    | none => some { state with line := some ⟨[], none⟩ }
    | some _ => none
  | .load start overlay =>
    match state.line with
    | some ⟨pins, none⟩ =>
      match state.admitted.bind fun admitted => admitted.apply overlay with
      | some candidates =>
        if candidates.has start then
          some { state with line := some ⟨pins, some ⟨overlay, [], start⟩⟩ }
        else none
      | none => none
    | _ => none
  | .climb =>
    match state.line with
    | some ⟨pins, some load⟩ =>
      if state.readable load then
        some (state.climbed ⟨pins, some load⟩ (state.memory.climb state.stored load))
      else none
    | _ => none
  | .leave none =>
    match state.line with
    | some ⟨pins, none⟩ => some { state with line := none, ending := state.ending ++ [pins] }
    | _ => none
  | .leave (some commit) =>
    match state.line with
    | some ⟨pins, none⟩ =>
      if (state.admitted.bind fun admitted => admitted.apply commit).isSome then
        some { state with line := none, pending := state.pending ++ [(commit, pins)] }
      else none
    | _ => none
  | .publish =>
    match state.pending with
    | [] => none
    | (commit, pins) :: rest =>
      (state.stored.apply commit).map fun stored =>
        { state with
          stored := stored
          memory := state.memory.observe commit
          pending := rest
          ending := state.ending ++ [pins] }
  | .finish index =>
    match state.ending[index]? with
    | none => none
    | some pins => some { state with
        memory := pins.foldl Memory.unpin state.memory
        ending := state.ending.eraseIdx index }
  | .sweep =>
    match state.line with
    | none => some { state with memory := state.memory.sweep }
    | some _ => none

/-! ### Sweeps -/

namespace Memory

variable {memory : Memory} {stored admitted candidates : Stored} {load : Load} {id : TaskId}

/-- The sweep of this memory drops no node above a pinned task whose chain counts as loaded,
or will when the load underway arrives. -/
def Spares (memory : Memory) (passed : List TaskId) : Prop :=
  ∀ id, .task id ∈ memory.pins → (id ∉ memory.unloaded ∨ id ∈ passed) →
    ∀ up, Above memory (.task id) up → ¬ Swept memory up

/-- A known task of the swept memory was known, and is not dropped. -/
theorem taskNode_of_sweep (hknown : memory.sweep.taskNode id ≠ none) :
    memory.taskNode id ≠ none ∧ ¬ Swept memory (.task id) := by
  have hforgets := forgets_sweep memory
  have hstays : ¬ Swept memory (.task id) := fun hgone => hknown (hforgets.taskGone id hgone)
  exact ⟨hforgets.taskNode id hstays ▸ hknown, hstays⟩

variable {passed : List TaskId}

theorem Tidy.kept_above_sweep (htidy : Tidy memory)
    (hspares : Spares memory passed) (hknown : memory.sweep.taskNode id ≠ none)
    (hcounts : id ∉ memory.unloaded ∨ id ∈ passed) {up : Node}
    (habove : Above memory (.task id) up) : ¬ Swept memory up := by
  obtain ⟨hold, hstays⟩ := taskNode_of_sweep hknown
  cases hneeded : memory.needed (.task id) with
  | true => exact htidy.toListed.kept_above (forgets_sweep memory) hneeded habove
  | false =>
    have hparent : memory.parent (.task id) ≠ none := by
      obtain ⟨fields, hfields⟩ := ne_none_iff_exists'.mp hold
      rw [parent_task_of_taskNode hfields]
      exact some_ne_none _
    by_cases hpinned : Node.task id ∈ memory.pins
    · exact hspares id hpinned hcounts up habove
    have hqueued := (htidy.kept _ hparent hneeded).resolve_right hpinned
    exact absurd ⟨hqueued, hneeded, hpinned⟩ hstays

theorem Agrees.sweep (hagrees : Agrees memory stored) : Agrees memory.sweep stored := by
  have hforgets := forgets_sweep memory
  constructor
  · intro id fields hfields
    by_cases hgone : Swept memory (.task id)
    · cases (hforgets.taskGone id hgone).symm.trans hfields
    · exact hagrees.fields id fields ((hforgets.taskNode id hgone).symm.trans hfields)
  intro id owner howner
  by_cases hgone : Swept memory (.conversation id)
  · cases (hforgets.edgeGone id hgone).symm.trans howner
  · exact hagrees.edge id owner ((hforgets.edge id hgone).symm.trans howner)

theorem Exact.sweep (hexact : Exact memory stored)
    (hspares : Spares memory passed) : Exact memory.sweep stored := by
  refine ⟨hexact.toTidy.sweep, ?_, hexact.agrees.sweep⟩
  intro id hknown hloaded
  obtain ⟨hold, hstays⟩ := taskNode_of_sweep hknown
  have hunmarked : id ∉ memory.unloaded :=
    fun hid => hloaded (((forgets_sweep memory).unloaded id).mpr ⟨hid, hstays⟩)
  apply (hexact.chained id hold hunmarked).forgets (forgets_sweep memory)
  exact fun up habove => hexact.toTidy.kept_above_sweep hspares hknown (.inl hunmarked) habove

theorem LoadSound.sweep (hload : LoadSound memory stored admitted candidates load)
    (htidy : Tidy memory) (hspares : Spares memory load.passed) :
    LoadSound memory.sweep stored admitted candidates load := by
  refine ⟨?_, hload.stored, hload.apply, hload.here⟩
  intro id hid
  refine ⟨(hload.passed id hid).1, fun hknown => ?_⟩
  apply ((hload.passed id hid).2 (taskNode_of_sweep hknown).1).forgets (forgets_sweep memory)
  exact fun up habove => htidy.kept_above_sweep hspares hknown (.inr hid) habove

/-- A publication underway of a load leaves it sound: nothing passed becomes known again. -/
theorem LoadSound.publish {next : Stored} {commit : Commit}
    (hload : LoadSound memory stored admitted candidates load) (hforest : stored.Forest)
    (hlive : MirrorsLive memory stored) (happly : stored.apply commit = some next)
    (hextends : Extends memory (memory.publish commit)) :
    LoadSound (memory.publish commit) next admitted candidates load := by
  have hgrows := hforest.grows_apply happly
  refine ⟨?_, fun hne => hgrows.has (hload.stored hne), hload.apply, hload.here⟩
  intro id hid
  obtain ⟨hstored, habove⟩ := hload.passed id hid
  refine ⟨@Stored.Grows.has _ _ hgrows (.task id) hstored, fun hknown => ?_⟩
  apply (habove _).mono hextends
  intro hunknown
  obtain ⟨ended, hended⟩ := isSome_iff_exists.mp hstored
  have hdead := hlive.isLive_eq_false hunknown hended
  rw [taskNode_publish_of_ne fun record => hforest.id_ne_of_ended happly hended hdead] at hknown
  exact hknown hunknown

theorem sameNodes_unpin (node : Node) : SameNodes memory (memory.unpin node) ∧
    (memory.unpin node).unloaded = memory.unloaded := by
  rw [Memory.unpin]
  split
  · exact ⟨⟨rfl, rfl, rfl⟩, rfl⟩
  have hrelists := @relists_dropIfUnneeded { memory with pins := memory.pins.erase node } node
  exact ⟨⟨hrelists.live, hrelists.settled, hrelists.edges⟩, hrelists.unloaded⟩

theorem Exact.unpin (hexact : Exact memory stored) {node : Node} :
    Exact (memory.unpin node) stored := by
  obtain ⟨hsame, hunloaded⟩ := @sameNodes_unpin memory node
  exact hexact.congr hexact.toTidy.unpin hsame fun _ hid => hunloaded ▸ hid

theorem LoadSound.congr {later : Memory} (hload : LoadSound memory stored admitted candidates load)
    (hsame : SameNodes memory later) : LoadSound later stored admitted candidates load := by
  refine ⟨?_, hload.stored, hload.apply, hload.here⟩
  intro id hid
  obtain ⟨hstored, habove⟩ := hload.passed id hid
  refine ⟨hstored, fun hknown => ?_⟩
  rw [hsame.taskNode] at hknown
  exact (habove hknown).mono hsame.extends

theorem Exact.unpinAll (hexact : Exact memory stored) (pins : List Node) :
    Exact (pins.foldl Memory.unpin memory) stored ∧
      SameNodes memory (pins.foldl Memory.unpin memory) := by
  induction pins generalizing memory with
  | nil => exact ⟨hexact, ⟨rfl, rfl, rfl⟩⟩
  | cons node pins ih =>
    have hunpinned : Exact (memory.unpin node) stored := hexact.unpin
    obtain ⟨hrest, hsame⟩ := ih hunpinned
    have hfirst := (@sameNodes_unpin memory node).1
    exact ⟨hrest, hsame.live.trans hfirst.live, hsame.settled.trans hfirst.settled,
      hsame.edges.trans hfirst.edges⟩

end Memory

namespace State

variable {state next : State}

/-- The tasks the load underway has passed. -/
def passed (state : State) : List TaskId :=
  match state.line with
  | some ⟨_, some load⟩ => load.passed
  | _ => []

/-- The sweep of a step spares what lies above pinned tasks with a loaded chain. -/
def Sparing (state : State) : Action → Prop
  | .publish => ∀ commit pins rest, state.pending = (commit, pins) :: rest →
      (state.memory.publish commit).Spares state.passed
  | .sweep => state.memory.Spares []
  | _ => True

structure Sound (state : State) : Prop where
  forest : state.stored.Forest
  live : state.memory.MirrorsLive state.stored
  exact : state.memory.Exact state.stored
  admitted : ∃ admitted, state.admitted = some admitted
  load : ∀ job load admitted, state.line = some job → job.load = some load →
    state.admitted = some admitted →
    ∃ candidates, Memory.LoadSound state.memory state.stored admitted candidates load

/-- Every admitted commit grows what is stored. -/
theorem grows_admitted {stored admitted : Stored} {pending : List (Commit × List Node)}
    (hforest : stored.Forest)
    (hadmitted : pending.foldlM (fun stored commit => stored.apply commit.1) stored = some admitted) :
    stored.Grows admitted ∧ admitted.Forest ∧ ∀ node, admitted.has node = true →
      (∀ commit ∈ pending, Commit.writes commit.1 node = false) → stored.has node = true := by
  induction pending generalizing stored with
  | nil =>
    obtain rfl := some.inj hadmitted
    exact ⟨.refl stored, hforest, fun _ hnode _ => hnode⟩
  | cons commit pending ih =>
    rw [foldlM_cons] at hadmitted
    obtain ⟨middle, happly, hrest⟩ := bind_eq_some_iff.mp hadmitted
    obtain ⟨hgrows, hfinal, hhas⟩ := ih (hforest.apply happly) hrest
    refine ⟨(hforest.grows_apply happly).trans hgrows, hfinal, ?_⟩
    intro node hnode hunwritten
    have hmiddle := hhas node hnode fun other hother => hunwritten other (mem_cons_of_mem _ hother)
    rcases Stored.has_of_apply happly hmiddle with hstored | hwritten
    · exact hstored
    rw [hunwritten commit mem_cons_self] at hwritten
    cases hwritten

variable {pins : List Node}

theorem Sound.climbed (hsound : Sound state) {load : Load}
    (hline : state.line = some ⟨pins, some load⟩) (hreadable : state.readable load = true) :
    Sound (state.climbed ⟨pins, some load⟩ (state.memory.climb state.stored load)) := by
  obtain ⟨admitted, hadmitted⟩ := hsound.admitted
  obtain ⟨candidates, hload⟩ := hsound.load _ load admitted hline rfl hadmitted
  obtain ⟨hgrows, hforest, hhas⟩ := grows_admitted hsound.forest hadmitted
  have hread : (state.memory.parent load.here).isSome = true ∨
      Commit.writes load.overlay load.here = true ∨
      (admitted.has load.here = true → state.stored.has load.here = true) := by
    rw [readable, Bool.or_eq_true, Bool.or_eq_true, or_assoc] at hreadable
    refine hreadable.imp_right (Or.imp_right fun hall hnode => ?_)
    apply hhas load.here hnode
    intro commit hcommit
    exact Bool.not_eq_true' _ |>.mp (all_eq_true.mp hall commit hcommit)
  have hclimb := Memory.climbSound hsound.exact hsound.forest hsound.live hgrows hforest hload hread
  cases hresult : state.memory.climb state.stored load with
  | on memory pinned onward =>
    rw [hresult] at hclimb
    obtain ⟨hexact, hlive, honward⟩ := hclimb
    refine ⟨hsound.forest, hlive, hexact, hsound.admitted, ?_⟩
    intro job load other hjob hloading hother
    cases hjob
    cases hloading
    cases hadmitted.symm.trans hother
    exact ⟨candidates, honward⟩
  | arrived memory pinned =>
    rw [hresult] at hclimb
    refine ⟨hsound.forest, hclimb.2, hclimb.1, hsound.admitted, ?_⟩
    intro job load other hjob hloading
    cases hjob
    cases hloading
  | missing =>
    refine ⟨hsound.forest, hsound.live, hsound.exact, hsound.admitted, ?_⟩
    intro job load other hjob hloading
    cases hjob
    cases hloading

theorem Sound.publish (hsound : Sound state) {commit : Commit}
    {rest : List (Commit × List Node)} {stored : Stored}
    (hpending : state.pending = (commit, pins) :: rest)
    (happly : state.stored.apply commit = some stored)
    (hspares : (state.memory.publish commit).Spares state.passed) :
    Sound { state with
      stored := stored
      memory := state.memory.observe commit
      pending := rest
      ending := state.ending ++ [pins] } := by
  obtain ⟨hexact, hlive, hextends⟩ := hsound.exact.publish hsound.forest hsound.live happly
  have hadmitted : state.admitted =
      rest.foldlM (fun stored commit => stored.apply commit.1) stored := by
    rw [State.admitted, hpending, foldlM_cons, happly]
    rfl
  refine ⟨hsound.forest.apply happly, ?_, hexact.sweep hspares, ?_, ?_⟩
  · intro id
    rw [← hlive id]
    exact congrFun (Memory.forgets_sweep _).live id
  · obtain ⟨admitted, hsome⟩ := hsound.admitted
    exact ⟨admitted, hadmitted.symm.trans hsome⟩
  intro job load admitted hline hload hsome
  have hbefore : state.admitted = some admitted := hadmitted.trans hsome
  obtain ⟨candidates, hsoundLoad⟩ := hsound.load job load admitted hline hload hbefore
  refine ⟨candidates, (hsoundLoad.publish hsound.forest hsound.live happly hextends).sweep
    hexact.toTidy ?_⟩
  have hpassed : state.passed = load.passed := by
    rw [passed, show state.line = some job from hline]
    obtain ⟨_, _⟩ := job
    obtain rfl : _ = some load := hload
    rfl
  exact hpassed ▸ hspares

theorem Sound.step (hsound : Sound state) {action : Action} (hsparing : state.Sparing action)
    (hstep : step state action = some next) : Sound next := by
  obtain ⟨admitted, hadmitted⟩ := hsound.admitted
  cases action with
  | start =>
    rw [Scheduler.step] at hstep
    split at hstep
    · cases hstep
      refine ⟨hsound.forest, hsound.live, hsound.exact, hsound.admitted, ?_⟩
      intro job load _ hjob hload
      cases hjob
      cases hload
    · cases hstep
  | load start overlay =>
    rw [Scheduler.step] at hstep
    split at hstep
    next pins hline =>
      split at hstep
      next candidates hcandidates =>
        obtain ⟨hhas, rfl⟩ := of_guard hstep
        rw [hadmitted, bind_some] at hcandidates
        refine ⟨hsound.forest, hsound.live, hsound.exact, hsound.admitted, ?_⟩
        intro job load other hjob hload hother
        cases hjob
        cases hload
        cases hadmitted.symm.trans hother
        exact ⟨candidates, nofun, fun hne => absurd rfl hne, hcandidates, hhas⟩
      · cases hstep
    · cases hstep
  | climb =>
    rw [Scheduler.step] at hstep
    split at hstep
    next pins load hline =>
      obtain ⟨hreadable, rfl⟩ := of_guard hstep
      exact hsound.climbed hline hreadable
    · cases hstep
  | leave commit =>
    cases commit with
    | none =>
      rw [Scheduler.step] at hstep
      split at hstep
      · cases hstep
        exact ⟨hsound.forest, hsound.live, hsound.exact, hsound.admitted, nofun⟩
      · cases hstep
    | some commit =>
      rw [Scheduler.step] at hstep
      split at hstep
      next pins hline =>
        obtain ⟨hvalid, rfl⟩ := of_guard hstep
        obtain ⟨later, hlater⟩ := isSome_iff_exists.mp hvalid
        refine ⟨hsound.forest, hsound.live, hsound.exact, ⟨later, ?_⟩, nofun⟩
        rw [State.admitted] at hlater ⊢
        rw [foldlM_append]
        simp only [foldlM_cons, foldlM_nil, bind_pure]
        exact hlater
      · cases hstep
  | publish =>
    rw [Scheduler.step] at hstep
    split at hstep
    · cases hstep
    next commit pins rest hpending =>
      obtain ⟨stored, happly, rfl⟩ := map_eq_some_iff.mp hstep
      exact hsound.publish hpending happly (hsparing commit pins rest hpending)
  | finish index =>
    rw [Scheduler.step] at hstep
    split at hstep
    · cases hstep
    rename_i pins _
    cases hstep
    obtain ⟨hexact, hsame⟩ := hsound.exact.unpinAll pins
    refine ⟨hsound.forest, ?_, hexact, hsound.admitted, ?_⟩
    · intro id
      rw [← hsound.live id]
      exact congrFun hsame.live id
    intro job load other hjob hload hother
    obtain ⟨candidates, hsoundLoad⟩ := hsound.load job load other hjob hload hother
    exact ⟨candidates, hsoundLoad.congr hsame⟩
  | sweep =>
    rw [Scheduler.step] at hstep
    split at hstep
    next hline =>
      cases hstep
      refine ⟨hsound.forest, ?_, hsound.exact.sweep hsparing, hsound.admitted, ?_⟩
      · intro id
        rw [← hsound.live id]
        exact congrFun (Memory.forgets_sweep _).live id
      intro job load other hjob
      cases hline.symm.trans hjob
    · cases hstep

/-! ### Opening -/

end State

namespace Memory

def empty : Memory where
  live := fun _ => none
  settled := fun _ => none
  edges := fun _ => none
  below := fun _ => []
  roots := []
  unloaded := []
  dropQueue := []
  pins := []

theorem parent_empty (node : Node) : empty.parent node = none := by
  cases node <;> rfl

theorem exact_empty (stored : Stored) : Exact empty stored := by
  refine ⟨⟨⟨⟨?_, nofun, nofun⟩, ?_⟩, ?_⟩, ?_, ⟨nofun, nofun⟩⟩
  · intro node up hup
    cases (parent_empty node).symm.trans hup
  · intro node
    constructor
    · intro up hup
      cases (parent_empty node).symm.trans hup
    intro hroot
    cases (parent_empty node).symm.trans hroot
  · intro node hknown
    exact absurd (parent_empty node) hknown
  · intro id hknown
    exact absurd rfl hknown

end Memory

/-- The live records of a store. -/
def Stored.scanLive (stored : Stored) : List TaskRecord :=
  (List.range stored.nextId).filterMap fun id => (stored.tasks id).filter TaskRecord.isLive

theorem Stored.Forest.mem_scanLive {stored : Stored} (hforest : stored.Forest)
    {record : TaskRecord} :
    record ∈ stored.scanLive ↔ stored.tasks record.id = some record ∧ record.isLive = true := by
  rw [Stored.scanLive, mem_filterMap]
  constructor
  · rintro ⟨id, -, hfound⟩
    obtain ⟨hrecord, hlive⟩ := filter_eq_some_iff.mp hfound
    obtain rfl := hforest.taskId id record hrecord
    exact ⟨hrecord, hlive⟩
  rintro ⟨hrecord, hlive⟩
  refine ⟨record.id, mem_range.mpr (hforest.taskBound _ _ hrecord), ?_⟩
  exact filter_eq_some_iff.mpr ⟨hrecord, hlive⟩

namespace State

/-- A scheduler opened over a store has tracked its live tasks. -/
def opened (stored : Stored) : State where
  stored := stored
  memory := stored.scanLive.foldl Memory.track .empty
  line := none
  pending := []
  ending := []

theorem foldl_track_live {memory : Memory} {stored : Stored} {records : List TaskRecord}
    (hexact : memory.Exact stored) (hforest : stored.Forest)
    (hrecords : ∀ record ∈ records, stored.tasks record.id = some record ∧ record.isLive = true) :
    (records.foldl Memory.track memory).Exact stored ∧
      ∀ id, (records.foldl Memory.track memory).live id =
        if records.any (fun record => record.id = id) then stored.tasks id else memory.live id := by
  induction records generalizing memory with
  | nil => exact ⟨hexact, fun _ => rfl⟩
  | cons record records ih =>
    obtain ⟨hstored, hisLive⟩ := hrecords record mem_cons_self
    have htracked : (memory.track record).Exact stored := by
      apply hexact.track hforest ⟨record, hstored, rfl⟩
      intro hterminal
      rw [TaskRecord.isLive, hterminal] at hisLive
      cases hisLive
    obtain ⟨hrest, hlive⟩ := ih htracked fun other hother =>
      hrecords other (mem_cons_of_mem record hother)
    refine ⟨hrest, fun id => ?_⟩
    rw [foldl_cons, hlive, Memory.live_track, hisLive, if_pos rfl, any_cons]
    by_cases hid : id = record.id
    · subst hid
      rw [Function.update_self, decide_eq_true rfl, Bool.true_or, if_pos rfl, hstored]
      exact ite_self _
    · rw [Function.update_of_ne hid, decide_eq_false fun heq => hid heq.symm, Bool.false_or]

theorem sound_opened {stored : Stored} (hforest : stored.Forest) : Sound (opened stored) := by
  obtain ⟨hexact, hlive⟩ := foldl_track_live (Memory.exact_empty stored) hforest
    fun record hrecord => hforest.mem_scanLive.mp hrecord
  refine ⟨hforest, ?_, hexact, ⟨stored, rfl⟩, nofun⟩
  intro id
  refine (hlive id).trans ?_
  change _ = (stored.tasks id).filter TaskRecord.isLive
  split
  next hany =>
    obtain ⟨record, hrecord, hid⟩ := any_eq_true.mp hany
    obtain ⟨hstored, hisLive⟩ := hforest.mem_scanLive.mp hrecord
    rw [← of_decide_eq_true hid, hstored, filter_some_pos hisLive]
  rename_i hnone
  symm
  by_contra hsome
  obtain ⟨record, hrecord⟩ := ne_none_iff_exists'.mp hsome
  obtain ⟨hstored, hisLive⟩ := filter_eq_some_iff.mp hrecord
  apply hnone
  obtain rfl := hforest.taskId id record hstored
  exact any_eq_true.mpr ⟨record, hforest.mem_scanLive.mpr ⟨hstored, hisLive⟩, decide_eq_true rfl⟩

end State

namespace Memory

variable {memory : Memory} {stored : Stored} {node : Node}

/-- Listed nodes are stored. -/
theorem Exact.bound_of_mem_below (hexact : Exact memory stored) (hforest : stored.Forest) {up : Node}
    (hchild : node ∈ memory.below up) : up.id < node.id ∧ node.id < stored.nextId := by
  have hup := hexact.below node up hchild
  refine ⟨hexact.ordered node up hup, ?_⟩
  have hparent := hexact.agrees.parent hup
  apply hforest.bound_of_has
  cases node with
  | task id =>
    obtain ⟨record, hrecord, -⟩ := map_eq_some_iff.mp hparent
    exact isSome_iff_exists.mpr ⟨record, hrecord⟩
  | conversation id =>
    obtain ⟨owner, howner, -⟩ := map_eq_some_iff.mp hparent
    exact isSome_iff_exists.mpr ⟨owner, howner⟩

/-- Below a listed node there is a live task that led to its listing. -/
theorem Exact.exists_live (hexact : Exact memory stored) (hforest : stored.Forest)
    (hknown : memory.parent node ≠ none) (hneeded : memory.needed node = true) :
    ∃ id, memory.live id ≠ none ∧ Above memory (.task id) node := by
  -- Listed children have larger ids, up to the next one.
  induction hgap : stored.nextId - node.id using Nat.strongRecOn generalizing node with
  | ind gap ih =>
    rw [needed, Bool.or_eq_true] at hneeded
    rcases hneeded with hlive | hbelow
    · cases node with
      | conversation id => cases hlive
      | task id => exact ⟨id, isSome_iff_ne_none.mp hlive, .refl⟩
    obtain ⟨child, hchild⟩ := hasBelow_iff.mp hbelow
    have hup := hexact.below child node hchild
    have hbounds := hexact.bound_of_mem_below hforest hchild
    have hchildNeeded := ((hexact.all child).below node hup).mp hchild
    have hsmaller : stored.nextId - child.id < gap := by omega
    obtain ⟨id, hlive, habove⟩ :=
      ih _ hsmaller (hup ▸ some_ne_none _) hchildNeeded rfl
    exact ⟨id, hlive, habove.tail hup⟩

theorem Rooted.of_above_down (hrooted : Rooted memory node) {up : Node}
    (habove : Above memory node up) : Rooted memory up := by
  induction habove with
  | refl => exact hrooted
  | tail _ hup ih =>
    cases ih with
    | root hroot => cases hroot.symm.trans hup
    | hangs hother hrest =>
      cases some.inj (hother.symm.trans hup)
      exact hrest

/-- A walk down from a node reaches every live task with a loaded chain that ordinary
traversal reaches. -/
theorem Exact.mem_walkDown (hexact : Exact memory stored) (hforest : stored.Forest) {start : Node}
    {id : TaskId} (hlive : memory.live id ≠ none) (hloaded : id ∉ memory.unloaded)
    (hreaches : stored.Reaches start (.task id)) :
    id ∈ (memory.walkDown stored.nextId [] false (fun _ => true) start).map Visit.id := by
  obtain ⟨record, hrecord⟩ := ne_none_iff_exists'.mp hlive
  have hfields : memory.taskNode id = some record.toTaskNode := by
    rw [taskNode, hrecord]
  have hrooted := hexact.chained id (hfields ▸ some_ne_none _) hloaded
  have hneeded : memory.needed (.task id) = true := by
    rw [needed, isLive, hrecord, isSome_some, Bool.true_or]
  have hfits : OverlayFits memory [] := by
    rintro other found ⟨⟩
  have hchildren : ∀ node, memory.childrenIn [] node = memory.below node :=
    fun node => append_nil _
  rcases hexact.toListed.entered_or_rejected hexact.agrees hfits hreaches hrooted hneeded with
    hentered | ⟨_, hrejected, -⟩
  · have hwalk := (@TreeWalk.mem_walk_iff _ _ _ _ _ Node.id stored.nextId stored.nextId ?_
      (Nat.le_add_left _ _)).mpr hentered
    · refine mem_map.mpr ⟨⟨id, record.toTaskNode, (some record).filter TaskRecord.isLive⟩,
        mem_filterMap.mpr ⟨.task id, hwalk, ?_⟩, rfl⟩
      rw [visit, hfits.nodeIn hfields]
      have hrecordIn : memory.recordIn [] id = some record := hrecord
      rw [hrecordIn, map_some]
    intro up child hchild
    rw [hchildren] at hchild
    exact hexact.bound_of_mem_below hforest hchild
  · cases hrejected

end Memory

namespace State

variable {state : State}

/-- The index is exact. -/
structure IndexExact (state : State) : Prop where
  listed : ∀ node up, state.memory.parent node = some (some up) →
    (node ∈ state.memory.below up ↔
      state.memory.isLive node = true ∨ state.memory.hasBelow node = true)
  roots : ∀ id, state.memory.edges id = some none →
    (id ∈ state.memory.roots ↔ state.memory.hasBelow (.conversation id) = true)
  chained : ∀ id, state.memory.taskNode id ≠ none → id ∉ state.memory.unloaded →
    state.memory.Rooted (.task id)
  reached : ∀ start id, state.memory.live id ≠ none → id ∉ state.memory.unloaded →
    state.stored.Reaches start (.task id) →
    id ∈ (state.memory.walkDown state.stored.nextId [] false (fun _ => true) start).map Visit.id
  kept : state.pending = [] → state.memory.pins = [] → state.memory.dropQueue = [] →
    ∀ node, state.memory.isLive node = false →
      (state.memory.parent node ≠ none → state.memory.hasBelow node = true) ∧
      (state.memory.unloaded = [] → state.memory.hasBelow node = true →
        state.memory.parent node ≠ none)

theorem Sound.indexExact (hsound : Sound state) : IndexExact state := by
  have hexact := hsound.exact
  refine ⟨?_, ?_, hexact.chained, ?_, ?_⟩
  · intro node up hup
    rw [(hexact.all node).below up hup, Memory.needed, Bool.or_eq_true]
  · intro id hroot
    have hparent : state.memory.parent (.conversation id) = some none := by
      rw [Memory.parent, hroot]
      rfl
    exact (hexact.all (.conversation id)).root hparent
  · intro start id hlive hloaded hreaches
    exact hexact.mem_walkDown hsound.forest hlive hloaded hreaches
  intro _ hpins hqueue node hdead
  constructor
  · intro hknown
    by_contra hbelow
    have hunneeded : state.memory.needed node = false := by
      rw [Memory.needed, hdead, Bool.false_or, Bool.eq_false_iff]
      exact hbelow
    have hkept := hexact.kept node hknown hunneeded
    rw [hpins, hqueue] at hkept
    exact hkept.elim not_mem_nil not_mem_nil
  intro hloaded hbelow
  obtain ⟨child, hchild⟩ := Memory.hasBelow_iff.mp hbelow
  have hup := hexact.below child node hchild
  obtain ⟨id, hlive, habove⟩ := hexact.exists_live hsound.forest (hup ▸ some_ne_none _)
    (((hexact.all child).below node hup).mp hchild)
  obtain ⟨record, hrecord⟩ := ne_none_iff_exists'.mp hlive
  have hknown : state.memory.taskNode id ≠ none := by
    rw [Memory.taskNode, hrecord]
    exact some_ne_none _
  have hrooted := hexact.chained id hknown (hloaded ▸ not_mem_nil)
  exact (hrooted.of_above_down (habove.tail hup)).known

/-- In a run whose sweeps spare what lies above pinned tasks with a loaded chain, the index
is exact in every state. -/
theorem index_exact {stored : Stored} (hforest : stored.Forest) {actions front : List Action}
    (hsteps : EveryStep step Sparing (opened stored) actions) (hfront : front <+: actions)
    (hrun : run step (opened stored) front = some state) : IndexExact state := by
  have hsound : Sound state := by
    apply everyStep_invariant _ (sound_opened hforest) hsteps hfront hrun
    intro state action next hsound hsparing hstep
    exact hsound.step hsparing hstep
  exact hsound.indexExact

/-! ### A sweep above a pinned task -/

def exampleTask (id : TaskId) (conversationId : ConversationId) (owner : Option TaskId)
    (state : TaskState) : TaskRecord :=
  ⟨⟨conversationId, owner, false⟩, id, state, false⟩

/-- Task 2 is live and owns the ended task 3, which owns conversation 4 with the live task
5, and the ended task 6, which owns conversation 7. -/
def exampleStore : Stored where
  tasks := fun id => [exampleTask 2 1 none .pending, exampleTask 3 1 (some 2) .terminal,
    exampleTask 5 4 none .pending, exampleTask 6 1 (some 3) .terminal].find? fun record =>
      record.id = id
  conversations := fun id => ([(1, none), (4, some 3), (7, some 6)].find? fun edge =>
    edge.1 = id).map Prod.snd
  nextId := 8

/-- A job that loads the chains of both live tasks. -/
def loadBoth : List Action :=
  [.start, .load (.task 2) [], .climb, .climb, .load (.task 5) [], .climb, .climb, .climb, .climb,
    .leave none, .finish 0]

/-- The last live task below task 3 ends while a job creates a task below task 6. -/
def overlapped : List Action :=
  loadBoth ++
  ([.start, .leave (some [.task (exampleTask 5 4 none .terminal)]),
    .start, .load (.conversation 7) [.task (exampleTask 8 7 none .pending)], .climb, .climb, .climb,
    .leave (some [.task (exampleTask 8 7 none .pending)]),
    .publish, .publish, .finish 0, .finish 0] : List Action)

theorem overlapped_hides : ∃ state, run step (opened exampleStore) overlapped = some state ∧
    ¬ IndexExact state := by
  refine ⟨_, rfl, ?_⟩
  intro hexact
  have hreached := hexact.reached (.task 2) 8 nofun (by decide)
    (.through (.through (.through (.child rfl) rfl rfl) rfl rfl) rfl rfl)
  cases hreached

theorem exampleStore_forest : exampleStore.Forest := by
  have htasks : ∀ id record, exampleStore.tasks id = some record →
      record.id = id ∧ record.id < 8 ∧
        exampleStore.has (parentNode record.toTaskNode) = true ∧
        (parentNode record.toTaskNode).id < record.id := by
    intro id record hrecord
    have hid := find?_some hrecord
    refine ⟨of_decide_eq_true hid, ?_⟩
    have hmem := mem_of_find?_eq_some hrecord
    simp only [mem_cons, not_mem_nil, or_false] at hmem
    rcases hmem with rfl | rfl | rfl | rfl <;> decide
  have hedges : ∀ id owner, exampleStore.conversations id = some owner →
      id < 8 ∧ ∀ task ∈ owner, (exampleStore.tasks task).isSome = true ∧ task < id := by
    intro id owner howner
    obtain ⟨edge, hedge, rfl⟩ := map_eq_some_iff.mp howner
    have hid := find?_some hedge
    obtain rfl := of_decide_eq_true hid
    have hmem := mem_of_find?_eq_some hedge
    simp only [mem_cons, not_mem_nil, or_false] at hmem
    rcases hmem with rfl | rfl | rfl <;> decide
  refine ⟨fun id record hrecord => (htasks id record hrecord).1, ?_, ?_,
    fun id owner howner => (hedges id owner howner).1, ?_⟩
  · intro id record hrecord
    obtain ⟨rfl, hbound, -⟩ := htasks id record hrecord
    exact hbound
  · intro id record hrecord
    obtain ⟨rfl, -, hparent⟩ := htasks id record hrecord
    exact hparent
  intro id owner howner
  exact (hedges id _ howner).2 owner rfl

/-- The last live task below task 3 ends with nothing pinned. -/
def endLast : List Action :=
  (loadBoth ++ [Action.start, Action.leave (some [.task (exampleTask 5 4 none .terminal)])]) ++
    [Action.publish]

theorem endLast_sparing : EveryStep step Sparing (opened exampleStore) endLast := by
  apply everyStep_append
  · apply everyStep_of_forall
    intro state input hinput
    simp only [loadBoth, cons_append, nil_append, mem_cons, not_mem_nil, or_false] at hinput
    rcases hinput with rfl | rfl | rfl | rfl | rfl | rfl | rfl | rfl | rfl | rfl | rfl | rfl | rfl <;>
      trivial
  intro middle hmiddle
  cases hmiddle
  refine ⟨?_, fun _ _ => trivial⟩
  intro commit pins rest hpending id hpinned
  cases hpending
  cases hpinned

theorem index_exact_endLast : ∃ state, run step (opened exampleStore) endLast = some state ∧
    IndexExact state :=
  ⟨_, rfl, index_exact exampleStore_forest endLast_sparing prefix_rfl rfl⟩

end State

end Hummin.Scheduler
