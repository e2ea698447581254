/-
Runs of a record cache: where the record of a task is kept.
-/
import Hummin.RecordCacheRuns

namespace Hummin.RecordCache

open List Option

/-! ### Steps -/

/-- A live record is kept only when no ended one of its task is held for waits: of a
read that returns, and of a publication once the task's waits are followed. -/
def KeptApart (state : State) : Event → Prop
  | .returned token version => ∀ flight record,
      (state.flights.find? fun flight => flight.token = token) = some flight →
      recordAt state.history flight.kind flight.id version = some record →
      flight.kind = .task →
      (unregister flight.id state.cache).1 = flight.readsVersion →
      KeepsApart record state.cache
  | .published => ∀ record followed,
      state.unpublished.head? = some record → record.kind = .task →
      followWait record (wrote record.id state.cache) = some followed →
      KeepsApart record followed
  | _ => True

variable {cache : Cache}

theorem apart_of_fewer {next : Cache} (hapart : Apart cache)
    (hlive : next.liveTasks = cache.liveTasks) (hawaited : next.awaited = cache.awaited)
    (htasks : ∀ id, JsMap.has id next.tasks = true → JsMap.has id cache.tasks = true) :
    Apart next := by
  have habsent : ∀ id, JsMap.has id cache.tasks = false → JsMap.has id next.tasks = false := by
    intro id hnone
    by_contra hkept
    rw [htasks id (by simpa using hkept)] at hnone
    cases hnone
  constructor
  · intro id
    obtain ⟨hliving, hended⟩ := hapart.exclusive id
    rw [heldRecord, hlive, hawaited]
    exact ⟨fun hhas => ⟨(hliving hhas).1, habsent id (hliving hhas).2⟩,
      fun hheld => habsent id (hended hheld)⟩
  intro id hhas
  rw [hawaited] at hhas
  exact habsent id (hapart.moved id hhas)

theorem apart_lookup (hapart : Apart cache) (kind : Kind) (id : Id) :
    Apart (lookup kind id cache).2 := by
  obtain ⟨hawaited, -, hlive, -⟩ := lookup_frame kind id cache
  apply apart_of_fewer hapart hlive hawaited
  intro name hhas
  cases kind with
  | task =>
    rw [lookup] at hhas
    split at hhas
    · exact hhas
    · exact has_lruGet hhas
  | _ => exact hhas

variable {state : State}

theorem apart_startRead (hapart : Apart state.cache) (kind : Kind) (id : Id) :
    Apart (startRead kind id state).cache := by
  have hlooked := apart_lookup hapart kind id
  rw [startRead]
  split
  next record cache hlookup =>
    rw [hlookup] at hlooked
    exact hlooked
  rename_i cache hlookup
  rw [hlookup] at hlooked
  split
  · exact apart_of_same hlooked rfl rfl rfl
  · exact hlooked

theorem apart_unregister (hapart : Apart cache) (id : Id) : Apart (unregister id cache).2 := by
  obtain ⟨-, -, hlive, htasks, hawaited, -⟩ := unregister_frame id cache
  exact apart_of_same hapart hlive hawaited htasks

theorem keepsApart_unregister (record : Record) (id : Id) (cache : Cache) :
    KeepsApart record (unregister id cache).2 ↔ KeepsApart record cache := by
  obtain ⟨-, -, -, -, hawaited, -⟩ := unregister_frame id cache
  rw [KeepsApart, KeepsApart, heldRecord, hawaited]
  rfl

variable {record : Record}

/-- A found record that is kept is a task's when the read is. -/
theorem apart_keepRead (hapart : Apart cache)
    (hkeeps : record.kind = .task → KeepsApart record cache) : Apart (keepRead record cache) := by
  rw [keepRead.eq_def]
  split
  · exact apart_of_same hapart rfl rfl rfl
  next htask =>
    exact apart_keepTask hapart (hkeeps htask)
  · exact hapart

theorem apart_endRead (hapart : Apart state.cache) (flight : Flight) {found : Option Record}
    (hkeeps : ∀ record ∈ found, record.kind = .task →
      (unregister flight.id state.cache).1 = flight.readsVersion →
      KeepsApart record state.cache) : Apart (endRead flight found state).cache := by
  have hended := apart_unregister hapart flight.id
  rw [endRead]
  dsimp only
  split
  · split
    next record =>
      split
      next hversion =>
        apply apart_keepRead hended
        intro htask
        exact (keepsApart_unregister record flight.id state.cache).mpr
          (hkeeps record rfl htask hversion)
      · exact hended
    · exact hended
  · exact hapart

theorem apart_wrote (hapart : Apart cache) (id : Id) : Apart (wrote id cache) := by
  rw [wrote]
  split
  · exact apart_of_same hapart rfl rfl rfl
  · exact hapart

theorem apart_publishWrite {next : Cache} (hapart : Apart cache)
    (hkeeps : ∀ followed, record.kind = .task →
      followWait record (wrote record.id cache) = some followed → KeepsApart record followed)
    (hpublish : publishWrite record cache = some next) : Apart next := by
  have hmarked := apart_wrote hapart record.id
  rw [publishWrite.eq_def] at hpublish
  cases hkind : record.kind with
  | task =>
    rw [hkind] at hpublish
    obtain ⟨followed, hfollowed, rfl⟩ := map_eq_some_iff.mp hpublish
    exact apart_keepTask (apart_followWait hmarked hfollowed) (hkeeps followed hkind hfollowed)
  | _ =>
    rw [hkind] at hpublish
    cases hpublish
    exact apart_of_same hmarked rfl rfl rfl

theorem apart_step {next : State} {event : Event} (hapart : Apart state.cache)
    (hkept : KeptApart state event) (hstep : step state event = some next) : Apart next.cache := by
  cases event with
  | read kind id =>
    cases hstep
    exact apart_startRead hapart kind id
  | returned token version =>
    rw [step] at hstep
    split at hstep
    next flight hfind =>
      obtain ⟨-, rfl⟩ := of_guard hstep
      apply apart_endRead hapart flight
      intro record hrecord htask hversion
      have hkind := (recordAt_eq_some hrecord).1
      exact hkept flight record hfind hrecord (hkind.symm.trans htask) hversion
    · cases hstep
  | rejected token =>
    rw [step] at hstep
    obtain ⟨flight, hfind, rfl⟩ := map_eq_some_iff.mp hstep
    apply apart_endRead hapart flight
    rintro record ⟨⟩
  | stored kind id taskState =>
    obtain ⟨-, rfl⟩ := of_not_guard hstep
    exact hapart
  | published =>
    rw [step] at hstep
    split at hstep
    · cases hstep
    rename_i record rest hunpublished
    obtain ⟨cache, hpublish, rfl⟩ := map_eq_some_iff.mp hstep
    apply apart_publishWrite hapart _ hpublish
    intro followed
    apply hkept record followed
    rw [hunpublished]
    rfl

/-- Any other step puts a task into two tables. -/
theorem not_exclusive_step {next : State} {event : Event}
    (hkept : ¬ KeptApart state event) (hstep : step state event = some next) :
    ¬ Exclusive next.cache := by
  cases event with
  | returned token version =>
    rw [KeptApart] at hkept
    push Not at hkept
    obtain ⟨flight, record, hfind, hrecord, htask, hversion, hkeeps⟩ := hkept
    have hkind := (recordAt_eq_some hrecord).1
    rw [step, hfind] at hstep
    dsimp only at hstep
    obtain ⟨-, rfl⟩ := of_guard hstep
    rw [endRead, hrecord, htask, if_pos (by rfl)]
    dsimp only
    rw [if_pos hversion, keepRead.eq_def, hkind, htask]
    apply not_exclusive_keepTask
    rw [keepsApart_unregister]
    exact hkeeps
  | published =>
    rw [KeptApart] at hkept
    push Not at hkept
    obtain ⟨record, followed, hhead, htask, hfollowed, hkeeps⟩ := hkept
    rw [step] at hstep
    split at hstep
    · cases hstep
    rename_i first rest hunpublished
    rw [hunpublished] at hhead
    cases hhead
    obtain ⟨cache, hpublish, rfl⟩ := map_eq_some_iff.mp hstep
    rw [publishWrite.eq_def, htask] at hpublish
    dsimp only at hpublish
    rw [hfollowed] at hpublish
    cases hpublish
    exact not_exclusive_keepTask hkeeps
  | _ => exact absurd trivial hkept

/-! ### Runs -/

theorem apart_start (history : Kind → Id → List TaskState) : Apart (State.start history).cache := by
  constructor
  · intro id
    refine ⟨?_, ?_⟩
    · exact nofun
    · exact nofun
  · exact nofun

/-- In every run no read returns a record older than the last one published before it
began, the waits are counted exactly, so that a publication never misses an entry, and
each task is in at most one table all along just when no step keeps a live record beside
an ended one. -/
theorem cache_coherent {history : Kind → Id → List TaskState} (hfinal : Final history)
    {events : List Event} {state : State}
    (hrun : run step (State.start history) events = some state) :
    (∀ answer ∈ state.answers, answer.published ≤ answer.version) ∧
      Exact state.cache ∧
      (∀ record, (publishWrite record state.cache).isSome = true) ∧
      ((∀ front reached, front <+: events →
          run step (State.start history) front = some reached → Exclusive reached.cache) ↔
        EveryStep step KeptApart (State.start history) events) := by
  have hsound := sound_run hfinal hrun
  refine ⟨hsound.answers, hsound.waits, ?_, ?_⟩
  · intro record
    obtain ⟨next, hnext, -⟩ := publishWrite_spec hsound.waits record
    rw [hnext]
    rfl
  · exact forall_states_iff_everyStep (fun _ hapart => hapart.exclusive)
      (fun _ _ _ hapart hkept hstep => apart_step hapart hkept hstep)
      (fun _ _ _ hkept hstep => not_exclusive_step hkept hstep) (apart_start history) hrun

/-- A storage that holds one live task. -/
def oneTask : Kind → Id → List TaskState :=
  fun kind id => if kind = .task ∧ id = 1 then [.live] else []

theorem final_oneTask : Final oneTask := by
  intro id front back hsplit
  rw [oneTask] at hsplit
  split at hsplit
  · have hlength := congrArg length hsplit
    simp only [length_append, length_cons, length_nil] at hlength
    exact length_eq_zero_iff.mp (by omega)
  · cases front <;> cases hsplit

/-- A second task waits on the first, which is read twice and ends meanwhile: the read
that returns first finds it ended, the other one finds it live. -/
def crossedReads : List Event :=
  [.stored .task 2 (.waiting [1]), .published, .read .task 1, .read .task 1,
    .stored .task 1 .terminal, .returned 0 2, .returned 1 1]

/-- The first task is kept as live and held as ended for the wait. -/
theorem crossedReads_in_two_tables :
    ¬ ∀ history, Final history → ∀ events state,
      run step (State.start history) events = some state → Exclusive state.cache := by
  intro hclaim
  have hreached : ∃ state, run step (State.start oneTask) crossedReads = some state ∧
      JsMap.has 1 state.cache.liveTasks = true ∧
      (heldRecord state.cache 1).isSome = true := ⟨_, rfl, rfl, rfl⟩
  obtain ⟨state, hrun, hlive, hheld⟩ := hreached
  have hexclusive := hclaim oneTask final_oneTask crossedReads state hrun
  rw [((hexclusive 1).1 hlive).1] at hheld
  cases hheld

/-- Without the slower read, the task is held for the wait alone. -/
theorem cache_coherent_oneRead : ∃ state,
    run step (State.start oneTask) (crossedReads.take 6) = some state ∧
      (heldRecord state.cache 1).isSome = true ∧ Exact state.cache ∧
      ∀ answer ∈ state.answers, answer.published ≤ answer.version := by
  have hreached : ∃ state,
      run step (State.start oneTask) (crossedReads.take 6) = some state ∧
        (heldRecord state.cache 1).isSome = true := ⟨_, rfl, rfl⟩
  obtain ⟨state, hrun, hheld⟩ := hreached
  obtain ⟨hanswers, hexact, -, -⟩ := cache_coherent final_oneTask hrun
  exact ⟨state, hrun, hheld, hexact, hanswers⟩

end Hummin.RecordCache
