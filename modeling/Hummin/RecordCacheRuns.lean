/-
Runs of a record cache: no read returns a record older than the last one published
before it began.
-/
import Hummin.RecordCacheReads

namespace Hummin.RecordCache

open List Option PropertyList

/-! ### Versions -/

/-- The records of states that follow a version. -/
def stamped (kind : Kind) (id : Id) : Nat → List TaskState → List Record
  | _, [] => []
  | version, state :: rest => ⟨kind, id, state, version + 1⟩ :: stamped kind id (version + 1) rest

theorem stamped_append (kind : Kind) (id : Id) (version : Nat) (states : List TaskState)
    (last : TaskState) :
    stamped kind id version (states ++ [last]) =
      stamped kind id version states ++ [⟨kind, id, last, version + states.length + 1⟩] := by
  induction states generalizing version with
  | nil => rfl
  | cons state rest ih =>
    have hlength : version + 1 + rest.length = version + (state :: rest).length := by
      rw [length_cons]
      omega
    rw [cons_append, stamped, stamped, ih, hlength]
    rfl

variable {history : Kind → Id → List TaskState}

variable {kind : Kind} {version : Nat} {record : Record}

theorem recordAt_eq_some {id : Id} (hrecord : recordAt history kind id version = some record) :
    record.kind = kind ∧ record.id = id ∧ record.version = version ∧ 0 < version ∧
      (history kind id)[version - 1]? = some record.state := by
  cases version with
  | zero => cases hrecord
  | succ version =>
    obtain ⟨state, hstate, rfl⟩ := map_eq_some_iff.mp hrecord
    exact ⟨rfl, rfl, rfl, Nat.succ_pos _, hstate⟩

/-- A task that ended is not written again. -/
def Final (history : Kind → Id → List TaskState) : Prop :=
  ∀ id front back, history .task id = front ++ TaskState.terminal :: back → back = []

/-- The record of a task that ended is its newest one. -/
theorem version_of_terminal (hfinal : Final history) {id : Id}
    (hrecord : recordAt history .task id version = some record)
    (hended : record.state = .terminal) : version = (history .task id).length := by
  obtain ⟨-, -, -, hpos, hstate⟩ := recordAt_eq_some hrecord
  rw [hended] at hstate
  obtain ⟨hlength, hget⟩ := List.getElem?_eq_some_iff.mp hstate
  have hsplit : history .task id =
      (history .task id).take (version - 1) ++ .terminal ::
        (history .task id).drop (version - 1 + 1) := by
    rw [← hget, ← drop_eq_getElem_cons hlength, take_append_drop]
  have hrest := drop_eq_nil_iff.mp (hfinal id _ _ hsplit)
  omega

/-- A cached record is one the storage took, not older than what is published. -/
def Fresh (state : State) (kind : Kind) (id : Id) (record : Record) : Prop :=
  recordAt state.history kind id record.version = some record ∧
    state.published kind id ≤ record.version

/-! ### The invariant -/

/-- A read in flight knows the writes published when it began, as long as the version
of its record's reads stands. -/
structure FlightSound (state : State) (flight : Flight) : Prop where
  published : flight.published ≤ flight.stored
  stored : flight.stored ≤ (state.history flight.kind flight.id).length
  current : flight.kind.isKept = true → ∃ reads,
    PropertyList.get flight.id state.cache.reads = some reads ∧
      flight.readsVersion ≤ reads.version ∧
      (reads.version = flight.readsVersion →
        state.published flight.kind flight.id = flight.published)

/-- The read is registered for a record. -/
def Flight.isOn (id : Id) (flight : Flight) : Bool :=
  flight.kind.isKept && flight.id = id

structure Sound (state : State) : Prop where
  final : Final state.history
  stored : ∀ kind id, state.published kind id ≤ (state.history kind id).length
  pending : ∀ kind id, state.unpublished.filter
      (fun record => record.kind = kind ∧ record.id = id) =
    stamped kind id (state.published kind id)
      ((state.history kind id).drop (state.published kind id))
  holds : Holds (Fresh state) state.cache
  waits : Exact state.cache
  flights : ∀ flight ∈ state.flights, FlightSound state flight
  counted : ∀ id, (PropertyList.get id state.cache.reads).map Reads.count =
    entryCount (state.flights.countP (Flight.isOn id))
  tokens : (state.flights.map Flight.token).Nodup
  below : ∀ flight ∈ state.flights, flight.token < state.nextToken
  answers : ∀ answer ∈ state.answers, answer.published ≤ answer.version

theorem sound_start (hfinal : Final history) :
    Sound (State.start history) where
  final := hfinal
  stored kind id := Nat.le_refl _
  pending kind id := by simp [State.start, stamped]
  holds := by constructor <;> simp [State.start, heldRecord]
  waits := ⟨by simp [State.start, PropertyList.keys], fun id => rfl⟩
  flights := by simp [State.start]
  counted id := rfl
  tokens := by simp [State.start]
  below := by simp [State.start]
  answers := by simp [State.start]

/-! ### Starting a read -/

theorem lookup_frame (kind : Kind) (id : Id) (cache : Cache) :
    (lookup kind id cache).2.awaited = cache.awaited ∧
      (lookup kind id cache).2.waits = cache.waits ∧
      (lookup kind id cache).2.liveTasks = cache.liveTasks ∧
      (lookup kind id cache).2.reads = cache.reads := by
  cases kind with
  | task =>
    rw [lookup]
    split <;> exact ⟨rfl, rfl, rfl, rfl⟩
  | _ => exact ⟨rfl, rfl, rfl, rfl⟩

theorem exact_of_same {cache next : Cache} (hexact : Exact cache)
    (hawaited : next.awaited = cache.awaited) (hwaits : next.waits = cache.waits) : Exact next :=
  ⟨by rw [hwaits]; exact hexact.distinct, by rw [hwaits, hawaited]; exact hexact.counted⟩

variable {state : State} {flights : List Flight} {flight : Flight} (id other : Id) (cache : Cache)

/-- The reads of a record after one more has registered. -/
theorem get_register :
    get other (register id cache).2.reads =
      if other = id then
        some ⟨((get id cache.reads).getD ⟨0, 0⟩).count + 1, (register id cache).1⟩
      else get other cache.reads := by
  rw [register]
  rw [JsMap.get_set]

section

variable (hstate : Sound state)

include hstate

variable {kind : Kind}

/-- Another cache with the same reads, which holds what is fresh. -/
theorem Sound.setCache {cache : Cache} (hholds : Holds (Fresh state) cache)
    (hwaits : Exact cache) (hreads : cache.reads = state.cache.reads) :
    Sound { state with cache } := by
  refine { hstate with holds := hholds, waits := hwaits, flights := ?_, counted := ?_ }
  · intro flight hflight
    obtain ⟨hpublished, hstored, hcurrent⟩ := hstate.flights flight hflight
    exact ⟨hpublished, hstored, hreads ▸ hcurrent⟩
  · exact hreads ▸ hstate.counted

theorem sound_lookup {id : Id} {found : Option Record} {cache : Cache}
    (hlookup : lookup kind id state.cache = (found, cache)) : Sound { state with cache } := by
  obtain ⟨hholds, -⟩ := holds_lookup hstate.holds kind id
  obtain ⟨hawaited, hwaits, -, hreads⟩ := lookup_frame kind id state.cache
  rw [hlookup] at hholds hawaited hwaits hreads
  exact hstate.setCache hholds (exact_of_same hstate.waits hawaited hwaits) hreads

theorem sound_answers {answers : List Answer}
    (hanswers : ∀ answer ∈ answers, answer.published ≤ answer.version) :
    Sound { state with answers } := by
  refine { hstate with flights := fun flight hflight => ?_, answers := hanswers }
  obtain ⟨hpublished, hstored, hcurrent⟩ := hstate.flights flight hflight
  exact ⟨hpublished, hstored, hcurrent⟩

theorem sound_hit {id : Id}
    {record : Record} {cache : Cache}
    (hlookup : lookup kind id state.cache = (some record, cache)) :
    Sound { state with
      cache
      answers := state.answers ++
        [⟨kind, id, state.published kind id, record.version⟩] } := by
  obtain ⟨-, hfound⟩ := holds_lookup hstate.holds kind id
  rw [hlookup] at hfound
  refine sound_answers (sound_lookup hstate hlookup) fun answer hanswer => ?_
  rcases mem_append.mp hanswer with hold | hnew
  · exact hstate.answers answer hold
  rw [mem_singleton.mp hnew]
  exact (hfound record rfl).2

/-- The count of a record's reads is the number of those in flight. -/
theorem Sound.count_eq (id : Id) :
    ((get id state.cache.reads).getD ⟨0, 0⟩).count = state.flights.countP (Flight.isOn id) := by
  have hcounted := hstate.counted id
  rw [entryCount] at hcounted
  cases hreads : get id state.cache.reads with
  | none =>
    rw [hreads] at hcounted
    split at hcounted
    next hzero =>
      exact hzero.symm
    · cases hcounted
  | some reads =>
    rw [hreads] at hcounted
    split at hcounted
    · cases hcounted
    · exact some.inj hcounted

theorem Sound.tokens_append {flight : Flight} (htoken : flight.token = state.nextToken) :
    ((state.flights ++ [flight]).map Flight.token).Nodup ∧
      ∀ other ∈ state.flights ++ [flight], other.token < state.nextToken + 1 := by
  constructor
  · rw [map_append, nodup_append]
    refine ⟨hstate.tokens, by simp, ?_⟩
    rintro token hmem other hother rfl
    obtain ⟨found, hfound, rfl⟩ := mem_map.mp hmem
    have hbelow := hstate.below found hfound
    rw [map_singleton, mem_singleton] at hother
    omega
  intro other hother
  rcases mem_append.mp hother with hold | hnew
  · exact Nat.lt_succ_of_lt (hstate.below other hold)
  rw [mem_singleton.mp hnew, htoken]
  exact Nat.lt_succ_self _

theorem sound_register
    (hkept : kind.isKept = true) (id : Id) :
    Sound { state with
      cache := (register id state.cache).2
      flights := state.flights ++ [⟨state.nextToken, kind, id,
        (register id state.cache).1, (state.history kind id).length,
        state.published kind id⟩]
      nextToken := state.nextToken + 1 } := by
  refine { hstate with
    holds := holds_of_same hstate.holds rfl rfl rfl rfl rfl
    waits := exact_of_same hstate.waits rfl rfl
    flights := ?_, counted := ?_
    tokens := (hstate.tokens_append rfl).1
    below := (hstate.tokens_append rfl).2 }
  · intro flight hflight
    rcases mem_append.mp hflight with hold | hnew
    · obtain ⟨hpublished, hstored, hcurrent⟩ := hstate.flights flight hold
      refine ⟨hpublished, hstored, ?_⟩
      intro hkind
      obtain ⟨reads, hreads, hversion, hsame⟩ := hcurrent hkind
      rw [get_register]
      split
      next hid =>
        refine ⟨_, rfl, ?_⟩
        rw [hid] at hreads
        rw [register, hreads]
        exact ⟨hversion, hsame⟩
      · exact ⟨reads, hreads, hversion, hsame⟩
    rw [mem_singleton.mp hnew]
    refine ⟨hstate.stored kind id, Nat.le_refl _, ?_⟩
    intro _
    rw [get_register, if_pos rfl]
    exact ⟨_, rfl, Nat.le_refl _, fun _ => rfl⟩
  intro name
  rw [get_register, countP_append, countP_singleton]
  by_cases hname : name = id
  · subst hname
    rw [if_pos rfl, map_some, hstate.count_eq, if_pos (by simp [Flight.isOn, hkept]),
      entryCount_of_pos (Nat.succ_pos _)]
  rw [if_neg hname, if_neg (by simp [Flight.isOn, Ne.symm hname]), Nat.add_zero]
  exact hstate.counted name

theorem sound_unregistered
    (hpassed : kind.isKept = false) (id : Id) (readsVersion : Nat) :
    Sound { state with
      flights := state.flights ++ [⟨state.nextToken, kind, id, readsVersion,
        (state.history kind id).length, state.published kind id⟩]
      nextToken := state.nextToken + 1 } := by
  refine { hstate with
    flights := ?_, counted := ?_
    tokens := (hstate.tokens_append rfl).1
    below := (hstate.tokens_append rfl).2 }
  · intro flight hflight
    rcases mem_append.mp hflight with hold | hnew
    · obtain ⟨hpublished, hstored, hcurrent⟩ := hstate.flights flight hold
      exact ⟨hpublished, hstored, hcurrent⟩
    rw [mem_singleton.mp hnew]
    refine ⟨hstate.stored kind id, Nat.le_refl _, ?_⟩
    intro hkept
    cases hpassed.symm.trans hkept
  intro name
  rw [countP_append, countP_singleton, if_neg (by simp [Flight.isOn, hpassed]),
    Nat.add_zero]
  exact hstate.counted name

theorem sound_startRead (kind : Kind) (id : Id) : Sound (startRead kind id state) := by
  rw [startRead]
  split
  next record cache hlookup =>
    exact sound_hit hstate hlookup
  rename_i cache hlookup
  have hlooked := sound_lookup hstate hlookup
  split
  next hkept =>
    exact sound_register hlooked hkept id
  next hpassed =>
    exact sound_unregistered hlooked (by simpa using hpassed) id 0

end

/-! ### Ending a read -/

theorem filter_token (hdistinct : (flights.map Flight.token).Nodup) (hflight : flight ∈ flights) :
    ∃ front back, flights = front ++ flight :: back ∧
      (flights.filter fun other => other.token ≠ flight.token) = front ++ back := by
  obtain ⟨front, back, rfl⟩ := append_of_mem hflight
  refine ⟨front, back, rfl, ?_⟩
  rw [map_append, map_cons, nodup_append, nodup_cons] at hdistinct
  rw [filter_append, filter_cons_of_neg (by simp), filter_eq_self.mpr,
    filter_eq_self.mpr]
  · intro other hother
    have hne : other.token ≠ flight.token := by
      intro hsame
      apply hdistinct.2.1.1
      rw [← hsame]
      exact mem_map_of_mem hother
    simpa using hne
  intro other hother
  have hne := hdistinct.2.2 other.token (mem_map_of_mem hother) flight.token
    mem_cons_self
  simpa using hne

/-- The reads of a record after one has ended. -/
theorem get_unregister :
    get other (unregister id cache).2.reads =
      if other = id then
        if ((get id cache.reads).getD ⟨0, 0⟩).count - 1 = 0 then none
        else some ⟨((get id cache.reads).getD ⟨0, 0⟩).count - 1, (unregister id cache).1⟩
      else get other cache.reads := by
  rw [unregister]
  split
  · dsimp only
    rw [get_erase]
  dsimp only
  rw [JsMap.get_set]

theorem unregister_frame :
    (unregister id cache).2.conversations = cache.conversations ∧
      (unregister id cache).2.submissions = cache.submissions ∧
      (unregister id cache).2.liveTasks = cache.liveTasks ∧
      (unregister id cache).2.tasks = cache.tasks ∧
      (unregister id cache).2.awaited = cache.awaited ∧
      (unregister id cache).2.waits = cache.waits := by
  rw [unregister]
  split <;> exact ⟨rfl, rfl, rfl, rfl, rfl, rfl⟩

theorem exact_keepRead {cache : Cache} (hexact : Exact cache) (record : Record) :
    Exact (keepRead record cache) := by
  rw [keepRead.eq_def]
  split
  · exact exact_of_same hexact rfl rfl
  · exact exact_keepTask hexact record
  · exact hexact

theorem reads_keepTask (record : Record) (cache : Cache) :
    (keepTask record cache).reads = cache.reads := by
  rw [keepTask]
  split
  · dsimp only
    split <;> rfl
  · rfl

theorem reads_keepRead (record : Record) (cache : Cache) :
    (keepRead record cache).reads = cache.reads := by
  rw [keepRead.eq_def]
  split
  · rfl
  · exact reads_keepTask record cache
  · rfl

theorem countP_filter_token (hdistinct : (flights.map Flight.token).Nodup)
    (hflight : flight ∈ flights) (id : Id) :
    flights.countP (Flight.isOn id) =
      (flights.filter fun other => other.token ≠ flight.token).countP (Flight.isOn id) +
        if flight.isOn id then 1 else 0 := by
  obtain ⟨front, back, hsplit, hfilter⟩ := filter_token hdistinct hflight
  rw [hfilter, hsplit, countP_append, countP_append, countP_cons]
  omega

/-- The state in which a read has ended and nothing was kept yet. -/
def forget (flight : Flight) (state : State) : State :=
  { state with
    cache := if flight.kind.isKept then (unregister flight.id state.cache).2 else state.cache
    flights := state.flights.filter fun other => other.token ≠ flight.token }

theorem sound_forget (hstate : Sound state) {flight : Flight}
    (hflight : flight ∈ state.flights) : Sound (forget flight state) := by
  have hcount := countP_filter_token hstate.tokens hflight
  obtain ⟨hconversations, hsubmissions, hlive, htasks, hawaited, hwaits⟩ :=
    unregister_frame flight.id state.cache
  have hcache : Holds (Fresh state) (forget flight state).cache ∧
      Exact (forget flight state).cache := by
    rw [forget]
    split
    · exact ⟨holds_of_same hstate.holds hconversations hsubmissions hlive htasks hawaited,
        exact_of_same hstate.waits hawaited hwaits⟩
    · exact ⟨hstate.holds, hstate.waits⟩
  refine { hstate with
    holds := hcache.1, waits := hcache.2
    flights := ?_, counted := ?_, tokens := ?_, below := ?_ }
  · intro other hother
    have hmem := mem_of_mem_filter hother
    obtain ⟨hpublished, hstored, hcurrent⟩ := hstate.flights other hmem
    refine ⟨hpublished, hstored, ?_⟩
    intro hkind
    obtain ⟨reads, hreads, hversion, hsame⟩ := hcurrent hkind
    dsimp only [forget]
    split
    next hkept =>
      rw [get_unregister]
      split
      next hid =>
        -- The other read is still in flight, so that the entry stays.
        have hothers : 0 < (state.flights.filter fun flight' =>
            flight'.token ≠ flight.token).countP (Flight.isOn flight.id) := by
          apply countP_pos_iff.mpr
          exact ⟨other, hother, by simp [Flight.isOn, hkind, hid]⟩
        have hone := hcount flight.id
        rw [if_pos (by simp [Flight.isOn, hkept])] at hone
        rw [hstate.count_eq, if_neg (by omega)]
        refine ⟨_, rfl, ?_⟩
        rw [hid] at hreads
        rw [unregister, hreads]
        exact ⟨hversion, hsame⟩
      · exact ⟨reads, hreads, hversion, hsame⟩
    · exact ⟨reads, hreads, hversion, hsame⟩
  · intro id
    have hid := hcount id
    have hcounted := hstate.counted id
    dsimp only [forget]
    split
    next hkept =>
      rw [get_unregister]
      by_cases hsame : id = flight.id
      · subst hsame
        rw [if_pos (by simp [Flight.isOn, hkept])] at hid
        rw [if_pos rfl, hstate.count_eq, entryCount]
        split
        · rw [if_pos (by omega)]
          rfl
        rw [if_neg (by omega), map_some]
        congr 1
        dsimp only
        omega
      rw [if_neg (by simp [Flight.isOn, Ne.symm hsame]), Nat.add_zero] at hid
      rw [if_neg hsame, ← hid]
      exact hcounted
    next hpassed =>
      rw [if_neg (by simp [Flight.isOn, hpassed]), Nat.add_zero] at hid
      rw [← hid]
      exact hcounted
  · exact hstate.tokens.sublist (filter_sublist.map _)
  · intro other hother
    exact hstate.below other (mem_of_mem_filter hother)

/-- A found record is kept when no publication wrote it since the read began, so that
it is fresh. -/
theorem sound_endRead (hstate : Sound state) {flight : Flight}
    (hflight : flight ∈ state.flights) {found : Option Record} (hfound : ∀ record ∈ found,
      recordAt state.history flight.kind flight.id record.version = some record ∧
        flight.stored ≤ record.version) : Sound (endRead flight found state) := by
  have hforgot := sound_forget hstate hflight
  rw [endRead]
  dsimp only
  split
  next hkept =>
    have hended : Sound { state with
        cache := (unregister flight.id state.cache).2
        flights := state.flights.filter fun other => other.token ≠ flight.token } := by
      rw [forget, if_pos hkept] at hforgot
      exact hforgot
    split
    next record =>
      split
      next hversion =>
        obtain ⟨hrecord, hstored⟩ := hfound record rfl
        obtain ⟨hpublished, -, hcurrent⟩ := hstate.flights flight hflight
        obtain ⟨reads, hreads, -, hsame⟩ := hcurrent hkept
        rw [unregister, hreads] at hversion
        have hunwritten := hsame hversion
        obtain ⟨hkind, hid, -⟩ := recordAt_eq_some hrecord
        have hfresh : Fresh state record.kind record.id record := by
          rw [hkind, hid]
          exact ⟨hrecord, by omega⟩
        exact hended.setCache (holds_keepRead hended.holds hfresh)
          (exact_keepRead hended.waits record) (reads_keepRead _ _)
      · exact hended
    · exact hended
  next hpassed =>
    rw [forget, if_neg hpassed] at hforgot
    exact hforgot

/-! ### Writes -/

variable {taskState : TaskState}

theorem recordAt_stored {other : Kind}
    {id name : Id}
    (hrecord : recordAt history other name version = some record) :
    recordAt (fun other name =>
      if other = kind ∧ name = id then history kind id ++ [taskState] else history other name)
        other name version = some record := by
  cases version with
  | zero => cases hrecord
  | succ version =>
    obtain ⟨state, hstate, rfl⟩ := map_eq_some_iff.mp hrecord
    rw [recordAt]
    split
    next hsame =>
      rw [hsame.1, hsame.2] at hstate
      rw [getElem?_append_left (List.getElem?_eq_some_iff.mp hstate).1, hstate]
      rfl
    · rw [hstate]
      rfl

theorem sound_stored (hstate : Sound state) {id : Id}
    (hlive : ¬ (kind = .task ∧ (state.history kind id).getLast? = some .terminal)) :
    Sound { state with
      history := fun other name =>
        if other = kind ∧ name = id then state.history kind id ++ [taskState]
        else state.history other name
      unpublished := state.unpublished ++
        [⟨kind, id, taskState, (state.history kind id).length + 1⟩] } := by
  constructor
  · intro name front back hsplit
    dsimp only at hsplit
    split at hsplit
    next hsame =>
      obtain ⟨rfl, rfl⟩ := hsame
      rcases eq_nil_or_concat back with rfl | ⟨more, last, rfl⟩
      · rfl
      rw [concat_eq_append, ← cons_append, ← append_assoc] at hsplit
      have hbefore := (append_inj' hsplit rfl).1
      obtain rfl := hstate.final name front more hbefore
      exfalso
      apply hlive
      exact ⟨rfl, by rw [hbefore]; simp⟩
    · exact hstate.final name front back hsplit
  · intro other name
    have hle := hstate.stored other name
    dsimp only
    split
    next hsame =>
      obtain ⟨rfl, rfl⟩ := hsame
      rw [length_append]
      omega
    · exact hle
  · intro other name
    have hpending := hstate.pending other name
    have hle := hstate.stored other name
    dsimp only
    rw [filter_append, hpending]
    split
    next hsame =>
      obtain ⟨rfl, rfl⟩ := hsame
      rw [filter_cons_of_pos (by simp), drop_append_of_le_length hle,
        stamped_append, length_drop]
      have hlength : state.published other name +
          ((state.history other name).length - state.published other name) =
            (state.history other name).length := by omega
      rw [hlength]
      rfl
    next hother =>
      rw [filter_cons_of_neg, filter_nil, append_nil]
      intro hsame
      apply hother
      have hparts : kind = other ∧ id = name := by simpa using hsame
      exact ⟨hparts.1.symm, hparts.2.symm⟩
  · apply hstate.holds.mono
    rintro other name record ⟨hrecord, hpublished⟩
    exact ⟨recordAt_stored hrecord, hpublished⟩
  · exact hstate.waits
  · intro flight hflight
    obtain ⟨hpublished, hstored, hcurrent⟩ := hstate.flights flight hflight
    refine ⟨hpublished, ?_, hcurrent⟩
    dsimp only
    split
    next hsame =>
      rw [hsame.1, hsame.2] at hstored
      rw [length_append]
      omega
    · exact hstored
  · exact hstate.counted
  · exact hstate.tokens
  · exact hstate.below
  · exact hstate.answers

/-! ### Publications -/

variable {rest : List Record}

/-- The next write to publish is the next version of its record. -/
theorem Sound.next_published (hstate : Sound state)
    (hunpublished : state.unpublished = record :: rest) :
    record.version = state.published record.kind record.id + 1 ∧
      record.version ≤ (state.history record.kind record.id).length ∧
      recordAt state.history record.kind record.id record.version = some record ∧
      rest.filter (fun other => other.kind = record.kind ∧ other.id = record.id) =
        stamped record.kind record.id record.version
          ((state.history record.kind record.id).drop record.version) := by
  have hpending := hstate.pending record.kind record.id
  rw [hunpublished, filter_cons_of_pos (by simp)] at hpending
  cases hdrop : (state.history record.kind record.id).drop
      (state.published record.kind record.id) with
  | nil =>
    rw [hdrop] at hpending
    cases hpending
  | cons taskState more =>
    rw [hdrop, stamped] at hpending
    obtain ⟨hrecord, hrest⟩ := cons.inj hpending
    have hversion : record.version = state.published record.kind record.id + 1 := by
      rw [hrecord]
    have hget : (state.history record.kind record.id)[
        state.published record.kind record.id]? = some taskState := by
      rw [← head?_drop, hdrop]
      rfl
    have hlength := (List.getElem?_eq_some_iff.mp hget).1
    refine ⟨hversion, by omega, ?_, ?_⟩
    · rw [hversion, recordAt, hget]
      exact congrArg some hrecord.symm
    rw [hversion, ← drop_drop, hdrop, hrest]
    rfl

theorem reads_publishWrite {cache next : Cache} (hexact : Exact cache)
    (hpublish : publishWrite record cache = some next) :
    next.reads = (wrote record.id cache).reads := by
  have hmarked := exact_wrote hexact record.id
  rw [publishWrite.eq_def] at hpublish
  cases hkind : record.kind with
  | task =>
    rw [hkind] at hpublish
    obtain ⟨followed, hfollowed, hrest⟩ := followWait_spec hmarked record
    dsimp only at hpublish
    rw [hfollowed] at hpublish
    cases hpublish
    rw [reads_keepTask]
    exact hrest.2.2.2.2
  | _ =>
    rw [hkind] at hpublish
    cases hpublish
    rfl

theorem get_wrote :
    get other (wrote id cache).reads =
      (get other cache.reads).map fun reads =>
        if other = id then { reads with version := reads.version + 1 } else reads := by
  rw [wrote]
  split
  next reads hreads =>
    rw [JsMap.get_set]
    by_cases hid : other = id
    · simp [hid, hreads]
    · simp [hid]
  next hreads =>
    by_cases hid : other = id
    · simp [hid, hreads]
    · simp [hid]

theorem sound_published (hstate : Sound state)
    (hunpublished : state.unpublished = record :: rest) {cache : Cache}
    (hpublish : publishWrite record state.cache = some cache) :
    Sound { state with
      cache
      unpublished := rest
      published := countPublished record state.published } := by
  obtain ⟨hversion, hlength, hrecord, hrest⟩ := hstate.next_published hunpublished
  have hreads := reads_publishWrite hstate.waits hpublish
  have hother : ∀ kind id, ¬ (kind = record.kind ∧ id = record.id) →
      countPublished record state.published kind id = state.published kind id := by
    intro kind id hdiffers
    exact if_neg hdiffers
  have hsame : countPublished record state.published record.kind record.id = record.version :=
    if_pos ⟨rfl, rfl⟩
  constructor
  · exact hstate.final
  · intro kind id
    dsimp only
    by_cases hkey : kind = record.kind ∧ id = record.id
    · rw [hkey.1, hkey.2, hsame]
      exact hlength
    rw [hother kind id hkey]
    exact hstate.stored kind id
  · intro kind id
    dsimp only
    by_cases hkey : kind = record.kind ∧ id = record.id
    · rw [hkey.1, hkey.2, hsame]
      exact hrest
    have hpending := hstate.pending kind id
    rw [hunpublished, filter_cons_of_neg] at hpending
    · rw [hother kind id hkey]
      exact hpending
    intro hmatches
    apply hkey
    have hparts : record.kind = kind ∧ record.id = id := by simpa using hmatches
    exact ⟨hparts.1.symm, hparts.2.symm⟩
  · refine holds_publishWrite hstate.holds ?_ ?_ hpublish
    · exact ⟨hrecord, Nat.le_of_eq hsame⟩
    rintro kind id found ⟨hknown, hfresh⟩ hcase
    refine ⟨hknown, ?_⟩
    by_cases hkey : kind = record.kind ∧ id = record.id
    · rcases hcase with hkind | hid | ⟨htask, hended⟩
      · exact absurd hkey.1 hkind
      · exact absurd hkey.2 hid
      subst htask
      have hnewest := version_of_terminal hstate.final hknown hended
      dsimp only
      rw [hkey.1, hkey.2, hsame, hnewest, hkey.1, hkey.2]
      exact hlength
    dsimp only
    rw [hother kind id hkey]
    exact hfresh
  · obtain ⟨next, hnext, hexact⟩ := publishWrite_spec hstate.waits record
    cases hnext.symm.trans hpublish
    exact hexact
  · intro flight hflight
    obtain ⟨hpublished, hstored, hcurrent⟩ := hstate.flights flight hflight
    refine ⟨hpublished, hstored, ?_⟩
    intro hkept
    obtain ⟨reads, hfound, hreadsVersion, hunwritten⟩ := hcurrent hkept
    dsimp only
    rw [hreads, get_wrote, hfound, map_some]
    refine ⟨_, rfl, ?_⟩
    split
    · dsimp only
      refine ⟨by omega, ?_⟩
      intro hstands
      omega
    rename_i hid
    refine ⟨hreadsVersion, ?_⟩
    intro hstands
    rw [hother flight.kind flight.id fun hkey => hid hkey.2]
    exact hunwritten hstands
  · intro id
    have hcounted := hstate.counted id
    rw [hreads, get_wrote, Option.map_map, ← hcounted]
    congr 1
    funext reads
    split <;> rfl
  · exact hstate.tokens
  · exact hstate.below
  · exact hstate.answers

/-! ### Runs -/

theorem mem_of_find_token {token : Nat} {flight : Flight}
    (hfind : (flights.find? fun flight => flight.token = token) = some flight) :
    flight ∈ flights :=
  mem_of_find?_eq_some hfind

theorem sound_step {next : State} {event : Event} (hstate : Sound state)
    (hstep : step state event = some next) : Sound next := by
  cases event with
  | read kind id =>
    cases hstep
    exact sound_startRead hstate kind id
  | returned token version =>
    rw [step] at hstep
    split at hstep
    next flight hfind =>
      have hflight := mem_of_find_token hfind
      obtain ⟨hrange, rfl⟩ := of_guard hstep
      have hended : Sound (endRead flight
          (recordAt state.history flight.kind flight.id version) state) := by
        apply sound_endRead hstate hflight
        intro record hrecord
        have hversion := (recordAt_eq_some hrecord).2.2.1
        rw [hversion]
        exact ⟨hrecord, hrange.1⟩
      apply sound_answers hended
      refine forall_mem_append.mpr ⟨hstate.answers, forall_mem_singleton.mpr ?_⟩
      exact Nat.le_trans (hstate.flights flight hflight).published hrange.1
    · cases hstep
  | rejected token =>
    rw [step] at hstep
    obtain ⟨flight, hfind, rfl⟩ := map_eq_some_iff.mp hstep
    apply sound_endRead hstate (mem_of_find_token hfind)
    exact nofun
  | stored kind id taskState =>
    obtain ⟨hlive, rfl⟩ := of_not_guard hstep
    exact sound_stored hstate hlive
  | published =>
    rw [step] at hstep
    split at hstep
    · cases hstep
    next record rest hunpublished =>
      obtain ⟨cache, hpublish, rfl⟩ := map_eq_some_iff.mp hstep
      exact sound_published hstate hunpublished hpublish

theorem sound_run (hfinal : Final history) {events : List Event} {state : State}
    (hrun : run step (State.start history) events = some state) : Sound state :=
  run_invariant (fun _ _ _ hstate hstep => sound_step hstate hstep) (sound_start hfinal) hrun

end Hummin.RecordCache
