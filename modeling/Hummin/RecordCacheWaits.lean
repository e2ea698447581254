/-
The waits that a record cache follows.  The ids that waits name are counted exactly,
and a task's record is in at most one table as long as no live record is kept while an
ended one is held for a wait.
-/
import Hummin.RecordCache

namespace Hummin.RecordCache

open List Option PropertyList JsMap

/-! ### Demand -/

/-- How often the waits name an id. -/
def demand (waits : List (Id × Wait)) (id : Id) : Nat :=
  (waits.flatMap fun pair => pair.2.on).count id

theorem demand_cons (pair : Id × Wait) (rest : List (Id × Wait)) (id : Id) :
    demand (pair :: rest) id = pair.2.on.count id + demand rest id := by
  rw [demand, flatMap_cons, count_append]
  rfl

theorem demand_append (front back : List (Id × Wait)) (id : Id) :
    demand (front ++ back) id = demand front id + demand back id := by
  rw [demand, flatMap_append, count_append]
  rfl

variable {waits : List (Id × Wait)}

theorem demand_erase {task : Id} {wait : Wait} (hdistinct : (keys waits).Nodup)
    (hwait : get task waits = some wait) (id : Id) :
    demand (erase task waits) id + wait.on.count id = demand waits id := by
  induction waits with
  | nil => cases hwait
  | cons pair rest ih =>
    obtain ⟨hnew, hrest⟩ := nodup_cons.mp hdistinct
    rw [get_cons] at hwait
    rw [demand_cons, erase]
    by_cases hkey : pair.1 = task
    · rw [if_pos hkey] at hwait
      cases hwait
      have hnone : JsMap.has task rest = false := by
        rw [JsMap.has, isSome_eq_false_iff, isNone_iff_eq_none, get_eq_none_iff, ← hkey]
        exact hnew
      have hkept := erase_of_not_has hnone
      rw [filter_cons_of_neg (by simp [hkey])]
      rw [erase] at hkept
      rw [hkept, Nat.add_comm]
    rw [if_neg hkey] at hwait
    rw [filter_cons_of_pos (by simpa using hkey), demand_cons, ← ih hrest hwait,
      erase]
    omega

theorem demand_replace {task : Id} {wait : Wait}
    (hwait : get task waits = some wait) (other : Wait) (id : Id) :
    demand (PropertyList.replace task other waits) id + wait.on.count id =
      demand waits id + other.on.count id := by
  induction waits with
  | nil => cases hwait
  | cons pair rest ih =>
    obtain ⟨name, old⟩ := pair
    rw [get_cons] at hwait
    rw [PropertyList.replace]
    by_cases hkey : name = task
    · rw [if_pos hkey] at hwait
      cases hwait
      rw [if_pos hkey, demand_cons, demand_cons]
      dsimp only
      omega
    rw [if_neg hkey] at hwait
    have hrest := ih hwait
    rw [if_neg hkey, demand_cons, demand_cons]
    omega

/-- A new wait of a task takes the place of its old one. -/
theorem demand_set (hdistinct : (keys waits).Nodup) (task : Id) (wait : Wait) (id : Id) :
    demand (JsMap.set task wait waits) id = demand (erase task waits) id + wait.on.count id := by
  cases hold : get task waits with
  | none =>
    have hnew : JsMap.has task waits = false := by
      rw [JsMap.has, hold]
      rfl
    rw [set_of_not_has hnew, erase_of_not_has hnew, demand_append, demand_cons]
    rfl
  | some old =>
    have hset : JsMap.set task wait waits = replace task wait waits := by
      rw [JsMap.set, put, hold]
      rfl
    have herase := demand_erase hdistinct hold id
    have hreplace := demand_replace hold wait id
    rw [hset]
    omega

/-! ### Counted ids -/

/-- The count of an entry; what is not wanted has none. -/
def entryCount (wanted : Nat) : Option Nat :=
  if wanted = 0 then none else some wanted

theorem entryCount_of_pos {wanted : Nat} (hpos : 0 < wanted) : entryCount wanted = some wanted :=
  if_neg (by omega)

/-- Each id in demand has an entry with its count, and no other id has one. -/
def Counted (awaited : List (Id × Awaited)) (wanted : Id → Nat) : Prop :=
  ∀ id, (PropertyList.get id awaited).map Awaited.count = entryCount (wanted id)

variable {awaited : List (Id × Awaited)} {cache : Cache} {wanted : Id → Nat}

section

variable (hcounted : Counted awaited wanted)
include hcounted

theorem Counted.some_of_pos {id : Id} (hpos : 0 < wanted id) :
    ∃ entry, get id awaited = some entry ∧ entry.count = wanted id := by
  have hid := hcounted id
  rw [entryCount_of_pos hpos] at hid
  exact map_eq_some_iff.mp hid

theorem Counted.count_eq {id : Id} {entry : Awaited} (hentry : get id awaited = some entry) :
    entry.count = wanted id ∧ 0 < wanted id := by
  have hid := hcounted id
  rw [hentry, map_some, entryCount] at hid
  split at hid
  · cases hid
  · exact ⟨some.inj hid, by omega⟩

theorem Counted.eq_zero {id : Id} (hnone : get id awaited = none) : wanted id = 0 := by
  by_contra hpos
  obtain ⟨entry, hentry, -⟩ := hcounted.some_of_pos (Nat.pos_of_ne_zero hpos)
  cases hnone.symm.trans hentry

end

/-- What releasing or starting a wait leaves alone. -/
structure SameButTasks (cache next : Cache) : Prop where
  conversations : next.conversations = cache.conversations
  liveTasks : next.liveTasks = cache.liveTasks
  waits : next.waits = cache.waits
  submissions : next.submissions = cache.submissions
  reads : next.reads = cache.reads

theorem SameButTasks.refl (cache : Cache) : SameButTasks cache cache :=
  ⟨rfl, rfl, rfl, rfl, rfl⟩

theorem SameButTasks.trans {middle next : Cache} (hfirst : SameButTasks cache middle)
    (hsecond : SameButTasks middle next) : SameButTasks cache next :=
  ⟨hsecond.conversations.trans hfirst.conversations,
    hsecond.liveTasks.trans hfirst.liveTasks, hsecond.waits.trans hfirst.waits,
    hsecond.submissions.trans hfirst.submissions, hsecond.reads.trans hfirst.reads⟩

/-- One id less in demand: the body of the loop that releases a wait. -/
def releaseOne (id : Id) (awaited : Awaited) (cache : Cache) : Cache :=
  if 0 < awaited.count - 1 then
    { cache with
      awaited := JsMap.set id { awaited with count := awaited.count - 1 } cache.awaited }
  else
    { cache with
      awaited := PropertyList.erase id cache.awaited
      tasks :=
        match awaited.record with
        | some record => Lru.set taskCapacity id record cache.tasks
        | none => cache.tasks }

variable {id : Id}

theorem release_cons {rest : List Id} {awaited : Awaited} {cache : Cache}
    (hawaited : get id cache.awaited = some awaited) :
    release (id :: rest) cache = release rest (releaseOne id awaited cache) := by
  rw [release, hawaited, releaseOne]
  dsimp only
  split <;> rfl

theorem same_releaseOne (id : Id) (awaited : Awaited) (cache : Cache) :
    SameButTasks cache (releaseOne id awaited cache) := by
  rw [releaseOne]
  split <;> exact ⟨rfl, rfl, rfl, rfl, rfl⟩

theorem counted_releaseOne {awaited : Awaited} {cache : Cache}
    {wanted : Id → Nat} (hcounted : Counted cache.awaited wanted)
    (hawaited : get id cache.awaited = some awaited) :
    Counted (releaseOne id awaited cache).awaited
      (fun other => wanted other - [id].count other) := by
  obtain ⟨hentry, hpos⟩ := hcounted.count_eq hawaited
  intro other
  have hother := hcounted other
  dsimp only
  rw [releaseOne]
  by_cases hsame : other = id
  · subst hsame
    rw [count_singleton_self]
    split
    · rw [get_set, if_pos rfl, map_some, entryCount_of_pos (by omega), hentry]
    rw [get_erase, if_pos rfl, entryCount, if_pos (by omega)]
    rfl
  have hnone : [id].count other = 0 := by simp [Ne.symm hsame]
  rw [hnone, Nat.sub_zero]
  split
  · rw [get_set, if_neg hsame]
    exact hother
  rw [get_erase, if_neg hsame]
  exact hother

/-- Releasing what is in demand finds every entry. -/
theorem release_spec {on : List Id} {cache : Cache} {wanted : Id → Nat}
    (hcounted : Counted cache.awaited wanted) (hon : ∀ id, on.count id ≤ wanted id) :
    ∃ next, release on cache = some next ∧ SameButTasks cache next ∧
      Counted next.awaited fun id => wanted id - on.count id := by
  induction on generalizing cache wanted with
  | nil => exact ⟨cache, rfl, SameButTasks.refl cache, by simpa using hcounted⟩
  | cons id rest ih =>
    have hfirst : 0 < wanted id := by
      have hid := hon id
      rw [count_cons_self] at hid
      omega
    obtain ⟨awaited, hawaited, -⟩ := hcounted.some_of_pos hfirst
    have hnext := counted_releaseOne hcounted hawaited
    have hrest : ∀ other, rest.count other ≤ wanted other - [id].count other := by
      intro other
      have hother := hon other
      rw [← singleton_append, count_append] at hother
      omega
    obtain ⟨next, hrelease, hsame, hcounts⟩ := ih hnext hrest
    refine ⟨next, ?_, (same_releaseOne id awaited cache).trans hsame, ?_⟩
    · rw [release_cons hawaited, hrelease]
    have hsum : (fun other => wanted other - (id :: rest).count other) =
        fun other => wanted other - [id].count other - rest.count other := by
      funext other
      rw [← singleton_append, count_append]
      omega
    rw [hsum]
    exact hcounts

theorem same_await (cache : Cache) (id : Id) : SameButTasks cache (await cache id) := by
  rw [await]
  split <;> exact ⟨rfl, rfl, rfl, rfl, rfl⟩

theorem counted_await (hcounted : Counted cache.awaited wanted) (id : Id) :
    Counted (await cache id).awaited fun other => wanted other + [id].count other := by
  intro other
  have hother := hcounted other
  dsimp only
  rw [await]
  by_cases hsame : other = id
  · subst hsame
    rw [count_singleton_self, entryCount_of_pos (Nat.succ_pos _)]
    split
    next awaited hawaited =>
      rw [get_set, if_pos rfl, map_some, (hcounted.count_eq hawaited).1]
    next hawaited =>
      rw [get_set, if_pos rfl, map_some, hcounted.eq_zero hawaited]
  have hnone : [id].count other = 0 := by simp [Ne.symm hsame]
  rw [hnone, Nat.add_zero]
  split
  · rw [get_set, if_neg hsame]
    exact hother
  rw [get_set, if_neg hsame]
  exact hother

theorem awaitAll_spec (on : List Id) {cache : Cache} {wanted : Id → Nat}
    (hcounted : Counted cache.awaited wanted) :
    SameButTasks cache (on.foldl await cache) ∧
      Counted (on.foldl await cache).awaited fun id => wanted id + on.count id := by
  induction on generalizing cache wanted with
  | nil => exact ⟨SameButTasks.refl cache, by simpa using hcounted⟩
  | cons id rest ih =>
    obtain ⟨hsame, hcounts⟩ := ih (counted_await hcounted id)
    refine ⟨(same_await cache id).trans hsame, ?_⟩
    have hsum : (fun other => wanted other + (id :: rest).count other) =
        fun other => wanted other + [id].count other + rest.count other := by
      funext other
      rw [← singleton_append, count_append]
      omega
    rw [hsum]
    exact hcounts

/-- The awaited ids are those that the waits name, each counted as often as they do. -/
structure Exact (cache : Cache) : Prop where
  distinct : (PropertyList.keys cache.waits).Nodup
  counted : Counted cache.awaited (demand cache.waits)

section

variable (hexact : Exact cache)

include hexact

theorem Exact.le_demand {task : Id} {wait : Wait}
    (hwait : get task cache.waits = some wait) (id : Id) :
    wait.on.count id ≤ demand cache.waits id := by
  have herase := demand_erase hexact.distinct hwait id
  omega

/-- Releasing a task's wait leaves what the other waits name. -/
theorem releaseWait_spec (task : Id) :
    ∃ next, releaseWait (get task cache.waits) cache = some next ∧
      SameButTasks cache next ∧
      Counted next.awaited (demand (erase task cache.waits)) := by
  cases hwait : get task cache.waits with
  | none =>
    have hnew : JsMap.has task cache.waits = false := by
      rw [JsMap.has, hwait]
      rfl
    rw [erase_of_not_has hnew]
    exact ⟨cache, rfl, SameButTasks.refl cache, hexact.counted⟩
  | some wait =>
    obtain ⟨next, hrelease, hsame, hcounted⟩ :=
      release_spec hexact.counted (hexact.le_demand hwait)
    refine ⟨next, hrelease, hsame, ?_⟩
    have hrest : demand (erase task cache.waits) =
        fun id => demand cache.waits id - wait.on.count id := by
      funext id
      have herase := demand_erase hexact.distinct hwait id
      omega
    rw [hrest]
    exact hcounted

theorem startWait_spec (task : Id) (on : List Id) :
    ∃ next, startWait task on cache = some next ∧ Exact next ∧
      next.liveTasks = cache.liveTasks ∧ next.conversations = cache.conversations ∧
      next.submissions = cache.submissions ∧ next.reads = cache.reads := by
  obtain ⟨released, hreleased, hsame, hcounted⟩ := releaseWait_spec hexact task
  obtain ⟨hrest, hcounts⟩ := @awaitAll_spec on { released with
    waits := JsMap.set task ⟨on, false⟩ released.waits } _ hcounted
  refine ⟨_, by rw [startWait, hreleased, map_some], ?_,
    hrest.liveTasks.trans hsame.liveTasks, hrest.conversations.trans hsame.conversations,
    hrest.submissions.trans hsame.submissions, hrest.reads.trans hsame.reads⟩
  have hwaits := hrest.waits.trans (congrArg (JsMap.set task ⟨on, false⟩) hsame.waits)
  constructor
  · rw [hwaits]
    exact keys_set_nodup _ _ hexact.distinct
  have hdemand : demand (JsMap.set task ⟨on, false⟩ cache.waits) =
      fun id => demand (erase task cache.waits) id + on.count id := by
    funext id
    exact demand_set hexact.distinct task ⟨on, false⟩ id
  rw [hwaits, hdemand]
  exact hcounts

variable (record : Record)

theorem leaveWait_spec :
    ∃ next, leaveWait record cache = some next ∧ Exact next ∧
      next.liveTasks = cache.liveTasks ∧ next.conversations = cache.conversations ∧
      next.submissions = cache.submissions ∧ next.reads = cache.reads := by
  rw [leaveWait]
  cases hwait : get record.id cache.waits with
  | none => exact ⟨cache, rfl, hexact, rfl, rfl, rfl, rfl⟩
  | some wait =>
    dsimp only
    split
    · refine ⟨_, rfl, ?_, rfl, rfl, rfl, rfl⟩
      constructor
      · exact keys_set_nodup _ _ hexact.distinct
      have hdemand : demand (JsMap.set record.id { wait with left := true } cache.waits) =
          demand cache.waits := by
        funext id
        rw [demand_set hexact.distinct, ← demand_erase hexact.distinct hwait]
      rw [hdemand]
      exact hexact.counted
    obtain ⟨next, hrelease, hsame, hcounted⟩ :=
      @release_spec wait.on { cache with
        waits := erase record.id cache.waits } _ hexact.counted
        (hexact.le_demand hwait)
    refine ⟨next, hrelease, ?_, hsame.liveTasks, hsame.conversations, hsame.submissions,
      hsame.reads⟩
    constructor
    · rw [hsame.waits]
      exact keys_erase_nodup _ hexact.distinct
    have hdemand : demand (erase record.id cache.waits) =
        fun id => demand cache.waits id - wait.on.count id := by
      funext id
      have herase := demand_erase hexact.distinct hwait id
      omega
    rw [hsame.waits, hdemand]
    exact hcounted

/-- Following a wait never throws, and keeps the counts exact. -/
theorem followWait_spec :
    ∃ next, followWait record cache = some next ∧ Exact next ∧
      next.liveTasks = cache.liveTasks ∧ next.conversations = cache.conversations ∧
      next.submissions = cache.submissions ∧ next.reads = cache.reads := by
  rw [followWait.eq_def]
  split
  · exact startWait_spec hexact _ _
  · exact leaveWait_spec hexact record

theorem exact_keepTask : Exact (keepTask record cache) := by
  rw [keepTask]
  split
  · dsimp only
    split
    next awaited hawaited =>
      refine ⟨hexact.distinct, ?_⟩
      intro id
      have hid := hexact.counted id
      rw [get_set]
      split
      next hsame =>
        rw [hsame, hawaited, map_some] at hid
        rw [hsame, map_some, hid]
      · exact hid
    · exact ⟨hexact.distinct, hexact.counted⟩
  · exact ⟨hexact.distinct, hexact.counted⟩

theorem exact_wrote (id : Id) : Exact (wrote id cache) := by
  rw [wrote]
  split
  · exact ⟨hexact.distinct, hexact.counted⟩
  · exact hexact

/-- A publication never throws. -/
theorem publishWrite_spec : ∃ next, publishWrite record cache = some next ∧ Exact next := by
  have hmarked := exact_wrote hexact record.id
  rw [publishWrite.eq_def]
  cases record.kind with
  | task =>
    obtain ⟨followed, hfollowed, hkept, -⟩ := followWait_spec hmarked record
    dsimp only
    rw [hfollowed]
    exact ⟨keepTask record followed, rfl, exact_keepTask hkept record⟩
  | _ => exact ⟨_, rfl, hmarked.distinct, hmarked.counted⟩

end

/-! ### One table -/

/-- The ended record held for the waits that name a task. -/
def heldRecord (cache : Cache) (id : Id) : Option Record :=
  (PropertyList.get id cache.awaited).bind Awaited.record

/-- A task's record is live, held for waits, or in the bounded table, and nowhere else. -/
def Exclusive (cache : Cache) : Prop :=
  ∀ id, (JsMap.has id cache.liveTasks = true →
      heldRecord cache id = none ∧ JsMap.has id cache.tasks = false) ∧
    ((heldRecord cache id).isSome = true → JsMap.has id cache.tasks = false)

/-- What waits name is not in the bounded table. -/
def Moved (cache : Cache) : Prop :=
  ∀ id, JsMap.has id cache.awaited = true → JsMap.has id cache.tasks = false

variable {V : Type}

theorem has_erase (key other : Id) (map : List (Id × V)) :
    JsMap.has other (erase key map) = (decide (other ≠ key) && JsMap.has other map) := by
  rw [JsMap.has, JsMap.has, get_erase]
  by_cases hkey : other = key
  · simp [hkey]
  · simp [hkey]

theorem has_set (key other : Id) (value : V) (map : List (Id × V)) :
    JsMap.has other (JsMap.set key value map) = (decide (other = key) || JsMap.has other map) := by
  rw [JsMap.has, JsMap.has, get_set]
  by_cases hkey : other = key
  · simp [hkey]
  · simp [hkey]

theorem heldRecord_of_not_has
    (hnone : JsMap.has id cache.awaited = false) : heldRecord cache id = none := by
  rw [JsMap.has, isSome_eq_false_iff, isNone_iff_eq_none] at hnone
  rw [heldRecord, hnone]
  rfl

theorem has_of_heldRecord
    (hheld : (heldRecord cache id).isSome = true) : JsMap.has id cache.awaited = true := by
  by_contra hnone
  rw [heldRecord_of_not_has (by simpa using hnone)] at hheld
  cases hheld

/-- What waits name, what is held for them and where the other records are. -/
structure Apart (cache : Cache) : Prop where
  exclusive : Exclusive cache
  moved : Moved cache

theorem moved_releaseOne (hmoved : Moved cache) {id : Id}
    {awaited : Awaited} (hawaited : get id cache.awaited = some awaited) :
    Moved (releaseOne id awaited cache) := by
  have hhas : JsMap.has id cache.awaited = true := by
    rw [JsMap.has, hawaited]
    rfl
  intro other hother
  rw [releaseOne] at hother ⊢
  split
  next hmany =>
    rw [if_pos hmany] at hother
    rw [has_set] at hother
    apply hmoved
    by_cases hsame : other = id
    · rw [hsame, hhas]
    · simpa [hsame] using hother
  rename_i hlast
  rw [if_neg hlast] at hother
  rw [has_erase] at hother
  have hparts : other ≠ id ∧ JsMap.has other cache.awaited = true := by
    simpa using hother
  split
  · by_contra hkept
    rcases Lru.has_set (by simpa using hkept) with hsame | hold
    · exact hparts.1 hsame
    rw [hmoved other hparts.2] at hold
    cases hold
  · exact hmoved other hparts.2

theorem heldRecord_releaseOne {awaited : Awaited}
    (hawaited : get id cache.awaited = some awaited) (other : Id) :
    heldRecord (releaseOne id awaited cache) other = heldRecord cache other ∨
      (other = id ∧ heldRecord (releaseOne id awaited cache) other = none) := by
  rw [heldRecord, heldRecord, releaseOne]
  split
  · left
    rw [get_set]
    split
    next hsame =>
      rw [hsame, hawaited]
      rfl
    · rfl
  dsimp only
  rw [get_erase]
  split
  next hsame =>
    exact .inr ⟨hsame, rfl⟩
  · exact .inl rfl

theorem exclusive_releaseOne (hapart : Apart cache) {id : Id}
    {awaited : Awaited} (hawaited : get id cache.awaited = some awaited) :
    Exclusive (releaseOne id awaited cache) := by
  have hheld : heldRecord cache id = awaited.record := by
    rw [heldRecord, hawaited]
    rfl
  -- The record that goes back to the bounded table is not live.
  have htasks : ∀ other, JsMap.has other (releaseOne id awaited cache).tasks = true →
      JsMap.has other cache.tasks = true ∨
        (other = id ∧ awaited.record.isSome = true ∧
          heldRecord (releaseOne id awaited cache) other = none) := by
    intro other hother
    rw [heldRecord]
    rw [releaseOne] at hother ⊢
    split
    next hmany =>
      rw [if_pos hmany] at hother
      exact .inl hother
    rename_i hlast
    rw [if_neg hlast] at hother
    split at hother
    next record hrecord =>
      rcases Lru.has_set hother with hsame | hold
      · refine .inr ⟨hsame, by rw [hrecord]; rfl, ?_⟩
        rw [get_erase, if_pos hsame]
        rfl
      · exact .inl hold
    · exact .inl hother
  intro other
  obtain ⟨hlive, hended⟩ := hapart.exclusive other
  constructor
  · intro hliving
    rw [(same_releaseOne id awaited cache).liveTasks] at hliving
    obtain ⟨hnone, habsent⟩ := hlive hliving
    constructor
    · rcases heldRecord_releaseOne hawaited other with hsame | ⟨-, hgone⟩
      · rw [hsame, hnone]
      · exact hgone
    by_contra hkept
    rcases htasks other (by simpa using hkept) with hold | ⟨rfl, hrecord, -⟩
    · rw [habsent] at hold
      cases hold
    rw [← hheld, hnone] at hrecord
    cases hrecord
  intro hstill
  by_contra hkept
  rcases htasks other (by simpa using hkept) with hold | ⟨-, -, hgone⟩
  · rcases heldRecord_releaseOne hawaited other with hsame | ⟨-, hgone⟩
    · rw [hsame] at hstill
      rw [hended hstill] at hold
      cases hold
    rw [hgone] at hstill
    cases hstill
  rw [hgone] at hstill
  cases hstill

theorem apart_release {on : List Id} {cache next : Cache} (hapart : Apart cache)
    (hrelease : release on cache = some next) : Apart next := by
  induction on generalizing cache with
  | nil =>
    cases hrelease
    exact hapart
  | cons id rest ih =>
    cases hawaited : get id cache.awaited with
    | none =>
      rw [release, hawaited] at hrelease
      cases hrelease
    | some awaited =>
      rw [release_cons hawaited] at hrelease
      exact ih ⟨exclusive_releaseOne hapart hawaited,
        moved_releaseOne hapart.moved hawaited⟩ hrelease

theorem has_lruGet {key other : Id} {map : List (Id × V)}
    (hhas : JsMap.has other (Lru.get key map).2 = true) : JsMap.has other map = true := by
  rw [JsMap.has, get_isSome_iff] at hhas ⊢
  obtain ⟨pair, hpair, rfl⟩ := mem_map.mp hhas
  exact mem_map_of_mem (Lru.mem_get hpair)

theorem apart_await (hapart : Apart cache) (id : Id) : Apart (await cache id) := by
  rw [await]
  split
  next awaited hawaited =>
    have hheld : ∀ other, heldRecord { cache with
        awaited := JsMap.set id { awaited with count := awaited.count + 1 } cache.awaited } other =
          heldRecord cache other := by
      intro other
      rw [heldRecord, heldRecord]
      rw [get_set]
      split
      next hsame =>
        rw [hsame, hawaited]
        rfl
      · rfl
    constructor
    · intro other
      rw [hheld]
      exact hapart.exclusive other
    intro other hother
    rw [has_set] at hother
    apply hapart.moved
    by_cases hsame : other = id
    · rw [hsame, JsMap.has, hawaited]
      rfl
    · simpa [hsame] using hother
  rename_i hawaited
  -- The id's record moves over from the bounded table.
  have htasks : ∀ other, JsMap.has other
      (erase id (Lru.get id cache.tasks).2) = true →
        other ≠ id ∧ JsMap.has other cache.tasks = true := by
    intro other hother
    rw [has_erase] at hother
    have hparts : other ≠ id ∧ JsMap.has other (Lru.get id cache.tasks).2 = true := by
      simpa using hother
    exact ⟨hparts.1, has_lruGet hparts.2⟩
  have hheld : ∀ other, heldRecord { cache with
      tasks := erase id (Lru.get id cache.tasks).2
      awaited := JsMap.set id ⟨1, (Lru.get id cache.tasks).1⟩ cache.awaited } other =
        if other = id then get id cache.tasks else heldRecord cache other := by
    intro other
    rw [heldRecord, heldRecord]
    rw [get_set]
    split
    · rw [bind_some, Lru.fst_get]
    · rfl
  constructor
  · intro other
    obtain ⟨hlive, hended⟩ := hapart.exclusive other
    rw [hheld]
    constructor
    · intro hliving
      obtain ⟨hnone, habsent⟩ := hlive hliving
      constructor
      · split
        next hsame =>
          rw [JsMap.has, isSome_eq_false_iff, isNone_iff_eq_none] at habsent
          rw [← hsame, habsent]
        · exact hnone
      by_contra hkept
      have hold := (htasks other (by simpa using hkept)).2
      rw [habsent] at hold
      cases hold
    intro hstill
    by_contra hkept
    obtain ⟨hother, hold⟩ := htasks other (by simpa using hkept)
    rw [if_neg hother] at hstill
    rw [hended hstill] at hold
    cases hold
  intro other hother
  rw [has_set] at hother
  by_contra hkept
  obtain ⟨hdistinct, hold⟩ := htasks other (by simpa using hkept)
  have hwas : JsMap.has other cache.awaited = true := by simpa [hdistinct] using hother
  rw [hapart.moved other hwas] at hold
  cases hold

theorem apart_awaitAll (on : List Id) {cache : Cache} (hapart : Apart cache) :
    Apart (on.foldl await cache) := by
  induction on generalizing cache with
  | nil => exact hapart
  | cons id rest ih => exact ih (apart_await hapart id)

variable {next : Cache}

theorem apart_of_same (hapart : Apart cache)
    (hlive : next.liveTasks = cache.liveTasks) (hawaited : next.awaited = cache.awaited)
    (htasks : next.tasks = cache.tasks) : Apart next := by
  obtain ⟨hexclusive, hmoved⟩ := hapart
  constructor
  · intro id
    rw [heldRecord, hlive, hawaited, htasks]
    exact hexclusive id
  intro id
  rw [hawaited, htasks]
  exact hmoved id

theorem apart_followWait (hapart : Apart cache) {record : Record}
    (hfollow : followWait record cache = some next) : Apart next := by
  rw [followWait.eq_def] at hfollow
  split at hfollow
  next on _ =>
    rw [startWait] at hfollow
    obtain ⟨released, hreleased, rfl⟩ := map_eq_some_iff.mp hfollow
    apply apart_awaitAll
    have hkept : Apart released := by
      rw [releaseWait.eq_def] at hreleased
      split at hreleased
      · exact apart_release hapart hreleased
      cases hreleased
      exact hapart
    exact apart_of_same hkept rfl rfl rfl
  · rw [leaveWait] at hfollow
    split at hfollow
    · cases hfollow
      exact hapart
    split at hfollow
    · cases hfollow
      exact apart_of_same hapart rfl rfl rfl
    apply apart_release _ hfollow
    exact apart_of_same hapart rfl rfl rfl

/-- No ended record of the task is held for waits when a live one is kept. -/
def KeepsApart (record : Record) (cache : Cache) : Prop :=
  record.state ≠ .terminal → heldRecord cache record.id = none

theorem apart_keepTask (hapart : Apart cache) {record : Record}
    (hkeeps : KeepsApart record cache) : Apart (keepTask record cache) := by
  rw [keepTask]
  split
  · dsimp only
    split
    next awaited hawaited =>
      have hhas : JsMap.has record.id cache.awaited = true := by
        rw [JsMap.has, hawaited]
        rfl
      have hheld : ∀ other, other ≠ record.id → heldRecord { cache with
          liveTasks := erase record.id cache.liveTasks
          awaited := JsMap.set record.id { awaited with record := some record }
            cache.awaited } other = heldRecord cache other := by
        intro other hother
        rw [heldRecord, heldRecord]
        rw [get_set, if_neg hother]
      constructor
      · intro other
        obtain ⟨hlive, hended⟩ := hapart.exclusive other
        by_cases hsame : other = record.id
        · rw [hsame]
          refine ⟨?_, fun _ => hapart.moved record.id hhas⟩
          rw [has_erase]
          simp
        rw [hheld other hsame, has_erase]
        simpa [hsame] using ⟨hlive, hended⟩
      intro other hother
      rw [has_set] at hother
      apply hapart.moved
      by_cases hsame : other = record.id
      · rw [hsame, hhas]
      · simpa [hsame] using hother
    rename_i hawaited
    have hnone : JsMap.has record.id cache.awaited = false := by
      rw [JsMap.has, hawaited]
      rfl
    have htasks : ∀ other, other ≠ record.id → JsMap.has other cache.tasks = false →
        JsMap.has other (Lru.set taskCapacity record.id record cache.tasks) = false := by
      intro other hother habsent
      by_contra hkept
      rcases Lru.has_set (by simpa using hkept) with hsame | hold
      · exact hother hsame
      rw [habsent] at hold
      cases hold
    constructor
    · intro other
      obtain ⟨hlive, hended⟩ := hapart.exclusive other
      by_cases hsame : other = record.id
      · rw [hsame]
        constructor
        · rw [has_erase]
          simp
        intro hheld
        have hhas := has_of_heldRecord hheld
        rw [hnone] at hhas
        cases hhas
      rw [has_erase]
      constructor
      · intro hliving
        have hparts := hlive (by simpa [hsame] using hliving)
        exact ⟨hparts.1, htasks other hsame hparts.2⟩
      intro hheld
      exact htasks other hsame (hended hheld)
    intro other hother
    have hsame : other ≠ record.id := by
      rintro rfl
      rw [hnone] at hother
      cases hother
    exact htasks other hsame (hapart.moved other hother)
  next hliving =>
    constructor
    · intro other
      obtain ⟨hlive, hended⟩ := hapart.exclusive other
      rw [has_set, has_erase]
      by_cases hsame : other = record.id
      · rw [hsame]
        refine ⟨fun _ => ⟨hkeeps hliving, by simp⟩, fun _ => by simp⟩
      · simpa [hsame] using ⟨hlive, hended⟩
    intro other hother
    rw [has_erase, hapart.moved other hother, Bool.and_false]

/-- A live record kept beside an ended one that waits hold is in two tables. -/
theorem not_exclusive_keepTask {record : Record}
    (hkeeps : ¬ KeepsApart record cache) : ¬ Exclusive (keepTask record cache) := by
  rw [KeepsApart, Classical.not_imp] at hkeeps
  intro hexclusive
  rw [keepTask, if_neg hkeeps.1] at hexclusive
  have hid := (hexclusive record.id).1
  rw [has_set] at hid
  exact hkeeps.2 (hid (by simp)).1

end Hummin.RecordCache
