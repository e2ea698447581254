/-
Reads of a record cache.  Whatever a table holds is a state that the storage took for
the record, not older than its last published one.
-/
import Hummin.RecordCacheWaits

namespace Hummin.RecordCache

open PropertyList JsMap

/-! ### What the tables hold -/

/-- Every cached record is good, and those outside the table of live tasks have
ended. -/
structure Holds (good : Kind → Id → Record → Prop) (cache : Cache) : Prop where
  conversations : ∀ pair ∈ cache.conversations, good .conversation pair.1 pair.2
  submissions : ∀ pair ∈ cache.submissions, good .submission pair.1 pair.2
  live : ∀ id record, PropertyList.get id cache.liveTasks = some record →
    good .task id record
  tasks : ∀ pair ∈ cache.tasks, good .task pair.1 pair.2 ∧ pair.2.state = .terminal
  held : ∀ id record, heldRecord cache id = some record →
    good .task id record ∧ record.state = .terminal

variable {good : Kind → Id → Record → Prop} {cache next : Cache}

section

variable (hcache : Holds good cache)

include hcache

theorem Holds.mono {weaker : Kind → Id → Record → Prop}
    (hweaker : ∀ kind id record, good kind id record → weaker kind id record) :
    Holds weaker cache where
  conversations pair hpair := hweaker _ _ _ (hcache.conversations pair hpair)
  submissions pair hpair := hweaker _ _ _ (hcache.submissions pair hpair)
  live id record hrecord := hweaker _ _ _ (hcache.live id record hrecord)
  tasks pair hpair := ⟨hweaker _ _ _ (hcache.tasks pair hpair).1, (hcache.tasks pair hpair).2⟩
  held id record hrecord :=
    ⟨hweaker _ _ _ (hcache.held id record hrecord).1, (hcache.held id record hrecord).2⟩

theorem holds_of_same (hconversations : next.conversations = cache.conversations)
    (hsubmissions : next.submissions = cache.submissions)
    (hlive : next.liveTasks = cache.liveTasks) (htasks : next.tasks = cache.tasks)
    (hawaited : next.awaited = cache.awaited) : Holds good next where
  conversations := by rw [hconversations]; exact hcache.conversations
  submissions := by rw [hsubmissions]; exact hcache.submissions
  live := by rw [hlive]; exact hcache.live
  tasks := by rw [htasks]; exact hcache.tasks
  held := by
    intro id record hrecord
    rw [heldRecord, hawaited] at hrecord
    exact hcache.held id record hrecord

theorem holds_releaseOne {id : Id} {awaited : Awaited}
    (hawaited : get id cache.awaited = some awaited) :
    Holds good (releaseOne id awaited cache) := by
  have hsame := same_releaseOne id awaited cache
  constructor
  · rw [hsame.conversations]
    exact hcache.conversations
  · rw [hsame.submissions]
    exact hcache.submissions
  · rw [hsame.liveTasks]
    exact hcache.live
  · intro pair hpair
    rw [releaseOne] at hpair
    split at hpair
    · exact hcache.tasks pair hpair
    split at hpair
    next record hrecord =>
      rcases Lru.mem_set hpair with rfl | ⟨hold, -⟩
      · apply hcache.held id record
        rw [heldRecord, hawaited]
        exact hrecord
      · exact hcache.tasks pair hold
    · exact hcache.tasks pair hpair
  intro other record hrecord
  apply hcache.held other record
  rcases heldRecord_releaseOne hawaited other with hkept | ⟨-, hgone⟩
  · rw [← hkept, hrecord]
  rw [hgone] at hrecord
  cases hrecord

theorem holds_release {on : List Id}
    (hrelease : release on cache = some next) : Holds good next := by
  induction on generalizing cache with
  | nil =>
    cases hrelease
    exact hcache
  | cons id rest ih =>
    cases hawaited : get id cache.awaited with
    | none =>
      rw [release, hawaited] at hrelease
      cases hrelease
    | some awaited =>
      rw [release_cons hawaited] at hrelease
      exact ih (holds_releaseOne hcache hawaited) hrelease

theorem holds_await (id : Id) : Holds good (await cache id) := by
  have hsame := same_await cache id
  constructor
  · rw [hsame.conversations]
    exact hcache.conversations
  · rw [hsame.submissions]
    exact hcache.submissions
  · rw [hsame.liveTasks]
    exact hcache.live
  · intro pair hpair
    rw [await] at hpair
    split at hpair
    · exact hcache.tasks pair hpair
    · exact hcache.tasks pair (Lru.mem_get (Lru.mem_erase hpair).1)
  intro other record hrecord
  rw [heldRecord, await] at hrecord
  split at hrecord
  next awaited hawaited =>
    rw [get_set] at hrecord
    split at hrecord
    next hid =>
      apply hcache.held other record
      rw [heldRecord, hid, hawaited]
      exact hrecord
    · exact hcache.held other record hrecord
  · dsimp only at hrecord
    rw [get_set] at hrecord
    split at hrecord
    next hid =>
      rw [Option.bind_some, Lru.fst_get] at hrecord
      rw [hid]
      exact hcache.tasks (id, record) (mem_of_get_eq_some hrecord)
    · exact hcache.held other record hrecord

end

theorem holds_awaitAll (on : List Id) (hcache : Holds good cache) :
    Holds good (on.foldl await cache) := by
  induction on generalizing cache with
  | nil => exact hcache
  | cons id rest ih => exact ih (holds_await hcache id)

variable {weak : Kind → Id → Record → Prop} {record : Record}

theorem holds_followWait (hcache : Holds good cache)
    (hfollow : followWait record cache = some next) : Holds good next := by
  rw [followWait.eq_def] at hfollow
  split at hfollow
  · rw [startWait] at hfollow
    obtain ⟨released, hreleased, rfl⟩ := Option.map_eq_some_iff.mp hfollow
    apply holds_awaitAll
    have hkept : Holds good released := by
      rw [releaseWait.eq_def] at hreleased
      split at hreleased
      · exact holds_release hcache hreleased
      cases hreleased
      exact hcache
    exact holds_of_same hkept rfl rfl rfl rfl rfl
  rw [leaveWait] at hfollow
  split at hfollow
  · cases hfollow
    exact hcache
  split at hfollow
  · cases hfollow
    exact holds_of_same hcache rfl rfl rfl rfl rfl
  apply holds_release _ hfollow
  exact holds_of_same hcache rfl rfl rfl rfl rfl

/-- Keeping a good record makes the table of live tasks good for it; what has ended was
good before. -/
theorem holds_keepTask (hcache : Holds weak cache) (hrecord : good .task record.id record)
    (hother : ∀ kind id other, weak kind id other →
      kind ≠ .task ∨ id ≠ record.id ∨ other.state = .terminal → good kind id other) :
    Holds good (keepTask record cache) := by
  have hconversations : ∀ pair ∈ cache.conversations, good .conversation pair.1 pair.2 :=
    fun pair hpair => hother _ _ _ (hcache.conversations pair hpair) (.inl (by simp))
  have hsubmissions : ∀ pair ∈ cache.submissions, good .submission pair.1 pair.2 :=
    fun pair hpair => hother _ _ _ (hcache.submissions pair hpair) (.inl (by simp))
  have htasks : ∀ pair ∈ cache.tasks, good .task pair.1 pair.2 ∧ pair.2.state = .terminal := by
    intro pair hpair
    obtain ⟨hweak, hended⟩ := hcache.tasks pair hpair
    exact ⟨hother _ _ _ hweak (.inr (.inr hended)), hended⟩
  have hheld : ∀ id other, heldRecord cache id = some other →
      good .task id other ∧ other.state = .terminal := by
    intro id other hfound
    obtain ⟨hweak, hended⟩ := hcache.held id other hfound
    exact ⟨hother _ _ _ hweak (.inr (.inr hended)), hended⟩
  have herased : ∀ id other,
      get id (erase record.id cache.liveTasks) = some other →
        good .task id other := by
    intro id other hfound
    rw [get_erase] at hfound
    split at hfound
    · cases hfound
    next hid =>
      exact hother _ _ _ (hcache.live id other hfound) (.inr (.inl hid))
  rw [keepTask]
  split
  next hended =>
    split
    next awaited hawaited =>
      refine ⟨hconversations, hsubmissions, herased, htasks, ?_⟩
      intro id other hfound
      rw [heldRecord] at hfound
      rw [get_set] at hfound
      split at hfound
      next hid =>
        cases hfound
        rw [hid]
        exact ⟨hrecord, hended⟩
      · exact hheld id other hfound
    · refine ⟨hconversations, hsubmissions, herased, ?_, hheld⟩
      intro pair hpair
      rcases Lru.mem_set hpair with rfl | ⟨hold, -⟩
      · exact ⟨hrecord, hended⟩
      · exact htasks pair hold
  · refine ⟨hconversations, hsubmissions, ?_, ?_, hheld⟩
    · intro id other hfound
      rw [get_set] at hfound
      split at hfound
      next hid =>
        cases hfound
        rw [hid]
        exact hrecord
      next hid =>
        exact hother _ _ _ (hcache.live id other hfound) (.inr (.inl hid))
    · intro pair hpair
      exact htasks pair (Lru.mem_erase hpair).1

theorem holds_wrote (hcache : Holds good cache) (id : Id) : Holds good (wrote id cache) := by
  rw [wrote]
  split
  · exact holds_of_same hcache rfl rfl rfl rfl rfl
  · exact hcache

/-- A publication makes the tables good for its record. -/
theorem holds_publishWrite (hcache : Holds weak cache) (hrecord : good record.kind record.id record)
    (hother : ∀ kind id other, weak kind id other →
      kind ≠ record.kind ∨ id ≠ record.id ∨ (kind = .task ∧ other.state = .terminal) →
        good kind id other)
    (hpublish : publishWrite record cache = some next) : Holds good next := by
  have hmarked := holds_wrote hcache record.id
  rw [publishWrite.eq_def] at hpublish
  generalize wrote record.id cache = marked at hmarked hpublish
  cases hkind : record.kind with
  | conversation =>
    rw [hkind] at hpublish hrecord hother
    cases hpublish
    have htask (id : Id) (other) (hweak : weak .task id other) : good .task id other :=
      hother _ _ _ hweak (.inl (by simp))
    constructor
    · intro pair hpair
      rcases Lru.mem_set hpair with rfl | ⟨hold, hid⟩
      · exact hrecord
      · exact hother _ _ _ (hmarked.conversations pair hold) (.inr (.inl hid))
    · exact fun pair hpair =>
        hother _ _ _ (hmarked.submissions pair hpair) (.inl (by simp))
    · exact fun id other hfound => htask id other (hmarked.live id other hfound)
    · exact fun pair hpair => (hmarked.tasks pair hpair).imp_left (htask _ _)
    · exact fun id other hfound => (hmarked.held id other hfound).imp_left (htask _ _)
  | task =>
    rw [hkind] at hpublish hrecord hother
    obtain ⟨followed, hfollowed, rfl⟩ := Option.map_eq_some_iff.mp hpublish
    apply holds_keepTask (holds_followWait hmarked hfollowed) hrecord
    intro kind id other hweak hcase
    by_cases htask : kind = .task
    · apply hother kind id other hweak
      rcases hcase with hkind | hid | hended
      · exact .inl hkind
      · exact .inr (.inl hid)
      · exact .inr (.inr ⟨htask, hended⟩)
    · exact hother kind id other hweak (.inl htask)
  | submission =>
    rw [hkind] at hpublish hrecord hother
    cases hpublish
    have htask (id : Id) (other) (hweak : weak .task id other) : good .task id other :=
      hother _ _ _ hweak (.inl (by simp))
    constructor
    · exact fun pair hpair =>
        hother _ _ _ (hmarked.conversations pair hpair) (.inl (by simp))
    · intro pair hpair
      rcases Lru.mem_set hpair with rfl | ⟨hold, hid⟩
      · exact hrecord
      · exact hother _ _ _ (hmarked.submissions pair hold) (.inr (.inl hid))
    · exact fun id other hfound => htask id other (hmarked.live id other hfound)
    · exact fun pair hpair => (hmarked.tasks pair hpair).imp_left (htask _ _)
    · exact fun id other hfound => (hmarked.held id other hfound).imp_left (htask _ _)

theorem holds_keepRead (hcache : Holds good cache)
    (hrecord : good record.kind record.id record) : Holds good (keepRead record cache) := by
  rw [keepRead.eq_def]
  cases hkind : record.kind with
  | conversation =>
    rw [hkind] at hrecord
    refine ⟨?_, hcache.submissions, hcache.live, hcache.tasks, hcache.held⟩
    intro pair hpair
    rcases Lru.mem_set hpair with rfl | ⟨hold, -⟩
    · exact hrecord
    · exact hcache.conversations pair hold
  | task =>
    rw [hkind] at hrecord
    exact holds_keepTask hcache hrecord fun kind id other hgood _ => hgood
  | submission => exact hcache

/-- Looking a record up finds a good one and keeps the tables. -/
theorem holds_lookup (hcache : Holds good cache) (kind : Kind) (id : Id) :
    Holds good (lookup kind id cache).2 ∧
      ∀ record, (lookup kind id cache).1 = some record → good kind id record := by
  cases kind with
  | conversation =>
    refine ⟨⟨?_, hcache.submissions, hcache.live, hcache.tasks, hcache.held⟩, ?_⟩
    · exact fun pair hpair => hcache.conversations pair (Lru.mem_get hpair)
    intro record hfound
    have hget : (Lru.get id cache.conversations).1 = some record := hfound
    rw [Lru.fst_get] at hget
    exact hcache.conversations (id, record) (mem_of_get_eq_some hget)
  | task =>
    rw [lookup]
    split
    next found hfound =>
      refine ⟨hcache, ?_⟩
      rintro record ⟨⟩
      rcases Option.or_eq_some_iff.mp hfound with hlive | ⟨-, hheld⟩
      · exact hcache.live id found hlive
      · exact (hcache.held id found hheld).1
    refine ⟨⟨hcache.conversations, hcache.submissions, hcache.live, ?_, hcache.held⟩, ?_⟩
    · exact fun pair hpair => hcache.tasks pair (Lru.mem_get hpair)
    intro record hfound
    rw [Lru.fst_get] at hfound
    exact (hcache.tasks (id, record) (mem_of_get_eq_some hfound)).1
  | submission =>
    refine ⟨⟨hcache.conversations, ?_, hcache.live, hcache.tasks, hcache.held⟩, ?_⟩
    · exact fun pair hpair => hcache.submissions pair (Lru.mem_get hpair)
    intro record hfound
    have hget : (Lru.get id cache.submissions).1 = some record := hfound
    rw [Lru.fst_get] at hget
    exact hcache.submissions (id, record) (mem_of_get_eq_some hget)

end Hummin.RecordCache
