/-
A commit of a conversation's submissions: the record it creates, the item it queues, and the
changes it stages, each of a different submission. Assembled against a sound state it never
throws, every placement meets a queued submission, and the state stays sound.
-/
import Hummin.InboxBoundary

namespace Hummin.Inbox

open List Option Function

/-! ### Assembly -/

/-- The record after a change that applies. -/
def SubmissionChange.apply (change : SubmissionChange) (record : SubmissionRecord) : SubmissionRecord :=
  match change with
  | .placed entry => { record with
      status := if record.type = .input then .placed else .done
      entry := some entry }
  | .done answer => { record with status := .done, answer := some answer }
  | .unanswered reason => { record with status := .unanswered, reason := some reason }

/-- A change applies: a placement to a queued submission, an answer to a placed one, and any
other settlement to one that is not settled. -/
def SubmissionChange.Fits (change : SubmissionChange) (record : SubmissionRecord) : Prop :=
  match change with
  | .placed _ => record.status = .queued
  | .done _ => record.status = .placed
  | .unanswered _ => record.isSettled = false

theorem applySubmissionChange_of_fits {change : SubmissionChange} {record : SubmissionRecord}
    (hfits : change.Fits record) : applySubmissionChange record change = .ok (change.apply record) := by
  cases change with
  | placed entry =>
    have hqueued : record.status = .queued := hfits
    simp [applySubmissionChange, SubmissionRecord.isSettled, hqueued, SubmissionChange.apply]
  | done answer =>
    have hplaced : record.status = .placed := hfits
    simp [applySubmissionChange, SubmissionRecord.isSettled, hplaced, SubmissionChange.apply]
  | unanswered reason =>
    have hopen : record.isSettled = false := hfits
    simp [applySubmissionChange, hopen, SubmissionChange.apply]

variable (change : SubmissionChange) {submissions : List SubmissionRecord}
    {changes : List (Nat × SubmissionChange)} (record : SubmissionRecord)

@[simp] theorem SubmissionChange.apply_id : (change.apply record).id = record.id := by
  cases change <;> rfl

@[simp] theorem SubmissionChange.apply_type : (change.apply record).type = record.type := by
  cases change <;> rfl

@[simp] theorem SubmissionChange.apply_requestId :
    (change.apply record).requestId = record.requestId := by
  cases change <;> rfl

/-- No change leads back to the queue. -/
theorem SubmissionChange.apply_status : (change.apply record).status ≠ .queued := by
  cases change with
  | placed entry =>
    simp only [SubmissionChange.apply]
    split <;> simp
  | _ => simp [SubmissionChange.apply]

/-- A record after the staged changes of a commit. -/
def updated (changes : List (Nat × SubmissionChange)) (record : SubmissionRecord) : SubmissionRecord :=
  match changes.find? fun change => change.1 = record.id with
  | none => record
  | some change => change.2.apply record

theorem updated_of_not_mem {record : SubmissionRecord}
    (hnot : record.id ∉ changes.map fun change => change.1) : updated changes record = record := by
  have hnone : changes.find? (fun change => change.1 = record.id) = none := by
    rw [find?_eq_none]
    intro change hchange heq
    exact hnot (mem_map.2 ⟨change, hchange, by simpa using heq⟩)
  rw [updated, hnone]

theorem updated_of_mem (hdistinct : (changes.map fun change => change.1).Nodup)
    {change : Nat × SubmissionChange}
    (hchange : change ∈ changes) {record : SubmissionRecord} (hid : record.id = change.1) :
    updated changes record = change.2.apply record := by
  have hfound : changes.find? (fun other => other.1 = record.id) = some change := by
    rw [hid]
    induction changes with
    | nil => simp at hchange
    | cons first rest ih =>
      rw [map_cons, nodup_cons] at hdistinct
      rcases mem_cons.1 hchange with rfl | hrest
      · simp
      have hne : first.1 ≠ change.1 := by
        intro heq
        exact hdistinct.1 (mem_map.2 ⟨change, hrest, heq.symm⟩)
      rw [find?_cons_of_neg (by simpa using hne)]
      exact ih hdistinct.2 hrest
  rw [updated, hfound]

/-- A record is changed by one of the changes, or not at all. -/
theorem updated_cases (hdistinct : (changes.map fun change => change.1).Nodup)
    (record : SubmissionRecord) :
    (record.id ∉ (changes.map fun change => change.1) ∧ updated changes record = record) ∨
      ∃ change ∈ changes, change.1 = record.id ∧ updated changes record = change.2.apply record := by
  by_cases hmem : record.id ∈ changes.map fun change => change.1
  · obtain ⟨change, hchange, hid⟩ := mem_map.1 hmem
    exact .inr ⟨change, hchange, hid, updated_of_mem hdistinct hchange hid.symm⟩
  · exact .inl ⟨hmem, updated_of_not_mem hmem⟩

@[simp] theorem updated_id (changes : List (Nat × SubmissionChange)) (record : SubmissionRecord) :
    (updated changes record).id = record.id := by
  unfold updated
  split
  · rfl
  · exact SubmissionChange.apply_id _ _

@[simp] theorem updated_type (changes : List (Nat × SubmissionChange)) (record : SubmissionRecord) :
    (updated changes record).type = record.type := by
  unfold updated
  split
  · rfl
  · exact SubmissionChange.apply_type _ _

@[simp] theorem updated_requestId (changes : List (Nat × SubmissionChange))
    (record : SubmissionRecord) : (updated changes record).requestId = record.requestId := by
  unfold updated
  split
  · rfl
  · exact SubmissionChange.apply_requestId _ _

section

variable (hids : (submissions.map fun record => record.id).Nodup)

include hids

/-- With distinct ids the record of an id is found. -/
theorem find_of_mem {record : SubmissionRecord}
    (hrecord : record ∈ submissions) : submissions.find? (fun other => other.id = record.id) = some record := by
  induction submissions with
  | nil => simp at hrecord
  | cons first rest ih =>
    rw [map_cons, nodup_cons] at hids
    rcases mem_cons.1 hrecord with rfl | hrest
    · simp
    have hne : first.id ≠ record.id := by
      intro heq
      exact hids.1 (mem_map.2 ⟨record, hrest, heq.symm⟩)
    rw [find?_cons_of_neg (by simpa using hne)]
    exact ih hids.2 hrest

theorem eq_of_id_eq {record other : SubmissionRecord}
    (hrecord : record ∈ submissions) (hother : other ∈ submissions) (hsame : record.id = other.id) :
    record = other := by
  have hfound := find_of_mem hids hrecord
  rw [hsame, find_of_mem hids hother] at hfound
  exact (some.inj hfound).symm

theorem assembleChange_of_fits {change : Nat × SubmissionChange}
    {record : SubmissionRecord} (hrecord : record ∈ submissions) (hid : record.id = change.1)
    (hfits : change.2.Fits record) :
    assembleChange submissions change = .ok (submissions.map (updated [change])) := by
  have hfound : submissions.find? (fun other => other.id = change.1) = some record := by
    rw [← hid]
    exact find_of_mem hids hrecord
  rw [assembleChange, hfound]
  simp only [applySubmissionChange_of_fits hfits, Except.map]
  congr 1
  apply map_congr_left
  intro other hother
  by_cases hsame : other.id = change.1
  · obtain rfl := eq_of_id_eq hids hrecord hother (hid.trans hsame.symm)
    rw [if_pos hsame]
    simp [updated, hsame]
  have hnot : other.id ∉ [change].map fun change => change.1 := by simpa using hsame
  rw [if_neg hsame, updated_of_not_mem hnot]

/-- Changes of different submissions that each fit are all applied. -/
theorem assemble_changes (hdistinct : (changes.map fun change => change.1).Nodup)
    (hfits : ∀ change ∈ changes, ∃ record ∈ submissions, record.id = change.1 ∧ change.2.Fits record) :
    changes.foldlM assembleChange submissions = .ok (submissions.map (updated changes)) := by
  induction changes generalizing submissions with
  | nil =>
    have hsame : submissions.map (updated []) = submissions :=
      (map_congr_left fun record _ => updated_of_not_mem (by simp)).trans (map_id _)
    rw [hsame]
    rfl
  | cons change rest ih =>
    obtain ⟨record, hrecord, hid, hfit⟩ := hfits change mem_cons_self
    rw [map_cons, nodup_cons] at hdistinct
    have hnext : ((submissions.map (updated [change])).map fun record => record.id).Nodup := by
      rw [List.map_map]
      simpa [comp_def] using hids
    have hrest := @ih (submissions.map (updated [change])) hnext hdistinct.2 (by
      intro other hother
      obtain ⟨found, hfound, hfoundId, hfoundFits⟩ := hfits other (mem_cons_of_mem change hother)
      have hnot : found.id ∉ [change].map fun change => change.1 := by
        rw [hfoundId]
        intro heq
        exact hdistinct.1 (mem_map.2 ⟨other, hother, by simpa using heq⟩)
      refine ⟨found, mem_map.2 ⟨found, hfound, updated_of_not_mem hnot⟩, hfoundId, hfoundFits⟩)
    rw [foldlM_cons, assembleChange_of_fits hids hrecord hid hfit]
    show rest.foldlM assembleChange (submissions.map (updated [change])) = _
    rw [hrest, List.map_map]
    congr 1
    apply map_congr_left
    intro other _
    show updated rest (updated [change] other) = updated (change :: rest) other
    by_cases hsame : other.id = change.1
    · have hfirst : updated [change] other = change.2.apply other := by simp [updated, hsame]
      have hall : updated (change :: rest) other = change.2.apply other := by simp [updated, hsame]
      rw [hfirst, hall, updated_of_not_mem]
      rw [SubmissionChange.apply_id, hsame]
      exact hdistinct.1
    have hnot : other.id ∉ [change].map fun change => change.1 := by simpa using hsame
    rw [updated_of_not_mem hnot, updated, updated,
      find?_cons_of_neg (by simpa using fun heq : change.1 = other.id => hsame heq.symm)]

end

/-! ### Sound states -/

/-- The submission type of an item. -/
def InboxItem.type (item : InboxItem) : SubmissionType := if item.isWrite then .write else .input

/-- The inbox has one item for each queued submission and no other, in the order of the ids;
a submission has at most one entry, which is there and is no other's; a request id names one
submission. -/
structure Sound (state : State) : Prop where
  sorted : (state.items.map InboxItem.id).Pairwise (· < ·)
  ids : (state.submissions.map fun record => record.id).Nodup
  minted : ∀ record ∈ state.submissions, record.id < state.nextId
  queued : ∀ id, id ∈ state.items.map InboxItem.id ↔
    ∃ record ∈ state.submissions, record.id = id ∧ record.status = .queued
  types : ∀ item ∈ state.items, ∀ record ∈ state.submissions, record.id = item.id → record.type = item.type
  requests : ∀ record ∈ state.submissions, ∀ other ∈ state.submissions, ∀ request,
    record.requestId = some request → other.requestId = some request → record = other
  entryIds : ∀ entry ∈ state.entries, entry.id < state.nextId
  placed : ∀ record ∈ state.submissions, ∀ entry, record.entry = some entry →
    entry ∈ state.entries.map fun entry => entry.id
  unplaced : ∀ record ∈ state.submissions, record.status = .queued → record.entry = none
  apart : ∀ record ∈ state.submissions, ∀ other ∈ state.submissions, ∀ entry,
    record.entry = some entry → other.entry = some entry → record = other

theorem sound_start : Sound start where
  sorted := .nil
  ids := nodup_nil
  minted := by simp [start]
  queued := by simp [start]
  types := by simp [start]
  requests := by simp [start]
  entryIds := by simp [start]
  placed := by simp [start]
  unplaced := by simp [start]
  apart := by simp [start]

/-- A commit from a sound state: `fresh` is the record it creates, if it does, `queued` the
item it queues. -/
structure Commits (state : State) (tx : Tx) (fresh : Option SubmissionRecord) (queued : Option InboxItem) :
    Prop where
  submissions : tx.submissions = state.submissions ++ fresh.toList
  items : tx.items = (state.items ++ queued.toList).filter fun item =>
    !decide (item.id ∈ tx.submissionChanges.map fun change => change.1)
  nextId : state.nextId ≤ tx.nextId
  entries : ∃ new, tx.entries = state.entries ++ new ∧
    ∀ entry ∈ new, state.nextId ≤ entry.id ∧ entry.id < tx.nextId
  minted : ∀ record ∈ fresh, state.nextId ≤ record.id ∧ record.id < tx.nextId
  waiting : ∀ record ∈ fresh, record.status = .queued →
    record.entry = none ∧ ∃ item ∈ queued, item.id = record.id ∧ record.type = item.type
  known : ∀ item ∈ queued, ∃ record ∈ fresh, record.id = item.id ∧ record.status = .queued
  atOnce : ∀ record ∈ fresh, ∀ entry, record.entry = some entry → tx.submissionChanges = [] ∧
    state.nextId ≤ entry ∧ entry < tx.nextId ∧ entry ∈ tx.entries.map fun entry => entry.id
  request : ∀ record ∈ fresh, ∀ request, record.requestId = some request →
    ∀ other ∈ state.submissions, other.requestId ≠ some request
  distinct : (tx.submissionChanges.map fun change => change.1).Nodup
  targets : ∀ change ∈ tx.submissionChanges,
    (∃ item ∈ state.items ++ queued.toList, item.id = change.1) ∧ (∀ answer, change.2 ≠ .done answer) ∨
    (∃ record ∈ state.submissions, record.id = change.1 ∧ record.status = .placed) ∧
      ∀ entry, change.2 ≠ .placed entry
  placements : ∀ change ∈ tx.submissionChanges, ∀ entry, change.2 = .placed entry →
    state.nextId ≤ entry ∧ entry < tx.nextId ∧ entry ∈ tx.entries.map fun entry => entry.id
  order : ∀ change ∈ tx.submissionChanges, ∀ other ∈ tx.submissionChanges,
    ∀ item ∈ state.items ++ queued.toList, ∀ later ∈ state.items ++ queued.toList,
    item.id = change.1 → later.id = other.1 →
    (item.isWrite = true ∧ later.isWrite = false ∨ item.isWrite = later.isWrite ∧ item.id < later.id) →
    Earlier change other

namespace Commits

variable {state : State} {tx : Tx} {fresh : Option SubmissionRecord} {queued : Option InboxItem}

section

variable (hcommits : Commits state tx fresh queued)

include hcommits

section

variable (hsound : Sound state)
include hsound

/-- The records the changes are applied to have distinct ids. -/
theorem ids :
    (tx.submissions.map fun record => record.id).Nodup := by
  rw [hcommits.submissions, map_append]
  apply List.Nodup.append hsound.ids
  · cases fresh <;> simp
  intro id hold hnew
  obtain ⟨record, hrecord, rfl⟩ := mem_map.1 hold
  obtain ⟨created, hcreated, hid⟩ := mem_map.1 hnew
  have hlow := (hcommits.minted created (mem_toList.1 hcreated)).1
  have hhigh := hsound.minted record hrecord
  omega

/-- The items the changes are made for are those of the queued submissions. -/
theorem queued_iff (id : Nat) :
    id ∈ (state.items ++ queued.toList).map InboxItem.id ↔
      ∃ record ∈ tx.submissions, record.id = id ∧ record.status = .queued := by
  rw [map_append, mem_append, hsound.queued, hcommits.submissions]
  constructor
  · rintro (⟨record, hrecord, hid, hstatus⟩ | hnew)
    · exact ⟨record, mem_append_left _ hrecord, hid, hstatus⟩
    obtain ⟨item, hitem, rfl⟩ := mem_map.1 hnew
    obtain ⟨record, hrecord, hid, hstatus⟩ := hcommits.known item (mem_toList.1 hitem)
    exact ⟨record, mem_append_right _ (mem_toList.2 hrecord), hid, hstatus⟩
  rintro ⟨record, hrecord, hid, hstatus⟩
  rcases mem_append.1 hrecord with hold | hnew
  · exact .inl ⟨record, hold, hid, hstatus⟩
  obtain ⟨-, item, hitem, hitemId, -⟩ :=
    hcommits.waiting record (mem_toList.1 hnew) hstatus
  exact .inr (mem_map.2 ⟨item, mem_toList.2 hitem, hitemId.trans hid⟩)

/-- Every change fits the record it is for. -/
theorem fits {change : Nat × SubmissionChange} (hchange : change ∈ tx.submissionChanges) :
    ∃ record ∈ tx.submissions, record.id = change.1 ∧ change.2.Fits record ∧
      (record.status = .queued ∨ record.status = .placed ∧ record ∈ state.submissions ∧
        ∀ entry, change.2 ≠ .placed entry) := by
  rcases hcommits.targets change hchange with ⟨⟨item, hitem, hid⟩, hnotDone⟩ | ⟨⟨record, hrecord, hid, hstatus⟩, hnot⟩
  · obtain ⟨record, hrecord, hrecordId, hstatus⟩ :=
      (hcommits.queued_iff hsound change.1).1 (mem_map.2 ⟨item, hitem, hid⟩)
    refine ⟨record, hrecord, hrecordId, ?_, .inl hstatus⟩
    rcases hkind : change.2 with answer | reason | entry
    · exact absurd hkind (hnotDone answer)
    · simp [SubmissionChange.Fits, SubmissionRecord.isSettled, hstatus]
    · exact hstatus
  refine ⟨record, ?_, hid, ?_, .inr ⟨hstatus, hrecord, hnot⟩⟩
  · rw [hcommits.submissions]
    exact mem_append_left _ hrecord
  rcases hkind : change.2 with answer | reason | entry
  · exact hstatus
  · simp [SubmissionChange.Fits, SubmissionRecord.isSettled, hstatus]
  · exact absurd hkind (hnot entry)

/-- The assembly applies every change. -/
theorem assembles :
    assemble tx = .ok { tx.toState with
      submissions := tx.submissions.map (updated tx.submissionChanges) } := by
  have hall := assemble_changes (hcommits.ids hsound) hcommits.distinct (by
    intro change hchange
    obtain ⟨record, hrecord, hid, hfits, -⟩ := hcommits.fits hsound hchange
    exact ⟨record, hrecord, hid, hfits⟩)
  rw [assemble, hall]
  rfl

end

variable {entry : Nat}

/-- A record's entry after the commit is the one it had or the one it is placed at. -/
theorem entry_updated {record : SubmissionRecord}
    (hentry : (updated tx.submissionChanges record).entry = some entry) :
    record.entry = some entry ∨ (record.id, SubmissionChange.placed entry) ∈ tx.submissionChanges := by
  rcases updated_cases hcommits.distinct record with ⟨-, hsame⟩ | ⟨⟨id, change⟩, hchange, hid, hsame⟩
  · rw [hsame] at hentry
    exact .inl hentry
  rw [hsame] at hentry
  cases change with
  | placed given =>
    cases hentry
    exact .inr (hid ▸ hchange)
  | _ => exact .inl hentry

/-- Who is queued after the commit was queued before and is not changed. -/
theorem queued_updated {record : SubmissionRecord} :
    (updated tx.submissionChanges record).status = .queued ↔
      record.status = .queued ∧ record.id ∉ tx.submissionChanges.map fun change => change.1 := by
  rcases updated_cases hcommits.distinct record with ⟨hnot, hsame⟩ | ⟨change, hchange, hid, hsame⟩
  · rw [hsame]
    exact ⟨fun hqueued => ⟨hqueued, hnot⟩, fun hboth => hboth.1⟩
  rw [hsame]
  constructor
  · intro hqueued
    exact absurd hqueued (SubmissionChange.apply_status _ _)
  rintro ⟨-, hnot⟩
  exact absurd (mem_map.2 ⟨change, hchange, hid⟩) hnot

section

variable (hsound : Sound state)
include hsound

/-- The ids of the items before the commit's removals are in their order. -/
theorem sorted : ((state.items ++ queued.toList).map InboxItem.id).Pairwise (· < ·) := by
  rw [map_append, pairwise_append]
  refine ⟨hsound.sorted, ?_, ?_⟩
  · cases queued <;> simp
  intro id hold other hnew
  obtain ⟨record, hrecord, rfl, -⟩ := (hsound.queued id).1 hold
  obtain ⟨item, hitem, rfl⟩ := mem_map.1 hnew
  obtain ⟨created, hcreated, hid, -⟩ := hcommits.known item (mem_toList.1 hitem)
  have hlow := (hcommits.minted created hcreated).1
  have hhigh := hsound.minted record hrecord
  omega

theorem type_of_item {item : InboxItem}
    (hitem : item ∈ state.items ++ queued.toList) {record : SubmissionRecord} (hrecord : record ∈ tx.submissions)
    (hid : record.id = item.id) : record.type = item.type := by
  rw [hcommits.submissions] at hrecord
  rcases mem_append.1 hitem with hold | hnew
  · obtain ⟨owner, howner, hownerId, -⟩ := (hsound.queued item.id).1 (mem_map_of_mem hold)
    rcases mem_append.1 hrecord with hstored | hcreated
    · exact hsound.types item hold record hstored hid
    have hlow := (hcommits.minted record (mem_toList.1 hcreated)).1
    have hhigh := hsound.minted owner howner
    omega
  obtain ⟨created, hcreated, hcreatedId, hstatus⟩ := hcommits.known item (mem_toList.1 hnew)
  obtain ⟨-, other, hother, -, htype⟩ := hcommits.waiting created hcreated hstatus
  cases hother.symm.trans (mem_toList.1 hnew)
  rcases mem_append.1 hrecord with hstored | hagain
  · have hlow := (hcommits.minted created hcreated).1
    have hhigh := hsound.minted record hstored
    omega
  cases hcreated.symm.trans (mem_toList.1 hagain)
  exact htype

theorem minted_all
    {record : SubmissionRecord} (hrecord : record ∈ tx.submissions) : record.id < tx.nextId := by
  rw [hcommits.submissions] at hrecord
  rcases mem_append.1 hrecord with hstored | hcreated
  · exact (hsound.minted record hstored).trans_le hcommits.nextId
  · exact (hcommits.minted record (mem_toList.1 hcreated)).2

/-- The entries of the records before the changes: old ones of stored records, and the one of
a record that was placed at once. -/
theorem entry_cases
    {record : SubmissionRecord} (hrecord : record ∈ tx.submissions)
    (hentry : record.entry = some entry) :
    (record ∈ state.submissions ∧ entry < state.nextId ∧ entry ∈ (state.entries.map fun entry => entry.id)) ∨
    (record ∈ fresh ∧ tx.submissionChanges = [] ∧ state.nextId ≤ entry ∧
      entry ∈ tx.entries.map fun entry => entry.id) := by
  rw [hcommits.submissions] at hrecord
  rcases mem_append.1 hrecord with hstored | hcreated
  · have hmem := hsound.placed record hstored entry hentry
    obtain ⟨found, hfound, rfl⟩ := mem_map.1 hmem
    exact .inl ⟨hstored, hsound.entryIds found hfound, hmem⟩
  have hcreated := mem_toList.1 hcreated
  obtain ⟨hnone, hlow, -, hmem⟩ := hcommits.atOnce record hcreated entry hentry
  exact .inr ⟨hcreated, hnone, hlow, hmem⟩

end

/-- Two placements of one commit at one entry are of one submission. -/
theorem placed_apart {id other : Nat}
    (hid : (id, SubmissionChange.placed entry) ∈ tx.submissionChanges)
    (hother : (other, SubmissionChange.placed entry) ∈ tx.submissionChanges) : id = other := by
  have hitem {id : Nat} (hid : (id, SubmissionChange.placed entry) ∈ tx.submissionChanges) :
      ∃ item ∈ state.items ++ queued.toList, item.id = id := by
    rcases hcommits.targets _ hid with ⟨hitem, -⟩ | ⟨-, hnot⟩
    · exact hitem
    · exact absurd rfl (hnot entry)
  obtain ⟨item, hmem, rfl⟩ := hitem hid
  obtain ⟨later, hlater, rfl⟩ := hitem hother
  have hfirst := hcommits.order _ hid _ hother item hmem later hlater rfl rfl
  have hsecond := hcommits.order _ hother _ hid later hlater item hmem rfl rfl
  have hnot (h : Earlier (item.id, SubmissionChange.placed entry) (later.id, .placed entry)) : False :=
    lt_irrefl entry (h entry entry rfl rfl)
  have hnot' (h : Earlier (later.id, SubmissionChange.placed entry) (item.id, .placed entry)) : False :=
    lt_irrefl entry (h entry entry rfl rfl)
  cases hkind : item.isWrite with
  | true =>
    cases hlaterKind : later.isWrite with
    | true =>
      by_contra hne
      rcases Nat.lt_or_gt_of_ne hne with hlt | hlt
      · exact hnot (hfirst (.inr ⟨hkind.trans hlaterKind.symm, hlt⟩))
      · exact hnot' (hsecond (.inr ⟨hlaterKind.trans hkind.symm, hlt⟩))
    | false => exact (hnot (hfirst (.inl ⟨hkind, hlaterKind⟩))).elim
  | false =>
    cases hlaterKind : later.isWrite with
    | true => exact (hnot' (hsecond (.inl ⟨hlaterKind, hkind⟩))).elim
    | false =>
      by_contra hne
      rcases Nat.lt_or_gt_of_ne hne with hlt | hlt
      · exact hnot (hfirst (.inr ⟨hkind.trans hlaterKind.symm, hlt⟩))
      · exact hnot' (hsecond (.inr ⟨hlaterKind.trans hkind.symm, hlt⟩))

end

/-- The state the commit leads to. -/
def next (tx : Tx) : State :=
  { tx.toState with submissions := tx.submissions.map (updated tx.submissionChanges) }

theorem sound (hcommits : Commits state tx fresh queued) (hsound : Sound state) : Sound
    (next tx) := by
  have hids := hcommits.ids hsound
  have hrecords {record : SubmissionRecord} (hrecord : record ∈ (next tx).submissions) :
      ∃ known ∈ tx.submissions, updated tx.submissionChanges known = record := mem_map.1 hrecord
  obtain ⟨new, hnew, hnewIds⟩ := hcommits.entries
  refine ⟨?_, ?_, ?_, ?_, ?_, ?_, ?_, ?_, ?_, ?_⟩
  · show (tx.items.map InboxItem.id).Pairwise (· < ·)
    rw [hcommits.items]
    exact (hcommits.sorted hsound).sublist (filter_sublist.map _)
  · show ((tx.submissions.map (updated tx.submissionChanges)).map fun record => record.id).Nodup
    rw [List.map_map]
    simpa [comp_def] using hids
  · intro record hrecord
    obtain ⟨known, hknown, rfl⟩ := hrecords hrecord
    rw [updated_id]
    exact hcommits.minted_all hsound hknown
  · intro id
    show id ∈ tx.items.map InboxItem.id ↔ _
    rw [hcommits.items]
    constructor
    · intro hid
      obtain ⟨item, hitem, rfl⟩ := mem_map.1 hid
      obtain ⟨hall, hkept⟩ := mem_filter.1 hitem
      obtain ⟨record, hrecord, hrecordId, hstatus⟩ :=
        (hcommits.queued_iff hsound item.id).1 (mem_map_of_mem hall)
      refine ⟨updated tx.submissionChanges record, mem_map_of_mem hrecord, by rw [updated_id, hrecordId], ?_⟩
      rw [hcommits.queued_updated, hrecordId]
      exact ⟨hstatus, by simpa using hkept⟩
    rintro ⟨record, hrecord, rfl, hstatus⟩
    obtain ⟨known, hknown, rfl⟩ := hrecords hrecord
    obtain ⟨hqueued, hnot⟩ := hcommits.queued_updated.1 hstatus
    obtain ⟨item, hitem, hitemId⟩ :=
      mem_map.1 ((hcommits.queued_iff hsound known.id).2 ⟨known, hknown, rfl, hqueued⟩)
    rw [updated_id]
    refine mem_map.2 ⟨item, mem_filter.2 ⟨hitem, ?_⟩, hitemId⟩
    rw [hitemId]
    simpa using hnot
  · intro item hitem record hrecord hid
    have hitem : item ∈ tx.items := hitem
    rw [hcommits.items] at hitem
    obtain ⟨known, hknown, rfl⟩ := hrecords hrecord
    rw [updated_type]
    exact hcommits.type_of_item hsound (mem_filter.1 hitem).1 hknown (by rwa [updated_id] at hid)
  · intro record hrecord other hother request hrequest hsame
    obtain ⟨known, hknown, rfl⟩ := hrecords hrecord
    obtain ⟨found, hfound, rfl⟩ := hrecords hother
    rw [updated_requestId] at hrequest hsame
    congr 1
    rw [hcommits.submissions] at hknown hfound
    rcases mem_append.1 hknown with hstored | hcreated
    · rcases mem_append.1 hfound with hstored' | hcreated'
      · exact hsound.requests known hstored found hstored' request hrequest hsame
      · exact absurd hrequest (hcommits.request found (mem_toList.1 hcreated') request hsame known hstored)
    rcases mem_append.1 hfound with hstored' | hcreated'
    · exact absurd hsame (hcommits.request known (mem_toList.1 hcreated) request hrequest found hstored')
    · exact some.inj ((mem_toList.1 hcreated).symm.trans (mem_toList.1 hcreated'))
  · intro entry hentry
    have hentry : entry ∈ tx.entries := hentry
    rw [hnew] at hentry
    rcases mem_append.1 hentry with hold | hyoung
    · exact (hsound.entryIds entry hold).trans_le hcommits.nextId
    · exact (hnewIds entry hyoung).2
  · intro record hrecord entry hentry
    obtain ⟨known, hknown, rfl⟩ := hrecords hrecord
    show entry ∈ tx.entries.map fun entry => entry.id
    rcases hcommits.entry_updated hentry with hold | hplaced
    · rcases hcommits.entry_cases hsound hknown hold with ⟨-, -, hmem⟩ | ⟨-, -, -, hmem⟩
      · rw [hnew, map_append]
        exact mem_append_left _ hmem
      · exact hmem
    · exact (hcommits.placements _ hplaced entry rfl).2.2
  · intro record hrecord hstatus
    obtain ⟨known, hknown, rfl⟩ := hrecords hrecord
    obtain ⟨hqueued, hnot⟩ := hcommits.queued_updated.1 hstatus
    rw [updated_of_not_mem hnot]
    rw [hcommits.submissions] at hknown
    rcases mem_append.1 hknown with hstored | hcreated
    · exact hsound.unplaced known hstored hqueued
    · exact (hcommits.waiting known (mem_toList.1 hcreated) hqueued).1
  intro record hrecord other hother entry hentry hsame
  obtain ⟨known, hknown, rfl⟩ := hrecords hrecord
  obtain ⟨found, hfound, rfl⟩ := hrecords hother
  congr 1
  rcases hcommits.entry_updated hentry with hold | hplaced
  · rcases hcommits.entry_updated hsame with hold' | hplaced'
    · rcases hcommits.entry_cases hsound hknown hold with ⟨hstored, hlt, -⟩ | ⟨hcreated, -, hle, -⟩
      · rcases hcommits.entry_cases hsound hfound hold' with ⟨hstored', -, -⟩ | ⟨-, -, hle, -⟩
        · exact hsound.apart known hstored found hstored' entry hold hold'
        · omega
      rcases hcommits.entry_cases hsound hfound hold' with ⟨-, hlt, -⟩ | ⟨hcreated', -, -, -⟩
      · omega
      · exact some.inj (hcreated.symm.trans hcreated')
    have hlow := (hcommits.placements _ hplaced' entry rfl).1
    rcases hcommits.entry_cases hsound hknown hold with ⟨-, hlt, -⟩ | ⟨-, hnone, -, -⟩
    · omega
    · simp [hnone] at hplaced'
  have hlow := (hcommits.placements _ hplaced entry rfl).1
  rcases hcommits.entry_updated hsame with hold' | hplaced'
  · rcases hcommits.entry_cases hsound hfound hold' with ⟨-, hlt, -⟩ | ⟨-, hnone, -, -⟩
    · omega
    · simp [hnone] at hplaced
  · exact eq_of_id_eq hids hknown hfound (hcommits.placed_apart hplaced hplaced')

/-- The record a change is for. -/
theorem target (hcommits : Commits state tx fresh queued) (hsound : Sound state)
    {change : Nat × SubmissionChange} (hchange : change ∈ tx.submissionChanges) {record : SubmissionRecord}
    (hrecord : record ∈ tx.submissions) (hid : record.id = change.1) :
    change.2.Fits record ∧ (record.status = .queued ∨ record.status = .placed) := by
  obtain ⟨found, hfound, hfoundId, hfits, hstatus⟩ := hcommits.fits hsound hchange
  obtain rfl := eq_of_id_eq (hcommits.ids hsound) hfound hrecord (hfoundId.trans hid.symm)
  rcases hstatus with hqueued | ⟨hplaced, -⟩
  · exact ⟨hfits, .inl hqueued⟩
  · exact ⟨hfits, .inr hplaced⟩

end Commits

end Hummin.Inbox
