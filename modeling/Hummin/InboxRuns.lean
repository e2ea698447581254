/-
Queued submissions are placed exactly once, over every run of committed operations: each
operation makes a commit of the kind that keeps a state sound.
-/
import Hummin.InboxCommits

namespace Hummin.Inbox

open List

variable {state : State} {tx : Tx} {fresh : Option SubmissionRecord} {queued : Option InboxItem}

/-! ### The commits of the operations -/

namespace Commits

variable {entries : List EntryRecord}

/-- A commit that touches no submission. -/
theorem quiet {nextId : Nat} {running : Bool} (hnextId : state.nextId ≤ nextId)
    (hentries : ∃ new, entries = state.entries ++ new ∧
      ∀ entry ∈ new, state.nextId ≤ entry.id ∧ entry.id < nextId) :
    Commits state ⟨⟨nextId, entries, state.submissions, state.items, running⟩, []⟩ none none where
  submissions := by simp
  items := by simp
  nextId := hnextId
  entries := hentries
  minted := by simp
  waiting := by simp
  known := by simp
  atOnce := by simp
  request := by simp
  distinct := nodup_nil
  targets := by simp
  placements := by simp
  order := by simp

theorem startRun (hcommits : Commits state tx fresh queued) : Commits state tx.startRun fresh queued := by
  have hle : tx.nextId ≤ tx.startRun.nextId := Nat.le_succ _
  obtain ⟨new, hnew, hids⟩ := hcommits.entries
  refine ⟨hcommits.submissions, hcommits.items, hcommits.nextId.trans hle, ⟨new, hnew, ?_⟩, ?_,
    hcommits.waiting, hcommits.known, ?_, hcommits.request, hcommits.distinct, hcommits.targets, ?_,
    hcommits.order⟩
  · exact fun entry hentry => ⟨(hids entry hentry).1, (hids entry hentry).2.trans_le hle⟩
  · exact fun record hrecord =>
      ⟨(hcommits.minted record hrecord).1, (hcommits.minted record hrecord).2.trans_le hle⟩
  · intro record hrecord entry hentry
    obtain ⟨hnone, hlow, hhigh, hmem⟩ := hcommits.atOnce record hrecord entry hentry
    exact ⟨hnone, hlow, hhigh.trans_le hle, hmem⟩
  intro change hchange entry hentry
  obtain ⟨hlow, hhigh, hmem⟩ := hcommits.placements change hchange entry hentry
  exact ⟨hlow, hhigh.trans_le hle, hmem⟩

/-- A boundary in a commit that has staged nothing and placed nothing at once. -/
theorem bounded (hcommits : Commits state tx fresh queued) (hnone : tx.submissionChanges = [])
    (hfresh : ∀ record ∈ fresh, record.entry = none) {after : Tx} {made : List (Nat × SubmissionChange)}
    (hbounded : Bounded tx after made) :
    Commits state after fresh queued ∧ after.submissionChanges = made := by
  have hitems : tx.items = state.items ++ queued.toList := by
    rw [hcommits.items, hnone]
    simp
  have hplaces := hbounded.places
  have hmade : after.submissionChanges = made := by
    have hchanges := hplaces.changes
    rw [hnone] at hchanges
    exact hchanges
  obtain ⟨new, hnew, hids⟩ := hcommits.entries
  obtain ⟨newer, hnewer, hnewerIds⟩ := hplaces.entries
  have hle : tx.nextId ≤ after.nextId := hplaces.nextId
  have hnewer : after.entries = tx.entries ++ newer := hnewer
  refine ⟨⟨?_, ?_, ?_, ⟨new ++ newer, ?_, ?_⟩, ?_, hcommits.waiting, hcommits.known, ?_, hcommits.request,
    ?_, ?_, ?_, ?_⟩, hmade⟩
  · exact hplaces.submissions.trans hcommits.submissions
  · rw [hbounded.items, hitems, hmade]
  · exact hcommits.nextId.trans hle
  · rw [hnewer, hnew, append_assoc]
  · intro entry hentry
    rcases mem_append.1 hentry with hold | hyoung
    · exact ⟨(hids entry hold).1, (hids entry hold).2.trans_le hle⟩
    · exact ⟨hcommits.nextId.trans (hnewerIds entry hyoung).1, (hnewerIds entry hyoung).2⟩
  · exact fun record hrecord =>
      ⟨(hcommits.minted record hrecord).1, (hcommits.minted record hrecord).2.trans_le hle⟩
  · intro record hrecord entry hentry
    rw [hfresh record hrecord] at hentry
    cases hentry
  · rw [hmade]
    exact hbounded.distinct
  · intro change hchange
    rw [hmade] at hchange
    obtain ⟨item, hitem, hid⟩ := hbounded.taken change hchange
    refine .inl ⟨⟨item, hitems ▸ hitem, hid⟩, ?_⟩
    intro answer hanswer
    rcases hplaces.kinds change hchange with hstale | ⟨entry, hplaced, -⟩
    · rw [hanswer] at hstale
      cases hstale
    rw [hanswer] at hplaced
    cases hplaced
  · intro change hchange entry hentry
    rw [hmade] at hchange
    rcases hplaces.kinds change hchange with hstale | ⟨placed, hplaced, hlow, hhigh, hmem⟩
    · rw [hentry] at hstale
      cases hstale
    cases hplaced.symm.trans hentry
    exact ⟨hcommits.nextId.trans hlow, hhigh, hmem⟩
  · rw [hmade, ← hitems]
    exact hbounded.order

/-- One settlement of a submission, with its item out of the inbox. -/
theorem settles {id : Nat} {change : SubmissionChange} {items : List InboxItem}
    (hitems : items = state.items.filter fun item => !decide (item.id = id))
    (hplaced : ∀ entry, change ≠ .placed entry)
    (htarget : (∃ item ∈ state.items, item.id = id) ∧ (∀ answer, change ≠ .done answer) ∨
      ∃ record ∈ state.submissions, record.id = id ∧ record.status = .placed) :
    Commits state ⟨{ state with items }, [(id, change)]⟩ none none where
  submissions := by simp
  items := by simp [hitems]
  nextId := le_rfl
  entries := ⟨[], by simp⟩
  minted := by simp
  waiting := by simp
  known := by simp
  atOnce := by simp
  request := by simp
  distinct := by simp
  targets := by
    intro staged hstaged
    rw [mem_singleton.1 hstaged]
    rcases htarget with hitem | hrecord
    · exact .inl (by simpa using hitem)
    · exact .inr ⟨hrecord, hplaced⟩
  placements := by
    intro staged hstaged entry hentry
    rw [mem_singleton.1 hstaged] at hentry
    exact absurd hentry (hplaced entry)
  order := by
    intro staged hstaged other _ item _ later _ _ _ _ entry second hentry
    rw [mem_singleton.1 hstaged] at hentry
    exact absurd hentry (hplaced entry)

variable {record : SubmissionRecord}

/-- A record created at once, without an item. -/
theorem creates {nextId : Nat} {running : Bool}
    (hminted : state.nextId ≤ record.id ∧ record.id < nextId) (hstatus : record.status ≠ .queued)
    (hentries : ∃ new, entries = state.entries ++ new ∧
      ∀ entry ∈ new, state.nextId ≤ entry.id ∧ entry.id < nextId)
    (hentry : ∀ entry, record.entry = some entry → state.nextId ≤ entry ∧ entry < nextId ∧
      entry ∈ entries.map fun entry => entry.id)
    (hrequest : ∀ request, record.requestId = some request →
      ∀ other ∈ state.submissions, other.requestId ≠ some request) :
    Commits state ⟨⟨nextId, entries, state.submissions ++ [record], state.items, running⟩, []⟩
      (some record) none where
  submissions := by simp
  items := by simp
  nextId := le_of_lt (lt_of_le_of_lt hminted.1 hminted.2)
  entries := hentries
  minted := by
    rintro created ⟨⟩
    exact hminted
  waiting := by
    rintro created ⟨⟩ hqueued
    exact absurd hqueued hstatus
  known := by simp
  atOnce := by
    rintro created ⟨⟩ entry hplaced
    exact ⟨rfl, hentry entry hplaced⟩
  request := by
    rintro created ⟨⟩
    exact hrequest
  distinct := nodup_nil
  targets := by simp
  placements := by simp
  order := by simp

variable {item : InboxItem}

/-- A record created for an item that is queued. -/
theorem queues (hid : record.id = state.nextId)
    (hstatus : record.status = .queued) (hentry : record.entry = none) (hitem : item.id = record.id)
    (htype : record.type = item.type) (hrequest : ∀ request, record.requestId = some request →
      ∀ other ∈ state.submissions, other.requestId ≠ some request) :
    Commits state ⟨⟨state.nextId + 1, state.entries, state.submissions ++ [record], state.items ++ [item],
      state.running⟩, []⟩ (some record) (some item) where
  submissions := by simp
  items := by simp
  nextId := Nat.le_succ _
  entries := ⟨[], by simp⟩
  minted := by
    rintro created ⟨⟩
    rw [hid]
    exact ⟨le_rfl, Nat.lt_succ_self _⟩
  waiting := by
    rintro created ⟨⟩ _
    exact ⟨hentry, item, rfl, hitem, htype⟩
  known := by
    rintro other ⟨⟩
    exact ⟨record, rfl, hitem.symm, hstatus⟩
  atOnce := by
    rintro created ⟨⟩ entry hplaced
    rw [hentry] at hplaced
    cases hplaced
  request := by
    rintro created ⟨⟩
    exact hrequest
  distinct := nodup_nil
  targets := by simp
  placements := by simp
  order := by simp

end Commits

/-- The changes of a boundary: placements and stale settlements. -/
def BoundaryChanges (tx : Tx) : Prop :=
  ∀ change ∈ tx.submissionChanges, change.2 = stale ∨ ∃ entry, change.2 = .placed entry

/-- What an operation's commit is shown to be. -/
def IsCommit (state : State) (tx : Tx) : Prop :=
  ∃ fresh queued, Commits state tx fresh queued

theorem boundaryChanges_nil (hnone : tx.submissionChanges = []) : BoundaryChanges tx := by
  intro change hchange
  simp [hnone] at hchange

/-- A boundary in the commit of a record without an entry. -/
theorem isCommit_applyBoundary (hsound : Sound state) (hcommits : Commits state tx fresh queued)
    (hnone : tx.submissionChanges = []) (hfresh : ∀ record ∈ fresh, record.entry = none) (head : Option Nat)
    (modes : QueueModes) (at' : BoundaryKind) (now : Nat) :
    Commits state (applyBoundary tx head modes at' now).tx fresh queued ∧
      BoundaryChanges (applyBoundary tx head modes at' now).tx := by
  have hitems : tx.items = state.items ++ queued.toList := by
    rw [hcommits.items, hnone]
    simp
  have hsorted : (tx.items.map InboxItem.id).Pairwise (· < ·) := by
    rw [hitems]
    exact hcommits.sorted hsound
  obtain ⟨made, hbounded⟩ := bounded_applyBoundary hsorted head modes at' now
  obtain ⟨hafter, hmade⟩ := hcommits.bounded hnone hfresh hbounded
  refine ⟨hafter, ?_⟩
  intro change hchange
  rw [hmade] at hchange
  rcases hbounded.places.kinds change hchange with hstale | ⟨entry, hplaced, -⟩
  · exact .inl hstale
  · exact .inr ⟨entry, hplaced⟩

variable {requestId : Option JsString}

section

variable
  (hrequest : ∀ request, requestId = some request → ∀ other ∈ state.submissions, other.requestId ≠ some request)
include hrequest

theorem isCommit_writeAtOnce (entry : EntryDraft) :
    IsCommit state (writeAtOnce (.ofState state) requestId entry).2 := by
  refine ⟨_, none, Commits.creates ?_ ?_ ⟨_, rfl, ?_⟩ ?_ hrequest⟩
  · exact ⟨Nat.le_succ _, Nat.lt_succ_self _⟩
  · simp
  · intro placed hplaced
    rw [mem_singleton.1 hplaced]
    exact ⟨le_rfl, by simp [Tx.ofState]⟩
  intro placed hplaced
  cases hplaced
  exact ⟨le_rfl, by simp [Tx.ofState], by simp⟩

theorem commits_enqueue_write (given : Option JsString) (entry : EntryDraft) :
    ∃ fresh queued, Commits state (enqueue (.ofState state) requestId (.write given entry)).2 fresh queued ∧
      ∀ record ∈ fresh, record.entry = none := by
  refine ⟨_, _, Commits.queues rfl rfl rfl rfl rfl hrequest, ?_⟩
  rintro record ⟨⟩
  rfl

theorem commits_enqueue_input (given : Option JsString) (content : Nat)
    (whenBusy : Option WhenBusy) (rejectIdle : Bool) (entry : Option InputEntry) :
    ∃ fresh queued, Commits state
      (enqueue (.ofState state) requestId (.input given content whenBusy rejectIdle entry)).2 fresh queued ∧
      ∀ record ∈ fresh, record.entry = none := by
  refine ⟨_, _, Commits.queues rfl rfl rfl rfl rfl hrequest, ?_⟩
  rintro record ⟨⟩
  rfl

end

theorem enqueue_changes (requestId : Option JsString) (draft : SubmissionDraft) :
    (enqueue (.ofState state) requestId draft).2.submissionChanges = [] := by
  cases draft <;> rfl

variable {draft : SubmissionDraft}

/-- Queueing a draft behind others and placing what the final boundary selects. -/
theorem isCommit_enqueue_boundary (hsound : Sound state)
    (hqueued : ∃ fresh queued, Commits state (enqueue (.ofState state) requestId draft).2 fresh queued ∧
      ∀ record ∈ fresh, record.entry = none) (head : Option Nat) (modes : QueueModes) (now : Nat) :
    let placing := applyBoundary (enqueue (.ofState state) requestId draft).2 head modes .final now
    IsCommit state (if placing.users ≠ [] then placing.tx.startRun else placing.tx) ∧
      BoundaryChanges (if placing.users ≠ [] then placing.tx.startRun else placing.tx) := by
  intro placing
  obtain ⟨fresh, queued, hcommits, hfresh⟩ := hqueued
  obtain ⟨hafter, hchanges⟩ := isCommit_applyBoundary hsound hcommits (enqueue_changes requestId draft) hfresh
    head modes .final now
  split
  · exact ⟨⟨fresh, queued, hafter.startRun⟩, hchanges⟩
  · exact ⟨⟨fresh, queued, hafter⟩, hchanges⟩

variable {id : Nat} {modes : QueueModes}

theorem isCommit_admitNew (hsound : Sound state) {now : Nat}
    (hrequest : ∀ request, draft.requestId = some request →
      ∀ other ∈ state.submissions, other.requestId ≠ some request)
    (hadmitted : admitNew (.ofState state) draft now modes = .ok (id, tx)) :
    IsCommit state tx ∧ BoundaryChanges tx := by
  cases draft with
  | write requestId entry =>
    simp only [admitNew] at hadmitted
    split at hadmitted
    · cases hadmitted
      exact ⟨isCommit_writeAtOnce hrequest entry, boundaryChanges_nil rfl⟩
    split at hadmitted
    · cases hadmitted
      obtain ⟨fresh, queued, hcommits, -⟩ := commits_enqueue_write hrequest requestId entry
      exact ⟨⟨fresh, queued, hcommits⟩, boundaryChanges_nil rfl⟩
    split at hadmitted
    · cases hadmitted
      exact isCommit_enqueue_boundary hsound (commits_enqueue_write hrequest requestId entry) _ modes now
    split at hadmitted
    · cases hadmitted
      refine ⟨⟨_, none, Commits.creates ?_ ?_ ⟨[], ?_⟩ ?_ hrequest⟩, boundaryChanges_nil rfl⟩
      · exact ⟨le_rfl, Nat.lt_succ_self _⟩
      · simp
      · simp [Tx.ofState]
      · simp
    cases hadmitted
    exact ⟨isCommit_writeAtOnce hrequest entry, boundaryChanges_nil rfl⟩
  | input requestId content whenBusy rejectIdle entry =>
    simp only [admitNew] at hadmitted
    split at hadmitted
    · cases hadmitted
    split at hadmitted
    · cases hadmitted
    split at hadmitted
    · cases hadmitted
      obtain ⟨fresh, queued, hcommits, -⟩ :=
        commits_enqueue_input hrequest requestId content whenBusy rejectIdle entry
      exact ⟨⟨fresh, queued, hcommits⟩, boundaryChanges_nil rfl⟩
    split at hadmitted
    · cases hadmitted
      exact isCommit_enqueue_boundary hsound
        (commits_enqueue_input hrequest requestId content whenBusy rejectIdle entry) _ modes now
    cases hadmitted
    have happended : ∃ placed : EntryRecord, placed.id = state.nextId ∧
        appendInput (.ofState state) content entry now = (placed, { Tx.ofState state with
          nextId := state.nextId + 1, entries := state.entries ++ [placed] }) := by
      cases entry with
      | none => exact ⟨_, rfl, rfl⟩
      | some entry => exact ⟨_, rfl, rfl⟩
    obtain ⟨placed, hplaced, happended⟩ := happended
    rw [happended]
    refine ⟨⟨_, none, Commits.startRun (Commits.creates ?_ ?_ ⟨_, rfl, ?_⟩ ?_ hrequest)⟩,
      boundaryChanges_nil rfl⟩
    · exact ⟨Nat.le_succ _, Nat.lt_succ_self _⟩
    · simp
    · intro found hfound
      rw [mem_singleton.1 hfound, hplaced]
      exact ⟨le_rfl, by simp⟩
    intro given hgiven
    cases hgiven
    rw [hplaced]
    exact ⟨le_rfl, by simp, by simp [hplaced]⟩
  | «continue» requestId =>
    simp only [admitNew] at hadmitted
    split at hadmitted
    · cases hadmitted
    cases hadmitted
    have hcreated : Commits state
        ((Tx.ofState state).createSubmission requestId .continue .placed none none).2
        (some ⟨state.nextId, requestId, .continue, .placed, none, none, none⟩) none := by
      refine Commits.creates ?_ ?_ ⟨[], ?_⟩ ?_ hrequest
      · exact ⟨le_rfl, Nat.lt_succ_self _⟩
      · simp
      · simp [Tx.ofState]
      · simp
    obtain ⟨hafter, hchanges⟩ := isCommit_applyBoundary hsound hcreated rfl
      (by rintro record ⟨⟩; rfl) (Tx.ofState state).latestHead modes .final now
    exact ⟨⟨_, none, hafter.startRun⟩, hchanges⟩

/-- What an admission does: it makes a new submission, or finds the one of its request id and
changes nothing. -/
theorem isCommit_admitted (hsound : Sound state) {now : Nat}
    (hadmitted : admitSubmission (.ofState state) draft now modes = .ok (id, tx)) :
    IsCommit state tx ∧ BoundaryChanges tx ∧
      ∀ record ∈ state.submissions, ∀ request, record.requestId = some request →
        draft.requestId = some request → id = record.id ∧ tx = .ofState state := by
  rw [admitSubmission] at hadmitted
  by_cases hreserved : draft.hasReservedKind = true
  · rw [if_pos hreserved] at hadmitted
    cases hadmitted
  rw [if_neg hreserved] at hadmitted
  rcases hdraft : draft.requestId with _ | request
  · simp only [hdraft] at hadmitted
    obtain ⟨hcommit, hchanges⟩ := isCommit_admitNew hsound (by simp [hdraft]) hadmitted
    exact ⟨hcommit, hchanges, by simp⟩
  simp only [hdraft] at hadmitted
  rcases hfind : (Tx.ofState state).submissions.find? (fun record => record.requestId = some request) with
    _ | existing
  · simp only [hfind] at hadmitted
    have hunknown (record : SubmissionRecord) (hrecord : record ∈ state.submissions) :
        record.requestId ≠ some request := by
      have hnot := find?_eq_none.1 hfind record hrecord
      simpa using hnot
    obtain ⟨hcommit, hchanges⟩ := isCommit_admitNew hsound (by
      intro other hother record hrecord
      rw [hdraft] at hother
      cases hother
      exact hunknown record hrecord) hadmitted
    refine ⟨hcommit, hchanges, ?_⟩
    intro record hrecord other hother hsame
    cases hsame
    exact absurd hother (hunknown record hrecord)
  simp only [hfind] at hadmitted
  split at hadmitted
  · cases hadmitted
  cases hadmitted
  have hquiet : Commits state (Tx.ofState state) none none :=
    Commits.quiet le_rfl ⟨[], by simp⟩
  refine ⟨⟨none, none, hquiet⟩, boundaryChanges_nil rfl, ?_⟩
  intro record hrecord other hother hsame
  cases hsame
  have hfound : existing.requestId = some request := by
    simpa using find?_some hfind
  have hmem : existing ∈ state.submissions := mem_of_find?_eq_some hfind
  exact ⟨congrArg SubmissionRecord.id (hsound.requests existing hmem record hrecord request hfound hother),
    rfl⟩

/-! ### The other operations -/

theorem eraseP_id {items : List InboxItem} (hdistinct : (items.map InboxItem.id).Nodup) (id : Nat) :
    (items.eraseP fun item => item.id = id) = items.filter fun item => !decide (item.id = id) := by
  induction items with
  | nil => rfl
  | cons item rest ih =>
    rw [map_cons, nodup_cons] at hdistinct
    by_cases hid : item.id = id
    · rw [eraseP_cons_of_pos (by simpa using hid), filter_cons_of_neg (by simp [hid])]
      symm
      rw [filter_eq_self]
      intro other hother
      have hne : other.id ≠ id := by
        intro heq
        exact hdistinct.1 (mem_map.2 ⟨other, hother, heq.trans hid.symm⟩)
      simpa using hne
    rw [eraseP_cons_of_neg (by simpa using hid), filter_cons_of_pos (by simp [hid]),
      ih hdistinct.2]

theorem isCommit_abort (hsound : Sound state) (id : Nat) : IsCommit state (abort (.ofState state) id) := by
  have hquiet : Commits state (Tx.ofState state) none none := Commits.quiet le_rfl ⟨[], by simp⟩
  unfold abort
  split
  · exact ⟨none, none, hquiet⟩
  rename_i record hfound
  split
  next hstatus =>
    have hid : record.id = id := by simpa using find?_some hfound
    have hmem : record ∈ state.submissions := mem_of_find?_eq_some hfound
    obtain ⟨item, hitem, hitemId⟩ :=
      mem_map.1 ((hsound.queued id).2 ⟨record, hmem, hid, hstatus⟩)
    refine ⟨none, none, Commits.settles ?_ (by simp) (.inl ⟨⟨item, hitem, hitemId⟩, by simp⟩)⟩
    exact eraseP_id (hsound.sorted.imp ne_of_lt) id
  · exact ⟨none, none, hquiet⟩

/-- The loop over the last items of an inbox, from the last one on. -/
theorem foldl_withdrawAt (reason : JsString) (front back : List InboxItem) (tx : Tx)
    (hitems : tx.items = front ++ back) :
    (range front.length).reverse.foldl (withdrawAt reason) tx =
      { tx with
        items := front.filter InboxItem.isWrite ++ back
        submissionChanges := tx.submissionChanges ++
          ((front.filter fun item => !item.isWrite).reverse.map fun item =>
            (item.id, SubmissionChange.unanswered reason)) } := by
  induction front using reverseRecOn generalizing back tx with
  | nil => simpa using congrArg (fun items => { tx with items := items }) hitems
  | append_singleton front last ih =>
    have hlast : tx.items[front.length]? = some last := by
      rw [hitems]
      simp
    rw [length_append, length_singleton, range_succ, reverse_append, reverse_singleton,
      singleton_append, foldl_cons]
    cases last with
    | write id draft =>
      have hround : withdrawAt reason tx front.length = tx := by simp only [withdrawAt, hlast]
      rw [hround, ih (.write id draft :: back) tx (by rw [hitems]; simp)]
      simp [InboxItem.isWrite]
      rfl
    | input id mode content entry =>
      have hround : withdrawAt reason tx front.length =
          { tx.stage id (.unanswered reason) with items := front ++ back } := by
        simp only [withdrawAt, hlast]
        rw [hitems, append_assoc, eraseIdx_append_of_length_le le_rfl]
        simp
      rw [hround, ih back _ rfl]
      simp [InboxItem.isWrite, InboxItem.id, Tx.stage]

theorem isCommit_withdraw (hsound : Sound state) (reason : JsString) :
    IsCommit state (withdrawQueuedInputs (.ofState state) reason) := by
  have hdistinct : (state.items.map InboxItem.id).Nodup := hsound.sorted.imp ne_of_lt
  have hall : withdrawQueuedInputs (.ofState state) reason =
      ⟨{ state with items := state.items.filter InboxItem.isWrite ++ [] },
        [] ++ (state.items.filter fun item => !item.isWrite).reverse.map fun item =>
          (item.id, SubmissionChange.unanswered reason)⟩ :=
    foldl_withdrawAt reason state.items [] (.ofState state) (by simp [Tx.ofState])
  rw [hall, append_nil, nil_append]
  -- every change is of an input of the inbox, and no placement
  have hmade {change : Nat × SubmissionChange} (hchange : change ∈
      (state.items.filter fun item => !item.isWrite).reverse.map fun item =>
        (item.id, SubmissionChange.unanswered reason)) :
      ∃ item ∈ state.items, item.isWrite = false ∧ change = (item.id, .unanswered reason) := by
    obtain ⟨item, hitem, rfl⟩ := mem_map.1 hchange
    obtain ⟨hmem, hkind⟩ := mem_filter.1 (mem_reverse.1 hitem)
    exact ⟨item, hmem, by simpa using hkind, rfl⟩
  have hids : (((state.items.filter fun item => !item.isWrite).reverse.map fun item =>
      (item.id, SubmissionChange.unanswered reason)).map fun change => change.1) =
      ((state.items.filter fun item => !item.isWrite).map InboxItem.id).reverse := by
    rw [map_map, ← map_reverse]
    rfl
  refine ⟨none, none, by simp, ?_, le_rfl, ⟨[], by simp⟩, by simp, by simp, by simp, by simp, by simp,
    ?_, ?_, ?_, ?_⟩
  · simp only [Option.toList_none, append_nil, hids, mem_reverse]
    apply filter_congr
    intro item hitem
    cases hkind : item.isWrite with
    | true =>
      have hnot : item.id ∉ (state.items.filter fun item => !item.isWrite).map InboxItem.id := by
        intro hmem
        obtain ⟨other, hother, hsame⟩ := mem_map.1 hmem
        obtain ⟨hmem, hinput⟩ := mem_filter.1 hother
        obtain rfl := inj_on_of_nodup_map hdistinct hmem hitem hsame
        simp [hkind] at hinput
      simp [hnot]
    | false =>
      have hmem : item.id ∈ (state.items.filter fun item => !item.isWrite).map InboxItem.id :=
        mem_map_of_mem (mem_filter.2 ⟨hitem, by simp [hkind]⟩)
      simp [hmem]
  · rw [hids, nodup_reverse]
    exact hdistinct.sublist (filter_sublist.map _)
  · intro change hchange
    obtain ⟨item, hitem, -, rfl⟩ := hmade hchange
    exact .inl ⟨⟨item, by simpa using hitem, rfl⟩, by simp⟩
  · intro change hchange entry hentry
    obtain ⟨item, -, -, rfl⟩ := hmade hchange
    cases hentry
  · intro change hchange other _ item _ later _ _ _ _ entry second hentry
    obtain ⟨found, -, -, rfl⟩ := hmade hchange
    cases hentry

theorem isCommit_settle (hsound : Sound state) (hplaced : state.isPlaced id = true)
    {change : SubmissionChange} (hchange : ∀ entry, change ≠ .placed entry) :
    IsCommit state ((Tx.ofState state).stage id change) := by
  obtain ⟨record, hrecord, hboth⟩ := any_eq_true.1 hplaced
  simp only [Bool.and_eq_true, decide_eq_true_eq] at hboth
  refine ⟨none, none, Commits.settles ?_ hchange (.inr ⟨record, hrecord, hboth⟩)⟩
  -- a placed submission has no item
  show state.items = _
  symm
  rw [filter_eq_self]
  intro item hitem
  have hne : item.id ≠ id := by
    intro heq
    obtain ⟨found, hfound, hfoundId, hstatus⟩ := (hsound.queued item.id).1 (mem_map_of_mem hitem)
    obtain rfl := eq_of_id_eq hsound.ids hfound hrecord (hfoundId.trans (heq.trans hboth.1.symm))
    rw [hstatus] at hboth
    cases hboth.2
  simpa using hne

/-- Whether an operation runs a boundary: the boundaries themselves and admissions. -/
def Operation.isBoundary : Operation → Bool
  | .admitDraft .. => true
  | .boundary .. => true
  | _ => false

variable {operation : Operation}

theorem isCommit_staged (hsound : Sound state) (hstaged : staged state operation = some tx) :
    IsCommit state tx ∧ (operation.isBoundary = true → BoundaryChanges tx) := by
  have hquiet : Commits state (Tx.ofState state) none none := Commits.quiet le_rfl ⟨[], by simp⟩
  cases operation with
  | admitDraft draft now modes =>
    simp only [staged] at hstaged
    split at hstaged
    next id admitted hadmitted =>
      cases hstaged
      obtain ⟨hcommit, hchanges, -⟩ := isCommit_admitted hsound hadmitted
      exact ⟨hcommit, fun _ => hchanges⟩
    · cases hstaged
  | boundary at' now modes =>
    cases hstaged
    obtain ⟨hcommits, hchanges⟩ := isCommit_applyBoundary hsound hquiet rfl (by simp)
      (Tx.ofState state).latestHead modes at' now
    exact ⟨⟨none, none, hcommits⟩, fun _ => hchanges⟩
  | abort id =>
    cases hstaged
    exact ⟨isCommit_abort hsound id, by simp [Operation.isBoundary]⟩
  | withdraw reason =>
    cases hstaged
    exact ⟨isCommit_withdraw hsound reason, by simp [Operation.isBoundary]⟩
  | append draft =>
    cases hstaged
    refine ⟨⟨none, none, Commits.quiet (Nat.le_succ _) ⟨_, rfl, ?_⟩⟩, by simp [Operation.isBoundary]⟩
    intro entry hentry
    rw [mem_singleton.1 hentry]
    exact ⟨le_rfl, Nat.lt_succ_self _⟩
  | run running =>
    cases hstaged
    exact ⟨⟨none, none, Commits.quiet (Nat.le_succ _) ⟨[], by simp [Tx.ofState]⟩⟩, by simp [Operation.isBoundary]⟩
  | _ =>
    obtain ⟨hplaced, rfl⟩ := of_guard hstaged
    exact ⟨isCommit_settle hsound hplaced (by simp), by simp [Operation.isBoundary]⟩

theorem step_eq_next (hsound : Sound state) (hstaged : staged state operation = some tx) :
    step state operation = some (Commits.next tx) := by
  obtain ⟨⟨fresh, queued, hcommits⟩, -⟩ := isCommit_staged hsound hstaged
  rw [step, hstaged, Option.bind_some, hcommits.assembles hsound]
  rfl

theorem sound_step (state : State) (operation : Operation) (next : State) (hsound : Sound state)
    (hstep : step state operation = some next) : Sound next := by
  rcases hstaged : staged state operation with _ | tx
  · rw [step, hstaged] at hstep
    cases hstep
  obtain ⟨⟨fresh, queued, hcommits⟩, -⟩ := isCommit_staged hsound hstaged
  cases (step_eq_next hsound hstaged).symm.trans hstep
  exact hcommits.sound hsound

theorem sound_run {operations : List Operation} (hrun : run step start operations = some state) : Sound state :=
  run_invariant sound_step sound_start hrun

/-! ### Every run -/

/-- An input, a steer and a reset come in while a run is going; its boundary places the reset
first, and the steer in the new context. -/
def exampleOperations : List Operation :=
  [.admitDraft (.input none 1 none false none) 5 ⟨.oneAtATime, .oneAtATime⟩,
    .admitDraft (.input (some (js "r".toList)) 2 (some .steer) false none) 6 ⟨.oneAtATime, .oneAtATime⟩,
    .admitDraft (.write none ⟨js "reset".toList, none, some .self, none, none⟩) 7 ⟨.oneAtATime, .oneAtATime⟩,
    .boundary .postTools 8 ⟨.oneAtATime, .oneAtATime⟩]

end Hummin.Inbox
