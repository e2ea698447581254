/-
What a boundary does: it stages one change for each item it takes, a placement at a new entry
or a stale settlement, the writes first and then the user items, each in the order of their
ids, and it takes just those items out of the inbox.
-/
import Hummin.Inbox

namespace Hummin.Inbox

open List

/-- Of two placements the first has the smaller entry. -/
def Earlier (change other : Nat × SubmissionChange) : Prop :=
  ∀ entry later, change.2 = .placed entry → other.2 = .placed later → entry < later

/-- The commit `after` has staged the changes `made` since `before`, and appended the entries
of its placements. -/
structure Places (before after : Tx) (made : List (Nat × SubmissionChange)) : Prop where
  changes : after.submissionChanges = before.submissionChanges ++ made
  kinds : ∀ change ∈ made, change.2 = stale ∨ ∃ entry, change.2 = .placed entry ∧
    before.nextId ≤ entry ∧ entry < after.nextId ∧ entry ∈ after.entries.map fun record => record.id
  order : made.Pairwise Earlier
  nextId : before.nextId ≤ after.nextId
  entries : ∃ new, after.entries = before.entries ++ new ∧
    ∀ record ∈ new, before.nextId ≤ record.id ∧ record.id < after.nextId
  submissions : after.submissions = before.submissions
  items : after.items = before.items
  running : after.running = before.running

namespace Places

variable (tx : Tx)

theorem refl : Places tx tx [] where
  changes := (append_nil _).symm
  kinds := by simp
  order := .nil
  nextId := le_rfl
  entries := ⟨[], by simp⟩
  submissions := rfl
  items := rfl
  running := rfl

theorem trans {first middle last : Tx} {made more : List (Nat × SubmissionChange)}
    (hfirst : Places first middle made) (hlast : Places middle last more) :
    Places first last (made ++ more) := by
  obtain ⟨new, hnew, hids⟩ := hfirst.entries
  obtain ⟨newer, hnewer, hlater⟩ := hlast.entries
  refine ⟨?_, ?_, ?_, hfirst.nextId.trans hlast.nextId, ⟨new ++ newer, ?_, ?_⟩, ?_, ?_, ?_⟩
  · rw [hlast.changes, hfirst.changes, append_assoc]
  · intro change hchange
    rcases mem_append.1 hchange with hmade | hmore
    · rcases hfirst.kinds change hmade with hstale | ⟨entry, hplaced, hlow, hhigh, hmem⟩
      · exact .inl hstale
      refine .inr ⟨entry, hplaced, hlow, hhigh.trans_le hlast.nextId, ?_⟩
      rw [hnewer, map_append]
      exact mem_append_left _ hmem
    rcases hlast.kinds change hmore with hstale | ⟨entry, hplaced, hlow, hhigh, hmem⟩
    · exact .inl hstale
    · exact .inr ⟨entry, hplaced, hfirst.nextId.trans hlow, hhigh, hmem⟩
  · rw [pairwise_append]
    refine ⟨hfirst.order, hlast.order, ?_⟩
    intro change hchange other hother entry later hentry hlaterEntry
    rcases hfirst.kinds change hchange with hstale | ⟨placed, hplaced, -, hhigh, -⟩
    · rw [hstale] at hentry
      cases hentry
    rcases hlast.kinds other hother with hstale | ⟨second, hsecond, hlow, -, -⟩
    · rw [hstale] at hlaterEntry
      cases hlaterEntry
    cases hplaced.symm.trans hentry
    cases hsecond.symm.trans hlaterEntry
    exact hhigh.trans_le hlow
  · rw [hnewer, hnew, append_assoc]
  · intro record hrecord
    rcases mem_append.1 hrecord with hold | hyoung
    · exact ⟨(hids record hold).1, (hids record hold).2.trans_le hlast.nextId⟩
    · exact ⟨hfirst.nextId.trans (hlater record hyoung).1, (hlater record hyoung).2⟩
  · rw [hlast.submissions, hfirst.submissions]
  · rw [hlast.items, hfirst.items]
  · rw [hlast.running, hfirst.running]

/-- Staging a stale settlement. -/
theorem stageStale (id : Nat) : Places tx (tx.stage id stale) [(id, stale)] where
  changes := rfl
  kinds := by simp
  order := pairwise_singleton _ _
  nextId := le_rfl
  entries := ⟨[], by simp [Tx.stage]⟩
  submissions := rfl
  items := rfl
  running := rfl

/-- Appending an entry and staging a placement at it. -/
theorem stagePlaced (id : Nat) (draft : EntryDraft) :
    Places tx ((tx.appendEntry draft).2.stage id (.placed tx.nextId)) [(id, .placed tx.nextId)] where
  changes := rfl
  kinds := by simp [Tx.stage, Tx.appendEntry]
  order := pairwise_singleton _ _
  nextId := Nat.le_succ _
  entries := ⟨_, rfl, by simp [Tx.stage, Tx.appendEntry]⟩
  submissions := rfl
  items := rfl
  running := rfl

end Places

variable (items : List InboxItem)

/-- One round of the loop over the writes takes the write at its index. -/
theorem places_placeWrite (placing : Placing) (index : Nat)
    (hwrite : ∃ item, items[index]? = some item ∧ item.isWrite = true) :
    ∃ made, Places placing.tx (placeWrite items placing index).tx made ∧
      made.map (fun change => change.1) = (elementsAt items [index]).map InboxItem.id := by
  obtain ⟨item, hitem, hkind⟩ := hwrite
  cases item with
  | input id mode content entry => simp [InboxItem.isWrite] at hkind
  | write id draft =>
    have hids : (elementsAt items [index]).map InboxItem.id = [id] := by
      simp [elementsAt, hitem, InboxItem.id]
    rw [hids]
    simp only [placeWrite, hitem]
    split
    · exact ⟨_, Places.stageStale placing.tx id, rfl⟩
    · exact ⟨_, Places.stagePlaced placing.tx id draft, rfl⟩

theorem places_placeUser (now : Nat) (placing : Placing) (index : Nat)
    (huser : ∃ item, items[index]? = some item ∧ item.isWrite = false) :
    ∃ made, Places placing.tx (placeUser items now placing index).tx made ∧
      made.map (fun change => change.1) = (elementsAt items [index]).map InboxItem.id := by
  obtain ⟨item, hitem, hkind⟩ := huser
  cases item with
  | write id draft => simp [InboxItem.isWrite] at hkind
  | input id mode content entry =>
    have hids : (elementsAt items [index]).map InboxItem.id = [id] := by
      simp [elementsAt, hitem, InboxItem.id]
    rw [hids]
    simp only [placeUser, hitem]
    cases entry with
    | none => exact ⟨_, Places.stagePlaced placing.tx id _, rfl⟩
    | some entry => exact ⟨_, Places.stagePlaced placing.tx id _, rfl⟩

variable {indexes : List Nat}

/-- A loop of rounds that each take the item at their index. -/
theorem places_foldl {items : List InboxItem} {round : Placing → Nat → Placing}
    (hround : ∀ placing, ∀ index ∈ indexes, ∃ made, Places placing.tx (round placing index).tx made ∧
      made.map (fun change => change.1) = (elementsAt items [index]).map InboxItem.id) (placing : Placing) :
    ∃ made, Places placing.tx (indexes.foldl round placing).tx made ∧
      made.map (fun change => change.1) = (elementsAt items indexes).map InboxItem.id := by
  induction indexes generalizing placing with
  | nil => exact ⟨[], Places.refl _, rfl⟩
  | cons index rest ih =>
    obtain ⟨made, hmade, hids⟩ := hround placing index mem_cons_self
    obtain ⟨more, hmore, hothers⟩ := ih
      (fun next other hother => hround next other (mem_cons_of_mem index hother)) (round placing index)
    refine ⟨made ++ more, hmade.trans hmore, ?_⟩
    rw [map_append, hids, hothers, ← map_append, ← elementsAt_append]
    rfl

/-! ### The indexes a boundary takes -/

/-- Sorted and without repetition is strictly sorted. -/
theorem pairwise_lt_of_sorted (hsorted : indexes.Pairwise (· ≤ ·))
    (hdistinct : indexes.Nodup) : indexes.Pairwise (· < ·) :=
  (hsorted.and hdistinct).imp fun h => Nat.lt_of_le_of_ne h.1 h.2

theorem pick_sublist (mode : InputMode) (queueMode : QueueMode) :
    (pick items mode queueMode).Sublist (indexesWhere (InboxItem.hasMode mode) items) := by
  cases queueMode with
  | all => exact List.Sublist.refl _
  | oneAtATime => exact take_sublist _ _

variable {mode : InputMode}

theorem mem_pick {items : List InboxItem} {queueMode : QueueMode} {index : Nat}
    (hindex : index ∈ pick items mode queueMode) :
    ∃ item, items[index]? = some item ∧ item.hasMode mode = true :=
  mem_indexesWhere.1 ((pick_sublist items mode queueMode).subset hindex)

theorem isWrite_of_hasMode {item : InboxItem} (hmode : item.hasMode mode = true) :
    item.isWrite = false := by
  cases item with
  | input id own content entry => rfl
  | write id draft => simp [InboxItem.hasMode] at hmode

theorem pick_nodup (mode : InputMode) (queueMode : QueueMode) : (pick items mode queueMode).Nodup :=
  ((pairwise_indexesWhere _ items).imp ne_of_lt).sublist (pick_sublist items mode queueMode)

variable (queueMode : QueueMode)

theorem pick_disjoint (other : QueueMode) :
    List.Disjoint (pick items .steer queueMode) (pick items .followUp other) := by
  intro index hsteer hfollow
  obtain ⟨item, hitem, hmode⟩ := mem_pick hsteer
  obtain ⟨again, hagain, hother⟩ := mem_pick hfollow
  cases hitem.symm.trans hagain
  cases item with
  | input id own content entry =>
    simp only [InboxItem.hasMode, decide_eq_true_eq] at hmode hother
    rw [hmode] at hother
    cases hother
  | write id draft => simp [InboxItem.hasMode] at hmode

theorem boundaryUsers_pairwise (modes : QueueModes) (at' : BoundaryKind) :
    (boundaryUsers items modes at').Pairwise (· < ·) := by
  apply pairwise_lt_of_sorted (pairwise_insertionSort _ _)
  rw [(perm_insertionSort _ _).nodup_iff]
  apply List.Nodup.append (pick_nodup _ _ _)
  · split
    · exact pick_nodup _ _ _
    · exact nodup_nil
  split
  · exact pick_disjoint _ _ _
  · exact disjoint_nil_right _

theorem mem_boundaryUsers {items : List InboxItem} {modes : QueueModes} {at' : BoundaryKind}
    {index : Nat} (hindex : index ∈ boundaryUsers items modes at') :
    ∃ item, items[index]? = some item ∧ item.isWrite = false := by
  rw [boundaryUsers, mem_insertionSort, mem_append] at hindex
  rcases hindex with hsteer | hfollow
  · obtain ⟨item, hitem, hmode⟩ := mem_pick hsteer
    exact ⟨item, hitem, isWrite_of_hasMode hmode⟩
  split at hfollow
  · obtain ⟨item, hitem, hmode⟩ := mem_pick hfollow
    exact ⟨item, hitem, isWrite_of_hasMode hmode⟩
  · simp at hfollow

theorem boundary_nodup (modes : QueueModes) (at' : BoundaryKind) :
    (boundaryWrites items ++ boundaryUsers items modes at').Nodup := by
  apply List.Nodup.append
  · exact (pairwise_indexesWhere _ items).imp ne_of_lt
  · exact (boundaryUsers_pairwise items modes at').imp ne_of_lt
  intro index hwrite huser
  obtain ⟨item, hitem, hkind⟩ := mem_indexesWhere.1 hwrite
  obtain ⟨again, hagain, hother⟩ := mem_boundaryUsers huser
  cases hitem.symm.trans hagain
  rw [hkind] at hother
  cases hother

/-! ### The boundary -/

/-- What a boundary did to the commit `before`, with the changes `made`. -/
structure Bounded (before after : Tx) (made : List (Nat × SubmissionChange)) : Prop where
  places : Places before { after with items := before.items } made
  items : after.items = before.items.filter fun item => !decide (item.id ∈ made.map fun change => change.1)
  distinct : (made.map fun change => change.1).Nodup
  taken : ∀ change ∈ made, ∃ item ∈ before.items, item.id = change.1
  /-- Writes come before user items, and each of them in the order of the ids. -/
  order : ∀ change ∈ made, ∀ other ∈ made, ∀ item ∈ before.items, ∀ later ∈ before.items,
    item.id = change.1 → later.id = other.1 →
    (item.isWrite = true ∧ later.isWrite = false ∨ item.isWrite = later.isWrite ∧ item.id < later.id) →
    Earlier change other

theorem applyBoundary_items {tx : Tx} (hdistinct : (tx.items.map InboxItem.id).Nodup)
    (head : Option Nat)
    (modes : QueueModes) (at' : BoundaryKind) (now : Nat) :
    (applyBoundary tx head modes at' now).tx.items =
      tx.items.filter fun item => !decide (item.id ∈
        (elementsAt tx.items (boundaryWrites tx.items ++ boundaryUsers tx.items modes at')).map InboxItem.id) := by
  have hperm := perm_insertionSort (· ≥ ·) (boundaryWrites tx.items ++ boundaryUsers tx.items modes at')
  have hsorted := pairwise_insertionSort (· ≥ ·)
    (boundaryWrites tx.items ++ boundaryUsers tx.items modes at')
  have hnodup := hperm.nodup_iff.2 (boundary_nodup tx.items modes at')
  have hdescending := (hsorted.and hnodup).imp fun {index other} h =>
    show index > other from Nat.lt_of_le_of_ne h.1 (Ne.symm h.2)
  have hremoved : (applyBoundary tx head modes at' now).tx.items = without
      ((boundaryWrites tx.items ++ boundaryUsers tx.items modes at').insertionSort (· ≥ ·)) 0 tx.items :=
    foldl_eraseIdx_descending hdescending tx.items
  rw [hremoved, without_eq_filter_keys hdistinct]
  apply filter_congr
  intro item _
  have hsame := (hperm.filterMap fun index => tx.items[index]?).map InboxItem.id
  have hiff : item.id ∈ (elementsAt tx.items
      ((boundaryWrites tx.items ++ boundaryUsers tx.items modes at').insertionSort (· ≥ ·))).map InboxItem.id ↔
      item.id ∈ (elementsAt tx.items
        (boundaryWrites tx.items ++ boundaryUsers tx.items modes at')).map InboxItem.id := hsame.mem_iff
  simp only [hiff]

/-- The items taken, with the changes made for them, tell whether they are writes. -/
theorem taken_kind {items : List InboxItem} (hdistinct : (items.map InboxItem.id).Nodup)
    {kind : Bool}
    (hkind : ∀ index ∈ indexes, ∃ item, items[index]? = some item ∧ item.isWrite = kind)
    {made : List (Nat × SubmissionChange)}
    (hmade : made.map (fun change => change.1) = (elementsAt items indexes).map InboxItem.id)
    {change : Nat × SubmissionChange} (hchange : change ∈ made) :
    ∃ item ∈ items, item.id = change.1 ∧ ∀ other ∈ items, other.id = change.1 → other.isWrite = kind := by
  have hid : change.1 ∈ (elementsAt items indexes).map InboxItem.id := by
    rw [← hmade]
    exact mem_map_of_mem hchange
  obtain ⟨item, hitem, hsame⟩ := mem_map.1 hid
  obtain ⟨index, hindex, hat⟩ := mem_elementsAt.1 hitem
  refine ⟨item, mem_of_getElem? hat, hsame, ?_⟩
  intro other hother hagain
  obtain ⟨found, hfound⟩ := getElem?_of_mem hother
  obtain rfl := index_eq_of_key_eq hdistinct hat hfound (hsame.trans hagain.symm)
  obtain ⟨known, hknown, hwrite⟩ := hkind index hindex
  cases hfound.symm.trans hknown
  exact hwrite

theorem bounded_applyBoundary {tx : Tx} (hsorted : (tx.items.map InboxItem.id).Pairwise (· < ·))
    (head : Option Nat) (modes : QueueModes) (at' : BoundaryKind) (now : Nat) :
    ∃ made, Bounded tx (applyBoundary tx head modes at' now).tx made := by
  have hdistinct : (tx.items.map InboxItem.id).Nodup := hsorted.imp ne_of_lt
  have hwrites (index : Nat) (hindex : index ∈ boundaryWrites tx.items) :
      ∃ item, tx.items[index]? = some item ∧ item.isWrite = true := mem_indexesWhere.1 hindex
  have husers (index : Nat) (hindex : index ∈ boundaryUsers tx.items modes at') :
      ∃ item, tx.items[index]? = some item ∧ item.isWrite = false := mem_boundaryUsers hindex
  obtain ⟨written, hwritten, hwrittenIds⟩ := places_foldl
    (fun placing index hindex => places_placeWrite tx.items placing index (hwrites index hindex))
    ⟨tx, head, none, []⟩
  obtain ⟨placed, hplaced, hplacedIds⟩ := places_foldl
    (fun placing index hindex => places_placeUser tx.items now placing index (husers index hindex))
    ((boundaryWrites tx.items).foldl (placeWrite tx.items) ⟨tx, head, none, []⟩)
  have hall := hwritten.trans hplaced
  have hids : (written ++ placed).map (fun change => change.1) =
      (elementsAt tx.items (boundaryWrites tx.items ++ boundaryUsers tx.items modes at')).map InboxItem.id := by
    rw [map_append, hwrittenIds, hplacedIds, elementsAt_append, map_append]
  have hascending {indexes : List Nat} (hindexes : indexes.Pairwise (· < ·))
      {made : List (Nat × SubmissionChange)}
      (hmade : made.map (fun change => change.1) = (elementsAt tx.items indexes).map InboxItem.id) :
      made.Pairwise fun change other => change.1 < other.1 := by
    rw [← pairwise_map (f := fun change : Nat × SubmissionChange => change.1) (R := (· < ·)), hmade,
      pairwise_map]
    exact pairwise_elementsAt (pairwise_map.1 hsorted) hindexes
  refine ⟨written ++ placed, ?_, ?_, ?_, ?_, ?_⟩
  · exact ⟨hall.changes, hall.kinds, hall.order, hall.nextId, hall.entries, hall.submissions, rfl, hall.running⟩
  · rw [applyBoundary_items hdistinct, hids]
  · rw [hids]
    exact nodup_map_elementsAt hdistinct (boundary_nodup tx.items modes at')
  · intro change hchange
    rcases mem_append.1 hchange with hwrite | huser
    · obtain ⟨item, hitem, hid, -⟩ := taken_kind hdistinct hwrites hwrittenIds hwrite
      exact ⟨item, hitem, hid⟩
    obtain ⟨item, hitem, hid, -⟩ := taken_kind hdistinct husers hplacedIds huser
    exact ⟨item, hitem, hid⟩
  intro change hchange other hother item hitem later hlater hid hlaterId hbefore
  have horder := pairwise_append.1 hall.order
  have hlt : ∀ change other : Nat × SubmissionChange, change.1 < other.1 → ¬ other.1 < change.1 :=
    fun change other h => Nat.lt_asymm h
  rcases mem_append.1 hchange with hwrite | huser
  · obtain ⟨-, -, -, hwriteKind⟩ := taken_kind hdistinct hwrites hwrittenIds hwrite
    rcases mem_append.1 hother with hotherWrite | hotherUser
    · obtain ⟨-, -, -, hotherKind⟩ := taken_kind hdistinct hwrites hwrittenIds hotherWrite
      rcases hbefore with ⟨-, hnot⟩ | ⟨-, hids⟩
      · rw [hotherKind later hlater hlaterId] at hnot
        cases hnot
      exact pairwise_of_ordered (hascending (pairwise_indexesWhere _ _) hwrittenIds) horder.1 hlt
        (fun _ => lt_irrefl _) hwrite hotherWrite (by rwa [hid, hlaterId] at hids)
    · exact horder.2.2 change hwrite other hotherUser
  obtain ⟨-, -, -, huserKind⟩ := taken_kind hdistinct husers hplacedIds huser
  rcases hbefore with ⟨hwrite, -⟩ | ⟨hsame, hids⟩
  · rw [huserKind item hitem hid] at hwrite
    cases hwrite
  rcases mem_append.1 hother with hotherWrite | hotherUser
  · obtain ⟨-, -, -, hotherKind⟩ := taken_kind hdistinct hwrites hwrittenIds hotherWrite
    rw [huserKind item hitem hid, hotherKind later hlater hlaterId] at hsame
    cases hsame
  exact pairwise_of_ordered (hascending (boundaryUsers_pairwise _ _ _) hplacedIds) horder.2.1 hlt
    (fun _ => lt_irrefl _) huser hotherUser (by rwa [hid, hlaterId] at hids)

end Hummin.Inbox
