/-
Whole runs of the writer.  A stored part is published with the seq of its receipt, a
call in flight can always go on, and its steps come to an end.
-/
import Hummin.WriterOrder

namespace Hummin.Writer

open List Option

variable {W K E : Type}

/-! ### Receipts -/

/-- A stored part's seq is that of its receipt; a held part has none. -/
def Backed (receipts : List (Nat × Nat)) (part : Part W K) (seq : Option Nat) : Prop :=
  (part.writes.isSome = false ∧ seq = none) ∨
    ∃ number, part.writes.isSome = true ∧ seq = some number ∧
      (part.number, number) ∈ receipts

/-- The seqs from an index on are the receipts of the stored parts. -/
def Matches (receipts : List (Nat × Nat)) (seqs : List Nat) (first : Nat)
    (parts : List (Part W K)) : Prop :=
  ∀ offset part number, (storedParts parts)[offset]? = some part →
    seqs[first + offset]? = some number → (part.number, number) ∈ receipts

def Flight.Received (receipts : List (Nat × Nat)) : Flight W K E → Prop
  | .committing parts seqs => Matches receipts seqs 0 parts
  | .ready part seq rest loop =>
    Backed receipts part seq ∧ Matches receipts loop.seqs loop.storedIndex rest
  | .publishing _ rest loop | .ran _ _ _ rest loop =>
    Matches receipts loop.seqs loop.storedIndex rest
  | _ => True

variable {receipts : List (Nat × Nat)}

variable {seqs : List Nat}

theorem Matches.held {first : Nat}
    {part : Part W K} {rest : List (Part W K)} (hheld : part.writes.isSome = false)
    (hmatches : Matches receipts seqs first (part :: rest)) : Matches receipts seqs first rest := by
  intro offset other number hother
  apply hmatches offset other number
  rw [storedParts, filter_cons_of_neg (by simp [hheld])]
  exact hother

theorem Matches.stored {first : Nat}
    {part : Part W K} {rest : List (Part W K)} (hstored : part.writes.isSome = true)
    (hmatches : Matches receipts seqs first (part :: rest)) :
    (∀ number, seqs[first]? = some number → (part.number, number) ∈ receipts) ∧
      Matches receipts seqs (first + 1) rest := by
  have hsplit : storedParts (part :: rest) = part :: storedParts rest :=
    filter_cons_of_pos hstored
  constructor
  · intro number hnumber
    exact hmatches 0 part number (by rw [hsplit]; rfl) hnumber
  intro offset other number hother hnumber
  apply hmatches (offset + 1) other number
  · rw [hsplit]
    exact hother
  rw [← hnumber]
  congr 1
  omega

variable {state : State W K E} {part : Part W K} {rest : List (Part W K)} {next : State W K E}
    {loop : Publication W K E}

theorem Matches.counting {part : Part W K} {rest : List (Part W K)}
    (hmatches : Matches receipts loop.seqs loop.storedIndex (part :: rest)) :
    Matches receipts loop.seqs (loop.counting part).storedIndex rest := by
  by_cases hstored : part.writes.isSome = true
  · have hindex : (loop.counting part).storedIndex = loop.storedIndex + 1 := if_pos hstored
    rw [hindex]
    exact (hmatches.stored hstored).2
  have hindex : (loop.counting part).storedIndex = loop.storedIndex := if_neg hstored
  rw [hindex]
  exact hmatches.held (by simpa using hstored)

variable {parts : List (Part W K)}

theorem scan_received (hmatches : Matches receipts loop.seqs loop.storedIndex parts) :
    (scan loop parts).Received receipts := by
  induction parts generalizing loop with
  | nil => trivial
  | cons part rest ih =>
    have hcounting := hmatches.counting
    cases hstop : loop.stop with
    | some stop =>
      rw [scan_stopped hstop]
      apply ih
      exact hcounting
    | none =>
      rcases scan_going hstop part rest with ⟨seq, hready, hstored, hheld⟩ | ⟨error, hscan⟩
      · rw [hready]
        refine ⟨?_, hcounting⟩
        by_cases hwrites : part.writes.isSome = true
        · obtain ⟨number, hseq, hnumber⟩ := hstored hwrites
          exact .inr ⟨number, hwrites, hseq, (hmatches.stored hwrites).1 number hnumber⟩
        have hwithout : part.writes.isSome = false := by simpa using hwrites
        exact .inl ⟨hwithout, hheld hwithout⟩
      rw [hscan]
      apply ih
      exact hcounting

/-- The stored parts of the call that have no receipt yet. -/
def Flight.unreceived : Flight W K E → List (Part W K)
  | .committing parts seqs => (storedParts parts).drop seqs.length
  | _ => []

/-- The parts that can still get a receipt. -/
def State.unreceived (state : State W K E) : List (Part W K) :=
  (state.flight.map Flight.unreceived).getD [] ++ state.queue

/-- Each part gets one receipt at most, and is published with it. -/
structure Received (state : State W K E) : Prop where
  once : List.Sublist (state.receipts.map Prod.fst ++ state.unreceived.map Part.number)
    (state.admitted.map Part.number)
  seqs : ∀ flight ∈ state.flight, flight.Received state.receipts
  published : ∀ publication ∈ state.publications, ∃ part ∈ state.admitted,
    part.number = publication.1 ∧ Backed state.receipts part publication.2

theorem Received.advance (hstate : Received state)
    (hreceipts : next.receipts = state.receipts) (hadmitted : next.admitted = state.admitted)
    (hpublications : next.publications = state.publications)
    (hunreceived : List.Sublist next.unreceived state.unreceived)
    (hseqs : ∀ flight ∈ next.flight, flight.Received next.receipts) : Received next where
  once := by
    rw [hreceipts, hadmitted]
    exact ((List.Sublist.refl _).append (hunreceived.map _)).trans hstate.once
  seqs := hseqs
  published := by
    rw [hpublications, hadmitted, hreceipts]
    exact hstate.published

theorem received_start : Received (State.start : State W K E) where
  once := List.Sublist.refl _
  seqs := by simp [State.start]
  published := by simp [State.start]

/-- A call that publishes gets no more receipts. -/
theorem sublist_unreceived_scan (hflight : next.flight = some (scan loop parts))
    (hqueue : next.queue = state.queue) : List.Sublist next.unreceived state.unreceived := by
  have hnone : ∀ (parts : List (Part W K)) (loop : Publication W K E),
      (scan loop parts).unreceived = [] := by
    intro parts
    induction parts with
    | nil => exact fun loop => rfl
    | cons part rest ih =>
      intro loop
      cases hstop : loop.stop with
      | some stop => rw [scan_stopped hstop, ih]
      | none =>
        rcases scan_going hstop part rest with ⟨seq, hready, -⟩ | ⟨error, hscan⟩
        · rw [hready]
          rfl
        · rw [hscan, ih]
  rw [State.unreceived, State.unreceived, hflight, hqueue, map_some, getD_some, hnone, nil_append]
  exact sublist_append_right _ _

variable [DecidableEq K]

theorem received_abandonCall (hstate : Received state) (parts : List (Part W K)) (error : Fault E) :
    Received (abandonCall parts error state) := by
  have hsettles := settles_unpublishAll (.sessionFailed error) parts state
  refine hstate.advance hsettles.receipts hsettles.admitted hsettles.publications ?_ ?_
  · have hqueue : (abandonCall parts error state).queue = state.queue := hsettles.queue
    rw [State.unreceived, State.unreceived, hqueue]
    exact sublist_append_right _ _
  rintro flight ⟨⟩
  trivial

theorem received_sent (hstate : Received state)
    (hflight : state.flight = some (.committing parts seqs))
    (result : Except (Fault E) (CommitResult E)) : Received (sent parts seqs result state) := by
  have hmatches : Matches state.receipts seqs 0 parts := hstate.seqs _ hflight
  rw [sent]
  split
  · exact received_abandonCall hstate parts _
  refine hstate.advance rfl rfl rfl (sublist_unreceived_scan rfl rfl) ?_
  rintro flight ⟨⟩
  apply scan_received
  cases result <;> exact hmatches

theorem received_startPublication (hordered : Ordered state)
    (hstate : Received state) {part : Part W K} {seq : Option Nat} {rest : List (Part W K)}
    {loop : Publication W K E} (hflight : state.flight = some (.ready part seq rest loop)) :
    Received (startPublication part seq rest loop state) := by
  obtain ⟨hbacked, hmatches⟩ := hstate.seqs _ hflight
  have hunreceived : state.unreceived = state.queue := by
    rw [State.unreceived, hflight]
    rfl
  have hsublist : List.Sublist state.queue state.unreceived := by rw [hunreceived]
  rw [startPublication]
  split
  · refine hstate.advance rfl rfl rfl hsublist ?_
    rintro flight ⟨⟩
    exact hmatches
  constructor
  · have honce := hstate.once
    rw [hunreceived] at honce
    exact honce
  · rintro flight ⟨⟩
    exact hmatches
  refine forall_mem_append.mpr ⟨hstate.published, forall_mem_singleton.mpr ?_⟩
  obtain ⟨done, hdone, -⟩ := hordered.front
  refine ⟨part, ?_, rfl, hbacked⟩
  have hwaiting : part ∈ state.waiting := by
    rw [State.waiting, hflight]
    exact mem_cons_self
  have hadmitted : part ∈ done ++ state.waiting := mem_append_right _ hwaiting
  rw [← hdone] at hadmitted
  exact hadmitted

omit [DecidableEq K] in
theorem received_resume (hstate : Received state) {part : Part W K}
    {failure : Option (PublishFailure E)} {external : Option (Fault E)}
    {rest : List (Part W K)} {loop : Publication W K E}
    (hflight : state.flight = some (.ran part failure external rest loop)) :
    Received (resume part failure external rest loop state) := by
  have hmatches : Matches state.receipts loop.seqs loop.storedIndex rest :=
    hstate.seqs _ hflight
  have hrescan : ∀ (next : State W K E) (other : Publication W K E),
      next.receipts = state.receipts → next.admitted = state.admitted →
      next.publications = state.publications → next.queue = state.queue →
      next.flight = some (scan other rest) → other.seqs = loop.seqs →
      other.storedIndex = loop.storedIndex → Received next := by
    intro next other hreceipts hadmitted hpublications hqueue hscan hseqs hindex
    refine hstate.advance hreceipts hadmitted hpublications
      (sublist_unreceived_scan hscan hqueue) ?_
    intro found hmem
    cases hscan.symm.trans hmem
    apply scan_received
    rw [hreceipts, hseqs, hindex]
    exact hmatches
  rw [resume.eq_def]
  cases external with
  | some error => exact hrescan _ _ rfl rfl rfl rfl rfl rfl rfl
  | none =>
    dsimp only
    split
    · exact hrescan _ _ rfl rfl rfl rfl rfl rfl rfl
    split
    · exact hrescan _ _ rfl rfl rfl rfl rfl rfl rfl
    · exact hrescan _ _ rfl rfl rfl rfl rfl rfl rfl

omit [DecidableEq K] in
theorem stopCall_log (loop : Publication W K E) (state : State W K E) :
    (stopCall loop state).receipts = state.receipts ∧
      (stopCall loop state).admitted = state.admitted ∧
      (stopCall loop state).publications = state.publications := by
  rw [stopCall.eq_def]
  split <;> exact ⟨rfl, rfl, rfl⟩

section

variable (hstate : Received state)
include hstate

theorem received_dropQueue
    (hflight : state.flight = some .returning) : Received (dropQueue state) := by
  rw [dropQueue]
  split
  · exact hstate
  rename_i error _
  have hsettles := settles_unpublishAll (.sessionFailed error) state.queue state
  refine hstate.advance hsettles.receipts hsettles.admitted hsettles.publications ?_ ?_
  · rw [State.unreceived, hsettles.flight, hflight]
    exact nil_sublist _
  intro flight hmem
  rw [hsettles.flight, hflight] at hmem
  cases hmem
  trivial

theorem received_finish (loop : Publication W K E) : Received (finish loop state) := by
  obtain ⟨hreceipts, hadmitted, hpublications⟩ := stopCall_log loop state
  have hsettles := settles_failing loop.stop loop.failing (stopCall loop state)
  apply received_dropQueue _ rfl
  refine hstate.advance (hsettles.receipts.trans hreceipts)
    (hsettles.admitted.trans hadmitted) (hsettles.publications.trans hpublications) ?_ ?_
  · have hqueue := hsettles.queue.trans (stopCall_frame loop state).2.1
    simp only [State.unreceived, hqueue]
    exact sublist_append_right _ _
  rintro flight ⟨⟩
  trivial

theorem received_pump : Received (pump state) := by
  rw [pump]
  split
  · exact hstate
  have hsent : Received { state with
      queue := []
      flight := some (.committing state.queue []) } := by
    refine hstate.advance rfl rfl rfl ?_ ?_
    · have hstored : List.Sublist (storedParts state.queue) state.queue :=
        filter_sublist
      simpa [State.unreceived, Flight.unreceived] using
        hstored.trans (sublist_append_right _ _)
    rintro flight ⟨⟩ offset part number _ hnumber
    simp at hnumber
  rw [send]
  split
  · exact received_abandonCall hsent state.queue _
  split
  · refine hsent.advance rfl rfl rfl (sublist_unreceived_scan rfl rfl) ?_
    rintro flight ⟨⟩
    apply scan_received
    intro offset part number _ hnumber
    simp at hnumber
  · exact hsent

theorem received_admitPart (spec : PartSpec W K) : Received (admitPart spec state) := by
  apply received_pump
  constructor
  · have honce := hstate.once.append
      (List.Sublist.refl [state.admitted.length])
    simpa [State.unreceived] using honce
  · exact hstate.seqs
  intro publication hpublication
  obtain ⟨part, hpart, hbacked⟩ := hstate.published publication hpublication
  exact ⟨part, mem_append_left _ hpart, hbacked⟩

end

omit [DecidableEq K] in
/-- A receipt goes to the next stored part. -/
theorem received_receive (hstate : Received state)
    {part : Part W K} {seq : Nat}
    (hflight : state.flight = some (.committing parts seqs))
    (hpart : (storedParts parts)[seqs.length]? = some part) :
    Received { state with
      flight := some (.committing parts (seqs ++ [seq]))
      receipts := state.receipts ++ [(part.number, seq)] } := by
  have hmatches : Matches state.receipts seqs 0 parts := hstate.seqs _ hflight
  constructor
  · have hnext : (storedParts parts).drop seqs.length =
        part :: (storedParts parts).drop (seqs.length + 1) := by
      obtain ⟨hlength, hget⟩ := List.getElem?_eq_some_iff.mp hpart
      rw [drop_eq_getElem_cons hlength, hget]
    have honce := hstate.once
    rw [State.unreceived, hflight, map_some, getD_some, Flight.unreceived, hnext] at honce
    simpa [State.unreceived, Flight.unreceived] using honce
  · rintro flight ⟨⟩ offset other number hother hnumber
    rw [Nat.zero_add] at hnumber
    by_cases hold : offset < seqs.length
    · rw [getElem?_append_left hold] at hnumber
      exact mem_append_left _
        (hmatches offset other number hother (by rw [Nat.zero_add, hnumber]))
    rw [getElem?_append_right (by omega), getElem?_singleton] at hnumber
    split at hnumber
    · have hoffset : offset = seqs.length := by omega
      rw [hoffset, hpart] at hother
      rw [← some.inj hother, ← some.inj hnumber]
      exact mem_append_right _ (mem_singleton.mpr rfl)
    · cases hnumber
  intro publication hpublication
  obtain ⟨published, hmem, hid, hbacked⟩ := hstate.published publication hpublication
  refine ⟨published, hmem, hid, ?_⟩
  rcases hbacked with hheld | ⟨number, hwrites, hseq, hreceipt⟩
  · exact .inl hheld
  · exact .inr ⟨number, hwrites, hseq, mem_append_left _ hreceipt⟩

variable {event : Event W K E}

theorem received_step (hordered : Ordered state) (hstate : Received state)
    (hstep : step state event = some next) : Received next := by
  cases stepped_of_step hstep with
  | admitPart spec => exact received_admitPart hstate spec
  | failElsewhere error =>
    exact hstate.advance rfl rfl rfl (List.Sublist.refl _) hstate.seqs
  | receive seq hflight hpart => exact received_receive hstate hflight hpart
  | committed result hflight => exact received_sent hstate hflight result
  | start hflight => exact received_startPublication hordered hstate hflight
  | published failure hflight =>
    have hmatches := hstate.seqs _ hflight
    refine hstate.advance rfl rfl rfl ?_ ?_
    · rw [State.unreceived, State.unreceived, hflight]
      exact List.Sublist.refl _
    rintro flight ⟨⟩
    exact hmatches
  | resume hflight => exact received_resume hstate hflight
  | finish hflight => exact received_finish hstate _
  | next hflight =>
    apply received_pump
    refine hstate.advance rfl rfl rfl ?_ ?_
    · rw [State.unreceived, State.unreceived, hflight]
      exact List.Sublist.refl _
    · rintro flight ⟨⟩

/-! ### Progress -/

/-- The event is a step of the call in flight. -/
def Event.isWriter : Event W K E → Bool
  | .admitPart _ | .failElsewhere _ => false
  | _ => true

def Event.isAdmission : Event W K E → Bool
  | .admitPart _ => true
  | _ => false

/-- A bound on the steps that a call can still take. -/
def Flight.rank : Flight W K E → Nat
  | .committing parts seqs =>
    ((storedParts parts).length - seqs.length) + 3 * parts.length + 4
  | .ready _ _ rest _ => 3 * rest.length + 5
  | .publishing _ rest _ => 3 * rest.length + 4
  | .ran _ _ _ rest _ => 3 * rest.length + 3
  | .settling _ => 2
  | .returning => 1

def State.rank (state : State W K E) : Nat :=
  (state.flight.map Flight.rank).getD 0 + 8 * state.queue.length

omit [DecidableEq K] in
theorem rank_scan (loop : Publication W K E) (parts : List (Part W K)) :
    (scan loop parts).rank ≤ 3 * parts.length + 2 := by
  induction parts generalizing loop with
  | nil => exact Nat.le_refl 2
  | cons part rest ih =>
    rw [length_cons]
    cases hstop : loop.stop with
    | some stop =>
      rw [scan_stopped hstop]
      have hrest := ih { loop.counting part with
        failing := loop.failing ++ [⟨part, outcomeBehind loop stop part, false⟩] }
      omega
    | none =>
      rcases scan_going hstop part rest with ⟨seq, hready, -⟩ | ⟨error, hscan⟩
      · rw [hready, Flight.rank]
        omega
      rw [hscan]
      have hrest := ih { loop.counting part with
        failing := loop.failing ++ [⟨part, .own error, false⟩]
        stop := some ⟨error, part.index, false⟩ }
      omega

omit [DecidableEq K] in
theorem rank_of_flight {flight : Flight W K E} (hflight : state.flight = some flight) :
    state.rank = flight.rank + 8 * state.queue.length := by
  rw [State.rank, hflight]
  rfl

theorem rank_abandonCall (parts : List (Part W K)) (error : Fault E) (state : State W K E) :
    (abandonCall parts error state).rank = 1 + 8 * state.queue.length := by
  have hqueue : (abandonCall parts error state).queue = state.queue :=
    (settles_unpublishAll (.sessionFailed error) parts state).queue
  rw [State.rank, hqueue]
  rfl

theorem rank_pump {state : State W K E} (hflight : state.flight = none) :
    (pump state).rank ≤ 8 * state.queue.length := by
  rw [pump]
  split
  · rw [State.rank, hflight]
    exact Nat.le_of_eq (Nat.zero_add _)
  rename_i hqueued
  have hpositive : 0 < state.queue.length := by
    rw [length_pos_iff]
    intro hempty
    simp [hempty] at hqueued
  have hstored : (storedParts state.queue).length ≤ state.queue.length :=
    length_filter_le _ _
  rw [send]
  split
  · rw [rank_abandonCall]
    exact (by omega : 1 + 8 * 0 ≤ 8 * state.queue.length)
  split
  · have hscan := rank_scan (⟨[], none, none, none, [], 0⟩ : Publication W K E) state.queue
    rw [rank_of_flight rfl]
    dsimp only [length_nil]
    omega
  rw [rank_of_flight rfl, Flight.rank]
  dsimp only [length_nil]
  omega

theorem rank_dropQueue (hflight : state.flight = some .returning) :
    (dropQueue state).rank ≤ 1 + 8 * state.queue.length := by
  rw [dropQueue]
  split
  · rw [rank_of_flight hflight]
    exact Nat.le_refl _
  rename_i error _
  have hsettles := settles_unpublishAll (.sessionFailed error) state.queue state
  have hreturning := hsettles.flight.trans hflight
  simp only [State.rank, hreturning, map_some, getD_some, Flight.rank, length_nil]
  omega

theorem rank_finish (loop : Publication W K E) (state : State W K E) :
    (finish loop state).rank ≤ 1 + 8 * state.queue.length := by
  have hsettles := settles_failing loop.stop loop.failing (stopCall loop state)
  have hdrop : (finish loop state).rank ≤ 1 + 8 * (loop.failing.foldl
      (settleFailing loop.stop) (stopCall loop state)).queue.length := rank_dropQueue rfl
  rw [hsettles.queue, (stopCall_frame loop state).2.1] at hdrop
  exact hdrop

/-- Each step of the call in flight lowers the rank. -/
theorem rank_step (hadmission : event.isAdmission = false) (hstep : step state event = some next) :
    next.rank + (if event.isWriter then 1 else 0) ≤ state.rank := by
  cases stepped_of_step hstep with
  | admitPart spec => cases hadmission
  | failElsewhere error => exact Nat.le_refl _
  | receive seq hflight hpart =>
    have hlength := (List.getElem?_eq_some_iff.mp hpart).1
    rw [rank_of_flight hflight, rank_of_flight rfl, Flight.rank, Flight.rank,
      length_append, length_singleton]
    simp only [Event.isWriter, ↓reduceIte]
    omega
  | @committed parts seqs result hflight =>
    simp only [Event.isWriter, ↓reduceIte]
    rw [rank_of_flight hflight, Flight.rank, sent]
    split
    · rw [rank_abandonCall]
      omega
    rw [rank_of_flight rfl]
    dsimp only
    have hscan := rank_scan (.ofResult seqs result : Publication W K E) parts
    omega
  | start hflight =>
    simp only [Event.isWriter, ↓reduceIte]
    rw [rank_of_flight hflight, Flight.rank, startPublication]
    split
    · rw [rank_of_flight rfl, Flight.rank]
      dsimp only
      omega
    rw [rank_of_flight rfl, Flight.rank]
    dsimp only [unregister]
    omega
  | published failure hflight =>
    rw [rank_of_flight hflight, rank_of_flight rfl, Flight.rank, Flight.rank]
    simp only [Event.isWriter, ↓reduceIte]
    omega
  | @resume part failure external rest loop hflight =>
    have hrescan : ∀ (other : State W K E) (loop : Publication W K E),
        other.flight = some (scan loop rest) → other.queue = state.queue →
        other.rank + 1 ≤ 3 * rest.length + 3 + 8 * state.queue.length := by
      intro other loop hscan hqueue
      have hrank := rank_scan loop rest
      rw [rank_of_flight hscan, hqueue]
      omega
    rw [rank_of_flight hflight, Flight.rank, resume.eq_def]
    cases external with
    | some error => exact hrescan _ _ rfl rfl
    | none =>
      dsimp only
      split
      · exact hrescan _ _ rfl rfl
      split
      · exact hrescan _ _ rfl rfl
      · exact hrescan _ _ rfl rfl
  | @finish loop hflight =>
    have hfinish := rank_finish loop state
    simp only [Event.isWriter, ↓reduceIte]
    rw [rank_of_flight hflight, Flight.rank]
    omega
  | next hflight =>
    have hpump := @rank_pump W K E _ { state with flight := none } rfl
    simp only [Event.isWriter, ↓reduceIte]
    rw [rank_of_flight hflight, Flight.rank]
    dsimp only at hpump
    omega

/-- A call in flight can go on. -/
theorem step_enabled (hflight : state.flight ≠ none) :
    ∃ event : Event W K E, event.isWriter = true ∧ (step state event).isSome = true := by
  obtain ⟨flight, hflight⟩ := ne_none_iff_exists'.mp hflight
  cases flight with
  | committing parts seqs =>
    exact ⟨.committed (.ok ⟨0, none⟩), rfl, by rw [step, hflight]; rfl⟩
  | ready part seq rest loop => exact ⟨.start, rfl, by rw [step, hflight]; rfl⟩
  | publishing part rest loop => exact ⟨.published none, rfl, by rw [step, hflight]; rfl⟩
  | ran part failure external rest loop => exact ⟨.resume, rfl, by rw [step, hflight]; rfl⟩
  | settling loop => exact ⟨.finish, rfl, by rw [step, hflight]; rfl⟩
  | returning => exact ⟨.next, rfl, by rw [step, hflight]; rfl⟩

theorem rank_run {final : State W K E} {events : List (Event W K E)}
    (hadmissions : ∀ event ∈ events, event.isAdmission = false)
    (hrun : run step state events = some final) :
    events.countP Event.isWriter + final.rank ≤ state.rank := by
  induction events generalizing state with
  | nil =>
    cases hrun
    exact Nat.le_of_eq (Nat.zero_add _)
  | cons event rest ih =>
    obtain ⟨next, hnext, hrest⟩ := run_cons_eq_some hrun
    have hfirst := rank_step (hadmissions event mem_cons_self) hnext
    have hlater := ih (fun other hother => hadmissions other (mem_cons_of_mem _ hother)) hrest
    rw [countP_cons]
    omega

/-! ### Whole runs -/

/-- The part's publication has not started, and it was not given up. -/
def State.isWaiting (state : State W K E) (part : Part W K) : Bool :=
  !(state.publications.map Prod.fst).contains part.number &&
    !state.discards.contains part.number

/-- What holds of the writer at every moment. -/
structure Coherent (state : State W K E) : Prop where
  numbered : state.admitted.map Part.number = List.range state.admitted.length
  publishedInOrder : state.publications.map Prod.fst <+: state.admitted.map Part.number
  publishedWithReceipt : ∀ publication ∈ state.publications, ∃ part ∈ state.admitted,
    part.number = publication.1 ∧ Backed state.receipts part publication.2
  receivedOnce : (state.receipts.map Prod.fst).Nodup
  settledOnce : state.settlements.map Prod.fst <+: state.admitted.map Part.number
  opened : state.opened = state.settlements.map Prod.fst
  discardedOnce : state.discards.Nodup
  discardedUnpublished : ∀ number ∈ state.discards,
    number ∉ state.publications.map Prod.fst
  decided : ∀ number ∈ state.settlements.map Prod.fst,
    number ∈ state.publications.map Prod.fst ∨ number ∈ state.discards
  newest : ∀ key, PropertyList.get key state.unpublished =
    newestWriter key (state.admitted.filter state.isWaiting)
  drained : state.settlements.map Prod.fst = state.admitted.map Part.number →
    state.unpublished = []
  idle : state.flight = none →
    state.settlements.map Prod.fst = state.admitted.map Part.number

omit [DecidableEq K] in
theorem waiting_subset_unsettled (state : State W K E) : state.waiting ⊆ state.unsettled := by
  intro part hpart
  rcases mem_append.mp hpart with hcall | hqueue
  · refine mem_append_left _ ?_
    cases hflight : state.flight with
    | none =>
      rw [hflight] at hcall
      cases hcall
    | some flight =>
      rw [hflight] at hcall
      simp only [map_some, getD_some] at hcall ⊢
      cases flight with
      | committing parts seqs => exact hcall
      | ready first seq rest loop => exact mem_append_right _ hcall
      | publishing first rest loop =>
        exact mem_append_right _ (mem_cons_of_mem _ hcall)
      | ran first failure external rest loop =>
        refine mem_append_right _ ?_
        rw [Flight.waiting] at hcall
        split at hcall
        · exact hcall
        · exact mem_cons_of_mem _ hcall
      | settling loop =>
        obtain ⟨failing, hfailing, rfl⟩ := mem_map.mp hcall
        exact mem_map_of_mem (mem_of_mem_filter hfailing)
      | returning => cases hcall
  · exact mem_append_right _ hqueue

/-- The parts that wait are those not published and not given up. -/
theorem Ordered.filter_waiting (hstate : Ordered state) :
    state.admitted.filter state.isWaiting = state.waiting := by
  obtain ⟨done, hdone, hnumbers⟩ := hstate.front
  have hnodup := hstate.nodup
  rw [hdone, map_append, nodup_append] at hnodup
  have hleft : done.filter state.isWaiting = [] := by
    rw [filter_eq_nil_iff]
    intro part hpart
    have hmem : part.number ∈ state.publications.map Prod.fst ++ state.discards := by
      rw [← hnumbers]
      exact mem_map_of_mem hpart
    rcases mem_append.mp hmem with hpublished | hdiscarded
    · simp only [State.isWaiting, contains_iff_mem.mpr hpublished, Bool.not_true,
        Bool.false_and, Bool.false_eq_true, not_false_eq_true]
    simp only [State.isWaiting, contains_iff_mem.mpr hdiscarded, Bool.not_true,
      Bool.and_false, Bool.false_eq_true, not_false_eq_true]
  have hright : state.waiting.filter state.isWaiting = state.waiting := by
    rw [filter_eq_self]
    intro part hpart
    have hnot : part.number ∉ state.publications.map Prod.fst ++ state.discards := by
      rw [← hnumbers]
      intro hmem
      exact hnodup.2.2 _ hmem _ (mem_map_of_mem hpart) rfl
    rw [mem_append, not_or] at hnot
    rw [State.isWaiting, Bool.and_eq_true, Bool.not_eq_true', Bool.not_eq_true']
    exact ⟨by simpa using hnot.1, by simpa using hnot.2⟩
  rw [hdone, filter_append, hleft, hright, nil_append]

theorem unpublished_eq_nil (hstate : Ordered state)
    (hwaiting : state.waiting = []) : state.unpublished = [] := by
  cases hmap : state.unpublished with
  | nil => rfl
  | cons pair rest =>
    have hkey := hstate.keyed pair.1
    rw [hmap, hwaiting, PropertyList.get_cons_self] at hkey
    cases hkey

theorem coherent_of_ordered (hstate : Ordered state)
    (hreceived : Received state) (hidle : state.flight = none → state.queue = []) :
    Coherent state := by
  obtain ⟨done, hdone, hnumbers⟩ := hstate.front
  have hadmitted : state.admitted.map Part.number =
      state.publications.map Prod.fst ++ (state.discards ++ state.waiting.map Part.number) := by
    rw [← append_assoc, ← hnumbers, ← map_append, ← hdone]
  have hnodup := hstate.nodup
  have hsettled : (state.settlements.map Prod.fst ++
      state.unsettled.map Part.number).Nodup := by
    rw [hstate.settled]
    exact hnodup
  have hall : state.settlements.map Prod.fst = state.admitted.map Part.number →
      state.unsettled = [] := by
    intro hevery
    have hsame := hstate.settled
    rw [hevery] at hsame
    simpa using hsame
  rw [hadmitted] at hnodup
  have hparts := nodup_append.mp hnodup
  constructor
  · exact hstate.numbered
  · rw [hadmitted]
    exact prefix_append _ _
  · exact hreceived.published
  · exact (hstate.nodup.sublist hreceived.once).of_append_left
  · rw [← hstate.settled]
    exact prefix_append _ _
  · exact hstate.opened
  · exact hparts.2.1.of_append_left
  · intro number hdiscarded hpublished
    exact hparts.2.2 number hpublished number (mem_append_left _ hdiscarded) rfl
  · intro number hnumber
    have hmem : number ∈ state.admitted.map Part.number := by
      rw [← hstate.settled]
      exact mem_append_left _ hnumber
    rw [hadmitted, mem_append, mem_append] at hmem
    rcases hmem with hpublished | hdiscarded | hwaiting
    · exact .inl hpublished
    · exact .inr hdiscarded
    obtain ⟨part, hpart, rfl⟩ := mem_map.mp hwaiting
    have hunsettled := mem_map_of_mem (f := Part.number)
      (waiting_subset_unsettled state hpart)
    exact absurd rfl ((nodup_append.mp hsettled).2.2 _ hnumber _ hunsettled)
  · intro key
    rw [hstate.filter_waiting]
    exact hstate.keyed key
  · intro hevery
    apply unpublished_eq_nil hstate
    have hsubset := waiting_subset_unsettled state
    rw [hall hevery] at hsubset
    exact subset_nil.mp hsubset
  intro hnone
  have hsame := hstate.settled
  rw [State.unsettled, hnone, hidle hnone] at hsame
  simpa using hsame

/-- Parts are queued behind a call in flight only. -/
theorem idle_step (hstate : state.flight = none → state.queue = [])
    (hstep : step state event = some next) : next.flight = none → next.queue = [] := by
  cases stepped_of_step hstep with
  | admitPart spec => exact pump_idle _
  | failElsewhere error => exact hstate
  | committed result hflight =>
    rw [sent]
    split <;> exact fun hnone => by cases hnone
  | start hflight =>
    rw [startPublication]
    split <;> exact fun hnone => by cases hnone
  | resume hflight =>
    rw [resume.eq_def]
    split
    · exact fun hnone => by cases hnone
    split
    · exact fun hnone => by cases hnone
    · split <;> exact fun hnone => by cases hnone
  | finish hflight =>
    intro hnone
    rw [finish, dropQueue] at hnone
    split at hnone
    · cases hnone
    rw [(settles_unpublishAll _ _ _).flight] at hnone
    cases hnone
  | next hflight => exact pump_idle _
  | _ => exact fun hnone => by cases hnone

/-- In every run the writer publishes in the order of admission and settles every part
once; a call in flight can go on, and its steps end. -/
theorem writer_coherent {events : List (Event W K E)} {state : State W K E}
    (hrun : run step State.start events = some state) :
    Coherent state ∧
      (state.flight ≠ none →
        ∃ event : Event W K E, event.isWriter = true ∧ (step state event).isSome = true) ∧
      ∀ later final, (∀ event ∈ later, event.isAdmission = false) →
        run step state later = some final →
        later.countP Event.isWriter + final.rank ≤ state.rank := by
  have hinvariant : (Ordered state ∧ Received state) ∧
      (state.flight = none → state.queue = []) := by
    apply run_invariant _ ⟨⟨ordered_start, received_start⟩, fun _ => rfl⟩ hrun
    rintro before event after ⟨⟨hordered, hreceived⟩, hidle⟩ hstep
    exact ⟨⟨ordered_step hordered hstep, received_step hordered hreceived hstep⟩,
      idle_step hidle hstep⟩
  obtain ⟨⟨hordered, hreceived⟩, hidle⟩ := hinvariant
  refine ⟨coherent_of_ordered hordered hreceived hidle, step_enabled, ?_⟩
  exact fun later final hadmissions hlater => rank_run hadmissions hlater

/-- Three stored parts and a held one; the second call refuses its last part. -/
def refusedRun : List (Event Nat Nat Nat) :=
  [.admitPart ⟨0, some [1], [7]⟩, .admitPart ⟨1, some [2], [7, 8]⟩, .admitPart ⟨2, none, [8]⟩,
    .admitPart ⟨3, some [3], [7]⟩, .receive 5, .committed (.ok ⟨1, none⟩), .start,
    .published none, .resume, .finish, .next, .receive 6,
    .committed (.ok ⟨1, some (.raised 4)⟩), .start, .published none, .resume, .start,
    .published none, .resume, .finish, .next]

theorem writer_coherent_refusedRun : ∃ state,
    run step State.start refusedRun = some state ∧ Coherent state ∧
      state.publications = [(0, some 5), (1, some 6), (2, none)] ∧ state.discards = [3] := by
  have hrun : ∃ state, run step State.start refusedRun = some state ∧
      state.publications = [(0, some 5), (1, some 6), (2, none)] ∧ state.discards = [3] :=
    ⟨_, rfl, rfl, rfl⟩
  obtain ⟨state, hrun, hlog⟩ := hrun
  exact ⟨state, hrun, (writer_coherent hrun).1, hlog⟩

end Hummin.Writer
