/-
The order in which the writer settles its parts.  What it has done is at every moment
a front of the admitted parts: those whose publication started, then those given up;
and those settled.  The parts behind wait in the call in flight and in the queue.
-/
import Hummin.Machine
import Hummin.Writer

namespace Hummin.Writer

open List Option PropertyList

variable {W K E : Type}

/-! ### Waiting parts -/

def Publication.failingParts (loop : Publication W K E) : List (Part W K) :=
  loop.failing.map Failing.part

def Publication.unpublishedParts (loop : Publication W K E) : List (Part W K) :=
  (loop.failing.filter fun failing => !failing.published).map Failing.part

/-- The parts of the call whose publication has not started and that are not given
up. -/
def Flight.waiting : Flight W K E → List (Part W K)
  | .committing parts _ => parts
  | .ready part _ rest _ => part :: rest
  | .publishing _ rest _ => rest
  | .ran part _ external rest _ => if external.isSome then part :: rest else rest
  | .settling loop => loop.unpublishedParts
  | .returning => []

/-- The parts of the call that are not settled. -/
def Flight.unsettled : Flight W K E → List (Part W K)
  | .committing parts _ => parts
  | .ready part _ rest loop | .publishing part rest loop | .ran part _ _ rest loop =>
    loop.failingParts ++ part :: rest
  | .settling loop => loop.failingParts
  | .returning => []

def State.waiting (state : State W K E) : List (Part W K) :=
  (state.flight.map Flight.waiting).getD [] ++ state.queue

def State.unsettled (state : State W K E) : List (Part W K) :=
  (state.flight.map Flight.unsettled).getD [] ++ state.queue

/-- Before a stop nothing unpublished fails, and without a rejection nothing does. -/
structure Publication.Sound (loop : Publication W K E) : Prop where
  published : loop.stop = none → ∀ failing ∈ loop.failing, failing.published = true
  nothing : loop.stop = none → loop.rejected = none → loop.failing = []

/-- A call that publishes has not stopped. -/
def Flight.Sound : Flight W K E → Prop
  | .ready _ _ _ loop | .publishing _ _ loop | .ran _ _ _ _ loop =>
    loop.stop = none ∧ loop.Sound
  | .settling loop => loop.Sound
  | _ => True

variable (key : K) {state middle : State W K E} {loop : Publication W K E}

theorem unpublishedParts_eq_nil (hloop : loop.Sound)
    (hstop : loop.stop = none) : loop.unpublishedParts = [] := by
  rw [Publication.unpublishedParts, filter_eq_nil_iff.mpr]
  · rfl
  intro failing hfailing
  simp [hloop.published hstop failing hfailing]

theorem unpublishedParts_append (loop : Publication W K E) (part : Part W K)
    (outcome : FailedOutcome E) (published : Bool) :
    ({ loop with failing := loop.failing ++ [⟨part, outcome, published⟩] } :
        Publication W K E).unpublishedParts =
      loop.unpublishedParts ++ if published then [] else [part] := by
  cases published <;> simp [Publication.unpublishedParts]

theorem scan_stopped {stop : Stop E}
    (hstop : loop.stop = some stop) (part : Part W K) (rest : List (Part W K)) :
    scan loop (part :: rest) = scan { loop.counting part with
      failing := loop.failing ++ [⟨part, outcomeBehind loop stop part, false⟩] } rest := by
  rw [scan, hstop]

/-- Without a stop, the loop halts before a part to publish, or stops at a part without
a receipt. -/
theorem scan_going (hstop : loop.stop = none)
    (part : Part W K) (rest : List (Part W K)) :
    (∃ seq, scan loop (part :: rest) = .ready part seq rest (loop.counting part) ∧
      (part.writes.isSome = true → ∃ number, seq = some number ∧
        loop.seqs[loop.storedIndex]? = some number) ∧
      (part.writes.isSome = false → seq = none)) ∨
    ∃ error, scan loop (part :: rest) = scan { loop.counting part with
      failing := loop.failing ++ [⟨part, .own error, false⟩]
      stop := some ⟨error, part.index, false⟩ } rest := by
  rw [scan, hstop]
  by_cases hwrites : part.writes.isSome = true
  · rw [if_pos hwrites]
    cases hseq : loop.seqs[loop.storedIndex]? with
    | some seq =>
      left
      exact ⟨some seq, rfl, fun _ => ⟨seq, rfl, rfl⟩, fun hheld => by simp_all⟩
    | none =>
      right
      exact ⟨_, rfl⟩
  rw [if_neg hwrites]
  left
  exact ⟨none, rfl, fun hstored => absurd hstored hwrites, fun _ => rfl⟩

theorem scan_spec (hloop : loop.Sound) (parts : List (Part W K)) :
    (scan loop parts).waiting = loop.unpublishedParts ++ parts ∧
      (scan loop parts).unsettled = loop.failingParts ++ parts ∧
      (scan loop parts).Sound := by
  induction parts generalizing loop with
  | nil => exact ⟨by simp [scan, Flight.waiting], by simp [scan, Flight.unsettled], hloop⟩
  | cons part rest ih =>
    cases hstop : loop.stop with
    | some stop =>
      rw [scan_stopped hstop]
      have hnext := @ih { loop.counting part with
        failing := loop.failing ++ [⟨part, outcomeBehind loop stop part, false⟩] } ?_
      · rw [hnext.1, hnext.2.1]
        refine ⟨?_, ?_, hnext.2.2⟩
        · simp [Publication.unpublishedParts]
        · simp [Publication.failingParts]
      constructor
      · intro hnone
        cases hstop.symm.trans hnone
      intro hnone
      cases hstop.symm.trans hnone
    | none =>
      rcases scan_going hstop part rest with ⟨seq, hready, -⟩ | ⟨error, hscan⟩
      · rw [hready, unpublishedParts_eq_nil hloop hstop]
        exact ⟨rfl, rfl, hstop, hloop.published, hloop.nothing⟩
      rw [hscan]
      have hnext := @ih { loop.counting part with
        failing := loop.failing ++ [⟨part, .own error, false⟩]
        stop := some ⟨error, part.index, false⟩ } ?_
      · rw [hnext.1, hnext.2.1]
        refine ⟨?_, ?_, hnext.2.2⟩
        · simp [Publication.unpublishedParts]
        · simp [Publication.failingParts]
      constructor
      · exact nofun
      · exact nofun

/-! ### The key map -/

variable [DecidableEq K]

/-- The last of the parts that writes a key. -/
def newestWriter (key : K) (parts : List (Part W K)) : Option Nat :=
  (parts.reverse.find? fun part => part.keys.contains key).map Part.number

theorem newestWriter_append (front back : List (Part W K)) :
    newestWriter key (front ++ back) = (newestWriter key back).or (newestWriter key front) := by
  rw [newestWriter, reverse_append, find?_append, map_or]
  rfl

variable {next : State W K E} (settlement : Settlement E) (part : Part W K)

theorem newestWriter_singleton :
    newestWriter key [part] = if part.keys.contains key then some part.number else none := by
  rw [newestWriter, reverse_singleton, find?_singleton]
  split <;> rfl

theorem newestWriter_mem {key : K} {parts : List (Part W K)} {number : Nat}
    (hnewest : newestWriter key parts = some number) : number ∈ parts.map Part.number := by
  obtain ⟨part, hfound, rfl⟩ := map_eq_some_iff.mp hnewest
  exact mem_map_of_mem (mem_reverse.mp (mem_of_find?_eq_some hfound))

/-- The map names the newest writer of each key. -/
def Keyed (parts : List (Part W K)) (unpublished : List (K × Nat)) : Prop :=
  ∀ key, PropertyList.get key unpublished = newestWriter key parts

/-- The map after the keys of a part were dropped. -/
theorem get_unregister (state : State W K E) (key : K) :
    get key (unregister part state).unpublished =
      if part.keys.contains key ∧
          get key state.unpublished = some part.number then none
      else get key state.unpublished := by
  rw [unregister]
  generalize state.unpublished = unpublished
  induction part.keys generalizing unpublished with
  | nil => simp
  | cons name rest ih =>
    rw [foldl_cons, ih]
    by_cases hname : key = name
    · subst hname
      by_cases hget : get key unpublished = some part.number
      · simp [hget, get_erase]
      · simp [hget]
    have hget : get key
        (if get name unpublished = some part.number then
          erase name unpublished else unpublished) =
        get key unpublished := by
      split
      · rw [get_erase, if_neg hname]
      · rfl
    rw [hget]
    simp [hname]

theorem keyed_unregister {part : Part W K} {rest : List (Part W K)} {state : State W K E}
    (hdistinct : ((part :: rest).map Part.number).Nodup)
    (hkeyed : Keyed (part :: rest) state.unpublished) :
    Keyed rest (unregister part state).unpublished := by
  intro key
  have hkey := hkeyed key
  rw [← singleton_append, newestWriter_append, newestWriter_singleton] at hkey
  rw [get_unregister, hkey]
  cases hnewest : newestWriter key rest with
  | some number =>
    have hother : number ≠ part.number := by
      rintro rfl
      exact (nodup_cons.mp hdistinct).1 (newestWriter_mem hnewest)
    simp [hother]
  | none => simp

theorem keyed_admitPart {parts : List (Part W K)} {unpublished : List (K × Nat)}
    (hkeyed : Keyed parts unpublished) (part : Part W K) :
    Keyed (parts ++ [part]) (part.keys.foldl (fun unpublished key =>
      JsMap.set key part.number unpublished) unpublished) := by
  intro key
  have hset : ∀ (keys : List K) (unpublished : List (K × Nat)),
      get key (keys.foldl (fun unpublished key =>
        JsMap.set key part.number unpublished) unpublished) =
      if keys.contains key then some part.number else get key unpublished := by
    intro keys
    induction keys with
    | nil => simp
    | cons name rest ih =>
      intro unpublished
      rw [foldl_cons, ih, JsMap.get_set]
      by_cases hname : key = name
      · simp [hname]
      · simp [hname]
  rw [hset, newestWriter_append, newestWriter_singleton, hkeyed key]
  split <;> rfl

/-! ### Settling parts -/

/-- Between two states the writer settled some parts and discarded some of them, and
did nothing else. -/
structure Settles (state next : State W K E) (settled discarded : List (Part W K)) :
    Prop where
  queue : next.queue = state.queue
  flight : next.flight = state.flight
  failure : next.failure = state.failure
  admitted : next.admitted = state.admitted
  receipts : next.receipts = state.receipts
  publications : next.publications = state.publications
  discards : next.discards = state.discards ++ discarded.map Part.number
  settlements : next.settlements.map Prod.fst =
    state.settlements.map Prod.fst ++ settled.map Part.number
  opened : next.opened = state.opened ++ settled.map Part.number
  keyed : ∀ waiting : List (Part W K), ((discarded ++ waiting).map Part.number).Nodup →
    Keyed (discarded ++ waiting) state.unpublished → Keyed waiting next.unpublished

theorem Settles.refl (state : State W K E) : Settles state state [] [] := by
  constructor <;> simp

variable {settled discarded : List (Part W K)}

theorem Settles.trans {more others : List (Part W K)}
    (hfirst : Settles state middle settled discarded) (hsecond : Settles middle next more others) :
    Settles state next (settled ++ more) (discarded ++ others) where
  queue := hsecond.queue.trans hfirst.queue
  flight := hsecond.flight.trans hfirst.flight
  failure := hsecond.failure.trans hfirst.failure
  admitted := hsecond.admitted.trans hfirst.admitted
  receipts := hsecond.receipts.trans hfirst.receipts
  publications := hsecond.publications.trans hfirst.publications
  discards := by rw [hsecond.discards, hfirst.discards, map_append, append_assoc]
  settlements := by
    rw [hsecond.settlements, hfirst.settlements, map_append, append_assoc]
  opened := by rw [hsecond.opened, hfirst.opened, map_append, append_assoc]
  keyed := by
    intro waiting hdistinct hkeyed
    rw [append_assoc] at hdistinct hkeyed
    refine hsecond.keyed waiting ?_ (hfirst.keyed (others ++ waiting) hdistinct hkeyed)
    rw [map_append] at hdistinct
    exact hdistinct.of_append_right

theorem settles_unpublish (state : State W K E)
    (part : Part W K) : Settles state (unpublish settlement state part) [part] [part] := by
  constructor
  case keyed =>
    intro waiting hdistinct hkeyed
    have hdropped := @keyed_unregister W K E _ part waiting
      (settle part settlement (discard part state)) hdistinct hkeyed
    exact hdropped
  case settlements => simp [unpublish, openGate, unregister, settle, discard]
  all_goals rfl

theorem settles_open (state : State W K E)
    (part : Part W K) : Settles state (openGate part (settle part settlement state)) [part] [] := by
  constructor
  case keyed =>
    intro waiting hdistinct hkeyed
    exact hkeyed
  case settlements => simp [openGate, settle]
  case discards => simp [openGate, settle]
  all_goals rfl

theorem settles_unpublishAll (parts : List (Part W K)) (state : State W K E) :
    Settles state (parts.foldl (unpublish settlement) state) parts parts := by
  induction parts generalizing state with
  | nil => exact Settles.refl state
  | cons part rest ih =>
    exact (settles_unpublish settlement state part).trans (ih _)

theorem settles_failing (stop : Option (Stop E)) (failing : List (Failing W K E))
    (state : State W K E) :
    Settles state (failing.foldl (settleFailing stop) state) (failing.map Failing.part)
      ((failing.filter fun failing => !failing.published).map Failing.part) := by
  induction failing generalizing state with
  | nil => exact Settles.refl state
  | cons first rest ih =>
    have hrest := ih (settleFailing stop state first)
    rw [foldl_cons, ← singleton_append, map_append, filter_append, map_append]
    refine Settles.trans ?_ hrest
    rw [settleFailing.eq_def]
    cases hpublished : first.published with
    | true =>
      rw [if_pos rfl]
      simpa [hpublished] using settles_open _ state first.part
    | false =>
      rw [if_neg (by simp)]
      simpa [hpublished] using settles_unpublish _ state first.part

/-! ### The invariant -/

/-- The call has a publication ahead of it or failing parts to settle. -/
def Flight.publishes : Flight W K E → Bool
  | .committing _ _ | .returning => false
  | _ => true

/-- Publications started and parts given up are a front of the admitted parts, so are
the settled ones; after a part is given up nothing is published. -/
structure Ordered (state : State W K E) : Prop where
  numbered : state.admitted.map Part.number = List.range state.admitted.length
  front : ∃ done, state.admitted = done ++ state.waiting ∧
    done.map Part.number = state.publications.map Prod.fst ++ state.discards
  settled : state.settlements.map Prod.fst ++ state.unsettled.map Part.number =
    state.admitted.map Part.number
  opened : state.opened = state.settlements.map Prod.fst
  halted : state.discards ≠ [] →
    state.failure.isSome = true ∧ ∀ flight ∈ state.flight, flight.publishes = false
  sound : ∀ flight ∈ state.flight, flight.Sound
  keyed : Keyed state.waiting state.unpublished

theorem Ordered.nodup (hstate : Ordered state) : (state.admitted.map Part.number).Nodup := by
  rw [hstate.numbered]
  exact nodup_range

theorem Ordered.nodup_waiting (hstate : Ordered state) : (state.waiting.map Part.number).Nodup := by
  obtain ⟨done, hdone, -⟩ := hstate.front
  have hnodup := hstate.nodup
  rw [hdone, map_append] at hnodup
  exact hnodup.of_append_right

/-- The states differ in the call, the queue, the failure and the receipts only. -/
structure SameLog (state next : State W K E) : Prop where
  admitted : next.admitted = state.admitted
  publications : next.publications = state.publications
  discards : next.discards = state.discards
  settlements : next.settlements = state.settlements
  opened : next.opened = state.opened
  unpublished : next.unpublished = state.unpublished

/-- Settling the first of the unsettled and discarding the first of the waiting parts
keeps the order. -/
theorem Ordered.advance (hstate : Ordered state)
    (hsettles : Settles state middle settled discarded) (hlog : SameLog middle next)
    (hwaiting : state.waiting = discarded ++ next.waiting)
    (hunsettled : state.unsettled = settled ++ next.unsettled) (hhalted : next.discards ≠ [] →
      next.failure.isSome = true ∧ ∀ flight ∈ next.flight, flight.publishes = false)
    (hsound : ∀ flight ∈ next.flight, flight.Sound) : Ordered next where
  numbered := by rw [hlog.admitted, hsettles.admitted, hstate.numbered]
  front := by
    obtain ⟨done, hdone, hnumbers⟩ := hstate.front
    refine ⟨done ++ discarded, ?_, ?_⟩
    · rw [hlog.admitted, hsettles.admitted, hdone, hwaiting, append_assoc]
    rw [map_append, hnumbers, hlog.publications, hsettles.publications,
      hlog.discards, hsettles.discards, append_assoc]
  settled := by
    rw [hlog.settlements, hsettles.settlements, hlog.admitted, hsettles.admitted,
      ← hstate.settled, hunsettled, map_append, append_assoc]
  opened := by
    rw [hlog.opened, hsettles.opened, hlog.settlements, hsettles.settlements, hstate.opened]
  halted := hhalted
  sound := hsound
  keyed := by
    have hnodup := hstate.nodup_waiting
    have hkeyed := hstate.keyed
    rw [hwaiting] at hnodup hkeyed
    rw [hlog.unpublished]
    exact hsettles.keyed next.waiting hnodup hkeyed

theorem Ordered.no_discards (hstate : Ordered state)
    {flight : Flight W K E} (hflight : state.flight = some flight)
    (hpublishes : flight.publishes = true) : state.discards = [] := by
  by_contra hdiscards
  have hquiet := (hstate.halted hdiscards).2 flight hflight
  rw [hpublishes] at hquiet
  cases hquiet

theorem Ordered.no_discards_healthy (hstate : Ordered state)
    (hhealthy : state.failure = none) : state.discards = [] := by
  by_contra hdiscards
  have hfailed := (hstate.halted hdiscards).1
  rw [hhealthy] at hfailed
  cases hfailed

theorem ordered_start : Ordered (State.start : State W K E) where
  numbered := rfl
  front := ⟨[], rfl, rfl⟩
  settled := rfl
  opened := rfl
  halted := fun hdiscards => absurd rfl hdiscards
  sound := by simp [State.start]
  keyed := fun key => rfl

/-! ### Steps of the call in flight -/

section

variable (hstate : Ordered state)

include hstate

theorem ordered_fail (error : Fault E) : Ordered (fail error state) := by
  refine hstate.advance (Settles.refl state) ⟨rfl, rfl, rfl, rfl, rfl, rfl⟩ rfl rfl ?_ ?_
  · intro hdiscards
    have hhalted := hstate.halted hdiscards
    exact ⟨by simp [fail], hhalted.2⟩
  · exact hstate.sound

variable {parts : List (Part W K)}

theorem ordered_abandonCall {error : Fault E} (hfailure : state.failure = some error)
    (hwaiting : state.waiting = parts ++ state.queue)
    (hunsettled : state.unsettled = parts ++ state.queue) :
    Ordered (abandonCall parts error state) := by
  have hsettles := settles_unpublishAll (.sessionFailed error) parts state
  have hqueue : (abandonCall parts error state).queue = state.queue := hsettles.queue
  refine hstate.advance hsettles ⟨rfl, rfl, rfl, rfl, rfl, rfl⟩ ?_ ?_ ?_ ?_
  · rw [hwaiting, State.waiting, hqueue]
    rfl
  · rw [hunsettled, State.unsettled, hqueue]
    rfl
  · intro _
    have hfailed : (abandonCall parts error state).failure = state.failure := hsettles.failure
    refine ⟨by rw [hfailed, hfailure]; rfl, ?_⟩
    rintro flight ⟨⟩
    rfl
  · rintro flight ⟨⟩
    trivial

/-- Publishing a call starts with all its parts. -/
theorem ordered_scan (hdiscards : state.discards = [])
    (hwaiting : state.waiting = parts ++ state.queue)
    (hunsettled : state.unsettled = parts ++ state.queue) {loop : Publication W K E}
    (hloop : loop.failing = []) :
    Ordered { state with flight := some (scan loop parts) } := by
  have hsound : loop.Sound := ⟨by simp [hloop], fun _ _ => hloop⟩
  obtain ⟨hscanWaiting, hscanUnsettled, hscanSound⟩ := scan_spec hsound parts
  refine hstate.advance (Settles.refl state) ⟨rfl, rfl, rfl, rfl, rfl, rfl⟩ ?_ ?_ ?_ ?_
  · rw [hwaiting, State.waiting]
    simp [hscanWaiting, Publication.unpublishedParts, hloop]
  · rw [hunsettled, State.unsettled]
    simp [hscanUnsettled, Publication.failingParts, hloop]
  · intro hne
    exact absurd hdiscards hne
  rintro flight ⟨⟩
  exact hscanSound

theorem ordered_sent {seqs : List Nat} (hflight : state.flight = some (.committing parts seqs))
    (result : Except (Fault E) (CommitResult E)) : Ordered (sent parts seqs result state) := by
  have hwaiting : state.waiting = parts ++ state.queue := by
    rw [State.waiting, hflight]
    rfl
  have hunsettled : state.unsettled = parts ++ state.queue := by
    rw [State.unsettled, hflight]
    rfl
  rw [sent]
  split
  next error hfailure =>
    exact ordered_abandonCall hstate hfailure hwaiting hunsettled
  next hhealthy =>
    apply ordered_scan hstate (hstate.no_discards_healthy hhealthy) hwaiting hunsettled
    cases result <;> rfl

variable {rest : List (Part W K)}

theorem ordered_startPublication {part : Part W K} {seq : Option Nat}
    {loop : Publication W K E} (hflight : state.flight = some (.ready part seq rest loop)) :
    Ordered (startPublication part seq rest loop state) := by
  have hdiscards := hstate.no_discards hflight rfl
  have hsound := hstate.sound _ hflight
  have hwaiting : state.waiting = part :: (rest ++ state.queue) := by
    rw [State.waiting, hflight]
    rfl
  have hunsettled : state.unsettled =
      loop.failingParts ++ part :: rest ++ state.queue := by
    rw [State.unsettled, hflight]
    rfl
  rw [startPublication]
  split
  · refine hstate.advance (Settles.refl state) ⟨rfl, rfl, rfl, rfl, rfl, rfl⟩ ?_ ?_ ?_ ?_
    · rw [hwaiting]
      rfl
    · rw [hunsettled]
      rfl
    · intro hne
      exact absurd hdiscards hne
    rintro flight ⟨⟩
    exact hsound
  obtain ⟨done, hdone, hnumbers⟩ := hstate.front
  constructor
  · exact hstate.numbered
  · refine ⟨done ++ [part], ?_, ?_⟩
    · rw [hwaiting] at hdone
      simpa [State.waiting, Flight.waiting, unregister] using hdone
    rw [hdiscards, append_nil] at hnumbers
    simp [hnumbers, unregister, hdiscards]
  · have hsettled := hstate.settled
    rw [hunsettled] at hsettled
    exact hsettled
  · exact hstate.opened
  · intro hne
    exact absurd hdiscards hne
  · rintro flight ⟨⟩
    exact hsound
  have hnodup := hstate.nodup_waiting
  have hkeyed := hstate.keyed
  rw [hwaiting] at hnodup hkeyed
  exact keyed_unregister hnodup hkeyed

/-- Going on behind a publication: the part is settled, or it joins the failing ones. -/
theorem ordered_rescan {settled : List (Part W K)} (hsettles : Settles state middle settled [])
    (hdiscards : state.discards = []) {loop : Publication W K E} (hloop : loop.Sound)
    (hwaiting : state.waiting = loop.unpublishedParts ++ rest ++ state.queue)
    (hunsettled : state.unsettled = settled ++ (loop.failingParts ++ rest ++ state.queue))
    {next : State W K E} (hlog : SameLog middle next) (hqueue : next.queue = middle.queue)
    (hflight : next.flight = some (scan loop rest)) : Ordered next := by
  obtain ⟨hscanWaiting, hscanUnsettled, hscanSound⟩ := scan_spec hloop rest
  refine hstate.advance hsettles hlog ?_ ?_ ?_ ?_
  · rw [hwaiting, State.waiting, hflight, hqueue, hsettles.queue, map_some, getD_some, hscanWaiting]
    rfl
  · rw [hunsettled, State.unsettled, hflight, hqueue, hsettles.queue, map_some,
      getD_some, hscanUnsettled]
  · intro hne
    rw [hlog.discards, hsettles.discards, hdiscards] at hne
    exact absurd rfl hne
  intro flight hmem
  cases hflight.symm.trans hmem
  exact hscanSound

theorem ordered_resume {part : Part W K}
    {failure : Option (PublishFailure E)} {external : Option (Fault E)} {loop : Publication W K E}
    (hflight : state.flight = some (.ran part failure external rest loop)) :
    Ordered (resume part failure external rest loop state) := by
  have hdiscards := hstate.no_discards hflight rfl
  obtain ⟨hstop, hloop⟩ := hstate.sound _ hflight
  have hnone := unpublishedParts_eq_nil hloop hstop
  have hwaiting : state.waiting =
      (if external.isSome then part :: rest else rest) ++ state.queue := by
    rw [State.waiting, hflight]
    rfl
  have hunsettled : state.unsettled =
      loop.failingParts ++ part :: rest ++ state.queue := by
    rw [State.unsettled, hflight]
    rfl
  have hsame : ∀ (outcome : FailedOutcome E) (published : Bool) (stop : Option (Stop E)),
      state.unsettled = [] ++ (({ loop with
        failing := loop.failing ++ [⟨part, outcome, published⟩], stop } :
          Publication W K E).failingParts ++ rest ++ state.queue) := by
    intro outcome published stop
    rw [hunsettled]
    simp [Publication.failingParts]
  have hunpublished : ∀ (outcome : FailedOutcome E) (published : Bool)
      (stop : Option (Stop E)), ({ loop with
        failing := loop.failing ++ [⟨part, outcome, published⟩], stop } :
          Publication W K E).unpublishedParts = if published then [] else [part] := by
    intro outcome published stop
    have happend := unpublishedParts_append loop part outcome published
    rw [hnone, nil_append] at happend
    exact happend
  rw [resume.eq_def]
  cases external with
  | some error =>
    refine ordered_rescan hstate (Settles.refl state) hdiscards ?_ ?_
      (hsame .failed false (some ⟨error, part.index, true⟩))
      ⟨rfl, rfl, rfl, rfl, rfl, rfl⟩ rfl rfl
    · constructor <;> · intro hgoing; cases hgoing
    rw [hwaiting, hunpublished]
    rfl
  | none =>
    dsimp only
    split
    next failure _ =>
      refine ordered_rescan hstate (Settles.refl state) hdiscards ?_ ?_
        (hsame (.own failure.error) true (some ⟨failure.error, part.index, false⟩))
        ⟨rfl, rfl, rfl, rfl, rfl, rfl⟩ rfl rfl
      · constructor <;> · intro hgoing; cases hgoing
      rw [hwaiting, hunpublished]
      rfl
    split
    next error hrejected =>
      refine ordered_rescan hstate (Settles.refl state) hdiscards ?_ ?_
        (hsame (.own error) true loop.stop) ⟨rfl, rfl, rfl, rfl, rfl, rfl⟩ rfl rfl
      · constructor
        · intro _ failing hfailing
          rcases mem_append.mp hfailing with hfailing | hfailing
          · exact hloop.published hstop failing hfailing
          · rw [mem_singleton.mp hfailing]
        intro _ hnever
        cases hrejected.symm.trans hnever
      rw [hwaiting, hunpublished]
      rfl
    next hrejected =>
      have hfailing := hloop.nothing hstop hrejected
      refine ordered_rescan hstate (settles_open _ state part) hdiscards ?_ ?_ ?_
        ⟨rfl, rfl, rfl, rfl, rfl, rfl⟩ rfl rfl
      · exact ⟨by simp [hfailing], fun _ _ => hfailing⟩
      · rw [hwaiting]
        simp [Publication.unpublishedParts, hfailing]
      rw [hunsettled]
      simp [Publication.failingParts, hfailing]

theorem ordered_stopCall (loop : Publication W K E) : Ordered (stopCall loop state) := by
  rw [stopCall.eq_def]
  have hfail : ∀ (error : Fault E) (lineIndex : Option Nat) (own : List Nat),
      Ordered (failAt error lineIndex own state) := by
    intro error lineIndex own
    have hfailed := ordered_fail hstate error
    exact ⟨hfailed.numbered, hfailed.front, hfailed.settled, hfailed.opened, hfailed.halted,
      hfailed.sound, hfailed.keyed⟩
  split
  · exact hfail _ _ _
  · exact hfail _ _ _
  · exact hstate

end

omit [DecidableEq K] in
theorem stopCall_frame (loop : Publication W K E) (state : State W K E) :
    (stopCall loop state).flight = state.flight ∧
      (stopCall loop state).queue = state.queue ∧
      (stopCall loop state).discards = state.discards := by
  rw [stopCall.eq_def]
  split <;> exact ⟨rfl, rfl, rfl⟩

omit [DecidableEq K] in
/-- A call that does not fail the session was neither stopped nor rejected. -/
theorem stopCall_healthy {state : State W K E} (hhealthy : (stopCall loop state).failure = none) :
    loop.stop = none ∧ loop.rejected = none := by
  rw [stopCall.eq_def] at hhealthy
  split at hhealthy
  · simp [failAt, fail] at hhealthy
  · simp [failAt, fail] at hhealthy
  · exact ⟨‹_›, ‹_›⟩

theorem ordered_dropQueue (hstate : Ordered state)
    (hflight : state.flight = some .returning) : Ordered (dropQueue state) := by
  rw [dropQueue]
  split
  · exact hstate
  rename_i error hfailure
  have hsettles := settles_unpublishAll (.sessionFailed error) state.queue state
  have hwaiting : state.waiting = state.queue := by
    rw [State.waiting, hflight]
    rfl
  have hunsettled : state.unsettled = state.queue := by
    rw [State.unsettled, hflight]
    rfl
  refine hstate.advance hsettles ⟨rfl, rfl, rfl, rfl, rfl, rfl⟩ ?_ ?_ ?_ ?_
  · rw [hwaiting]
    simp [State.waiting, hsettles.flight, hflight, Flight.waiting]
  · rw [hunsettled]
    simp [State.unsettled, hsettles.flight, hflight, Flight.unsettled]
  · intro _
    refine ⟨?_, ?_⟩
    · rw [hsettles.failure, hfailure]
      rfl
    intro flight hmem
    rw [hsettles.flight, hflight] at hmem
    cases hmem
    rfl
  intro flight hmem
  rw [hsettles.flight, hflight] at hmem
  cases hmem
  trivial

/-- Only a stopped or rejected call has failing parts, and it fails the session. -/
theorem ordered_finish (hstate : Ordered state)
    {loop : Publication W K E} (hflight : state.flight = some (.settling loop)) :
    Ordered (finish loop state) := by
  obtain ⟨hsameFlight, hsameQueue, hsameDiscards⟩ := stopCall_frame loop state
  have hstopped := ordered_stopCall hstate loop
  have hsettles := settles_failing loop.stop loop.failing (stopCall loop state)
  apply ordered_dropQueue _ rfl
  refine hstopped.advance hsettles ⟨rfl, rfl, rfl, rfl, rfl, rfl⟩ ?_ ?_ ?_ ?_
  · rw [State.waiting, hsameFlight, hflight]
    simp [State.waiting, Flight.waiting, Publication.unpublishedParts, hsettles.queue]
  · rw [State.unsettled, hsameFlight, hflight]
    simp [State.unsettled, Flight.unsettled, Publication.failingParts, hsettles.queue]
  · intro hdiscards
    refine ⟨?_, ?_⟩
    · rw [hsettles.failure, isSome_iff_ne_none]
      intro hhealthy
      obtain ⟨hstop, hrejected⟩ := stopCall_healthy hhealthy
      have hfailing := (hstate.sound _ hflight).nothing hstop hrejected
      rw [hsettles.discards, hsameDiscards, hstate.no_discards hflight rfl, hfailing] at hdiscards
      exact hdiscards rfl
    rintro flight ⟨⟩
    rfl
  · rintro flight ⟨⟩
    trivial

/-! ### Sending and admitting -/

theorem ordered_send (hstate : Ordered state)
    {parts : List (Part W K)} (hflight : state.flight = some (.committing parts [])) :
    Ordered (send parts state) := by
  have hwaiting : state.waiting = parts ++ state.queue := by
    rw [State.waiting, hflight]
    rfl
  have hunsettled : state.unsettled = parts ++ state.queue := by
    rw [State.unsettled, hflight]
    rfl
  rw [send]
  split
  next error hfailure =>
    exact ordered_abandonCall hstate hfailure hwaiting hunsettled
  rename_i hhealthy
  split
  · exact ordered_scan hstate (hstate.no_discards_healthy hhealthy) hwaiting hunsettled rfl
  refine hstate.advance (Settles.refl state) ⟨rfl, rfl, rfl, rfl, rfl, rfl⟩ ?_ ?_ ?_ ?_
  · rw [hwaiting]
    rfl
  · rw [hunsettled]
    rfl
  · intro hne
    exact absurd (hstate.no_discards_healthy hhealthy) hne
  rintro flight ⟨⟩
  trivial

theorem ordered_pump (hstate : Ordered state) : Ordered (pump state) := by
  rw [pump]
  split
  · exact hstate
  rename_i hidle
  push Not at hidle
  have hflight : state.flight = none := by simpa using hidle.1
  refine ordered_send ?_ rfl
  refine hstate.advance (Settles.refl state) ⟨rfl, rfl, rfl, rfl, rfl, rfl⟩ ?_ ?_ ?_ ?_
  · simp [State.waiting, hflight, Flight.waiting]
  · simp [State.unsettled, hflight, Flight.unsettled]
  · intro hdiscards
    refine ⟨(hstate.halted hdiscards).1, ?_⟩
    rintro flight ⟨⟩
    rfl
  rintro flight ⟨⟩
  trivial

/-- After pumping, parts are queued behind a call in flight only. -/
theorem pump_idle (state : State W K E) (hidle : (pump state).flight = none) :
    (pump state).queue = [] := by
  rw [pump] at hidle ⊢
  split
  next hkept =>
    rw [if_pos hkept] at hidle
    rw [hidle] at hkept
    simpa using hkept
  rename_i hsent
  rw [if_neg hsent, send] at hidle
  split at hidle
  · cases hidle
  · split at hidle <;> cases hidle

theorem ordered_admitPart (hstate : Ordered state)
    (spec : PartSpec W K) : Ordered (admitPart spec state) := by
  apply ordered_pump
  obtain ⟨done, hdone, hnumbers⟩ := hstate.front
  constructor
  · simp [hstate.numbered, range_succ]
  · refine ⟨done, ?_, hnumbers⟩
    simp [hdone, State.waiting]
  · have hsettled := hstate.settled
    simp only [State.unsettled, map_append] at hsettled ⊢
    rw [← hsettled]
    simp
  · exact hstate.opened
  · exact hstate.halted
  · exact hstate.sound
  have hkeyed := keyed_admitPart hstate.keyed { spec with number := state.admitted.length }
  rw [State.waiting, append_assoc] at hkeyed
  exact hkeyed

/-! ### All steps -/

/-- What each event does when it can happen. -/
inductive Stepped (state : State W K E) : Event W K E → State W K E → Prop
  | admitPart (spec : PartSpec W K) : Stepped state (.admitPart spec) (admitPart spec state)
  | failElsewhere (error : Fault E) :
      Stepped state (.failElsewhere error) (fail error state)
  | receive {parts : List (Part W K)} {seqs : List Nat} {part : Part W K} (seq : Nat)
      (hflight : state.flight = some (.committing parts seqs))
      (hpart : (storedParts parts)[seqs.length]? = some part) :
      Stepped state (.receive seq) { state with
        flight := some (.committing parts (seqs ++ [seq]))
        receipts := state.receipts ++ [(part.number, seq)] }
  | committed {parts : List (Part W K)} {seqs : List Nat}
      (result : Except (Fault E) (CommitResult E))
      (hflight : state.flight = some (.committing parts seqs)) :
      Stepped state (.committed result) (sent parts seqs result state)
  | start {part : Part W K} {seq : Option Nat} {rest : List (Part W K)}
      {loop : Publication W K E} (hflight : state.flight = some (.ready part seq rest loop)) :
      Stepped state .start (startPublication part seq rest loop state)
  | published {part : Part W K} {rest : List (Part W K)} {loop : Publication W K E}
      (failure : Option (PublishFailure E))
      (hflight : state.flight = some (.publishing part rest loop)) :
      Stepped state (.published failure)
        { state with flight := some (.ran part failure none rest loop) }
  | resume {part : Part W K} {failure : Option (PublishFailure E)}
      {external : Option (Fault E)} {rest : List (Part W K)} {loop : Publication W K E}
      (hflight : state.flight = some (.ran part failure external rest loop)) :
      Stepped state .resume (resume part failure external rest loop state)
  | finish {loop : Publication W K E} (hflight : state.flight = some (.settling loop)) :
      Stepped state .finish (finish loop state)
  | next (hflight : state.flight = some .returning) :
      Stepped state .next (pump { state with flight := none })

variable {event : Event W K E}

theorem stepped_of_step (hstep : step state event = some next) : Stepped state event next := by
  cases event with
  | admitPart spec =>
    cases hstep
    exact .admitPart spec
  | failElsewhere error =>
    cases hstep
    exact .failElsewhere error
  | receive seq =>
    rw [step] at hstep
    split at hstep
    next hflight =>
      obtain ⟨part, hpart, rfl⟩ := map_eq_some_iff.mp hstep
      exact .receive seq hflight hpart
    · cases hstep
  | committed result =>
    rw [step] at hstep
    split at hstep
    · cases hstep
      exact .committed result ‹_›
    · cases hstep
  | start =>
    rw [step] at hstep
    split at hstep
    · cases hstep
      exact .start ‹_›
    · cases hstep
  | published failure =>
    rw [step] at hstep
    split at hstep
    · cases hstep
      exact .published failure ‹_›
    · cases hstep
  | resume =>
    rw [step] at hstep
    split at hstep
    · cases hstep
      exact .resume ‹_›
    · cases hstep
  | finish =>
    rw [step] at hstep
    split at hstep
    · cases hstep
      exact .finish ‹_›
    · cases hstep
  | next =>
    rw [step] at hstep
    split at hstep
    · cases hstep
      exact .next ‹_›
    · cases hstep

theorem ordered_step
    (hstate : Ordered state) (hstep : step state event = some next) : Ordered next := by
  cases stepped_of_step hstep with
  | admitPart spec => exact ordered_admitPart hstate spec
  | failElsewhere error => exact ordered_fail hstate error
  | receive seq hflight hpart =>
    refine hstate.advance (Settles.refl state) ⟨rfl, rfl, rfl, rfl, rfl, rfl⟩ ?_ ?_ ?_ ?_
    · rw [State.waiting, hflight]
      rfl
    · rw [State.unsettled, hflight]
      rfl
    · intro hdiscards
      refine ⟨(hstate.halted hdiscards).1, ?_⟩
      rintro flight ⟨⟩
      rfl
    rintro flight ⟨⟩
    trivial
  | committed result hflight => exact ordered_sent hstate hflight result
  | start hflight => exact ordered_startPublication hstate hflight
  | published failure hflight =>
    have hsound := hstate.sound _ hflight
    refine hstate.advance (Settles.refl state) ⟨rfl, rfl, rfl, rfl, rfl, rfl⟩ ?_ ?_ ?_ ?_
    · rw [State.waiting, hflight]
      rfl
    · rw [State.unsettled, hflight]
      rfl
    · intro hdiscards
      exact absurd (hstate.no_discards hflight rfl) hdiscards
    rintro flight ⟨⟩
    exact hsound
  | resume hflight => exact ordered_resume hstate hflight
  | finish hflight => exact ordered_finish hstate hflight
  | next hflight =>
    apply ordered_pump
    refine hstate.advance (Settles.refl state) ⟨rfl, rfl, rfl, rfl, rfl, rfl⟩ ?_ ?_ ?_ ?_
    · rw [State.waiting, hflight]
      rfl
    · rw [State.unsettled, hflight]
      rfl
    · intro hdiscards
      refine ⟨(hstate.halted hdiscards).1, ?_⟩
      rintro flight ⟨⟩
    · rintro flight ⟨⟩

end Hummin.Writer
