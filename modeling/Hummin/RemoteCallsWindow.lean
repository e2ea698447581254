/-
The consumer side's own bookkeeping: every submitted call is waiting, in flight or settled,
exactly one of them; the slots taken are the calls registered; calls go out in the order in
which they were submitted.
-/
import Mathlib.Data.List.Range
import Mathlib.Data.List.Perm.Subperm
import Hummin.RemoteCalls

namespace Hummin.Remote

open List Option PropertyList

namespace ConsumerSide

variable {config : Config} {side : ConsumerSide} {taken : List Nat} {queue : List OutgoingCall}

/-- The keys of the calls waiting for a slot. -/
def queued (side : ConsumerSide) : List Nat :=
  side.waiting.map OutgoingCall.key

/-- The keys of the calls in flight. -/
def flying (side : ConsumerSide) : List Nat :=
  side.calls.map fun entry => entry.2.key

/-- What every primitive of the side keeps; `taken` are calls out of the tables whose
promise is settled next. -/
structure Loose (config : Config) (taken : List Nat) (side : ConsumerSide) : Prop where
  distinct : (side.calls.map Prod.fst).Nodup
  numbered : ∀ entry ∈ side.calls, entry.1 < side.nextCall
  counted : side.isOpen = true → side.inFlight = side.calls.length
  within : side.isOpen = true → side.inFlight ≤ side.limit
  ordered : (side.sent ++ side.queued).Pairwise (· < ·)
  known : ∀ key ∈ side.sent ++ side.queued, key < side.nextKey
  accounted : (side.settled.map Prod.fst ++ taken ++ side.queued ++ side.flying).Perm
    (List.range side.nextKey)
  plain : config.parent = true → ∀ call ∈ side.waiting,
    (call.args.any fun part => part.deflated) = false
  shut : side.isOpen = false → side.waiting = [] ∧ side.calls = []

/-- No call waits while a slot is free. -/
def Full (side : ConsumerSide) : Prop :=
  side.isOpen = true → side.waiting ≠ [] → side.limit ≤ side.inFlight

/-- Calls are of holds this side has. -/
def Placed (side : ConsumerSide) : Prop :=
  (∀ call ∈ side.waiting, call.hold ∈ PropertyList.keys side.entries) ∧
    ∀ entry ∈ side.calls, entry.2.hold ∈ PropertyList.keys side.entries

/-! ### Sending -/

theorem Loose.sendNext {call : OutgoingCall} {rest : List OutgoingCall}
    (hloose : Loose config taken { side with waiting := call :: rest })
    (hroom : side.inFlight < side.limit) :
    Loose config taken
      { { side with inFlight := side.inFlight + 1 }.send call with waiting := rest } where
  distinct := by
    simp only [send, map_append, map_cons, map_nil]
    apply nodup_append.mpr
    refine ⟨hloose.distinct, nodup_singleton _, ?_⟩
    intro id hid other hother
    rw [mem_singleton] at hother
    obtain ⟨entry, hentry, rfl⟩ := mem_map.mp hid
    have hlow := hloose.numbered entry hentry
    intro heq
    rw [heq, hother] at hlow
    exact lt_irrefl _ hlow
  numbered := by
    intro entry hentry
    simp only [send, mem_append, mem_singleton] at hentry ⊢
    rcases hentry with hentry | rfl
    · exact Nat.lt_succ_of_lt (hloose.numbered entry hentry)
    · exact Nat.lt_succ_self _
  counted := by
    intro hopen
    simp only [send, length_append, length_singleton]
    rw [hloose.counted hopen]
  within := fun _ => hroom
  ordered := by
    have hsame := hloose.ordered
    simpa [send, queued] using hsame
  known := by
    have hsame := hloose.known
    simpa [send, queued] using hsame
  accounted := by
    refine List.Perm.trans ?_ hloose.accounted
    simp only [send, queued, flying, map_append, map_cons, map_nil]
    rw [perm_iff_count]
    intro key
    simp only [count_append, count_cons, count_nil]
    omega
  plain := fun hparent other hother =>
    hloose.plain hparent other (mem_cons_of_mem call hother)
  shut := by
    intro hshut
    have hempty := (hloose.shut hshut).1
    cases hempty

/-! Draining changes only what a send changes. -/

@[simp]
theorem drainFrom_limit : (side.drainFrom queue).limit = side.limit := by
  induction queue generalizing side with
  | nil => rfl
  | cons call rest ih =>
    rw [drainFrom]
    split
    · rfl
    rw [ih]
    rfl

@[simp]
theorem drainFrom_entries : (side.drainFrom queue).entries = side.entries := by
  induction queue generalizing side with
  | nil => rfl
  | cons call rest ih =>
    rw [drainFrom]
    split
    · rfl
    rw [ih]
    rfl

@[simp]
theorem drainFrom_isOpen : (side.drainFrom queue).isOpen = side.isOpen := by
  induction queue generalizing side with
  | nil => rfl
  | cons call rest ih =>
    rw [drainFrom]
    split
    · rfl
    rw [ih]
    rfl

theorem le_drainFrom : side.inFlight ≤ (side.drainFrom queue).inFlight ∧
    side.nextCall ≤ (side.drainFrom queue).nextCall := by
  induction queue generalizing side with
  | nil => exact ⟨le_rfl, le_rfl⟩
  | cons call rest ih =>
    rw [drainFrom]
    split
    · exact ⟨le_rfl, le_rfl⟩
    have hrest := @ih ({ side with inFlight := side.inFlight + 1 }.send call)
    simp only [send] at hrest ⊢
    omega

/-- What waited before does not matter to the loop. -/
theorem drainFrom_waiting {waiting : List OutgoingCall} :
    { side with waiting := waiting }.drainFrom queue = side.drainFrom queue := by
  induction queue generalizing side with
  | nil => rfl
  | cons call rest ih =>
    rw [drainFrom, drainFrom]
    split
    · rfl
    · exact @ih ({ side with inFlight := side.inFlight + 1 }.send call)

theorem Loose.drainFrom (hloose : Loose config taken { side with waiting := queue }) :
    Loose config taken (side.drainFrom queue) := by
  induction queue generalizing side with
  | nil => exact hloose
  | cons call rest ih =>
    rw [ConsumerSide.drainFrom]
    split
    · exact hloose
    next hroom =>
      exact ih (hloose.sendNext (Nat.lt_of_not_le hroom))

theorem full_drainFrom : Full (side.drainFrom queue) := by
  induction queue generalizing side with
  | nil =>
    intro _ hwaiting
    exact absurd rfl hwaiting
  | cons call rest ih =>
    rw [drainFrom]
    split
    next hfull =>
      exact fun _ _ => hfull
    · exact ih

theorem Placed.drainFrom (hqueue : ∀ call ∈ queue, call.hold ∈ keys side.entries)
    (hcalls : ∀ entry ∈ side.calls, entry.2.hold ∈ keys side.entries) :
    Placed (side.drainFrom queue) := by
  induction queue generalizing side with
  | nil => exact ⟨by simp [ConsumerSide.drainFrom], hcalls⟩
  | cons call rest ih =>
    rw [ConsumerSide.drainFrom]
    split
    · exact ⟨hqueue, hcalls⟩
    apply ih
    · exact fun other hother => hqueue other (mem_cons_of_mem call hother)
    intro entry hentry
    simp only [send, mem_append, mem_singleton] at hentry
    rcases hentry with hentry | rfl
    · exact hcalls entry hentry
    · exact hqueue call mem_cons_self

theorem drain_of_full (hopen : side.isOpen = true) (hfull : Full side) : side.drain = side := by
  rw [drain]
  cases hwaiting : side.waiting with
  | nil =>
    simp only [drainFrom]
    rw [← hwaiting]
  | cons call rest =>
    have hle := hfull hopen (by rw [hwaiting]; exact cons_ne_nil _ _)
    simp only [drainFrom, ge_iff_le, hle, if_true]
    rw [← hwaiting]

/-! ### Taking calls out of the table -/

/-- Calls out of the table, their slots free, before any waiting one is sent. -/
def without (side : ConsumerSide) (ids : List Nat) : ConsumerSide :=
  { side with
    calls := side.calls.filter fun entry => decide (entry.1 ∉ ids)
    inFlight := side.inFlight - ids.length }

variable {ids : List Nat}

theorem without_send {call : OutgoingCall} (hnew : side.nextCall ∉ ids)
    (hcount : ids.length ≤ side.inFlight) :
    ({ side with inFlight := side.inFlight + 1 }.send call).without ids =
      { side.without ids with inFlight := (side.without ids).inFlight + 1 }.send call := by
  have hslots : side.inFlight + 1 - ids.length = side.inFlight - ids.length + 1 := by omega
  simp [without, send, hnew, hslots]

/-- Draining before calls are taken out sends nothing that draining afterwards would not. -/
theorem drain_without_drainFrom (hold : ∀ id ∈ ids, id < side.nextCall)
    (hcount : ids.length ≤ side.inFlight) :
    ((side.drainFrom queue).without ids).drain = (side.without ids).drainFrom queue := by
  induction queue generalizing side with
  | nil => simp [drainFrom, without, drain]
  | cons call rest ih =>
    have hnew : side.nextCall ∉ ids := fun hmem => lt_irrefl _ (hold _ hmem)
    rw [drainFrom]
    split
    · exact @drainFrom_waiting (side.without ids) (call :: rest) (call :: rest)
    rename_i hroom
    rw [ih]
    · rw [without_send hnew hcount]
      conv_rhs => rw [drainFrom]
      rw [if_neg]
      simp only [without]
      omega
    · intro id hid
      exact Nat.lt_succ_of_lt (hold id hid)
    simp only [send]
    omega

theorem without_without {more : List Nat} :
    (side.without ids).without more = side.without (ids ++ more) := by
  simp only [without, List.filter_filter, length_append, Nat.sub_sub]
  congr 1
  apply filter_congr
  intro entry _
  simp only [mem_append, not_or, Bool.decide_and]
  rw [Bool.and_comm]

variable {hold : Nat} {entries : List (Nat × OutgoingCall)} {id : Nat}

theorem dropCall_eq : side.dropCall id = (side.without [id]).drain := by
  simp [dropCall, freed, without, drain, erase]

/-- The loop that fails calls one by one, in one go. -/
theorem dropCalls_eq {ids : List Nat} (hopen : side.isOpen = true) (hfull : Full side)
    (hold : ∀ id ∈ ids, id < side.nextCall) (hcount : ids.length ≤ side.inFlight) :
    side.dropCalls ids = (side.without ids).drain := by
  induction ids generalizing side with
  | nil =>
    rw [dropCalls, foldl_nil]
    have hsame : side.without [] = side := by simp [without]
    rw [hsame, drain_of_full hopen hfull]
  | cons id rest ih =>
    rw [length_cons] at hcount
    have hdrained : (side.without [id]).inFlight ≤ (side.without [id]).drain.inFlight ∧
        (side.without [id]).nextCall ≤ (side.without [id]).drain.nextCall := le_drainFrom
    simp only [without, length_singleton] at hdrained
    have hfirst : side.dropCalls (id :: rest) = ((side.without [id]).drain).dropCalls rest := by
      rw [dropCalls, foldl_cons, dropCall_eq]
      rfl
    rw [hfirst, ih]
    · have hcommute : (((side.without [id]).drain).without rest).drain =
          ((side.without [id]).without rest).drainFrom (side.without [id]).waiting := by
        apply drain_without_drainFrom
        · intro other hother
          exact hold other (mem_cons_of_mem id hother)
        simp only [without, length_singleton]
        omega
      rw [hcommute, without_without]
      rfl
    · rw [drain, drainFrom_isOpen]
      exact hopen
    · exact full_drainFrom
    · intro other hother
      exact lt_of_lt_of_le (hold other (mem_cons_of_mem id hother)) hdrained.2
    · exact le_trans (by omega) hdrained.1

theorem filter_not_mem_ids {out : Nat × OutgoingCall → Bool}
    (hdistinct : (entries.map Prod.fst).Nodup) :
    entries.filter (fun entry => decide (entry.1 ∉ (entries.filter out).map Prod.fst)) =
      entries.filter fun entry => !out entry := by
  apply filter_congr
  intro entry hentry
  cases hout : out entry with
  | true =>
    have hmem : entry.1 ∈ (entries.filter out).map Prod.fst :=
      mem_map_of_mem (mem_filter.mpr ⟨hentry, hout⟩)
    simp [hmem]
  | false =>
    have hmem : entry.1 ∉ (entries.filter out).map Prod.fst := by
      intro hmem
      obtain ⟨other, hother, hsame⟩ := mem_map.mp hmem
      have heq : other = entry :=
        inj_on_of_nodup_map hdistinct (mem_filter.mp hother).1 hentry hsame
      have hother := (mem_filter.mp hother).2
      rw [heq, hout] at hother
      cases hother
    simpa using hmem

/-- The calls that `out` picks, taken out of the table. -/
def removing (side : ConsumerSide) (out : Nat × OutgoingCall → Bool) : ConsumerSide :=
  { side with
    calls := side.calls.filter fun entry => !out entry
    inFlight := side.inFlight - (side.calls.filter out).length }

theorem without_filter {out : Nat × OutgoingCall → Bool}
    (hdistinct : (side.calls.map Prod.fst).Nodup) :
    side.without ((side.calls.filter out).map Prod.fst) = side.removing out := by
  simp only [without, removing, length_map]
  rw [filter_not_mem_ids hdistinct]

theorem count_filter_split {α : Type} [DecidableEq α] {β : Type} (items : List β) (out : β → Bool)
    (key : β → α) (value : α) :
    ((items.filter out).map key).count value + ((items.filter fun item => !out item).map key).count value =
      (items.map key).count value := by
  induction items with
  | nil => rfl
  | cons item rest ih =>
    cases hout : out item <;> simp [hout, count_cons] <;> omega

theorem length_filter_split {β : Type} (items : List β) (out : β → Bool) :
    (items.filter out).length + (items.filter fun item => !out item).length = items.length := by
  induction items with
  | nil => rfl
  | cons item rest ih =>
    cases hout : out item <;> simp [hout] <;> omega

theorem Loose.removing {out : Nat × OutgoingCall → Bool} (hloose : Loose config taken side) :
    Loose config (taken ++ (side.calls.filter out).map fun entry => entry.2.key)
      (side.removing out) where
  distinct := hloose.distinct.sublist (filter_sublist.map Prod.fst)
  numbered := fun entry hentry => hloose.numbered entry (mem_of_mem_filter hentry)
  counted := by
    intro hopen
    have hsplit := length_filter_split side.calls out
    have hcount := hloose.counted hopen
    simp only [ConsumerSide.removing]
    omega
  within := fun hopen => le_trans (Nat.sub_le _ _) (hloose.within hopen)
  ordered := hloose.ordered
  known := hloose.known
  accounted := by
    refine List.Perm.trans ?_ hloose.accounted
    rw [perm_iff_count]
    intro key
    have hsplit := count_filter_split side.calls out (fun entry => entry.2.key) key
    simp only [ConsumerSide.removing, flying, queued, count_append]
    omega
  plain := hloose.plain
  shut := by
    intro hshut
    obtain ⟨hwaiting, hcalls⟩ := hloose.shut hshut
    exact ⟨hwaiting, by simp [ConsumerSide.removing, hcalls]⟩

/-- Waiting calls that `out` picks, taken out of the queue. -/
theorem Loose.unqueue {out : OutgoingCall → Bool} (hloose : Loose config taken side) :
    Loose config (taken ++ (side.waiting.filter out).map OutgoingCall.key)
      { side with waiting := side.waiting.filter fun call => !out call } where
  distinct := hloose.distinct
  numbered := hloose.numbered
  counted := hloose.counted
  within := hloose.within
  ordered := by
    apply List.Pairwise.sublist _ hloose.ordered
    exact List.Sublist.append_left (filter_sublist.map _) _
  known := by
    intro key hkey
    apply hloose.known key
    rcases mem_append.mp hkey with hkey | hkey
    · exact mem_append_left _ hkey
    · exact mem_append_right _ ((filter_sublist.map _).subset hkey)
  accounted := by
    refine List.Perm.trans ?_ hloose.accounted
    rw [perm_iff_count]
    intro key
    have hsplit := count_filter_split side.waiting out OutgoingCall.key key
    simp only [flying, queued, count_append]
    omega
  plain := fun hparent call hcall => hloose.plain hparent call (mem_of_mem_filter hcall)
  shut := by
    intro hshut
    obtain ⟨hwaiting, hcalls⟩ := hloose.shut hshut
    exact ⟨by simp [hwaiting], hcalls⟩

variable {calls : List OutgoingCall}

theorem Loose.settle {outcome : Outcome}
    (hloose : Loose config taken side) (htaken : taken.Perm (calls.map OutgoingCall.key)) :
    Loose config [] (side.settle calls outcome) := by
  refine ⟨hloose.distinct, hloose.numbered, hloose.counted, hloose.within, hloose.ordered,
    hloose.known, ?_, hloose.plain, hloose.shut⟩
  refine List.Perm.trans ?_ hloose.accounted
  rw [perm_iff_count]
  intro key
  have hcount := htaken.count_eq key
  have hkeys : (calls.map fun call => (call.key, outcome)).map Prod.fst =
      calls.map OutgoingCall.key := by simp
  simp only [ConsumerSide.settle, flying, queued, map_append, hkeys, count_append, count_nil]
  omega

/-- Posting a message, forgetting a hold and the like do not touch the calls. -/
theorem Loose.congr {other : ConsumerSide} (hloose : Loose config taken side)
    (hcalls : other.calls = side.calls) (hwaiting : other.waiting = side.waiting)
    (hlimit : other.limit = side.limit) (hflight : other.inFlight = side.inFlight)
    (hcall : other.nextCall = side.nextCall) (hkey : other.nextKey = side.nextKey)
    (hopen : other.isOpen = side.isOpen) (hsent : other.sent = side.sent)
    (hsettled : other.settled = side.settled) : Loose config taken other := by
  obtain ⟨distinct, numbered, counted, within, ordered, known, accounted, plain, shut⟩ := hloose
  refine ⟨?_, ?_, ?_, ?_, ?_, ?_, ?_, ?_, ?_⟩ <;>
    simp only [queued, flying, hcalls, hwaiting, hlimit, hflight, hcall, hkey, hopen, hsent,
      hsettled] <;> assumption

/-! ### The operations -/

/-- The consumer side between operations. -/
structure Sound (config : Config) (side : ConsumerSide) : Prop where
  loose : Loose config [] side
  full : Full side
  placed : Placed side
  announced : side.limit ≤ config.calls
  distinct : (PropertyList.keys side.entries).Nodup
  fresh : ∀ hold ∈ PropertyList.keys side.entries, hold < side.nextHold

theorem sound_start : Sound config start := by
  refine ⟨⟨?_, ?_, ?_, ?_, ?_, ?_, ?_, ?_, ?_⟩, ?_, ⟨?_, ?_⟩, ?_, ?_, ?_⟩ <;>
    simp [start, Full, queued, flying, PropertyList.keys]

theorem Sound.attach (hsound : Sound config side) : Sound config side.attach := by
  have hkeys : PropertyList.keys side.attach.entries =
      PropertyList.keys side.entries ++ [side.nextHold] := by
    simp [ConsumerSide.attach, post, PropertyList.keys]
  refine ⟨hsound.loose.congr rfl rfl rfl rfl rfl rfl rfl rfl rfl, hsound.full, ⟨?_, ?_⟩,
    hsound.announced, ?_, ?_⟩
  · intro call hcall
    rw [hkeys]
    exact mem_append_left _ (hsound.placed.1 call hcall)
  · intro entry hentry
    rw [hkeys]
    exact mem_append_left _ (hsound.placed.2 entry hentry)
  · rw [hkeys]
    apply nodup_append.mpr
    refine ⟨hsound.distinct, nodup_singleton _, ?_⟩
    intro hold hmem other hother
    rw [mem_singleton] at hother
    have hlow := hsound.fresh hold hmem
    omega
  intro hold hmem
  rw [hkeys] at hmem
  simp only [ConsumerSide.attach, post]
  rcases mem_append.mp hmem with hmem | hmem
  · exact Nat.lt_succ_of_lt (hsound.fresh hold hmem)
  rw [mem_singleton] at hmem
  omega

theorem filter_id {call : OutgoingCall}
    (hdistinct : (entries.map Prod.fst).Nodup) (hget : get id entries = some call) :
    entries.filter (fun entry => decide (entry.1 = id)) = [(id, call)] := by
  induction entries with
  | nil => cases hget
  | cons entry rest ih =>
    obtain ⟨first, head⟩ := entry
    rw [map_cons, nodup_cons] at hdistinct
    by_cases hsame : first = id
    · subst hsame
      rw [get_cons_self] at hget
      cases hget
      have hnone : rest.filter (fun entry => decide (entry.1 = first)) = [] := by
        apply filter_eq_nil_iff.mpr
        intro other hother
        simp only [decide_eq_true_eq]
        intro heq
        exact hdistinct.1 (mem_map.mpr ⟨other, hother, heq⟩)
      simp [hnone]
    · rw [get_cons_of_ne hsame] at hget
      simp [hsame, ih hdistinct.2 hget]

/-- The call of an id. -/
def isCall (id : Nat) (entry : Nat × OutgoingCall) : Bool :=
  decide (entry.1 = id)

/-- The calls of a hold. -/
def isOn (hold : Nat) (entry : Nat × OutgoingCall) : Bool :=
  decide (entry.2.hold = hold)

theorem dropCall_removing {id : Nat} {call : OutgoingCall}
    (hdistinct : (side.calls.map Prod.fst).Nodup) (hget : get id side.calls = some call) :
    side.dropCall id = (side.removing (isCall id)).drain := by
  have hone : side.calls.filter (isCall id) = [(id, call)] := filter_id hdistinct hget
  rw [dropCall_eq, ← without_filter hdistinct, hone]
  rfl

theorem Loose.removingCall {call : OutgoingCall} (hloose : Loose config taken side)
    (hget : get id side.calls = some call) :
    Loose config (taken ++ [call.key]) (side.removing (isCall id)) := by
  have hone : side.calls.filter (isCall id) = [(id, call)] := filter_id hloose.distinct hget
  have hremoved := @Loose.removing config side taken (isCall id) hloose
  rw [hone] at hremoved
  exact hremoved

theorem Placed.removing {out : Nat × OutgoingCall → Bool} (hplaced : Placed side) :
    Placed (side.removing out) :=
  ⟨hplaced.1, fun entry hentry => hplaced.2 entry (mem_of_mem_filter hentry)⟩

@[simp]
theorem drainFrom_nextHold : (side.drainFrom queue).nextHold = side.nextHold := by
  induction queue generalizing side with
  | nil => rfl
  | cons call rest ih =>
    rw [drainFrom]
    split
    · rfl
    rw [ih]
    rfl

/-- A side whose calls were taken out, drained, and their promises settled. -/
theorem Sound.settled {calls : List OutgoingCall} {outcome : Outcome}
    (hloose : Loose config taken side) (hplaced : Placed side)
    (hannounced : side.limit ≤ config.calls) (hdistinct : (keys side.entries).Nodup)
    (hfresh : ∀ hold ∈ keys side.entries, hold < side.nextHold)
    (htaken : taken.Perm (calls.map OutgoingCall.key)) :
    Sound config (side.drain.settle calls outcome) where
  loose := Loose.settle (Loose.drainFrom hloose) htaken
  full := @full_drainFrom side side.waiting
  placed := Placed.drainFrom hplaced.1 hplaced.2
  announced := by
    simp only [settle, drain, drainFrom_limit]
    exact hannounced
  distinct := by
    simp only [settle, drain, drainFrom_entries]
    exact hdistinct
  fresh := by
    simp only [settle, drain, drainFrom_entries, drainFrom_nextHold]
    exact hfresh

variable {outcome : Outcome}

theorem Sound.reply (hsound : Sound config side) : Sound config (side.reply id outcome) := by
  rw [ConsumerSide.reply]
  cases hget : get id side.calls with
  | none => exact hsound
  | some call =>
    rw [dropCall_removing hsound.loose.distinct hget]
    exact Sound.settled (hsound.loose.removingCall hget) hsound.placed.removing hsound.announced
      hsound.distinct hsound.fresh (by simp)

/-- A call the caller still waits for is in one of the tables. -/
theorem cancel_cases (side : ConsumerSide) (key : Nat) :
    (∃ call ∈ side.waiting, call.key = key ∧ side.cancel key =
        { side with waiting := side.waiting.filter fun other => other.key ≠ key }.settle [call]
          .cancelled) ∨
      (∃ id call, (id, call) ∈ side.calls ∧ call.key = key ∧ side.cancel key =
        (({ side with calls := erase id side.calls }.post (.abort id)).freed).settle
          [call] .cancelled) ∨
      side.cancel key = side := by
  rw [cancel]
  cases hwaiting : side.waiting.find? fun call => call.key = key with
  | some call =>
    exact .inl ⟨call, mem_of_find?_eq_some hwaiting, by simpa using find?_some hwaiting, rfl⟩
  | none =>
    cases hcalls : side.calls.find? fun entry => entry.2.key = key with
    | none => exact .inr (.inr rfl)
    | some entry =>
      obtain ⟨id, call⟩ := entry
      exact .inr (.inl ⟨id, call, mem_of_find?_eq_some hcalls,
        by simpa using find?_some hcalls, rfl⟩)

theorem filter_key {call : OutgoingCall} (hcall : call ∈ calls)
    (hdistinct : (calls.map OutgoingCall.key).Nodup) :
    calls.filter (fun other => decide (other.key = call.key)) = [call] := by
  induction calls with
  | nil => cases hcall
  | cons head rest ih =>
    rw [map_cons, nodup_cons] at hdistinct
    rcases mem_cons.mp hcall with rfl | hcall
    · have hnone : rest.filter (fun other => decide (other.key = call.key)) = [] := by
        apply filter_eq_nil_iff.mpr
        intro other hother
        simp only [decide_eq_true_eq]
        intro heq
        exact hdistinct.1 (mem_map.mpr ⟨other, hother, heq⟩)
      simp [hnone]
    have hne : head.key ≠ call.key := by
      intro heq
      exact hdistinct.1 (heq ▸ mem_map_of_mem hcall)
    simp [hne, ih hcall hdistinct.2]

theorem Loose.queued_nodup (hloose : Loose config taken side) : side.queued.Nodup := by
  have hqueued := (pairwise_append.mp hloose.ordered).2.1
  exact hqueued.imp ne_of_lt

theorem freed_erase_post {call : OutgoingCall}
    (hdistinct : (side.calls.map Prod.fst).Nodup)
    (hget : get id side.calls = some call) (message : ToProvider) :
    ({ side with calls := erase id side.calls }.post message).freed =
      ((side.post message).removing (isCall id)).drain :=
  @dropCall_removing (side.post message) id call hdistinct hget

theorem Sound.cancel {key : Nat} (hsound : Sound config side) : Sound config (side.cancel key) := by
  rcases cancel_cases side key with ⟨call, hcall, rfl, hcancel⟩ | ⟨id, call, hcall, -, hcancel⟩ |
    hcancel
  · rw [hcancel]
    have hone := filter_key hcall hsound.loose.queued_nodup
    have hunqueued := @Loose.unqueue config side [] (fun other => decide (other.key = call.key))
      hsound.loose
    rw [hone] at hunqueued
    have hfilter : (fun other : OutgoingCall => decide (other.key ≠ call.key)) =
        fun other => !decide (other.key = call.key) := by
      funext other
      simp
    rw [hfilter]
    refine ⟨hunqueued.settle (by simp), ?_, ⟨?_, hsound.placed.2⟩, hsound.announced,
      hsound.distinct, hsound.fresh⟩
    · intro hopen hwaiting
      apply hsound.full hopen
      intro hnil
      exact hwaiting (by simp [settle, hnil])
    intro other hother
    exact hsound.placed.1 other (mem_of_mem_filter hother)
  · rw [hcancel]
    have hget := get_eq_some_of_mem hsound.loose.distinct hcall
    rw [freed_erase_post hsound.loose.distinct hget]
    have hposted : Loose config [] (side.post (.abort id)) :=
      hsound.loose.congr rfl rfl rfl rfl rfl rfl rfl rfl rfl
    refine Sound.settled (hposted.removingCall hget) ?_ hsound.announced hsound.distinct
      hsound.fresh (by simp)
    exact @Placed.removing (side.post (.abort id)) _ hsound.placed
  · rw [hcancel]
    exact hsound

/-- The side without the waiting calls of a hold. -/
def unqueued (side : ConsumerSide) (hold : Nat) : ConsumerSide :=
  { side with waiting := side.waiting.filter fun call => !decide (call.hold = hold) }

/-- The calls of a hold, waiting and in flight. -/
def callsOn (side : ConsumerSide) (hold : Nat) : List OutgoingCall :=
  (side.waiting.filter fun call => decide (call.hold = hold)) ++
    (side.calls.filter (isOn hold)).map Prod.snd

theorem Full.unqueued {hold : Nat} (hfull : Full side) : Full (side.unqueued hold) := by
  intro hopen hwaiting
  apply hfull hopen
  intro hnil
  exact hwaiting (by simp [ConsumerSide.unqueued, hnil])

/-- `#failCalls` in one go. -/
theorem failCalls_eq (hloose : Loose config [] side) (hfull : Full side) :
    side.failCalls hold outcome =
      (((side.unqueued hold).removing (isOn hold)).drain).settle (side.callsOn hold) outcome := by
  have hunqueued : { side with waiting := side.waiting.filter fun call => decide (call.hold ≠ hold) } =
      side.unqueued hold := by
    rw [unqueued]
    congr 1
    apply filter_congr
    intro call _
    simp
  have hdropped : (side.unqueued hold).dropCalls ((side.calls.filter (isOn hold)).map Prod.fst) =
      ((side.unqueued hold).removing (isOn hold)).drain := by
    by_cases hopen : side.isOpen = true
    · rw [@dropCalls_eq (side.unqueued hold) _ hopen hfull.unqueued]
      · rw [← @without_filter (side.unqueued hold) (isOn hold) hloose.distinct]
        rfl
      · intro id hid
        obtain ⟨entry, hentry, rfl⟩ := mem_map.mp hid
        exact hloose.numbered entry (mem_of_mem_filter hentry)
      have hcount := hloose.counted hopen
      have hle := length_filter_le (isOn hold) side.calls
      rw [length_map]
      simp only [unqueued]
      omega
    · obtain ⟨hwaiting, hcalls⟩ := hloose.shut (by simpa using hopen)
      simp [hcalls, hwaiting, dropCalls, removing, unqueued, drain, drainFrom]
  rw [failCalls, callsOn, ← hdropped, ← hunqueued]
  rfl

section

variable (hsound : Sound config side)

include hsound

theorem Sound.forget : Sound config (side.forget hold outcome) := by
  have herased : Loose config [] { side with entries := erase hold side.entries } :=
    hsound.loose.congr rfl rfl rfl rfl rfl rfl rfl rfl rfl
  rw [ConsumerSide.forget, failCalls_eq herased hsound.full]
  have hkeys : ∀ other, other ∈ keys side.entries → other ≠ hold →
      other ∈ keys (erase hold side.entries) := by
    intro other hmem hne
    rw [← get_isSome_iff, get_erase, if_neg hne, get_isSome_iff]
    exact hmem
  have hunqueued := @Loose.unqueue config _ [] (fun call => decide (call.hold = hold)) herased
  have hremoved := @Loose.removing config _ _ (isOn hold) hunqueued
  refine Sound.settled hremoved ⟨?_, ?_⟩ hsound.announced (keys_erase_nodup hold
    hsound.distinct) ?_ (by simp [callsOn, Function.comp_def])
  · intro call hcall
    obtain ⟨hcall, hne⟩ := mem_filter.mp hcall
    exact hkeys call.hold (hsound.placed.1 call hcall) (by simpa using hne)
  · intro entry hentry
    obtain ⟨hentry, hne⟩ := mem_filter.mp hentry
    exact hkeys entry.2.hold (hsound.placed.2 entry hentry) (by simpa [isOn] using hne)
  intro other hother
  apply hsound.fresh other
  exact (List.Sublist.map Prod.fst filter_sublist).subset hother

theorem Sound.post {message : ToProvider} : Sound config (side.post message) :=
  ⟨hsound.loose.congr rfl rfl rfl rfl rfl rfl rfl rfl rfl, hsound.full, hsound.placed,
    hsound.announced, hsound.distinct, hsound.fresh⟩

theorem Sound.release : Sound config (side.release hold) :=
  hsound.post.forget

theorem Sound.unbound : Sound config (side.unbound hold outcome) := by
  rw [ConsumerSide.unbound]
  split
  · exact hsound
  rename_i hknown
  have hpresent : (get hold side.entries).isSome = true := by
    simpa [isNone_iff_eq_none, isSome_iff_ne_none] using hknown
  have hkeys : keys (JsMap.set hold none side.entries) =
      keys side.entries := by
    rw [JsMap.set, put, if_pos hpresent, keys_replace]
  have hfilter : (fun call : OutgoingCall => decide (call.hold ≠ hold)) =
      fun call => !decide (call.hold = hold) := by
    funext call
    simp
  have hset : Loose config [] { side with entries := JsMap.set hold none side.entries } :=
    hsound.loose.congr rfl rfl rfl rfl rfl rfl rfl rfl rfl
  have hunqueued := @Loose.unqueue config _ [] (fun call => decide (call.hold = hold)) hset
  rw [hfilter]
  refine ⟨hunqueued.settle (by simp), ?_, ⟨?_, ?_⟩, hsound.announced, ?_, ?_⟩
  · exact @Full.unqueued side hold hsound.full
  · intro call hcall
    simp only [settle, hkeys]
    exact hsound.placed.1 call (mem_of_mem_filter hcall)
  · intro entry hentry
    simp only [settle, hkeys]
    exact hsound.placed.2 entry hentry
  · simp only [settle, hkeys]
    exact hsound.distinct
  · simp only [settle, hkeys]
    exact hsound.fresh

theorem Sound.message {message : ToConsumer} : Sound config (side.message message) := by
  cases message with
  | bound hold methods =>
    simp only [ConsumerSide.message]
    split
    · exact hsound
    rename_i hknown
    have hpresent : (get hold side.entries).isSome = true := by
      simpa [isNone_iff_eq_none, isSome_iff_ne_none] using hknown
    have hkeys : keys (JsMap.set hold (some methods) side.entries) =
        keys side.entries := by
      rw [JsMap.set, put, if_pos hpresent, keys_replace]
    refine ⟨hsound.loose.congr rfl rfl rfl rfl rfl rfl rfl rfl rfl, hsound.full, ?_,
      hsound.announced, ?_, ?_⟩
    · simp only [Placed, hkeys]
      exact hsound.placed
    · rw [hkeys]
      exact hsound.distinct
    rw [hkeys]
    exact hsound.fresh
  | result id => exact hsound.reply
  | error id => exact hsound.reply
  | gone hold =>
    simp only [ConsumerSide.message]
    split
    · exact hsound
    · exact hsound.forget
  | _ => exact hsound.unbound

theorem Sound.opened (hunopened : side.limit = 0) : Sound config (side.opened config.calls) := by
  have hloose : Loose config [] { side with limit := config.calls } := by
    obtain ⟨distinct, numbered, counted, within, ordered, known, accounted, plain, shut⟩ :=
      hsound.loose
    refine ⟨distinct, numbered, counted, ?_, ordered, known, accounted, plain, shut⟩
    intro hopen
    have hnone := within hopen
    rw [hunopened] at hnone
    exact le_trans hnone (Nat.zero_le _)
  have hdrained := @Sound.settled config { side with limit := config.calls } [] [] .closed hloose
    hsound.placed le_rfl hsound.distinct hsound.fresh (by simp)
  simpa [settle, ConsumerSide.opened] using hdrained

/-- The bookkeeping of a submitted call, sent or queued. -/
theorem Sound.call {hold method : Nat} {args : Option Args} (hopen : side.isOpen = true)
    (hhold : hold ∈ keys side.entries) : Sound config (side.call config hold method args) := by
  rw [ConsumerSide.call]
  generalize hargs : (if config.parent then args.map fun part => { part with deflated := false }
    else args) = sent
  have hplain : config.parent = true → (sent.any fun part => part.deflated) = false := by
    intro hparent
    rw [← hargs, if_pos hparent]
    cases args <;> simp
  -- Queued behind the earlier calls.
  have hqueued : Loose config [] { side with
      nextKey := side.nextKey + 1
      waiting := side.waiting ++ [⟨side.nextKey, hold, method, sent⟩] } := by
    obtain ⟨distinct, numbered, counted, within, ordered, known, accounted, plain, shut⟩ :=
      hsound.loose
    refine ⟨distinct, numbered, counted, within, ?_, ?_, ?_, ?_, ?_⟩
    · simp only [queued, map_append, map_cons, map_nil]
      rw [← append_assoc]
      apply pairwise_append.mpr
      refine ⟨ordered, pairwise_singleton _ _, ?_⟩
      intro key hkey other hother
      rw [mem_singleton] at hother
      rw [hother]
      exact known key hkey
    · intro key hkey
      simp only [queued, map_append, map_cons, map_nil] at hkey
      rw [← append_assoc] at hkey
      rcases mem_append.mp hkey with hkey | hkey
      · exact Nat.lt_succ_of_lt (known key hkey)
      rw [mem_singleton] at hkey
      rw [hkey]
      exact Nat.lt_succ_self _
    · rw [range_succ]
      refine List.Perm.trans ?_ (accounted.append_right [side.nextKey])
      rw [perm_iff_count]
      intro key
      simp only [queued, flying, map_append, map_cons, map_nil, count_append]
      omega
    · intro hparent call hcall
      rcases mem_append.mp hcall with hcall | hcall
      · exact plain hparent call hcall
      rw [mem_singleton] at hcall
      rw [hcall]
      exact hplain hparent
    · intro hshut
      rw [hopen] at hshut
      cases hshut
  simp only [submit]
  split
  next hroom =>
    have hempty : side.waiting = [] := isEmpty_iff.mp hroom.1
    rw [hempty] at hqueued
    have hsent := @Loose.sendNext config { side with nextKey := side.nextKey + 1, waiting := [] } []
      _ [] hqueued hroom.2
    refine ⟨hsent.congr rfl hempty rfl rfl rfl rfl rfl rfl rfl, ?_, ⟨?_, ?_⟩, hsound.announced,
      hsound.distinct, hsound.fresh⟩
    · intro _ hwaiting
      exact absurd hempty hwaiting
    · exact hsound.placed.1
    intro entry hentry
    rcases mem_append.mp hentry with hentry | hentry
    · exact hsound.placed.2 entry hentry
    rw [mem_singleton] at hentry
    rw [hentry]
    exact hhold
  next hroom =>
    refine ⟨hqueued, ?_, ⟨?_, hsound.placed.2⟩, hsound.announced, hsound.distinct, hsound.fresh⟩
    · intro hopen _
      by_cases hempty : side.waiting = []
      · by_contra hfree
        exact hroom ⟨by rw [hempty]; rfl, Nat.lt_of_not_le hfree⟩
      · exact hsound.full hopen hempty
    intro call hcall
    rcases mem_append.mp hcall with hcall | hcall
    · exact hsound.placed.1 call hcall
    rw [mem_singleton] at hcall
    rw [hcall]
    exact hhold

theorem Sound.closed : Sound config side.closed := by
  obtain ⟨distinct, numbered, counted, within, ordered, known, accounted, plain, shut⟩ :=
    hsound.loose
  refine ⟨⟨by simp [ConsumerSide.closed, settle], by simp [ConsumerSide.closed, settle], ?_, ?_,
    ?_, ?_, ?_, by simp [ConsumerSide.closed, settle], fun _ => ⟨rfl, rfl⟩⟩, ?_,
    ⟨by simp [ConsumerSide.closed, settle], by simp [ConsumerSide.closed, settle]⟩,
    hsound.announced, by simp [ConsumerSide.closed, settle, PropertyList.keys],
    by simp [ConsumerSide.closed, settle, PropertyList.keys]⟩
  · rintro ⟨⟩
  · rintro ⟨⟩
  · have hsent := (pairwise_append.mp ordered).1
    simpa [ConsumerSide.closed, settle, queued] using hsent
  · intro key hkey
    have hsent : key ∈ side.sent := by simpa [ConsumerSide.closed, settle, queued] using hkey
    exact known key (mem_append_left _ hsent)
  · refine List.Perm.trans ?_ accounted
    rw [perm_iff_count]
    intro key
    have hkeys : ((side.calls.map Prod.snd ++ side.waiting).map
        fun call => (call.key, Outcome.closed)).map Prod.fst =
        side.flying ++ side.queued := by
      simp [flying, queued, Function.comp_def]
    simp only [ConsumerSide.closed, settle, map_append, count_append]
    have hcount := congrArg (count key) hkeys
    simp only [map_append, count_append] at hcount
    simp only [queued, flying, map_nil, count_nil] at hcount ⊢
    omega
  · rintro ⟨⟩

end

end ConsumerSide

end Hummin.Remote
