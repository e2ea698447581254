/-
The accounts of a relaying host: which `bound` and `state` messages came and were
acknowledged, and which relayed calls were answered or dropped.
-/
import Mathlib.Data.List.Perm.Basic
import Mathlib.Data.List.Perm.Lattice
import Hummin.RelayHolds

namespace Hummin.Relay

open List PropertyList

/-- The serial number of a relayed call's reply. -/
def DownMessage.serial : DownMessage → Option Nat
  | .reply _ _ serial => serial
  | _ => none

/-- What is counted. -/
structure Ledger where
  downOpen : Bool
  windows : List (Sender × Nat)
  acked : List (Sender × Nat)
  sent : List (Sender × Nat)
  inFlight : Nat
  relay : Option Nat
  openLinks : List Nat
  nextLink : Nat
  arrived : List (Nat × Nat × Nat)
  acks : List (Nat × Nat × Nat)
  lost : List (Nat × Nat × Nat)
  running : List Nat
  ended : List (Nat × Bool)
  nextSerial : Nat
  replies : List Nat

namespace Ledger

variable {ledger : Ledger}

def pending (ledger : Ledger) : List (Nat × Nat × Nat) :=
  match ledger.relay with
  | none => []
  | some origin => State.pendingOf origin ledger.sent

structure Sound (ledger : Ledger) : Prop where
  /-- Acks come in the order of the messages. -/
  queue : ledger.windows = ledger.acked ++ ledger.sent
  own : ledger.inFlight = (ledger.sent.filter fun entry => entry.1 = .here).length
  numbered : ∀ link message, (Sender.link link, message) ∈ ledger.sent → ledger.relay.isSome = true
  /-- What an open link sent is acknowledged, or waits, or closed with the side. -/
  balance : ∀ entry, entry.1 ∈ ledger.openLinks →
    ledger.arrived.count entry =
      ledger.acks.count entry + ledger.pending.count entry + ledger.lost.count entry
  fresh : ∀ entry, entry ∈ ledger.arrived ∨ entry ∈ ledger.acks ∨ entry ∈ ledger.pending ∨
    entry ∈ ledger.lost → entry.1 < ledger.nextLink
  kept : ledger.downOpen = true → ledger.lost = []
  /-- Every relayed call runs or ended, once. -/
  counted : (ledger.running ++ ledger.ended.map Prod.fst).Perm (List.range ledger.nextSerial)
  /-- The answered ones are those replied to, once. -/
  answered : ledger.replies = (ledger.ended.filter fun entry => entry.2).map Prod.fst

/-- The side ends: what waits is lost, what runs is dropped. -/
def close (ledger : Ledger) : Ledger :=
  { ledger with
    windows := [], acked := [], sent := [], inFlight := 0, relay := none
    lost := ledger.lost ++ ledger.pending
    running := []
    ended := ledger.ended ++ ledger.running.map (·, false) }

theorem Sound.close (hsound : ledger.Sound) (hsent : ledger.sent = [] ∨ ledger.downOpen = false) :
    ledger.close.Sound := by
  obtain ⟨queue, own, numbered, balance, fresh, kept, counted, answered⟩ := hsound
  have hnone : ledger.close.pending = [] := rfl
  refine ⟨rfl, rfl, by simp [Ledger.close], ?_, ?_, ?_, ?_, ?_⟩
  · intro entry hopen
    rw [hnone]
    simp only [Ledger.close, count_append, count_nil]
    have hbefore := balance entry hopen
    omega
  · intro entry hentry
    apply fresh entry
    rw [hnone] at hentry
    simp only [Ledger.close, mem_append, not_mem_nil, false_or] at hentry
    rcases hentry with h | h | h | h
    · exact .inl h
    · exact .inr (.inl h)
    · exact .inr (.inr (.inr h))
    · exact .inr (.inr (.inl h))
  · intro hopen
    rcases hsent with hsent | hclosed
    · have hpending : ledger.pending = [] := by
        rw [pending, hsent]
        cases ledger.relay <;> rfl
      simp only [Ledger.close, hpending, append_nil]
      exact kept hopen
    rw [show ledger.downOpen = true from hopen] at hclosed
    cases hclosed
  · apply List.Perm.trans _ counted
    simp only [Ledger.close, nil_append, map_append, map_map, Function.comp_def, map_id']
    exact perm_append_comm
  · simp [Ledger.close, answered]

/-- Running calls are dropped. -/
theorem Sound.drop {gone rest : List Nat} (hsound : ledger.Sound)
    (hperm : ledger.running.Perm (gone ++ rest)) :
    Sound { ledger with running := rest, ended := ledger.ended ++ gone.map (·, false) } := by
  refine { hsound with counted := ?_, answered := by simp [hsound.answered] }
  apply List.Perm.trans _ hsound.counted
  simp only [map_append, map_map, Function.comp_def, map_id']
  rw [perm_iff_count]
  intro serial
  have hcount := hperm.count_eq serial
  simp only [count_append] at hcount ⊢
  omega

/-- A running call is answered. -/
theorem Sound.answer {serial : Nat} {rest : List Nat} (hsound : ledger.Sound)
    (hperm : ledger.running.Perm (serial :: rest)) :
    Sound { ledger with
      running := rest, ended := ledger.ended ++ [(serial, true)], replies := ledger.replies ++ [serial] } := by
  refine { hsound with counted := ?_, answered := by simp [hsound.answered] }
  apply List.Perm.trans _ hsound.counted
  simp only [map_append, map_cons, map_nil]
  rw [perm_iff_count]
  intro other
  have hcount := hperm.count_eq other
  simp only [count_append, count_cons, count_nil] at hcount ⊢
  omega

/-- A relayed call starts. -/
theorem Sound.begin (hsound : ledger.Sound) :
    Sound { ledger with
      running := ledger.running ++ [ledger.nextSerial], nextSerial := ledger.nextSerial + 1 } := by
  refine { hsound with counted := ?_ }
  rw [range_succ, perm_iff_count]
  intro serial
  have hcount := hsound.counted.count_eq serial
  simp only [count_append] at hcount ⊢
  omega

/-- The origin gets its number. -/
theorem Sound.number {origin : Nat} (hsound : ledger.Sound)
    (hkeep : ∀ before, ledger.relay = some before → before = origin) :
    Sound { ledger with relay := some origin } := by
  have hpending : ({ ledger with relay := some origin } : Ledger).pending = ledger.pending := by
    cases hrelay : ledger.relay with
    | none =>
      have hnone : State.pendingOf origin ledger.sent = [] := by
        rw [State.pendingOf, filterMap_eq_nil_iff]
        rintro ⟨sender, message⟩ hentry
        cases sender with
        | here => rfl
        | link link =>
          have hsome := hsound.numbered link message hentry
          rw [hrelay] at hsome
          cases hsome
      simp [pending, hrelay, hnone]
    | some before =>
      obtain rfl := hkeep before hrelay
      simp [pending, hrelay]
  exact { hsound with
    numbered := fun _ _ _ => rfl
    balance := hpending ▸ hsound.balance
    fresh := hpending ▸ hsound.fresh }

/-- A message of this host goes out. -/
theorem Sound.send {message : Nat} (hsound : ledger.Sound) :
    Sound { ledger with
      inFlight := ledger.inFlight + 1
      sent := ledger.sent ++ [(Sender.here, message)]
      windows := ledger.windows ++ [(Sender.here, message)] } := by
  have hpending : ({ ledger with
      inFlight := ledger.inFlight + 1
      sent := ledger.sent ++ [(Sender.here, message)]
      windows := ledger.windows ++ [(Sender.here, message)] } : Ledger).pending = ledger.pending := by
    cases hrelay : ledger.relay with
    | none => simp [pending, hrelay]
    | some origin => simp [pending, hrelay, State.pendingOf]
  refine { hsound with
    queue := by simp [hsound.queue]
    own := by simp [hsound.own]
    numbered := fun link other hmem => ?_
    balance := hpending ▸ hsound.balance
    fresh := hpending ▸ hsound.fresh }
  rcases mem_append.mp hmem with hmem | hmem
  · exact hsound.numbered link other hmem
  · cases mem_singleton.mp hmem

/-- A message of a link goes on. -/
theorem Sound.pass {link origin message : Nat} (hsound : ledger.Sound)
    (hrelay : ledger.relay = some origin) (hlow : link < ledger.nextLink) :
    Sound { ledger with
      sent := ledger.sent ++ [(Sender.link link, message)]
      windows := ledger.windows ++ [(Sender.link link, message)]
      arrived := ledger.arrived ++ [(link, origin, message)] } := by
  have hpending : ({ ledger with
      sent := ledger.sent ++ [(Sender.link link, message)]
      windows := ledger.windows ++ [(Sender.link link, message)]
      arrived := ledger.arrived ++ [(link, origin, message)] } : Ledger).pending =
        ledger.pending ++ [(link, origin, message)] := by
    simp [pending, hrelay, State.pendingOf]
  have fresh := hsound.fresh
  refine { hsound with
    queue := by simp [hsound.queue]
    own := by simp [hsound.own]
    numbered := fun _ _ _ => by simp [hrelay]
    balance := ?_, fresh := ?_ }
  · intro entry hopen
    rw [hpending]
    have hbefore := hsound.balance entry hopen
    simp only [count_append]
    omega
  intro entry hentry
  rw [hpending] at hentry
  simp only [mem_append, mem_singleton] at hentry
  rcases hentry with (h | rfl) | h | (h | rfl) | h
  · exact fresh entry (.inl h)
  · exact hlow
  · exact fresh entry (.inr (.inl h))
  · exact fresh entry (.inr (.inr (.inl h)))
  · exact hlow
  · exact fresh entry (.inr (.inr (.inr h)))

/-- A message of an open link concerns no hold any more, and is acknowledged at once. -/
theorem Sound.answerAtOnce {entry : Nat × Nat × Nat} (hsound : ledger.Sound)
    (hlow : entry.1 < ledger.nextLink) :
    Sound { ledger with arrived := ledger.arrived ++ [entry], acks := ledger.acks ++ [entry] } := by
  have fresh := hsound.fresh
  refine { hsound with balance := ?_, fresh := ?_ }
  · intro other hopen
    have hbefore := hsound.balance other hopen
    change (ledger.arrived ++ [entry]).count other =
      (ledger.acks ++ [entry]).count other + ledger.pending.count other + ledger.lost.count other
    simp only [count_append]
    omega
  intro other hother
  simp only [mem_append, mem_singleton] at hother
  rcases hother with (h | rfl) | (h | rfl) | h | h
  · exact fresh other (.inl h)
  · exact hlow
  · exact fresh other (.inr (.inl h))
  · exact hlow
  · exact fresh other (.inr (.inr (.inl h)))
  · exact fresh other (.inr (.inr (.inr h)))

/-- Downstream acknowledged a message of this host. -/
theorem Sound.ackOwn {message : Nat} {rest : List (Sender × Nat)} (hsound : ledger.Sound)
    (hsent : ledger.sent = (Sender.here, message) :: rest) :
    Sound { ledger with
      sent := rest, acked := ledger.acked ++ [(Sender.here, message)]
      inFlight := ledger.inFlight - 1 } := by
  have hpending : ({ ledger with
      sent := rest, acked := ledger.acked ++ [(Sender.here, message)]
      inFlight := ledger.inFlight - 1 } : Ledger).pending = ledger.pending := by
    cases hrelay : ledger.relay with
    | none => simp [pending, hrelay]
    | some origin => simp [pending, hrelay, State.pendingOf, hsent]
  exact { hsound with
    queue := by simp [hsound.queue, hsent]
    own := by simp [hsound.own, hsent]
    numbered := fun link other hmem =>
      hsound.numbered link other (hsent ▸ mem_cons_of_mem _ hmem)
    balance := hpending ▸ hsound.balance
    fresh := hpending ▸ hsound.fresh }

/-- Downstream acknowledged a message of a link: the link is told, while it is open. -/
theorem Sound.ackLink {link origin message : Nat} {rest : List (Sender × Nat)}
    (hsound : ledger.Sound)
    (hrelay : ledger.relay = some origin) (hsent : ledger.sent = (Sender.link link, message) :: rest) :
    Sound { ledger with
      sent := rest, acked := ledger.acked ++ [(Sender.link link, message)]
      acks := if link ∈ ledger.openLinks then ledger.acks ++ [(link, origin, message)] else ledger.acks } := by
  have hpending : ledger.pending = (link, origin, message) :: State.pendingOf origin rest := by
    simp [pending, hrelay, State.pendingOf, hsent]
  have hafter : ({ ledger with
      sent := rest, acked := ledger.acked ++ [(Sender.link link, message)]
      acks := if link ∈ ledger.openLinks then ledger.acks ++ [(link, origin, message)]
        else ledger.acks } : Ledger).pending = State.pendingOf origin rest := by
    simp [pending, hrelay]
  have fresh := hsound.fresh
  refine { hsound with
    queue := by simp [hsound.queue, hsent]
    own := by simp [hsound.own, hsent]
    numbered := fun _ _ _ => by simp [hrelay]
    balance := ?_, fresh := ?_ }
  · intro entry hopen
    rw [hafter]
    have hbefore := hsound.balance entry hopen
    rw [hpending] at hbefore
    by_cases hlink : link ∈ ledger.openLinks
    · simp only [hlink, if_true, count_append, count_cons, count_nil] at hbefore ⊢
      omega
    have hne : (link, origin, message) ≠ entry := by
      rintro rfl
      exact hlink hopen
    simp only [hlink, if_false]
    rw [count_cons_of_ne hne] at hbefore
    exact hbefore
  intro entry hentry
  rw [hafter] at hentry
  have hnew : (link, origin, message).1 < ledger.nextLink :=
    fresh _ (.inr (.inr (.inl (hpending ▸ mem_cons_self))))
  by_cases hlink : link ∈ ledger.openLinks
  · simp only [hlink, if_true, mem_append, mem_singleton] at hentry
    rcases hentry with h | (h | rfl) | h | h
    · exact fresh entry (.inl h)
    · exact fresh entry (.inr (.inl h))
    · exact hnew
    · exact fresh entry (.inr (.inr (.inl (hpending ▸ mem_cons_of_mem _ h))))
    · exact fresh entry (.inr (.inr (.inr h)))
  simp only [hlink, if_false] at hentry
  rcases hentry with h | h | h | h
  · exact fresh entry (.inl h)
  · exact fresh entry (.inr (.inl h))
  · exact fresh entry (.inr (.inr (.inl (hpending ▸ mem_cons_of_mem _ h))))
  · exact fresh entry (.inr (.inr (.inr h)))

/-- A new link has sent nothing yet; a link closes. -/
theorem Sound.links {openLinks : List Nat} {nextLink : Nat} (hsound : ledger.Sound)
    (hnext : ledger.nextLink ≤ nextLink)
    (hopen : ∀ link ∈ openLinks, link ∈ ledger.openLinks ∨ ledger.nextLink ≤ link) :
    Sound { ledger with openLinks := openLinks, nextLink := nextLink } := by
  have fresh := hsound.fresh
  refine { hsound with balance := ?_, fresh := ?_ }
  · intro entry hentry
    rcases hopen entry.1 hentry with hopen | hnew
    · exact hsound.balance entry hopen
    have hout : ¬ (entry ∈ ledger.arrived ∨ entry ∈ ledger.acks ∨ entry ∈ ledger.pending ∨
        entry ∈ ledger.lost) := fun hin => Nat.lt_irrefl _ (Nat.lt_of_lt_of_le (fresh entry hin) hnew)
    simp only [not_or] at hout
    obtain ⟨harrived, hacks, hpending, hlost⟩ := hout
    change ledger.arrived.count entry =
      ledger.acks.count entry + ledger.pending.count entry + ledger.lost.count entry
    rw [count_eq_zero_of_not_mem harrived, count_eq_zero_of_not_mem hacks,
      count_eq_zero_of_not_mem hpending, count_eq_zero_of_not_mem hlost]
  · exact fun entry hentry => Nat.lt_of_lt_of_le (fresh entry hentry) hnext

theorem Sound.shut (hsound : ledger.Sound) : Sound { ledger with downOpen := false } :=
  { hsound with kept := nofun }

end Ledger

namespace State

variable {state : State} {config : Config} {stale : List Nat}

def ledger (state : State) : Ledger where
  downOpen := state.downOpen
  windows := state.windows
  acked := state.acked
  sent := state.sent
  inFlight := state.inFlight
  relay := state.relay
  openLinks := state.openLinks
  nextLink := state.nextLink
  arrived := state.arrived
  acks := acksOf state.up
  lost := state.lost
  running := serials state.calls
  ended := state.ended
  nextSerial := state.nextSerial
  replies := state.down.filterMap DownMessage.serial

/-- The accounts of a state are right. -/
def Accounts (state : State) : Prop := state.ledger.Sound

theorem Accounts.congr {other : State} (haccounts : Accounts state)
    (hsame : other.ledger = state.ledger) : Accounts other := by
  rw [Accounts, hsame]
  exact haccounts

/-! ### What is not counted -/

theorem ledger_send {message : DownMessage} (hserial : message.serial = none) :
    (state.send message).ledger = state.ledger := by
  simp [ledger, State.send, hserial]

variable {link : Nat}

variable {message : UpMessage}

theorem ledger_sendUp (hmessage : ∀ origin number, message ≠ .ack origin number) :
    (state.sendUp link message).ledger = state.ledger := by
  have hacks := @acksOf_sendUp state link message hmessage
  obtain ⟨up, hup⟩ := @sendUp_eq state link message
  rw [hup] at hacks ⊢
  simp only [ledger]
  rw [hacks]

theorem ledger_dropHold {hold : Nat} {entry : Entry} :
    (state.dropHold hold entry).ledger = state.ledger := by
  cases entry <;> rfl

theorem Accounts.send {message : DownMessage} (haccounts : Accounts state)
    (hserial : message.serial = none) : Accounts (state.send message) :=
  haccounts.congr (ledger_send hserial)

theorem Accounts.sendUp (haccounts : Accounts state)
    (hmessage : ∀ origin number, message ≠ .ack origin number) : Accounts (state.sendUp link message) :=
  haccounts.congr (ledger_sendUp hmessage)

/-! ### Calls -/

theorem ledger_closed : state.closed.ledger = state.ledger.close := by
  rw [closed_eq]
  simp only [ledger, Ledger.close, acksOf_closings]
  rfl

theorem Accounts.settle (haccounts : Accounts state) : Accounts state.settle := by
  rw [State.settle]
  split
  next hall =>
    rw [Accounts, ledger_closed]
    exact Ledger.Sound.close haccounts (.inl hall.2.2.2)
  · exact haccounts

theorem filter_key_eq {V : Type} {key : Nat} {value : V} {fields : List (Nat × V)}
    (hdistinct : (keys fields).Nodup) (hget : get key fields = some value) :
    (fields.filter fun field => field.1 = key) = [(key, value)] := by
  induction fields with
  | nil => cases hget
  | cons field rest ih =>
    obtain ⟨name, old⟩ := field
    obtain ⟨hnew, hrest⟩ := nodup_cons.mp hdistinct
    by_cases hname : name = key
    · subst hname
      rw [get_cons_self] at hget
      cases hget
      have hnone : (rest.filter fun field => field.1 = name) = [] := by
        rw [filter_eq_nil_iff]
        intro other hother
        simp only [decide_eq_true_eq]
        intro hsame
        exact hnew (mem_map.mpr ⟨other, hother, hsame⟩)
      simp [hnone]
    · rw [get_cons_of_ne hname] at hget
      simp [hname, ih hrest hget]

/-- The calls split into those that go and those that stay. -/
theorem serials_perm (calls : List (Nat × Running)) (goes : Nat × Running → Bool) :
    (serials calls).Perm (serials (calls.filter goes) ++ serials (calls.filter fun call => !goes call)) := by
  rw [serials, serials, serials, ← filterMap_append]
  exact (filter_append_perm goes calls).symm.filterMap _

variable {id : Nat}

theorem serials_erase {running : Running} (hdistinct : (keys state.calls).Nodup)
    (hget : get id state.calls = some running) :
    (serials state.calls).Perm (running.serial.toList ++ serials (erase id state.calls)) := by
  have hperm := serials_perm state.calls fun call => call.1 = id
  rw [filter_key_eq hdistinct hget] at hperm
  have herase : erase id state.calls = state.calls.filter fun call => !decide (call.1 = id) := by
    rw [erase]
    congr 1
    funext call
    simp
  rw [herase]
  cases hserial : running.serial <;> simpa [serials, hserial] using hperm

variable {result : Bool}

theorem Accounts.reply {call : Nat} (haccounts : Accounts state)
    (hdistinct : (keys state.calls).Nodup) : Accounts (state.reply call result) := by
  rw [State.reply]
  split
  · exact haccounts
  rename_i running hget
  have hperm := serials_erase hdistinct hget
  apply Accounts.settle
  rw [endCall_eq]
  cases hserial : running.serial with
  | none =>
    rw [hserial] at hperm
    have hdrop := @Ledger.Sound.drop state.ledger [] (serials (erase call state.calls))
      haccounts hperm
    rw [Accounts, ledger_send (by rfl)]
    simpa [ledger] using hdrop
  | some serial =>
    rw [hserial] at hperm
    have hanswer := @Ledger.Sound.answer state.ledger serial
      (serials (erase call state.calls)) haccounts hperm
    simpa [Accounts, ledger, State.send, DownMessage.serial] using hanswer

theorem reply_calls_sublist {call : Nat} : (state.reply call result).calls.Sublist state.calls := by
  rw [State.reply]
  split
  · exact List.Sublist.refl _
  rw [endCall_eq, State.settle]
  split
  · rw [closed_eq]
    exact nil_sublist _
  · exact filter_sublist

theorem Accounts.foldl_reply {calls : List Nat} (haccounts : Accounts state)
    (hdistinct : (keys state.calls).Nodup) :
    Accounts (calls.foldl (fun state call => state.reply call result) state) := by
  induction calls generalizing state with
  | nil => exact haccounts
  | cons call rest ih =>
    rw [foldl_cons]
    apply ih (haccounts.reply hdistinct)
    exact List.Nodup.sublist (reply_calls_sublist.map Prod.fst) hdistinct

theorem Accounts.without {hold : Nat} {entry : Entry} (haccounts : Accounts state) :
    Accounts (state.without hold entry) := by
  have hperm := serials_perm state.calls fun call => call.2.hold = hold
  have hdrop := @Ledger.Sound.drop state.ledger _ _ haccounts hperm
  have hsame : (state.without hold entry).ledger = { state.ledger with
      running := serials (state.calls.filter fun call => !decide (call.2.hold = hold))
      ended := state.ended ++
        (serials (state.calls.filter fun call => call.2.hold = hold)).map (·, false) } := by
    rw [State.without]
    obtain ⟨paths, hpaths, -⟩ := @dropHold_eq state hold entry
    rw [hpaths]
    simp [ledger]
  rw [Accounts, hsame]
  exact hdrop

/-! ### What arrives -/

variable {hold : Nat}

section

variable (haccounts : Accounts state)
include haccounts

theorem Accounts.running :
    Accounts { state with
      calls := state.calls ++ [(id, Running.relayed hold state.nextSerial)]
      nextSerial := state.nextSerial + 1 } := by
  have hbegin := Ledger.Sound.begin haccounts
  simpa [Accounts, ledger, serials, Running.serial] using hbegin

theorem Accounts.call {deflated fits admitted : Bool}
    (hshape : Shape stale state) : Accounts (state.call config id hold deflated fits admitted) := by
  rw [State.call]
  split
  · exact haccounts
  rename_i hnew
  have hnone : get id state.calls = none := by simpa using hnew
  split
  · exact haccounts
  rename_i entry hget
  split
  · exact haccounts
  split
  · exact haccounts
  cases entry with
  | pending => exact haccounts.send rfl
  | served =>
    dsimp only
    split
    · apply haccounts.congr
      simp [ledger, serials, Running.serial]
    · exact haccounts.send rfl
  | relayed path upstream =>
    dsimp only
    split
    · exact haccounts.send rfl
    have hrunning : Shape stale { state with
        calls := state.calls ++ [(id, Running.relayed hold state.nextSerial)]
        nextSerial := state.nextSerial + 1 } :=
      hshape.running hnone ⟨path, upstream, hget⟩ (hshape.live hget)
    split
    · exact haccounts.running.sendUp (by simp)
    · exact haccounts.running.reply hrunning.distinct

/-- A call is gone without an answer. -/
theorem Accounts.dropped {running : Running}
    (hdistinct : (keys state.calls).Nodup)
    (hget : get id state.calls = some running) :
    Accounts { state with
      calls := erase id state.calls
      ended := state.ended ++ running.serial.toList.map fun serial => (serial, false) } :=
  Ledger.Sound.drop haccounts (serials_erase hdistinct hget)

theorem Accounts.abort (hdistinct : (keys state.calls).Nodup) : Accounts (state.abort id) := by
  rw [State.abort]
  split
  · exact haccounts.settle
  rename_i running hget
  have hdropped := haccounts.dropped hdistinct hget
  rw [endCall_eq]
  split
  · exact (hdropped.sendUp (by simp)).settle
  · exact hdropped.settle

theorem Accounts.release : Accounts (state.release hold) := by
  rw [State.release]
  split
  · exact haccounts.settle
  rename_i entry hget
  rw [forget_then_dropHold]
  have hforgotten := (@Accounts.without state hold entry haccounts).settle
  split
  · exact (hforgotten.sendUp (by simp)).settle
  · exact hforgotten.settle

end

theorem ledger_sendUp_ack {link origin message : Nat} :
    (state.sendUp link (.ack origin message)).ledger = { state.ledger with
      acks := if link ∈ state.openLinks then acksOf state.up ++ [(link, origin, message)]
        else acksOf state.up } := by
  rw [State.sendUp]
  split <;> simp [ledger, acksOf]

theorem Accounts.ack (haccounts : Accounts state) : Accounts state.ack := by
  rw [State.ack]
  split
  · exact haccounts.settle
  rename_i sender message rest hsent
  cases sender with
  | here =>
    apply Accounts.settle
    exact Ledger.Sound.ackOwn haccounts hsent
  | link link =>
    cases hrelay : state.relay with
    | none =>
      have hsome := haccounts.numbered link message (by
        rw [show state.ledger.sent = state.sent from rfl, hsent]
        exact mem_cons_self)
      rw [show state.ledger.relay = state.relay from rfl, hrelay] at hsome
      cases hsome
    | some origin =>
      apply Accounts.settle
      have hack := @Ledger.Sound.ackLink state.ledger link origin message rest haccounts hrelay hsent
      rw [Accounts, ledger_sendUp_ack]
      simp only [ledger, hrelay] at hack ⊢
      exact hack

theorem Accounts.closeDown (haccounts : Accounts state) : Accounts state.closeDown := by
  rw [State.closeDown]
  split
  · have hclosed := Ledger.Sound.close (Ledger.Sound.shut haccounts) (.inr rfl)
    have hsame : ({ state.closed with downOpen := false } : State).ledger =
        { state.closed.ledger with downOpen := false } := rfl
    rw [Accounts, hsame, ledger_closed]
    exact hclosed
  · exact Ledger.Sound.shut haccounts

/-- A message of an upstream link. -/
theorem Accounts.forward {origin : Nat} {message : FromUpstream} (haccounts : Accounts state)
    (hshape : Shape stale state) (hopen : link ∈ state.openLinks) :
    Accounts (state.forward link origin message) := by
  rw [State.forward]
  split
  next hlinked =>
    have hlow := hshape.placed.low link hopen
    cases message with
    | window bound message holds =>
      simp only [forwardFrom]
      split
      · have hatOnce := @Ledger.Sound.answerAtOnce state.ledger (link, origin, message) haccounts hlow
        rw [Accounts, ledger_sendUp_ack]
        simp only [hopen, if_true]
        exact hatOnce
      apply Accounts.send _ rfl
      exact Ledger.Sound.pass haccounts hlinked.1 hlow
    | reply call result =>
      simp only [forwardFrom]
      split
      · split
        · exact haccounts.reply hshape.distinct
        · exact haccounts
      · exact haccounts
    | gone hold =>
      simp only [forwardFrom]
      split
      next path upstream hget =>
        split
        · have hforgotten := (@Accounts.without state hold (.relayed path upstream) haccounts).settle
          rw [← forget_dropHold] at hforgotten
          exact hforgotten.send rfl
        · exact haccounts
      · exact haccounts
    | notice hold failed =>
      simp only [forwardFrom]
      split
      · exact haccounts.send rfl
      · exact haccounts
  · exact haccounts

/-! ### Every input -/

section

variable (haccounts : Accounts state)
include haccounts

theorem Accounts.attach : Accounts (state.attach link hold) := by
  rw [State.attach]
  split
  next path upstream hget =>
    obtain ⟨relay, links, nextOrigin, hrelayTo, hrelay, hkeep, -⟩ := @relayTo_eq state link
    simp only [hrelayTo]
    apply Accounts.sendUp _ (by simp)
    subst hrelay
    apply Ledger.Sound.number haccounts
    intro before hbefore
    exact (Option.some.inj (hkeep before hbefore)).symm
  · exact haccounts

theorem Accounts.foldl_attach {link : Nat} {holds : List Nat} :
    Accounts (holds.foldl (fun held hold => held.attach link hold) state) := by
  induction holds generalizing state with
  | nil => exact haccounts
  | cons hold rest ih =>
    rw [foldl_cons]
    exact ih haccounts.attach

theorem Accounts.upstreamDropped
    (hshape : Shape (hold :: stale) state) : Accounts (state.dropped hold) := by
  rw [State.dropped]
  split
  next path link hget =>
    apply Accounts.send _ rfl
    have hunheld : Accounts { state with
        entries := JsMap.set hold (Entry.relayed path none) state.entries } := haccounts
    exact hunheld.foldl_reply (hshape.unheld hget).distinct
  · exact haccounts

theorem Accounts.foldl_dropped {holds : List Nat}
    (hshape : Shape (holds ++ stale) state) : Accounts (holds.foldl State.dropped state) := by
  induction holds generalizing state with
  | nil => exact haccounts
  | cons hold rest ih =>
    rw [foldl_cons]
    exact ih (haccounts.upstreamDropped hshape) hshape.dropped

theorem Accounts.forget : Accounts (state.forget hold) := by
  have hforgotten := (@Accounts.without state hold .pending haccounts).settle
  rw [← forget_dropHold] at hforgotten
  exact hforgotten

end

end State

end Hummin.Relay
