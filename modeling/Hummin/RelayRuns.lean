/-
Runs of a relaying host, whatever arrives from downstream and from its upstream links and
however these drop and come back.
-/
import Hummin.RelayAccounts

namespace Hummin.Relay

open List

open State

variable {config : Config} {state next : State} {stale : List Nat}

theorem sound_step {input : Input} (hshape : Shape [] state) (haccounts : Accounts state)
    (hstep : step config state input = some next) : Shape [] next ∧ Accounts next := by
  cases input with
  | hold hold =>
    simp only [step] at hstep
    split at hstep
    · cases hstep
    split at hstep
    · cases hstep
      exact ⟨hshape, haccounts⟩
    next hnew =>
      cases hstep
      exact ⟨hshape.hold (by simpa using hnew), haccounts⟩
  | serve hold =>
    obtain ⟨hget, rfl⟩ := of_guard hstep
    refine ⟨hshape.setUnrelayed hget (by simp) (by simp) fun call hcall => ?_, haccounts⟩
    exact (hshape.suits call hcall).of_pending hget
  | relay hold path =>
    simp only [step] at hstep
    split at hstep
    next hget =>
      have hheld := @Shape.relay state [] hold path hshape hget
      split at hstep
      · cases hstep
        exact ⟨hheld, haccounts⟩
      rename_i link hlink
      cases hstep
      refine ⟨?_, Accounts.attach haccounts⟩
      apply hheld.attach (hshape.placed.linked path link hlink)
      intro other upstream hfound
      rw [setPath, JsMap.get_set, if_pos rfl] at hfound
      cases hfound
      simpa [setPath] using hlink
    · cases hstep
  | unserve hold =>
    obtain ⟨hget, rfl⟩ := of_guard hstep
    refine ⟨(hshape.unserve hget).send, Accounts.send ?_ rfl⟩
    exact haccounts.foldl_reply hshape.distinct
  | call id hold deflated fits admitted =>
    obtain ⟨-, rfl⟩ := of_guard hstep
    exact ⟨hshape.call, haccounts.call hshape⟩
  | abort id =>
    obtain ⟨-, rfl⟩ := of_guard hstep
    exact ⟨hshape.abort, haccounts.abort hshape.distinct⟩
  | release hold =>
    obtain ⟨-, rfl⟩ := of_guard hstep
    exact ⟨hshape.release, haccounts.release⟩
  | ack =>
    obtain ⟨-, rfl⟩ := of_guard hstep
    exact ⟨hshape.ack, haccounts.ack⟩
  | closeDown =>
    obtain ⟨-, rfl⟩ := of_guard hstep
    exact ⟨hshape.closeDown, haccounts.closeDown⟩
  | own bound message holds =>
    obtain ⟨hguard, rfl⟩ := of_guard hstep
    obtain ⟨-, hholds, hserved⟩ := hguard
    obtain ⟨entry, rest, rfl⟩ := exists_cons_of_ne_nil hholds
    simp only [all_cons, Bool.and_eq_true, decide_eq_true_eq] at hserved
    refine ⟨(hshape.own (hshape.live hserved.1)).send, Accounts.send ?_ rfl⟩
    exact Ledger.Sound.send haccounts
  | answer id result =>
    simp only [step] at hstep
    split at hstep
    · cases hstep
      exact ⟨hshape.reply, haccounts.reply hshape.distinct⟩
    · cases hstep
  | endHold hold =>
    simp only [step] at hstep
    split at hstep
    · cases hstep
    next entry hother hget =>
      cases hstep
      refine ⟨?_, haccounts.forget.send rfl⟩
      exact (hshape.endHold hget fun path upstream => hother path upstream).send
    · cases hstep
  | upstream link origin message =>
    obtain ⟨hopen, rfl⟩ := of_guard hstep
    exact ⟨hshape.forward, haccounts.forward hshape hopen⟩
  | connect path =>
    simp only [step] at hstep
    split at hstep
    · cases hstep
    rename_i hnone
    cases hstep
    constructor
    · have hlinked := @Shape.connect state path hshape hnone
      apply @Shape.foldl_attach _ [] state.nextLink path _ hlinked
      · simp [setPath]
      · simp [setPath]
      · exact fun hold hhold => (hshape.placed.holders hold path).mp hhold
    apply Accounts.foldl_attach
    apply Ledger.Sound.links haccounts (Nat.le_succ _)
    intro link hlink
    rcases mem_append.mp hlink with hlink | hlink
    · exact .inl hlink
    · exact .inr (Nat.le_of_eq (mem_singleton.mp hlink).symm)
  | disconnect path =>
    simp only [step] at hstep
    split at hstep
    · cases hstep
    rename_i link hlink
    cases hstep
    have hdropped := hshape.disconnect hlink
    conv at hdropped =>
      arg 1
      rw [← append_nil (state.paths path).holders]
    refine ⟨Shape.foldl_dropped hdropped, Accounts.foldl_dropped ?_ hdropped⟩
    apply Ledger.Sound.links haccounts (Nat.le_refl _)
    exact fun other hother => .inl (mem_of_mem_erase hother)
  | unreachable path =>
    simp only [step, Option.some.injEq] at hstep
    subst hstep
    rw [foldl_notice]
    refine ⟨hshape.congr rfl rfl rfl rfl rfl rfl rfl rfl fun _ => rfl, haccounts.congr ?_⟩
    simp [ledger, DownMessage.serial]
  | revoke hold =>
    simp only [step] at hstep
    split at hstep
    next path hget =>
      cases hstep
      have hforgotten := (hshape.without hget).settle
      rw [← forget_dropHold] at hforgotten
      refine ⟨hforgotten.send, Accounts.send (Accounts.forget ?_) rfl⟩
      exact haccounts.congr (@ledger_dropHold state hold (.relayed path none))
    · cases hstep

theorem accounts_start : Accounts start := by
  refine ⟨rfl, rfl, by simp [ledger, start], ?_, ?_, fun _ => rfl, ?_, rfl⟩
  · simp [ledger, start, acksOf, Ledger.pending]
  · simp [ledger, start, acksOf, Ledger.pending]
  · simp [ledger, start, serials]

/-- What holds in every state of a run. -/
theorem run_sound {inputs : List Input} (hrun : run (step config) start inputs = some state) :
    Shape [] state ∧ Accounts state := by
  apply run_invariant _ ⟨shape_start, accounts_start⟩ hrun
  rintro before input after ⟨hshape, haccounts⟩ hstep
  exact sound_step hshape haccounts hstep

/-! ### Acks -/

theorem settle_up : acksOf (state.settle).up = acksOf state.up := by
  rw [State.settle]
  split
  · rw [closed_eq]
    exact acksOf_closings state.up
  · rfl

theorem settle_inFlight (haccounts : Accounts state) : (state.settle).inFlight = state.inFlight := by
  rw [State.settle]
  split
  next hall =>
    have hown : state.inFlight = (state.sent.filter fun entry => entry.1 = .here).length := haccounts.own
    rw [closed_eq, hown, hall.2.2.2]
    rfl
  · rfl

/-- The sender of a message, and no other, learns that it was acknowledged: this host has one
fewer in flight, a link gets the ack while it is open. -/
def Acknowledged (before after : State) (message : Nat) : Sender → Prop
  | .here => acksOf after.up = acksOf before.up ∧ after.inFlight + 1 = before.inFlight
  | .link link => after.inFlight = before.inFlight ∧ ∃ origin, before.relay = some origin ∧
      acksOf after.up = acksOf before.up ++
        if link ∈ before.openLinks then [(link, origin, message)] else []

/-- An ack goes to the sender of the oldest message in flight. -/
theorem ack_oldest {sender : Sender} {message : Nat} {rest : List (Sender × Nat)}
    (haccounts : Accounts state) (hsent : state.sent = (sender, message) :: rest) :
    Acknowledged state state.ack message sender := by
  cases sender with
  | here =>
    have hown : state.inFlight = (state.sent.filter fun entry => entry.1 = .here).length := haccounts.own
    rw [hsent] at hown
    simp only [filter_cons, decide_true, if_true, length_cons] at hown
    have hpopped : Accounts { state with
        sent := rest, acked := state.acked ++ [(Sender.here, message)]
        inFlight := state.inFlight - 1 } := Ledger.Sound.ackOwn haccounts hsent
    simp only [Acknowledged, State.ack, hsent]
    rw [settle_up, settle_inFlight hpopped]
    exact ⟨rfl, by simp only; omega⟩
  | link link =>
    have hsome : state.relay.isSome = true := haccounts.numbered link message (by
      rw [show state.ledger.sent = state.sent from rfl, hsent]
      exact mem_cons_self)
    obtain ⟨origin, hrelay⟩ := Option.isSome_iff_exists.mp hsome
    have hacked : Accounts (({ state with
        sent := rest, acked := state.acked ++ [(Sender.link link, message)] } : State).sendUp link
          (.ack origin message)) := by
      rw [Accounts, ledger_sendUp_ack]
      exact Ledger.Sound.ackLink haccounts hrelay hsent
    have hledger := @ledger_sendUp_ack { state with
      sent := rest, acked := state.acked ++ [(Sender.link link, message)] } link origin message
    have hack : state.ack = (({ state with
        sent := rest, acked := state.acked ++ [(Sender.link link, message)] } : State).sendUp link
          (.ack origin message)).settle := by
      simp only [State.ack, hsent, hrelay]
    rw [Acknowledged, hack, settle_up, settle_inFlight hacked]
    refine ⟨congrArg Ledger.inFlight hledger, origin, hrelay, ?_⟩
    have hacks := congrArg Ledger.acks hledger
    simp only [ledger] at hacks
    rw [hacks]
    split <;> simp

/-! ### What reaches downstream -/

/-- The hold is relayed over the link, for the origin's number there. -/
def isOver (state : State) (link origin hold : Nat) : Bool :=
  decide (state.relay = some origin) && state.relayedHold link hold

/-- What a message of an upstream link is to bring downstream. -/
def passed (state : State) (link origin : Nat) : FromUpstream → List DownMessage
  | .window bound message holds =>
    match holds.filter fun entry => isOver state link origin entry.hold with
    | [] => []
    | entry :: rest => [.window bound (.link link) message (entry :: rest)]
  | .reply call result =>
    match PropertyList.get call state.calls with
    | some (.relayed hold serial) =>
      if isOver state link origin hold then [.reply call result (some serial)] else []
    | _ => []
  | .notice hold failed => if isOver state link origin hold then [.notice hold failed] else []
  | .gone hold => if isOver state link origin hold then [.gone hold] else []

/-- `#relayedOver` keeps the entries of relayed holds, in their order. -/
theorem relayedOverFrom_eq (relayed : Nat → Bool) (entries holds : List WindowEntry)
    (kept : Option (List WindowEntry)) :
    relayedOverFrom relayed entries kept holds =
      kept.getD entries ++ holds.filter fun entry => relayed entry.hold := by
  induction holds generalizing entries kept with
  | nil => simp [relayedOverFrom]
  | cons entry rest ih =>
    cases kept with
    | some kept =>
      simp only [relayedOverFrom, ih]
      by_cases hover : relayed entry.hold = true <;> simp [hover]
    | none =>
      simp only [relayedOverFrom, ih]
      by_cases hover : relayed entry.hold = true <;> simp [hover]

theorem relayedOver_eq (link : Nat) (holds : List WindowEntry) :
    state.relayedOver link holds = holds.filter fun entry => state.relayedHold link entry.hold := by
  rw [relayedOver, relayedOverFrom_eq]
  rfl

theorem settle_down : (state.settle).down = state.down := by
  rw [State.settle]
  split
  · rw [closed_eq]
  · rfl

variable {link : Nat}

/-- A hold relayed over a link: the origin relays to the link. -/
theorem Shape.links_of_relayedHold {hold : Nat} (hshape : Shape [] state)
    (hover : state.relayedHold link hold = true) : link ∈ state.links := by
  rw [relayedHold] at hover
  split at hover
  next path upstream hget =>
    rw [decide_eq_true_eq] at hover
    subst hover
    exact (hshape.placed.held hold path link (by simp) hget).2
  · cases hover

variable {origin : Nat}

theorem isOver_eq (hnot : ¬ (state.relay = some origin ∧ link ∈ state.links))
    (hshape : Shape [] state) (hold : Nat) : isOver state link origin hold = false := by
  by_contra hover
  simp only [isOver, Bool.not_eq_false, Bool.and_eq_true, decide_eq_true_eq] at hover
  exact hnot ⟨hover.1, Shape.links_of_relayedHold hshape hover.2⟩

/-- `forward` brings downstream what its hold lets pass. -/
theorem forward_down (message : FromUpstream) (hshape : Shape [] state) :
    (state.forward link origin message).down = state.down ++ passed state link origin message := by
  by_cases hlinked : state.relay = some origin ∧ link ∈ state.links
  · have hover : ∀ hold, isOver state link origin hold = state.relayedHold link hold := by
      simp [isOver, hlinked.1]
    rw [forward, if_pos hlinked]
    cases message with
    | window bound message holds =>
      simp only [forwardFrom, passed, hover, relayedOver_eq]
      cases hkept : holds.filter fun entry => state.relayedHold link entry.hold with
      | nil =>
        obtain ⟨up, hup⟩ := @sendUp_eq { state with
          arrived := state.arrived ++ [(link, origin, message)] } link (.ack origin message)
        rw [if_pos rfl, hup]
        simp
      | cons entry rest => simp [State.send]
    | reply call result =>
      simp only [forwardFrom, passed, hover]
      cases hcall : PropertyList.get call state.calls with
      | none => simp
      | some running =>
        cases running with
        | served hold => simp
        | relayed hold serial =>
          dsimp only
          by_cases hheld : state.relayedHold link hold = true
          · rw [if_pos hheld, if_pos hheld, State.reply, hcall]
            rw [settle_down, endCall_eq]
            rfl
          · rw [if_neg hheld, if_neg hheld, append_nil]
    | notice hold failed =>
      simp only [forwardFrom, passed, hover]
      by_cases hheld : state.relayedHold link hold = true
      · simp [hheld, State.send]
      · simp [hheld]
    | gone hold =>
      simp only [forwardFrom, passed, hover, relayedHold]
      cases hget : PropertyList.get hold state.entries with
      | none => simp
      | some entry =>
        cases entry with
        | relayed path upstream =>
          dsimp only
          by_cases hheld : upstream = some link
          · rw [if_pos hheld, if_pos (by simpa using hheld)]
            have hdropped := @forget_dropHold state hold (.relayed path upstream)
            obtain ⟨paths, hpaths, -⟩ := @dropHold_eq state hold (.relayed path upstream)
            rw [show state.detach path hold = state.dropHold hold (.relayed path upstream) from rfl,
              hdropped, State.send, settle_down, State.without, hpaths]
          · rw [if_neg hheld, if_neg (by simpa using hheld), append_nil]
        | _ => simp
  have hover := isOver_eq hlinked hshape
  rw [forward, if_neg hlinked]
  cases message with
  | reply call result =>
    simp only [passed, hover]
    split <;> simp
  | _ => simp [passed, hover]

/-! ### Whole runs -/

theorem forward_arrived {message : Nat} {bound : Bool} {holds : List WindowEntry} :
    (state.forward link origin (.window bound message holds)).arrived = state.arrived ++
      if state.relay = some origin ∧ link ∈ state.links then [(link, origin, message)] else [] := by
  rw [forward]
  split
  · simp only [forwardFrom]
    split
    · obtain ⟨up, hup⟩ := @sendUp_eq { state with
        arrived := state.arrived ++ [(link, origin, message)] } link (.ack origin message)
      rw [hup]
    · rfl
  · simp

/-- In every run: acks follow the order of the messages, each goes to the sender of the oldest
one, and with all acknowledged every open link has one ack for each message the origin's relay
took from it; what a link sends reaches downstream as far as its holds are relayed over it;
every relayed call runs or ended once, and those answered have one reply each. -/
theorem relay_transparent {inputs : List Input} (hrun : run (step config) start inputs = some state) :
    state.windows = state.acked ++ state.sent ∧
    (∀ sender message rest, state.sent = (sender, message) :: rest →
      Acknowledged state state.ack message sender) ∧
    (∀ link origin bound message holds,
      (state.forward link origin (.window bound message holds)).arrived = state.arrived ++
        if state.relay = some origin ∧ link ∈ state.links then [(link, origin, message)] else []) ∧
    (state.downOpen = true → ∀ link ∈ state.openLinks, ∀ origin message,
      state.arrived.count (link, origin, message) =
        (acksOf state.up).count (link, origin, message) +
          state.pendingAcks.count (link, origin, message)) ∧
    (state.downOpen = true → state.sent = [] → ∀ link ∈ state.openLinks, ∀ origin message,
      (acksOf state.up).count (link, origin, message) =
        state.arrived.count (link, origin, message)) ∧
    (∀ link origin message,
      (state.forward link origin message).down = state.down ++ passed state link origin message) ∧
    (serials state.calls ++ state.ended.map Prod.fst).Perm (List.range state.nextSerial) ∧
    state.down.filterMap DownMessage.serial = (state.ended.filter fun entry => entry.2).map Prod.fst ∧
    (state.isLive = false → state.calls = []) := by
  obtain ⟨hshape, haccounts⟩ := run_sound hrun
  have hbalance : state.downOpen = true → ∀ link ∈ state.openLinks, ∀ origin message,
      state.arrived.count (link, origin, message) =
        (acksOf state.up).count (link, origin, message) +
          state.pendingAcks.count (link, origin, message) := by
    intro hdown link hopen origin message
    have hcount : state.arrived.count (link, origin, message) =
        (acksOf state.up).count (link, origin, message) +
          state.pendingAcks.count (link, origin, message) + state.lost.count (link, origin, message) :=
      haccounts.balance (link, origin, message) hopen
    rw [show state.lost = [] from haccounts.kept hdown] at hcount
    simpa using hcount
  refine ⟨haccounts.queue, ?_, ?_, hbalance, ?_, ?_, haccounts.counted, haccounts.answered, ?_⟩
  · exact fun sender message rest hsent => ack_oldest haccounts hsent
  · exact fun link origin bound message holds => forward_arrived
  · intro hdown hsent link hopen origin message
    have hnone : state.pendingAcks = [] := by
      rw [pendingAcks, hsent]
      cases state.relay <;> rfl
    have hcount := hbalance hdown link hopen origin message
    rw [hnone] at hcount
    simpa using hcount.symm
  · exact fun link origin message => forward_down message hshape
  · exact fun hdead => (hshape.dead hdead).2.1

/-- A hold relayed over a link that dropped and came back, a call on it, and a message in
flight from each of two links. -/
def exampleInputs : List Input :=
  [.hold 1, .hold 2, .connect 0, .relay 1 0, .disconnect 0, .connect 0, .connect 5, .relay 2 5,
    .upstream 1 1 (.window true 7 [⟨1, 0⟩, ⟨2, 0⟩]), .upstream 2 1 (.window false 8 [⟨2, 0⟩]),
    .call 3 1 false true true, .ack]

theorem relay_transparent_exampleInputs : ∃ state,
    run (step ⟨8, false⟩) start exampleInputs = some state ∧
      (acksOf state.up).count (1, 1, 7) = 1 ∧ state.pendingAcks = [(2, 1, 8)] ∧
      state.arrived.count (2, 1, 8) =
        (acksOf state.up).count (2, 1, 8) + state.pendingAcks.count (2, 1, 8) :=
  ⟨_, rfl, by decide, by decide,
    (relay_transparent (show run (step ⟨8, false⟩) start exampleInputs = some _ from rfl)).2.2.2.1
      (by decide) 2 (by decide) 1 8⟩

/-- A `bound` or `state` message of the link, for the origin. -/
def Input.isWindow (link origin : Nat) : Input → Bool
  | .upstream sender number (.window ..) => decide (sender = link ∧ number = origin)
  | _ => false

/-- A message that crosses the end of its origin gets no ack, though its link stays open. -/
theorem crossing_unacked : ¬ ∀ config inputs state, run (step config) start inputs = some state →
    state.downOpen = true → state.sent = [] → ∀ link ∈ state.openLinks, ∀ origin,
      ((acksOf state.up).filter fun ack => ack.1 = link ∧ ack.2.1 = origin).length =
        (inputs.filter (Input.isWindow link origin)).length := by
  intro hclaim
  have hcrossing := hclaim ⟨8, false⟩
    [.hold 1, .connect 0, .relay 1 0, .upstream 0 1 (.window true 7 [⟨1, 0⟩]), .ack, .release 1,
      .upstream 0 1 (.window false 8 [⟨1, 0⟩])] _ rfl rfl rfl 0 (by decide) 1
  revert hcrossing
  decide

end Hummin.Relay
