/-
Runs of the broker: every step keeps names, sessions and messages in order, whatever connects,
says hello, sends and ends.
-/
import Hummin.AgentsBrokerLetters
import Hummin.AgentsBrokerNames

namespace Hummin.AgentsBroker

open List Option Function

/-! ## The invariant -/

/-- Names, sessions and messages, those of `waiting` in the inboxes or on their way. -/
structure Core (broker : Broker) (waiting : JsString → List Letter) : Prop where
  names : Names broker
  sessions : Sessions broker
  counted : broker.sends = broker.trace.countP isSent
  letters : Letters broker.trace broker.sends waiting
  fits : Along EventFits broker.trace

/-- What waits for a name that is connected was left by the hello. -/
def Waits (broker : Broker) : Prop :=
  ∀ name socket, broker.byName name = some socket → broker.life socket = .isOpen →
    ∀ letter ∈ broker.inboxes name, LeftWaiting broker.trace socket name letter.stamp

structure Sound (broker : Broker) : Prop where
  core : Core broker broker.inboxes
  waits : Waits broker

theorem LeftWaiting.append {trace : List Event} {socket : Socket} {name : JsString} {stamp : Stamp}
    (hleft : LeftWaiting trace socket name stamp) (events : List Event) :
    LeftWaiting (trace ++ events) socket name stamp := by
  obtain ⟨info, waiting, hmem, hname⟩ := hleft
  exact ⟨info, waiting, mem_append_left events hmem, hname⟩

theorem Waits.carried {broker next : Broker} (hwaits : Waits broker)
    (hcarries : Carries broker next)
    (hinboxes : ∀ name socket, broker.byName name = some socket → broker.life socket = .isOpen →
      ∀ letter ∈ next.inboxes name, letter ∈ broker.inboxes name) : Waits next := by
  intro name socket hby hopen letter hletter
  rw [hcarries.byName] at hby
  rw [hcarries.life] at hopen
  obtain ⟨events, -, htrace, -⟩ := hcarries.trace
  rw [htrace]
  have hbefore := hinboxes name socket hby hopen letter hletter
  exact (hwaits name socket hby hopen letter hbefore).append events

namespace Core

variable {broker next : Broker} {waiting : JsString → List Letter}

section

variable (hcore : Core broker waiting)

include hcore

/-- An event that concerns no name, no session and no message. -/
theorem log {event : Event} (hplain : isPlain event = true)
    (hsent : isSent event = false) (hsilent : isSilent event)
    (hfits : EventFits broker.trace event) : Core (broker.log event) waiting where
  names := hcore.names.carried (carries_log broker hplain hsent)
  sessions := hcore.sessions.carried (carries_log broker hplain hsent)
  counted := (carries_log broker hplain hsent).counted hcore.counted
  letters := hcore.letters.silent hsilent
  fits := along_concat.mpr ⟨hcore.fits, hfits⟩

theorem write {socket : Socket} {frame : ServerFrame}
    (hwrote : isSilent (.wrote socket frame)) (hskipped : isSilent (.skipped socket frame))
    (hfits : FrameFits broker.trace socket frame) : Core (broker.write socket frame) waiting := by
  unfold Broker.write
  split
  · exact hcore.log rfl rfl hwrote hfits
  · exact hcore.log rfl rfl hskipped trivial

/-- A queued message that has a place is acknowledged. -/
theorem acked {socket : Socket} {stamp : Stamp} {id detail : JsString} {targets : Option Nat}
    (hplaced : ∀ name, stamp.recipient = some name → stamp ∈ placed broker.trace waiting name) :
    Core (broker.write socket (.ack stamp id .queued targets detail)) waiting := by
  unfold Broker.write
  split
  · have hlog := carries_log broker
      (rfl : isPlain (.wrote socket (.ack stamp id .queued targets detail)) = true) rfl
    exact ⟨hcore.names.carried hlog, hcore.sessions.carried hlog, hlog.counted hcore.counted,
      hcore.letters.acked hplaced, along_concat.mpr ⟨hcore.fits, trivial⟩⟩
  · exact hcore.log rfl rfl trivial trivial

/-- Delivery times and known names are nobody's business here. -/
theorem unchanged (hcarries : Carries broker next)
    (htrace : next.trace = broker.trace) : Core next waiting where
  names := hcore.names.carried hcarries
  sessions := hcore.sessions.carried hcarries
  counted := hcarries.counted hcore.counted
  letters := by
    have hsends : next.sends = broker.sends := by
      rw [hcarries.counted hcore.counted, htrace, hcore.counted]
    rw [htrace, hsends]
    exact hcore.letters
  fits := htrace ▸ hcore.fits

theorem stamped (recipient : Option JsString) :
    Core (broker.stamped ⟨broker.sends, recipient⟩) waiting where
  names := hcore.names.carried (carries_stamped broker _)
  sessions := hcore.sessions.carried (carries_stamped broker _)
  counted := (carries_stamped broker _).counted hcore.counted
  letters := by
    have hletters : Letters (broker.trace ++ [Event.sent ⟨broker.sends, recipient⟩]) broker.sends
        waiting := hcore.letters.silent trivial
    refine hletters.mono ?_
    change (broker.sends : Int) ≤ ((broker.sends + 1 : Nat) : Int)
    omega
  fits := by
    refine along_concat.mpr ⟨hcore.fits, ?_⟩
    change (broker.sends : Int) = broker.trace.countP isSent
    rw [← hcore.counted]

end

/-- A broadcast's message goes to sockets, not to a name. -/
theorem broadcast (id : JsString) {letter : Letter} (hletter : letter.stamp.recipient = none)
    (now : Nat) (targets : List Socket) (hcore : Core broker waiting) :
    Core (broker.broadcast id letter now targets).2 waiting := by
  induction targets generalizing broker with
  | nil => exact hcore
  | cons target rest ih =>
    refine ih ?_
    have hallowed := hcore.unchanged (carries_allowDelivery broker target now) rfl
    unfold Broker.deliver
    dsimp only
    split
    · split
      · refine hallowed.write hletter hletter fun name hname => ?_
        cases hletter.symm.trans hname
      · exact hallowed
    · exact hcore

/-- The replay of what a hello found: each message goes to the connection, in turn. -/
theorem replay {socket : Socket} {info : HelloInfo} {found : List Letter}
    (hhello : .hello socket info found ∈ broker.trace)
    {letters rest : List Letter} (hletters : ∀ letter ∈ letters, letter ∈ found.take replayMax)
    (hcore : Core broker (update waiting info.name (letters ++ rest))) :
    Core (broker.replay socket letters) (update waiting info.name rest) := by
  induction letters generalizing broker with
  | nil => exact hcore
  | cons letter others ih =>
    have hmem : letter ∈ update waiting info.name (letter :: others ++ rest)
        info.name := by
      rw [update_self]
      exact mem_cons_self
    have hname := (hcore.letters.mine info.name letter hmem).1
    have hmoved : ∀ event, (∀ other, written [event] other ++ (unwritten [event] other ++
          dropped [event] other) = (letter.stamp.forName other).toList) →
        (∀ socket stamp id targets detail,
          event ≠ .wrote socket (.ack stamp id .queued targets detail)) →
        Letters (broker.trace ++ [event]) broker.sends
          (update waiting info.name (others ++ rest)) := by
      intro event hplaces hack
      have hmoved := hcore.letters.moved (update_self ..) hplaces hack
      rwa [update_idem] at hmoved
    have hcarries := carries_write broker socket (.deliver none letter)
    have hwrite : Letters (broker.write socket (.deliver none letter)).trace
        (broker.write socket (.deliver none letter)).sends
        (update waiting info.name (others ++ rest)) := by
      unfold Broker.write
      split
      · refine hmoved _ (fun other => ?_) (by simp)
        simp only [written, unwritten, dropped, filterMap_cons, filterMap_nil, append_nil]
        cases letter.stamp.forName other <;> rfl
      refine hmoved _ (fun other => ?_) (by simp)
      simp only [written, unwritten, dropped, filterMap_cons, filterMap_nil, append_nil, nil_append]
      cases letter.stamp.forName other <;> rfl
    have hfits : Along EventFits (broker.write socket (.deliver none letter)).trace := by
      unfold Broker.write
      split
      next hopen =>
        refine along_concat.mpr ⟨hcore.fits, fun name hfor => ?_⟩
        cases hname.symm.trans hfor
        refine ⟨⟨⟨info, found, hhello, rfl⟩, hcore.names.openNotGone socket hopen⟩,
          hcore.letters.clear info.name letter hmem, info, found, hhello, rfl, ?_⟩
        exact hletters letter mem_cons_self
      · exact along_concat.mpr ⟨hcore.fits, trivial⟩
    exact ih (hcarries.mem hhello) (fun other hother => hletters other
      (mem_cons_of_mem letter hother)) ⟨hcore.names.carried hcarries,
        hcore.sessions.carried hcarries, hcarries.counted hcore.counted, hwrite, hfits⟩

end Core

/-! ## Sends -/

/-- The last message of an inbox is never shifted out. -/
theorem getLast?_shiftOldest (messages : List Letter) :
    (shiftOldest messages).2.getLast? = messages.getLast? := by
  induction messages using shiftOldest.induct with
  | case1 oldest next rest hover ih =>
    rw [shiftOldest, if_pos hover, getLast?_cons_cons]
    exact ih
  | case2 oldest next rest hover => rw [shiftOldest, if_neg hover]
  | case3 messages hshort =>
    rw [shiftOldest.eq_def]
    split
    · exact absurd rfl (hshort _ _ _)
    · rfl

@[simp] theorem write_inboxes (broker : Broker) (socket : Socket) (frame : ServerFrame) :
    (broker.write socket frame).inboxes = broker.inboxes := by
  unfold Broker.write
  split <;> rfl

@[simp] theorem deliver_inboxes (broker : Broker) (id : JsString) (letter : Letter) (now : Nat)
    (target : Socket) : (broker.deliver id letter now target).2.inboxes = broker.inboxes := by
  unfold Broker.deliver
  dsimp only
  split
  · split
    · exact write_inboxes ..
    · rfl
  · rfl

@[simp] theorem broadcast_inboxes (id : JsString) (letter : Letter) (now : Nat)
    (targets : List Socket) (broker : Broker) :
    (broker.broadcast id letter now targets).2.inboxes = broker.inboxes := by
  induction targets generalizing broker with
  | nil => rfl
  | cons target rest ih => exact (ih _).trans (deliver_inboxes ..)

@[simp] theorem replay_inboxes (socket : Socket) (letters : List Letter) (broker : Broker) :
    (broker.replay socket letters).inboxes = broker.inboxes := by
  induction letters generalizing broker with
  | nil => rfl
  | cons letter rest ih => exact (ih _).trans (write_inboxes ..)

namespace Sound

variable {broker : Broker}

section

variable (hsound : Sound broker)

include hsound

/-- A step that leaves the inboxes and names alone. -/
theorem carried {next : Broker} (hcarries : Carries broker next)
    (hinboxes : next.inboxes = broker.inboxes) (hcore : Core next broker.inboxes) : Sound next := by
  refine ⟨hinboxes ▸ hcore, hsound.waits.carried hcarries fun name socket _ _ letter hletter => ?_⟩
  rwa [hinboxes] at hletter

variable (socket : Socket)

theorem sendToProject (id dirName : JsString) (message : InboxMessage) (now : Nat) :
    Sound (broker.sendToProject socket id dirName message now) := by
  refine hsound.carried (carries_sendToProject ..) ?_ ?_
  · simp [Broker.sendToProject, Broker.stamped, Broker.log]
  refine ((hsound.core.stamped none).broadcast id rfl now _).write ?_ ?_ ?_
  · split <;> trivial
  · trivial
  split
  · exact fun name hname => absurd hname (by simp)
  · trivial

variable {recipient : JsString}

variable {letter : Letter}

/-- A delivery to the connection that holds the name. -/
theorem direct {target : Socket}
    (hby : broker.byName recipient = some target) (hopen : broker.life target = .isOpen)
    (id : JsString) (hstamp : letter.stamp = ⟨broker.sends, some recipient⟩) (now : Nat) :
    Core ((broker.stamped letter.stamp).deliver id letter now target).2 broker.inboxes ∧
      (((broker.stamped letter.stamp).deliver id letter now target).1 = true →
        ∃ before, ((broker.stamped letter.stamp).deliver id letter now target).2.trace =
          before ++ [Event.wrote target (.deliver (some id) letter)] ∧
            Holds before target recipient) := by
  have hstamped : Core (broker.stamped letter.stamp) broker.inboxes := by
    rw [hstamp]
    exact hsound.core.stamped (some recipient)
  have hcarries := carries_allowDelivery (broker.stamped letter.stamp) target now
  have hallowed := hstamped.unchanged hcarries rfl
  have hholds : Holds (broker.stamped letter.stamp).trace target recipient :=
    hstamped.names.holds_iff.mpr ⟨hby, hopen⟩
  have hname : letter.stamp.recipient = some recipient := by rw [hstamp]
  unfold Broker.deliver
  dsimp only
  split
  · split
    · have hwrite : ((broker.stamped letter.stamp).allowDelivery target now).2.write target
          (.deliver (some id) letter) =
          ((broker.stamped letter.stamp).allowDelivery target now).2.log
            (.wrote target (.deliver (some id) letter)) := if_pos hopen
      rw [hwrite]
      have hlog := carries_log ((broker.stamped letter.stamp).allowDelivery target now).2
        (rfl : isPlain (.wrote target (.deliver (some id) letter)) = true) rfl
      have hsent : Letters (broker.stamped letter.stamp).trace broker.sends broker.inboxes :=
        hsound.core.letters.silent trivial
      have hlast : (broker.stamped letter.stamp).trace.getLast? = some (.sent letter.stamp) :=
        getLast?_concat
      refine ⟨⟨hallowed.names.carried hlog, hallowed.sessions.carried hlog,
        hlog.counted hallowed.counted, ?_, ?_⟩, fun _ => ⟨_, rfl, hholds⟩⟩
      · refine hsent.direct (by rw [hstamp]) hname hlast fun other hother => ?_
        exact (hsound.waits recipient target hby hopen other hother).append _
      refine along_concat.mpr ⟨hstamped.fits, fun name hfor => ?_⟩
      cases hname.symm.trans hfor
      refine ⟨hholds, notOvertaken_newest fun older holder => ?_, hlast⟩
      have hless := hsent.used recipient older (mem_append_left _ holder)
      rw [hstamp]
      exact Int.le_of_lt hless
    next hdenied =>
      exact ⟨hallowed, fun hdelivered => absurd hdelivered hdenied⟩
  · exact ⟨hstamped, fun hdelivered => absurd hdelivered (by simp)⟩

/-- A message for a name that is not connected. -/
theorem append (hclean : sanitizeName recipient = recipient)
    (hstamp : letter.stamp = ⟨broker.sends, some recipient⟩) :
    Core ((broker.stamped letter.stamp).appendInbox recipient letter).2
        ((broker.stamped letter.stamp).appendInbox recipient letter).2.inboxes ∧
      (((broker.stamped letter.stamp).appendInbox recipient letter).1 = true →
        letter ∈ ((broker.stamped letter.stamp).appendInbox recipient letter).2.inboxes
          recipient) ∧
      ∀ name, name ≠ recipient →
        ((broker.stamped letter.stamp).appendInbox recipient letter).2.inboxes name =
          broker.inboxes name := by
  have hstamped : Core (broker.stamped letter.stamp) broker.inboxes := by
    rw [hstamp]
    exact hsound.core.stamped (some recipient)
  have hcarries := carries_appendInbox (broker.stamped letter.stamp) recipient letter
  have hread : (broker.stamped letter.stamp).readInbox recipient = broker.inboxes recipient := by
    rw [Broker.readInbox, hclean]
    rfl
  have hname : letter.stamp.recipient = some recipient := by rw [hstamp]
  have hsent : Letters (broker.stamped letter.stamp).trace broker.sends broker.inboxes :=
    hsound.core.letters.silent trivial
  have hqueued := hsent.queued (by rw [hstamp]) hname
  have hfits : Along EventFits ((broker.stamped letter.stamp).trace ++ [Event.queued letter.stamp]) :=
    along_concat.mpr ⟨hstamped.fits, trivial⟩
  obtain ⟨hletters, hall⟩ := hqueued.shifted hfits
  unfold Broker.appendInbox at hcarries ⊢
  dsimp only at hcarries ⊢
  rw [hread] at hcarries ⊢
  split
  · refine ⟨hstamped, fun hkept => absurd hkept (by simp), fun name _ => rfl⟩
  rename_i hsmall
  rw [if_neg hsmall] at hcarries
  rw [append_assoc, singleton_append] at hletters hall
  refine ⟨⟨hstamped.names.carried hcarries, hstamped.sessions.carried hcarries,
    hcarries.counted hstamped.counted, ?_, hall⟩, fun _ => ?_, fun name hother => ?_⟩
  · simp only [Broker.writeInbox, hclean]
    exact hletters
  · simp only [Broker.writeInbox, hclean]
    rw [update_self]
    refine mem_of_mem_getLast? ?_
    rw [getLast?_shiftOldest, getLast?_concat]
    exact mem_some_self letter
  simp only [Broker.writeInbox, hclean]
  exact update_of_ne hother ..

theorem sendToName (id : JsString)
    {recipient : JsString} (hclean : sanitizeName recipient = recipient) (message : InboxMessage)
    (now : Nat) : Sound (broker.sendToName socket id recipient message now) := by
  have hcarries := carries_sendToName broker socket id recipient message now
  obtain ⟨letter, hletter⟩ : ∃ letter : Letter,
      letter = ⟨message, ⟨broker.sends, some recipient⟩⟩ := ⟨_, rfl⟩
  have hstamp : letter.stamp = ⟨broker.sends, some recipient⟩ := by rw [hletter]
  have hstamped : Core (broker.stamped letter.stamp) broker.inboxes := by
    rw [hstamp]
    exact hsound.core.stamped (some recipient)
  unfold Broker.sendToName at hcarries ⊢
  dsimp only at hcarries ⊢
  rw [← hletter, ← hstamp] at hcarries ⊢
  cases hholder : ((broker.stamped letter.stamp).byName recipient).filter fun target =>
      (broker.stamped letter.stamp).life target == .isOpen with
  | some target =>
    rw [hholder] at hcarries
    obtain ⟨hby, hopen⟩ := filter_eq_some_iff.mp hholder
    obtain ⟨hcore, hdelivered⟩ := hsound.direct hby (beq_iff_eq.mp hopen) id hstamp now
    refine hsound.carried hcarries (by simp [Broker.stamped, Broker.log]) ?_
    dsimp only
    split
    next hyes =>
      refine hcore.write trivial trivial fun name hname => ?_
      obtain ⟨before, htrace, hholds⟩ := hdelivered hyes
      obtain rfl : recipient = name := by
        rw [hstamp] at hname
        exact some.inj hname
      exact ⟨before, target, some id, letter, htrace, rfl, hholds⟩
    · exact hcore.write trivial trivial trivial
  | none =>
    rw [hholder] at hcarries
    dsimp only at hcarries ⊢
    split
    next hknown =>
      rw [if_pos hknown] at hcarries
      obtain ⟨hcore, hkept, hothers⟩ := hsound.append hclean hstamp
      refine ⟨?_, hsound.waits.carried hcarries fun name other hby hopen waiting hwaiting => ?_⟩
      · rw [write_inboxes]
        split
        next hyes =>
          refine hcore.acked fun name hname => ?_
          obtain rfl : recipient = name := by
            rw [hstamp] at hname
            exact some.inj hname
          exact mem_placed (hkept hyes)
        · exact hcore.write trivial trivial trivial
      rw [write_inboxes] at hwaiting
      have hne : name ≠ recipient := by
        rintro rfl
        exact absurd (beq_iff_eq.mpr hopen)
          (filter_eq_none_iff.mp hholder other hby)
      rwa [hothers name hne] at hwaiting
    next hunknown =>
      rw [if_neg hunknown] at hcarries
      exact hsound.carried hcarries (write_inboxes ..) (hstamped.write trivial trivial trivial)

/-! ## Hello and the end of a connection -/

theorem destroy : Sound (broker.destroy socket) := by
  have hnames := hsound.core.names.destroy socket
  have hsessions := hsound.core.sessions.destroy socket
  unfold Broker.destroy at hnames hsessions ⊢
  split at hnames
  next hopen =>
    rw [if_pos hopen] at hsessions ⊢
    refine ⟨⟨hnames, hsessions, ?_, hsound.core.letters.silent trivial,
      along_concat.mpr ⟨hsound.core.fits, trivial⟩⟩, fun name other hby hlife letter hletter => ?_⟩
    · simpa [Broker.log, isSent] using hsound.core.counted
    by_cases hother : other = socket
    · simp [Broker.log, hother] at hlife
    simp only [Broker.log, update_of_ne hother] at hlife
    exact (hsound.waits name other hby hlife letter hletter).append _
  next hclosed =>
    rw [if_neg hclosed]
    exact hsound

/-- The replay of an accepted hello leaves waiting what it does not take. -/
theorem enter {socket : Socket}
    (hopened : broker.life socket ≠ .unopened) (id : JsString) {info : HelloInfo}
    (hclean : sanitizeName info.name = info.name)
    (hfree : ∀ other, broker.byName info.name = some other → broker.life other ≠ .isOpen)
    (now : Nat) : Sound (broker.enter socket id info now) := by
  have hread : broker.readInbox info.name = broker.inboxes info.name := by
    rw [Broker.readInbox, hclean]
  unfold Broker.enter
  dsimp only
  rw [hread]
  obtain ⟨said, hsaid⟩ : ∃ said, said = ((broker.register socket info now).addKnownName
      info.name).log (.hello socket info (broker.inboxes info.name)) := ⟨_, rfl⟩
  have hhello : .hello socket info (broker.inboxes info.name) ∈ said.trace := by
    rw [hsaid]
    exact mem_append_right _ mem_cons_self
  have hcore : Core said broker.inboxes := by
    rw [hsaid]
    refine ⟨hsound.core.names.register _ now hopened hfree,
      hsound.core.sessions.register socket info _ now, ?_, hsound.core.letters.silent trivial,
      along_concat.mpr ⟨hsound.core.fits, fun letter hletter => ?_⟩⟩
    · simpa [Broker.log, Broker.addKnownName, Broker.register, isSent] using hsound.core.counted
    · exact hsound.core.letters.mine info.name letter hletter
  rw [← hsaid]
  have hwelcome := carries_write said socket
    (.welcome id said.listSessions (broker.inboxes info.name).length)
  have hwelcomed : Core (said.write socket
      (.welcome id said.listSessions (broker.inboxes info.name).length)) broker.inboxes :=
    hcore.write trivial trivial hcore.sessions.lists
  have hinboxes : (said.write socket
      (.welcome id said.listSessions (broker.inboxes info.name).length)).inboxes =
        broker.inboxes := by
    rw [write_inboxes, hsaid]
    rfl
  obtain ⟨welcomed, hsame⟩ : ∃ welcomed, welcomed = said.write socket
      (.welcome id said.listSessions (broker.inboxes info.name).length) := ⟨_, rfl⟩
  rw [← hsame] at hwelcome hwelcomed hinboxes ⊢
  -- the drained inbox: what it takes is on its way until it is written
  have hdrain : welcomed.drainInbox info.name replayMax =
      ((broker.inboxes info.name).take replayMax, { welcomed with
        inboxes := update broker.inboxes info.name
          ((broker.inboxes info.name).drop replayMax) }) := by
    rw [Broker.drainInbox, Broker.readInbox, Broker.writeInbox, hclean, hinboxes]
  rw [hdrain]
  obtain ⟨drained, hdrained⟩ : ∃ drained, drained = { welcomed with
      inboxes := update broker.inboxes info.name
        ((broker.inboxes info.name).drop replayMax) } := ⟨_, rfl⟩
  have hcarries : Carries welcomed drained := by
    rw [hdrained]
    exact ⟨rfl, rfl, rfl, rfl, fun _ => rfl, [], by simp, (append_nil _).symm, rfl⟩
  have hflight : Core drained (update broker.inboxes info.name
      ((broker.inboxes info.name).take replayMax ++ (broker.inboxes info.name).drop replayMax)) := by
    rw [take_append_drop, update_eq_self]
    exact hwelcomed.unchanged hcarries (by rw [hdrained])
  rw [← hdrained]
  have hmem := hcarries.mem (hwelcome.mem hhello)
  have hreplayed := hflight.replay hmem (fun letter hletter => hletter)
  have hall := (hwelcome.trans hcarries).trans
    (carries_replay socket ((broker.inboxes info.name).take replayMax) drained)
  have hafter : (drained.replay socket ((broker.inboxes info.name).take replayMax)).inboxes =
      update broker.inboxes info.name ((broker.inboxes info.name).drop replayMax) := by
    rw [replay_inboxes, hdrained]
  refine ⟨hafter ▸ hreplayed, fun name other hby hopen letter hletter => ?_⟩
  rw [hafter] at hletter
  rw [hall.byName, hsaid] at hby
  change update broker.byName info.name (some socket) name = some other at hby
  by_cases hname : name = info.name
  · subst hname
    rw [update_self] at hby hletter
    cases hby
    exact ⟨info, broker.inboxes info.name, hall.mem hhello, rfl, letter, hletter, rfl⟩
  rw [update_of_ne hname] at hby hletter
  rw [hall.life, hsaid] at hopen
  obtain ⟨events, -, htrace, -⟩ := hall.trace
  have hleft := hsound.waits name other hby hopen letter hletter
  rw [htrace, hsaid]
  exact (hleft.append [_]).append events

theorem handleHello {socket : Socket}
    (hopened : broker.life socket ≠ .unopened) (id : JsString) (raw : HelloInfo) (now : Nat) :
    Sound (broker.handleHello socket id raw now) := by
  unfold Broker.handleHello
  dsimp only
  split
  · refine Sound.destroy ?_ socket
    exact hsound.carried (carries_write ..) (write_inboxes ..)
      (hsound.core.write trivial trivial trivial)
  rename_i hfree
  refine hsound.enter hopened id (sanitizeName_sanitizeName raw.name) (fun other hby hopen => ?_)
    now
  apply hfree
  rw [hby]
  exact beq_iff_eq.mpr hopen

/-! ## Steps and runs -/

theorem handleFrame {socket : Socket}
    (hopened : broker.life socket ≠ .unopened) (frame : ClientFrame × Nat) :
    Sound (Broker.handleFrame socket broker frame) := by
  obtain ⟨frame, now⟩ := frame
  cases frame with
  | hello id info => exact hsound.handleHello hopened id info now
  | send id recipient project text ts =>
    simp only [Broker.handleFrame]
    split
    · exact hsound
    unfold Broker.handleSend
    split
    · exact hsound.sendToProject socket id _ _ now
    · exact hsound.sendToName socket id (sanitizeName_sanitizeName recipient) _ now
  | list id =>
    simp only [Broker.handleFrame]
    split
    · exact hsound
    exact hsound.carried (carries_write ..) (write_inboxes ..)
      (hsound.core.write trivial trivial hsound.core.sessions.lists)

end

theorem handleFrame_opened {socket : Socket} (hopened : broker.life socket ≠ .unopened)
    (frame : ClientFrame × Nat) :
    (Broker.handleFrame socket broker frame).life socket ≠ .unopened := by
  obtain ⟨frame, now⟩ := frame
  cases frame with
  | hello id info =>
    simp only [Broker.handleFrame, Broker.handleHello]
    split
    · unfold Broker.destroy
      split
      · simp [Broker.log]
      rw [(carries_write ..).life]
      exact hopened
    unfold Broker.enter
    rw [(carries_replay ..).life]
    change ((Broker.write _ socket _).life socket) ≠ .unopened
    rw [(carries_write ..).life]
    exact hopened
  | send id recipient project text ts =>
    simp only [Broker.handleFrame, Broker.handleSend]
    split
    · exact hopened
    split
    · rw [(carries_sendToProject ..).life]
      exact hopened
    rw [(carries_sendToName ..).life]
    exact hopened
  | list id =>
    simp only [Broker.handleFrame]
    split
    · exact hopened
    rw [(carries_write ..).life]
    exact hopened

section

variable (hsound : Sound broker)
include hsound

theorem data {socket : Socket} {frames : List (ClientFrame × Nat)}
    (hopened : broker.life socket ≠ .unopened) :
    Sound (frames.foldl (Broker.handleFrame socket) broker) := by
  induction frames generalizing broker with
  | nil => exact hsound
  | cons frame rest ih =>
    exact ih (hsound.handleFrame hopened frame) (handleFrame_opened hopened frame)

theorem accept {socket : Socket}
    (hunopened : broker.life socket = .unopened) : Sound (broker.accept socket) := by
  have hnames := hsound.core.names.accept hunopened
  have hsessions := hsound.core.sessions.accept hsound.core.names hunopened
  unfold Broker.accept at hnames hsessions ⊢
  split at hnames
  next hclosed =>
    rw [if_pos hclosed] at hsessions ⊢
    refine ⟨⟨hnames, hsessions, hsound.core.counted, hsound.core.letters, hsound.core.fits⟩,
      fun name other hby hopen => ?_⟩
    exact absurd hopen (hnames.noneOpen hclosed other)
  rename_i hclosed
  rw [if_neg hclosed] at hsessions ⊢
  refine ⟨⟨hnames, hsessions, hsound.core.counted, hsound.core.letters, hsound.core.fits⟩,
    fun name other hby hopen => ?_⟩
  by_cases hother : other = socket
  · subst hother
    have hnamed := hsound.core.names.named other name hby
    exact absurd hnamed ((hsound.core.names.unopened other hunopened).1 name)
  simp only [update_of_ne hother] at hopen
  exact hsound.waits name other hby hopen

theorem onClose {socket : Socket}
    (hdead : broker.life socket = .destroyed) : Sound (broker.onClose socket) := by
  have hnames := hsound.core.names.onClose hdead
  refine ⟨⟨hnames, hsound.core.sessions.onClose socket, ?_, hsound.core.letters.silent trivial,
    along_concat.mpr ⟨hsound.core.fits, trivial⟩⟩, fun name other hby hopen letter hletter => ?_⟩
  · simpa [Broker.onClose, Broker.log, isSent] using hsound.core.counted
  have hholds := hnames.holds_iff.mpr ⟨hby, hopen⟩
  have hbefore : Holds broker.trace other name := by
    refine ⟨?_, fun hgone => hholds.2 (gone_append.mpr (.inl hgone))⟩
    rcases named_append.mp hholds.1 with hnamed | ⟨info, waiting, hmem, -⟩
    · exact hnamed
    · simp at hmem
  obtain ⟨hheld, hlive⟩ := hsound.core.names.holds_iff.mp hbefore
  exact (hsound.waits name other hheld hlive letter hletter).append _

theorem close : Sound broker.close := by
  refine ⟨⟨hsound.core.names.close, Sessions.close broker, ?_, hsound.core.letters.silent trivial,
    along_concat.mpr ⟨hsound.core.fits, trivial⟩⟩, fun name other hby => ?_⟩
  · simpa [Broker.close, Broker.log, isSent] using hsound.core.counted
  · exact absurd hby (by simp [Broker.close, Broker.log])

theorem step {input : Input} {next : Broker}
    (hnext : AgentsBroker.step broker input = some next) : Sound next := by
  cases input with
  | connect socket =>
    obtain ⟨hunopened, hsame⟩ := ite_none_right_eq_some.mp hnext
    cases hsame
    exact hsound.accept hunopened
  | data socket frames =>
    obtain ⟨hopen, hsame⟩ := ite_none_right_eq_some.mp hnext
    cases hsame
    exact hsound.data (by simp [hopen])
  | fail socket =>
    obtain ⟨-, hsame⟩ := ite_none_right_eq_some.mp hnext
    cases hsame
    exact hsound.destroy socket
  | closeEvent socket =>
    obtain ⟨hdead, hsame⟩ := ite_none_right_eq_some.mp hnext
    cases hsame
    exact hsound.onClose hdead
  | close =>
    cases hnext
    exact hsound.close

end

theorem start (known : List JsString) (files : JsString → List InboxMessage) :
    Sound (newBroker known files) := by
  have hmem : ∀ name, ∀ letter ∈ (newBroker known files).inboxes name,
      letter.stamp.recipient = some name ∧ letter.stamp.number < 0 := by
    intro name letter hletter
    obtain ⟨index, hindex, rfl⟩ := mem_mapIdx.mp hletter
    refine ⟨rfl, ?_⟩
    change (index : Int) - (files name).length < 0
    omega
  have hsorted : ∀ name, ((newBroker known files).inboxes name).Pairwise fun first second =>
      first.stamp.number < second.stamp.number := by
    intro name
    rw [pairwise_iff_getElem]
    intro first second hfirst hsecond hless
    simp only [newBroker, getElem_mapIdx]
    omega
  refine ⟨⟨Names.start known files, Sessions.start known files, rfl,
    ⟨fun name letter hletter => ⟨(hmem name letter hletter).1, fun hpos => ?_⟩, hsorted,
      fun name stamp hstamp => ?_, fun name => ?_, fun _ _ _ => along_nil _,
      fun _ _ _ _ _ _ hack => absurd hack not_mem_nil⟩, along_nil _⟩,
    fun _ _ hby => absurd hby (by simp [newBroker])⟩
  · exact absurd (hmem name letter hletter).2 (Int.not_lt.mpr hpos)
  · obtain ⟨letter, hletter, rfl⟩ := mem_map.mp hstamp
    exact (hmem name letter hletter).2
  change (((newBroker known files).inboxes name).map Letter.stamp).Nodup
  refine List.Pairwise.map Letter.stamp (fun first second hless => ?_) (hsorted name)
  intro hsame
  rw [hsame] at hless
  exact lt_irrefl _ hless

end Sound

/-- After any run every broker delivers: a name has one live connection, the list is that of the
connections, a send to a name has one place, and events come after what they need. -/
theorem run_delivers (known : List JsString) (files : JsString → List InboxMessage)
    (inputs : List Input) (broker : Broker)
    (hrun : run step (newBroker known files) inputs = some broker) : Delivers broker := by
  have hsound : Sound broker :=
    run_invariant (fun _ _ _ hsound hnext => hsound.step hnext) (Sound.start known files) hrun
  exact ⟨fun _ _ _ => hsound.core.names.oneHolder, hsound.core.sessions.lists,
    hsound.core.letters.once, hsound.core.letters.kept, hsound.core.fits⟩

/-- The sends of one sender to a name, in the order of their writes. -/
def writtenBy (trace : List Event) (sender name : JsString) : List Stamp :=
  trace.filterMap fun
    | .wrote _ (.deliver _ letter) =>
      if letter.message.sender = sender then letter.stamp.forName name else none
    | _ => none

section Overtaking

private def ann : JsString := js "ann".toList
private def bob : JsString := js "bob".toList

private def sayHello (name : JsString) : ClientFrame × Nat := (.hello [] ⟨name, []⟩, 1)
private def sendBob (number : Nat) : ClientFrame × Nat := (.send [] bob [] (decimal number) 1, 1)

/-- Bob is away while Ann sends him 21 messages; he connects, she sends one more, and he
connects again. -/
private def overtaking : List Input :=
  [.connect 0, .data 0 [sayHello bob], .fail 0, .closeEvent 0,
    .connect 1, .data 1 (sayHello ann :: (List.range 21).map sendBob),
    .connect 2, .data 2 [sayHello bob], .data 1 [sendBob 21], .fail 2, .closeEvent 2,
    .connect 3, .data 3 [sayHello bob]]

/-- Bob says hello twice: his connection is destroyed, and listed until it is closed. -/
private def repeated : List Input := [.connect 0, .data 0 [sayHello bob, sayHello bob]]

set_option maxRecDepth 8000 in
theorem run_delivers_overtaking :
    ∃ broker, run step (newBroker [] fun _ => []) overtaking = some broker ∧ Delivers broker := by
  have hsome : (run step (newBroker [] fun _ => []) overtaking).isSome = true := by decide
  obtain ⟨broker, hrun⟩ := isSome_iff_exists.mp hsome
  exact ⟨broker, hrun, run_delivers [] (fun _ => []) overtaking broker hrun⟩

set_option maxRecDepth 8000 in
/-- Messages of one sender to one name are not always written in their order, and the list may
name a session whose connection is no longer live. -/
theorem not_always_in_order :
    (¬ ∀ inputs broker, run step (newBroker [] fun _ => []) inputs = some broker →
      ∀ sender name, (writtenBy broker.trace sender name).Pairwise fun first second =>
        first.number < second.number) ∧
    ¬ ∀ inputs broker, run step (newBroker [] fun _ => []) inputs = some broker →
      ∀ session ∈ broker.listSessions, ∃ socket, Holds broker.trace socket session.name := by
  constructor
  · intro hordered
    have hbroken : (run step (newBroker [] fun _ => []) overtaking).any (fun broker =>
        !decide ((writtenBy broker.trace ann bob).Pairwise fun first second =>
          first.number < second.number)) = true := by decide
    obtain ⟨broker, hrun, hpairs⟩ := (Option.any_eq_true _ _).mp hbroken
    simp only [Bool.not_eq_true', decide_eq_false_iff_not] at hpairs
    exact hpairs (hordered overtaking broker hrun ann bob)
  intro hlive
  have hlisted : (run step (newBroker [] fun _ => []) repeated).any (fun broker =>
      broker.listSessions == [⟨bob, [], 1⟩] && broker.byName bob == some 0 &&
        broker.life 0 == .destroyed) = true := by decide
  obtain ⟨broker, hrun, hstate⟩ := (Option.any_eq_true _ _).mp hlisted
  simp only [Bool.and_eq_true, beq_iff_eq] at hstate
  obtain ⟨⟨hlist, hby⟩, hdead⟩ := hstate
  obtain ⟨socket, hholds⟩ := hlive repeated broker hrun ⟨bob, [], 1⟩ (by rw [hlist]; simp)
  have hsound : Sound broker :=
    run_invariant (fun _ _ _ hsound hnext => hsound.step hnext) (Sound.start [] _) hrun
  obtain ⟨hheld, hopen⟩ := hsound.core.names.holds_iff.mp hholds
  obtain rfl : 0 = socket := Option.some.inj (hby.symm.trans hheld)
  cases hdead.symm.trans hopen

end Overtaking

end Hummin.AgentsBroker
