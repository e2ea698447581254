/-
Names and sessions of the broker: the maps by name and by connection agree with the events.
-/
import Hummin.AgentsBrokerEvents

namespace Hummin.AgentsBroker

open List Function

/-! ## Events that leave names and sessions as they are -/

def isPlain : Event → Bool
  | .hello .. | .destroyed _ | .closed _ | .shutdown => false
  | _ => true

section Events

variable {trace events : List Event} {event : Event} {socket : Socket} {name : JsString}

theorem named_append : Named (trace ++ events) socket name ↔
    Named trace socket name ∨ Named events socket name := by
  constructor
  · rintro ⟨info, waiting, hmem, hname⟩
    rcases mem_append.mp hmem with hmem | hmem
    · exact .inl ⟨info, waiting, hmem, hname⟩
    · exact .inr ⟨info, waiting, hmem, hname⟩
  rintro (⟨info, waiting, hmem, hname⟩ | ⟨info, waiting, hmem, hname⟩)
  · exact ⟨info, waiting, mem_append_left events hmem, hname⟩
  · exact ⟨info, waiting, mem_append_right trace hmem, hname⟩

theorem gone_append : Gone (trace ++ events) socket ↔ Gone trace socket ∨ Gone events socket := by
  simp only [Gone, mem_append]
  tauto

theorem sessionOf_concat : sessionOf (trace ++ [event]) socket =
    sessionAfter socket (sessionOf trace socket) event := by
  rw [sessionOf, foldl_append]
  rfl

section

variable (hplain : ∀ event ∈ events, isPlain event = true)

include hplain

theorem not_named_of_plain : ¬ Named events socket name := by
  rintro ⟨info, waiting, hmem, -⟩
  exact Bool.false_ne_true (hplain _ hmem)

theorem not_gone_of_plain : ¬ Gone events socket := by
  rintro (hmem | hmem)
  · exact Bool.false_ne_true (hplain _ hmem)
  · exact Bool.false_ne_true (hplain _ hmem)

theorem named_append_plain : Named (trace ++ events) socket name ↔ Named trace socket name := by
  rw [named_append, or_iff_left (not_named_of_plain hplain)]

theorem gone_append_plain : Gone (trace ++ events) socket ↔ Gone trace socket := by
  rw [gone_append, or_iff_left (not_gone_of_plain hplain)]

end

theorem sessionAfter_plain (hplain : isPlain event = true) (session : Option HelloInfo) :
    sessionAfter socket session event = session := by
  cases event with
  | hello other info waiting => exact absurd hplain Bool.false_ne_true
  | closed other => exact absurd hplain Bool.false_ne_true
  | shutdown => exact absurd hplain Bool.false_ne_true
  | _ => rfl

theorem sessionOf_append_plain (hplain : ∀ event ∈ events, isPlain event = true) :
    sessionOf (trace ++ events) socket = sessionOf trace socket := by
  induction events using reverseRecOn with
  | nil => rw [append_nil]
  | append_singleton front last ih =>
    rw [← append_assoc, sessionOf_concat, sessionAfter_plain (hplain last (by simp))]
    exact ih fun event hevent => hplain event (mem_append_left [last] hevent)

theorem named_of_session {info : HelloInfo} (hsession : sessionOf trace socket = some info) :
    Named trace socket info.name := by
  induction trace using reverseRecOn generalizing info with
  | nil => simp [sessionOf] at hsession
  | append_singleton front last ih =>
    rw [sessionOf_concat] at hsession
    rw [named_append]
    cases last with
    | hello other said waiting =>
      simp only [sessionAfter] at hsession
      split at hsession
      next hother =>
        obtain rfl := Option.some.inj hsession
        exact .inr ⟨said, waiting, by simp [hother], rfl⟩
      · exact .inl (ih hsession)
    | closed other =>
      simp only [sessionAfter] at hsession
      split at hsession
      · cases hsession
      · exact .inl (ih hsession)
    | shutdown => exact absurd hsession (by simp [sessionAfter])
    | _ => exact .inl (ih hsession)

end Events

/-! ## What a step keeps when it registers, closes and destroys nothing -/

/-- `next` has the connections and names of `broker`, and plain events more. -/
structure Carries (broker next : Broker) : Prop where
  closed : next.closed = broker.closed
  life : next.life = broker.life
  byName : next.byName = broker.byName
  conns : next.conns = broker.conns
  info : ∀ socket, (next.states socket).info = (broker.states socket).info
  trace : ∃ events, (∀ event ∈ events, isPlain event = true) ∧
    next.trace = broker.trace ++ events ∧ next.sends = broker.sends + events.countP isSent

namespace Carries

theorem refl (broker : Broker) : Carries broker broker :=
  ⟨rfl, rfl, rfl, rfl, fun _ => rfl, [], by simp, by simp, rfl⟩

theorem trans {first second third : Broker} (hfirst : Carries first second)
    (hsecond : Carries second third) : Carries first third := by
  obtain ⟨events, hplain, htrace, hsends⟩ := hfirst.trace
  obtain ⟨others, hothers, hthird, hlast⟩ := hsecond.trace
  refine ⟨hsecond.closed.trans hfirst.closed, hsecond.life.trans hfirst.life,
    hsecond.byName.trans hfirst.byName, hsecond.conns.trans hfirst.conns,
    fun socket => (hsecond.info socket).trans (hfirst.info socket), events ++ others, ?_, ?_, ?_⟩
  · exact forall_mem_append.mpr ⟨hplain, hothers⟩
  · rw [hthird, htrace, append_assoc]
  · rw [hlast, hsends, countP_append, Nat.add_assoc]

variable {broker next : Broker} {socket : Socket} {name : JsString}

section

variable (hcarries : Carries broker next)

include hcarries

theorem named : Named next.trace socket name ↔ Named broker.trace socket name := by
  obtain ⟨events, hplain, htrace, -⟩ := hcarries.trace
  rw [htrace, named_append_plain hplain]

theorem gone : Gone next.trace socket ↔ Gone broker.trace socket := by
  obtain ⟨events, hplain, htrace, -⟩ := hcarries.trace
  rw [htrace, gone_append_plain hplain]

theorem session (socket : Socket) :
    sessionOf next.trace socket = sessionOf broker.trace socket := by
  obtain ⟨events, hplain, htrace, -⟩ := hcarries.trace
  rw [htrace, sessionOf_append_plain hplain]

theorem mem {event : Event} (hevent : event ∈ broker.trace) : event ∈ next.trace := by
  obtain ⟨events, -, htrace, -⟩ := hcarries.trace
  rw [htrace]
  exact mem_append_left events hevent

theorem of_mem {event : Event} (hplain : isPlain event = false)
    (hevent : event ∈ next.trace) : event ∈ broker.trace := by
  obtain ⟨events, hevents, htrace, -⟩ := hcarries.trace
  rw [htrace] at hevent
  rcases mem_append.mp hevent with hevent | hevent
  · exact hevent
  · exact absurd (hplain.symm.trans (hevents event hevent)) Bool.false_ne_true

theorem counted (hcounted : broker.sends = broker.trace.countP isSent) :
    next.sends = next.trace.countP isSent := by
  obtain ⟨events, -, htrace, hsends⟩ := hcarries.trace
  rw [hsends, htrace, countP_append, hcounted]

end

end Carries

section

variable (broker : Broker)
include broker

theorem carries_log {event : Event} (hplain : isPlain event = true)
    (hsent : isSent event = false) : Carries broker (broker.log event) := by
  refine ⟨rfl, rfl, rfl, rfl, fun _ => rfl, [event], ?_, rfl, by simp [hsent, Broker.log]⟩
  intro other hother
  rw [mem_singleton.mp hother]
  exact hplain

theorem carries_write (socket : Socket) (frame : ServerFrame) :
    Carries broker (broker.write socket frame) := by
  unfold Broker.write
  split
  · exact carries_log broker rfl rfl
  · exact carries_log broker rfl rfl

theorem carries_stamped (stamp : Stamp) : Carries broker (broker.stamped stamp) :=
  ⟨rfl, rfl, rfl, rfl, fun _ => rfl, [.sent stamp], by simp [isPlain], rfl, rfl⟩

theorem carries_allowDelivery (socket : Socket) (now : Nat) :
    Carries broker (broker.allowDelivery socket now).2 := by
  refine ⟨rfl, rfl, rfl, rfl, fun other => ?_, [], by simp, (append_nil _).symm, rfl⟩
  by_cases hother : other = socket
  · subst hother
    simp [Broker.allowDelivery]
  · simp [Broker.allowDelivery, hother]

theorem carries_deliver (id : JsString) (letter : Letter) (now : Nat)
    (target : Socket) : Carries broker (broker.deliver id letter now target).2 := by
  unfold Broker.deliver
  have hallow := carries_allowDelivery broker target now
  split
  · dsimp only
    split
    · exact hallow.trans (carries_write _ target _)
    · exact hallow
  · exact Carries.refl broker

end

theorem carries_broadcast (id : JsString) (letter : Letter) (now : Nat) (targets : List Socket)
    (broker : Broker) : Carries broker (broker.broadcast id letter now targets).2 := by
  induction targets generalizing broker with
  | nil => exact Carries.refl broker
  | cons target rest ih =>
    exact (carries_deliver broker id letter now target).trans (ih _)

theorem carries_replay (socket : Socket) (letters : List Letter) (broker : Broker) :
    Carries broker (broker.replay socket letters) := by
  induction letters generalizing broker with
  | nil => exact Carries.refl broker
  | cons letter rest ih =>
    exact (carries_write broker socket (.deliver none letter)).trans (ih _)

theorem carries_appendInbox (broker : Broker) (name : JsString) (letter : Letter) :
    Carries broker (broker.appendInbox name letter).2 := by
  unfold Broker.appendInbox
  dsimp only
  split
  · exact Carries.refl broker
  refine ⟨rfl, rfl, rfl, rfl, fun _ => rfl, _, ?_, rfl, ?_⟩
  · intro event hevent
    rcases mem_cons.mp hevent with rfl | hevent
    · rfl
    obtain ⟨messages, -, rfl⟩ := mem_map.mp hevent
    rfl
  rw [countP_eq_zero.mpr, Nat.add_zero]
  · rfl
  intro event hevent
  rcases mem_cons.mp hevent with rfl | hevent
  · exact Bool.false_ne_true
  obtain ⟨messages, -, rfl⟩ := mem_map.mp hevent
  exact Bool.false_ne_true

theorem carries_sendToProject (broker : Broker) (socket : Socket) (id dirName : JsString)
    (message : InboxMessage) (now : Nat) :
    Carries broker (broker.sendToProject socket id dirName message now) :=
  ((carries_stamped broker _).trans (carries_broadcast id _ now _ _)).trans (carries_write _ _ _)

theorem carries_sendToName (broker : Broker) (socket : Socket) (id recipient : JsString)
    (message : InboxMessage) (now : Nat) :
    Carries broker (broker.sendToName socket id recipient message now) := by
  have hstamped := carries_stamped broker ⟨broker.sends, some recipient⟩
  unfold Broker.sendToName
  dsimp only
  split
  · exact (hstamped.trans (carries_deliver _ id _ now _)).trans (carries_write _ _ _)
  split
  · exact (hstamped.trans (carries_appendInbox _ recipient _)).trans (carries_write _ _ _)
  · exact hstamped.trans (carries_write _ _ _)

/-! ## Names -/

/-- The life of the sockets and the map by name are those of the events. -/
structure Names (broker : Broker) : Prop where
  openNotGone : ∀ socket, broker.life socket = .isOpen → ¬ Gone broker.trace socket
  dead : ∀ socket, broker.life socket ≠ .unopened → broker.life socket ≠ .isOpen →
    Gone broker.trace socket
  unopened : ∀ socket, broker.life socket = .unopened →
    (∀ name, ¬ Named broker.trace socket name) ∧ .destroyed socket ∉ broker.trace
  shut : .shutdown ∈ broker.trace ↔ broker.closed = true
  noneOpen : broker.closed = true → ∀ socket, broker.life socket ≠ .isOpen
  held : ∀ socket name, Named broker.trace socket name → broker.life socket = .isOpen →
    broker.byName name = some socket
  named : ∀ socket name, broker.byName name = some socket → Named broker.trace socket name

namespace Names

variable {broker next : Broker}

section

variable (hnames : Names broker)

include hnames

theorem holds_iff {socket : Socket} {name : JsString} :
    Holds broker.trace socket name ↔
      broker.byName name = some socket ∧ broker.life socket = .isOpen := by
  constructor
  · rintro ⟨hnamed, hgone⟩
    have hopen : broker.life socket = .isOpen := by
      by_contra hclosed
      refine hgone (hnames.dead socket (fun hunopened => ?_) hclosed)
      exact (hnames.unopened socket hunopened).1 name hnamed
    exact ⟨hnames.held socket name hnamed hopen, hopen⟩
  rintro ⟨hby, hopen⟩
  exact ⟨hnames.named socket name hby, hnames.openNotGone socket hopen⟩

theorem oneHolder {socket other : Socket} {name : JsString}
    (hsocket : Holds broker.trace socket name) (hother : Holds broker.trace other name) :
    socket = other := by
  have hby := (hnames.holds_iff.mp hsocket).1
  rw [(hnames.holds_iff.mp hother).1] at hby
  exact (Option.some.inj hby).symm

theorem carried (hcarries : Carries broker next) : Names next where
  openNotGone socket hopen := by
    rw [hcarries.life] at hopen
    rw [hcarries.gone]
    exact hnames.openNotGone socket hopen
  dead socket hunopened hopen := by
    rw [hcarries.life] at hunopened hopen
    rw [hcarries.gone]
    exact hnames.dead socket hunopened hopen
  unopened socket hunopened := by
    rw [hcarries.life] at hunopened
    obtain ⟨hnamed, hdestroyed⟩ := hnames.unopened socket hunopened
    refine ⟨fun name hnext => hnamed name (hcarries.named.mp hnext), fun hnext => ?_⟩
    exact hdestroyed (hcarries.of_mem rfl hnext)
  shut := by
    rw [hcarries.closed, ← hnames.shut]
    exact ⟨fun hshut => hcarries.of_mem rfl hshut, fun hshut => hcarries.mem hshut⟩
  noneOpen hclosed := by
    rw [hcarries.closed] at hclosed
    rw [hcarries.life]
    exact hnames.noneOpen hclosed
  held socket name hnamed hopen := by
    rw [hcarries.life] at hopen
    rw [hcarries.byName]
    exact hnames.held socket name (hcarries.named.mp hnamed) hopen
  named socket name hby := by
    rw [hcarries.byName] at hby
    exact hcarries.named.mpr (hnames.named socket name hby)

theorem accept {socket : Socket}
    (hunopened : broker.life socket = .unopened) : Names (broker.accept socket) := by
  obtain ⟨hnone, hdestroyed⟩ := hnames.unopened socket hunopened
  unfold Broker.accept
  split
  next hclosed =>
    refine ⟨fun other hopen => ?_, fun other _ _ => .inr (hnames.shut.mpr hclosed),
      fun other hlife => ?_, hnames.shut, fun _ other => ?_, fun other name hnamed hopen => ?_, hnames.named⟩
    · by_cases hother : other = socket
      · simp [hother] at hopen
      simp only [update_of_ne hother] at hopen
      exact hnames.openNotGone other hopen
    · by_cases hother : other = socket
      · simp [hother] at hlife
      simp only [update_of_ne hother] at hlife
      exact hnames.unopened other hlife
    · by_cases hother : other = socket
      · simp [hother]
      simp only [update_of_ne hother]
      exact hnames.noneOpen hclosed other
    by_cases hother : other = socket
    · simp [hother] at hopen
    simp only [update_of_ne hother] at hopen
    exact hnames.held other name hnamed hopen
  rename_i hclosed
  refine ⟨fun other hopen => ?_, fun other hlife hopen => ?_, fun other hlife => ?_,
    hnames.shut, fun hshut => absurd hshut hclosed, fun other name hnamed hopen => ?_,
    hnames.named⟩
  · by_cases hother : other = socket
    · subst hother
      rintro (hgone | hgone)
      · exact hdestroyed hgone
      · exact hclosed (hnames.shut.mp hgone)
    simp only [update_of_ne hother] at hopen
    exact hnames.openNotGone other hopen
  · by_cases hother : other = socket
    · simp [hother] at hopen
    simp only [ne_eq, update_of_ne hother] at hlife hopen
    exact hnames.dead other hlife hopen
  · by_cases hother : other = socket
    · simp [hother] at hlife
    simp only [update_of_ne hother] at hlife
    exact hnames.unopened other hlife
  by_cases hother : other = socket
  · exact absurd (hother ▸ hnamed) (hnone name)
  simp only [update_of_ne hother] at hopen
  exact hnames.held other name hnamed hopen

theorem destroy (socket : Socket) : Names (broker.destroy socket) := by
  unfold Broker.destroy
  split
  next hopen =>
    have hgone : ∀ other, Gone (broker.trace ++ [Event.destroyed socket]) other ↔
        Gone broker.trace other ∨ other = socket := by
      intro other
      rw [gone_append]
      simp [Gone, eq_comm]
    have hnamed : ∀ other name, Named (broker.trace ++ [Event.destroyed socket]) other name ↔
        Named broker.trace other name := by
      intro other name
      rw [named_append]
      simp [Named]
    refine ⟨fun other hlife => ?_, fun other hlife hdead => ?_, fun other hlife => ?_, ?_,
      fun hclosed => absurd hopen (hnames.noneOpen hclosed socket), fun other name hother hlife => ?_,
      fun other name hby => (hnamed other name).mpr (hnames.named other name hby)⟩
    · refine fun hother => ?_
      by_cases hsame : other = socket
      · simp [Broker.log, hsame] at hlife
      simp only [Broker.log, update_of_ne hsame] at hlife
      rcases (hgone other).mp hother with hother | hother
      · exact hnames.openNotGone other hlife hother
      · exact hsame hother
    · by_cases hsame : other = socket
      · exact (hgone other).mpr (.inr hsame)
      simp only [Broker.log, ne_eq, update_of_ne hsame] at hlife hdead
      exact (hgone other).mpr (.inl (hnames.dead other hlife hdead))
    · by_cases hsame : other = socket
      · simp [Broker.log, hsame] at hlife
      simp only [Broker.log, update_of_ne hsame] at hlife
      obtain ⟨hnone, hdestroyed⟩ := hnames.unopened other hlife
      refine ⟨fun name hother => hnone name ((hnamed other name).mp hother), ?_⟩
      simp [Broker.log, hdestroyed, hsame]
    · simp only [Broker.log, mem_append, mem_singleton, reduceCtorEq, or_false]
      exact hnames.shut
    by_cases hsame : other = socket
    · simp [Broker.log, hsame] at hlife
    simp only [Broker.log, update_of_ne hsame] at hlife
    exact hnames.held other name ((hnamed other name).mp hother) hlife
  · exact hnames

/-- A hello is accepted when no live connection has its name. -/
theorem register {socket : Socket} {info : HelloInfo}
    (waiting : List Letter) (now : Nat) (hopened : broker.life socket ≠ .unopened)
    (hfree : ∀ other, broker.byName info.name = some other → broker.life other ≠ .isOpen) :
    Names (((broker.register socket info now).addKnownName info.name).log
      (.hello socket info waiting)) := by
  have hgone : ∀ other, Gone (broker.trace ++ [Event.hello socket info waiting]) other ↔
      Gone broker.trace other := by
    intro other
    rw [gone_append]
    simp [Gone]
  have hnamed : ∀ other name, Named (broker.trace ++ [Event.hello socket info waiting]) other name ↔
      Named broker.trace other name ∨ (other = socket ∧ name = info.name) := by
    intro other name
    rw [named_append]
    simp [Named, eq_comm]
  refine ⟨fun other hlife hother => hnames.openNotGone other hlife ((hgone other).mp hother),
    fun other hlife hdead => (hgone other).mpr (hnames.dead other hlife hdead),
    fun other hlife => ?_, ?_, hnames.noneOpen, fun other name hother hlife => ?_,
    fun other name hby => ?_⟩
  · obtain ⟨hnone, hdestroyed⟩ := hnames.unopened other hlife
    refine ⟨fun name hother => ?_, ?_⟩
    · rcases (hnamed other name).mp hother with hother | ⟨rfl, -⟩
      · exact hnone name hother
      · exact hopened hlife
    · simpa [Broker.log, Broker.addKnownName, Broker.register] using hdestroyed
  · simp only [Broker.log, Broker.addKnownName, Broker.register, mem_append,
      mem_singleton, reduceCtorEq, or_false]
    exact hnames.shut
  · change update broker.byName info.name (some socket) name = some other
    rcases (hnamed other name).mp hother with hold | ⟨rfl, rfl⟩
    · have hby := hnames.held other name hold hlife
      have hname : name ≠ info.name := fun hname => hfree other (hname ▸ hby) hlife
      rw [update_of_ne hname, hby]
    · exact update_self ..
  change update broker.byName info.name (some socket) name = some other at hby
  refine (hnamed other name).mpr ?_
  by_cases hname : name = info.name
  · rw [hname, update_self] at hby
    exact .inr ⟨(Option.some.inj hby).symm, hname⟩
  rw [update_of_ne hname] at hby
  exact .inl (hnames.named other name hby)

theorem onClose {socket : Socket}
    (hdead : broker.life socket = .destroyed) : Names (broker.onClose socket) := by
  have hgone : ∀ other, Gone (broker.trace ++ [Event.closed socket]) other ↔
      Gone broker.trace other := by
    intro other
    rw [gone_append]
    simp [Gone]
  have hnamed : ∀ other name, Named (broker.trace ++ [Event.closed socket]) other name ↔
      Named broker.trace other name := by
    intro other name
    rw [named_append]
    simp [Named]
  have hlife : ∀ other, (broker.onClose socket).life other =
      if other = socket then .closed else broker.life other :=
    fun other => update_apply ..
  have hby : ∀ name other, (broker.onClose socket).byName name = some other →
      broker.byName name = some other := by
    intro name other hother
    simp only [Broker.onClose, Broker.log] at hother
    split at hother
    · rw [update_apply] at hother
      split at hother
      · cases hother
      · exact hother
    · exact hother
  have hkept : ∀ name other, other ≠ socket → broker.byName name = some other →
      (broker.onClose socket).byName name = some other := by
    intro name other hother hheld
    simp only [Broker.onClose, Broker.log]
    split
    next hdeleted =>
      rw [update_of_ne]
      · exact hheld
      rintro rfl
      exact hother (Option.some.inj (hheld.symm.trans hdeleted.2))
    · exact hheld
  refine ⟨fun other hopen hother => ?_, fun other hopened hclosed => ?_, fun other hunopened => ?_,
    ?_, fun hclosed other => ?_, fun other name hother hopen => ?_, fun other name hother =>
      (hnamed other name).mpr (hnames.named other name (hby name other hother))⟩
  · rw [hlife] at hopen
    split at hopen
    · cases hopen
    · exact hnames.openNotGone other hopen ((hgone other).mp hother)
  · rw [hlife] at hopened hclosed
    refine (hgone other).mpr ?_
    split at hopened
    next hother =>
      exact hnames.dead other (by simp [hother, hdead]) (by simp [hother, hdead])
    next hother =>
      rw [if_neg hother] at hclosed
      exact hnames.dead other hopened hclosed
  · rw [hlife] at hunopened
    split at hunopened
    · cases hunopened
    obtain ⟨hnone, hdestroyed⟩ := hnames.unopened other hunopened
    refine ⟨fun name hother => hnone name ((hnamed other name).mp hother), ?_⟩
    simpa [Broker.onClose, Broker.log] using hdestroyed
  · simp only [Broker.onClose, Broker.log, mem_append, mem_singleton, reduceCtorEq, or_false]
    exact hnames.shut
  · rw [hlife]
    split
    · simp
    · exact hnames.noneOpen hclosed other
  rw [hlife] at hopen
  split at hopen
  · cases hopen
  next hsame =>
    exact hkept name other hsame (hnames.held other name ((hnamed other name).mp hother) hopen)

theorem close : Names broker.close := by
  have hgone : ∀ other, Gone (broker.trace ++ [Event.shutdown]) other := by
    intro other
    exact .inr (by simp)
  have hlife : ∀ other, broker.close.life other ≠ .isOpen := by
    intro other
    simp only [Broker.close, Broker.log]
    split
    · simp
    · assumption
  refine ⟨fun other hopen => absurd hopen (hlife other), fun other _ _ => hgone other,
    fun other hunopened => ?_, ?_, fun _ => hlife, fun other _ _ hopen => absurd hopen (hlife other),
    fun other name hby => ?_⟩
  · have hbefore : broker.life other = .unopened := by
      simp only [Broker.close, Broker.log] at hunopened
      split at hunopened
      · cases hunopened
      · exact hunopened
    obtain ⟨hnone, hdestroyed⟩ := hnames.unopened other hbefore
    refine ⟨fun name hother => ?_, ?_⟩
    · rcases named_append.mp hother with hother | ⟨info, waiting, hmem, -⟩
      · exact hnone name hother
      · simp at hmem
    · simpa [Broker.close, Broker.log] using hdestroyed
  · simp [Broker.close, Broker.log]
  · exact absurd hby (by simp [Broker.close, Broker.log])

end

theorem start (known : List JsString) (files : JsString → List InboxMessage) :
    Names (newBroker known files) := by
  refine ⟨fun _ hopen => ?_, fun _ hopened _ => absurd rfl hopened, fun _ _ => ⟨fun _ => ?_, ?_⟩,
    ?_, fun _ _ => ?_, fun _ _ hnamed _ => ?_, fun _ _ hby => ?_⟩
  · exact absurd hopen (by simp [newBroker])
  · rintro ⟨info, waiting, hmem, -⟩
    simp [newBroker] at hmem
  · simp [newBroker]
  · simp [newBroker]
  · simp [newBroker]
  · obtain ⟨info, waiting, hmem, -⟩ := hnamed
    simp [newBroker] at hmem
  · exact absurd hby (by simp [newBroker])

end Names

/-! ## Sessions -/

/-- The map of connections has the sessions of the events. -/
structure Sessions (broker : Broker) : Prop where
  nodup : broker.conns.Nodup
  mem : ∀ socket ∈ broker.conns,
    sessionOf broker.trace socket = some (broker.states socket).info
  of_session : ∀ socket, sessionOf broker.trace socket ≠ none → socket ∈ broker.conns

namespace Sessions

variable {broker next : Broker}

section

variable (hsessions : Sessions broker)

include hsessions

/-- The sessions of the map are those of the events, each connection once. -/
theorem lists : Lists broker.trace broker.listSessions := by
  refine ⟨broker.conns, hsessions.nodup, ?_, hsessions.of_session⟩
  rw [Broker.listSessions, map_map]
  apply map_congr_left
  intro socket hsocket
  exact hsessions.mem socket hsocket

theorem carried (hcarries : Carries broker next) :
    Sessions next where
  nodup := by
    rw [hcarries.conns]
    exact hsessions.nodup
  mem socket hsocket := by
    rw [hcarries.conns] at hsocket
    rw [hcarries.session, hcarries.info]
    exact hsessions.mem socket hsocket
  of_session socket hsession := by
    rw [hcarries.session] at hsession
    rw [hcarries.conns]
    exact hsessions.of_session socket hsession

theorem accept (hnames : Names broker) {socket : Socket}
    (hunopened : broker.life socket = .unopened) : Sessions (broker.accept socket) := by
  unfold Broker.accept
  split
  · exact ⟨hsessions.nodup, hsessions.mem, hsessions.of_session⟩
  refine ⟨hsessions.nodup, fun other hother => ?_, hsessions.of_session⟩
  have hsession := hsessions.mem other hother
  have hnamed := named_of_session hsession
  have hne : other ≠ socket := by
    rintro rfl
    exact (hnames.unopened other hunopened).1 _ hnamed
  change sessionOf broker.trace other = some (update broker.states socket _ other).info
  rw [update_of_ne hne]
  exact hsession

theorem destroy (socket : Socket) : Sessions (broker.destroy socket) := by
  unfold Broker.destroy
  split
  · have hsame : ∀ other, sessionOf (broker.trace ++ [Event.destroyed socket]) other =
        sessionOf broker.trace other := fun other => sessionOf_concat
    refine ⟨hsessions.nodup, fun other hother => (hsame other).trans (hsessions.mem other hother),
      fun other hother => ?_⟩
    exact hsessions.of_session other ((hsame other) ▸ hother)
  · exact hsessions

theorem register (socket : Socket) (info : HelloInfo) (waiting : List Letter) (now : Nat) :
    Sessions (((broker.register socket info now).addKnownName info.name).log
      (.hello socket info waiting)) := by
  have hsession : ∀ other, sessionOf (broker.trace ++ [Event.hello socket info waiting]) other =
      if socket = other then some info else sessionOf broker.trace other :=
    fun other => sessionOf_concat
  have hmem : ∀ other, other ∈ (broker.register socket info now).conns ↔
      other ∈ broker.conns ∨ other = socket := by
    intro other
    simp only [Broker.register]
    split
    next hsocket =>
      exact ⟨.inl, fun hother => hother.elim id fun hsame => hsame ▸ hsocket⟩
    · simp
  refine ⟨?_, fun other hother => ?_, fun other hother => (hmem other).mpr ?_⟩
  · change (broker.register socket info now).conns.Nodup
    simp only [Broker.register]
    split
    · exact hsessions.nodup
    next hsocket =>
      refine hsessions.nodup.append (nodup_singleton socket) ?_
      simpa using hsocket
  · refine (hsession other).trans ?_
    change _ = some (update broker.states socket _ other).info
    by_cases hsame : socket = other
    · subst hsame
      simp
    rw [if_neg hsame, update_of_ne (Ne.symm hsame)]
    exact hsessions.mem other (((hmem other).mp hother).resolve_right (Ne.symm hsame))
  by_cases hsame : socket = other
  · exact .inr hsame.symm
  refine .inl (hsessions.of_session other ?_)
  have hnone : sessionOf (broker.trace ++ [Event.hello socket info waiting]) other ≠ none := hother
  rwa [hsession, if_neg hsame] at hnone

theorem onClose (socket : Socket) : Sessions (broker.onClose socket) := by
  have hsession : ∀ other, sessionOf (broker.trace ++ [Event.closed socket]) other =
      if socket = other then none else sessionOf broker.trace other :=
    fun other => sessionOf_concat
  refine ⟨hsessions.nodup.erase socket, fun other hother => ?_, fun other hother => ?_⟩
  · obtain ⟨hne, hmem⟩ := (hsessions.nodup.mem_erase_iff).mp hother
    refine (hsession other).trans ?_
    rw [if_neg (Ne.symm hne)]
    exact hsessions.mem other hmem
  have hsome : sessionOf (broker.trace ++ [Event.closed socket]) other ≠ none := hother
  rw [hsession] at hsome
  by_cases hsame : socket = other
  · exact absurd (if_pos hsame) hsome
  rw [if_neg hsame] at hsome
  exact (hsessions.nodup.mem_erase_iff).mpr ⟨Ne.symm hsame, hsessions.of_session other hsome⟩

end

theorem close (broker : Broker) : Sessions broker.close := by
  refine ⟨nodup_nil, fun other hother => absurd hother not_mem_nil, fun other hother => ?_⟩
  exact absurd sessionOf_concat hother

theorem start (known : List JsString) (files : JsString → List InboxMessage) :
    Sessions (newBroker known files) :=
  ⟨nodup_nil, fun _ hother => absurd hother not_mem_nil,
    fun _ hother => absurd rfl hother⟩

end Sessions

end Hummin.AgentsBroker
