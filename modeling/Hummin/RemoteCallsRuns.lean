/-
Runs of a link's two ends, whatever is called, cancelled, answered, released, rebound, gone
or closed, and in whatever order messages arrive.
-/
import Hummin.RemoteCallsServe

namespace Hummin.Remote

open List Option PropertyList

variable {config : Config} {ends next : Ends} {c : ConsumerSide} {p : ProviderSide}

/-- What every step keeps. -/
structure Whole (config : Config) (ends : Ends) : Prop where
  consumer : ends.consumer.Sound config
  admits : ends.provider.isOpen = true → Admits config ends.provider ends.consumer.outbox
  linked : ends.consumer.isOpen = true → ends.provider.isOpen = true →
    Linked config ends.consumer ends.provider
  shut : ends.consumer.isOpen = false → ends.consumer.entries = []
  stopped : ends.provider.isOpen = false → ends.provider.calls = [] ∧ ends.provider.holds = []
  failure : ends.provider.failure = none ∨ ends.provider.failure = some .noMethod

theorem whole_start : Whole config Ends.start := by
  have hadmits : Admits config ProviderSide.start [] := by
    refine ⟨?_, ?_, ?_, ?_, ?_⟩
    · simp [ProviderSide.start, callIds]
    · simp [ProviderSide.start, holdIds, PropertyList.keys]
    · simp [ProviderSide.start]
    · intro front hfront
      rw [prefix_nil.mp hfront]
      simp [ProviderSide.start]
    · simp
  refine ⟨ConsumerSide.sound_start, fun _ => hadmits, fun _ _ => ?_, fun _ => rfl, fun hclosed => ?_,
    .inl rfl⟩
  · refine ⟨hadmits, ?_, ?_, ?_, ?_, ?_, ?_, ?_, ?_, ?_, ?_, ?_, ?_, ?_⟩ <;>
      simp [Ends.start, ConsumerSide.start, ProviderSide.start, callIds, holdIds, PropertyList.keys, replies]
  · cases hclosed

/-! ### The consumer's operations -/

theorem waiting_low (hsound : c.Sound config) : ∀ call ∈ c.waiting, call.hold < c.nextHold :=
  fun call hcall => hsound.fresh _ (hsound.placed.1 call hcall)

theorem Linked.drain {taken : List Nat} (hlinked : Linked config c p) (hopen : c.isOpen = true)
    (hloose : c.Loose config taken) (hannounced : c.limit ≤ config.calls)
    (hwaiting : ∀ call ∈ c.waiting, call.hold < c.nextHold) : Linked config c.drain p :=
  Linked.drainFrom hlinked hopen hloose hannounced hwaiting

variable {outcome : Outcome}

theorem Linked.settle {calls : List OutgoingCall} (hlinked : Linked config c p) :
    Linked config (c.settle calls outcome) p :=
  hlinked.congr rfl rfl rfl rfl rfl

variable {args : Option Args}

theorem Linked.call {hold method : Nat} (hlinked : Linked config c p)
    (hsound : c.Sound config) (hopen : c.isOpen = true) (hhold : hold ∈ keys c.entries) :
    Linked config (c.call config hold method args) p := by
  rw [ConsumerSide.call]
  simp only [ConsumerSide.submit]
  split
  next hroom =>
    have hcount := hsound.loose.counted hopen
    apply @Linked.send config { c with nextKey := c.nextKey + 1, inFlight := c.inFlight + 1 } p
    · exact hlinked.congr rfl rfl rfl rfl rfl
    · exact hsound.loose.numbered
    · exact lt_of_lt_of_le (hcount ▸ hroom.2) hsound.announced
    · exact hsound.fresh hold hhold
    intro hparent
    cases args <;> simp [hparent]
  · exact hlinked.congr rfl rfl rfl rfl rfl

theorem Linked.opened (hlinked : Linked config c p) (hsound : c.Sound config)
    (hopen : c.isOpen = true) (hunopened : c.limit = 0) :
    Linked config (c.opened config.calls) p := by
  have hlimit : Linked config { c with limit := config.calls } p :=
    hlinked.congr rfl rfl rfl rfl rfl
  apply @Linked.drain config { c with limit := config.calls } p [] hlimit hopen _ le_rfl
    (@waiting_low config c hsound)
  obtain ⟨distinct, numbered, counted, within, ordered, known, accounted, plain, shut⟩ :=
    hsound.loose
  refine ⟨distinct, numbered, counted, ?_, ordered, known, accounted, plain, shut⟩
  intro hopen
  have hnone := within hopen
  rw [hunopened] at hnone
  exact le_trans hnone (Nat.zero_le _)

variable {key : Nat}

theorem Linked.cancel (hlinked : Linked config c p) (hsound : c.Sound config)
    (hopen : c.isOpen = true) : Linked config (c.cancel key) p := by
  rcases ConsumerSide.cancel_cases c key with ⟨call, -, -, hcancel⟩ | ⟨id, call, hcall, -, hcancel⟩ |
    hcancel
  · rw [hcancel]
    exact hlinked.congr rfl rfl rfl rfl rfl
  · rw [hcancel]
    have hget := get_eq_some_of_mem hsound.loose.distinct hcall
    rw [ConsumerSide.freed_erase_post hsound.loose.distinct hget]
    have hposted : (c.post (.abort id)).Loose config [] :=
      hsound.loose.congr rfl rfl rfl rfl rfl rfl rfl rfl rfl
    have haborted := hlinked.removingAbort (hsound.loose.numbered _ hcall)
    exact (haborted.drain hopen (hposted.removingCall hget) hsound.announced
      (@waiting_low config c hsound)).settle
  · rw [hcancel]
    exact hlinked

theorem forget_eq {hold : Nat} (hsound : c.Sound config) :
    c.forget hold outcome = ((c.forgotten hold).drain).settle (c.callsOn hold) outcome := by
  have herased : ConsumerSide.Loose config [] { c with entries := erase hold c.entries } :=
    hsound.loose.congr rfl rfl rfl rfl rfl rfl rfl rfl rfl
  rw [ConsumerSide.forget, ConsumerSide.failCalls_eq herased hsound.full]
  rfl

theorem loose_forgotten {hold : Nat} (hsound : c.Sound config) :
    ∃ taken, (c.forgotten hold).Loose config taken := by
  have herased : ConsumerSide.Loose config [] { c with entries := erase hold c.entries } :=
    hsound.loose.congr rfl rfl rfl rfl rfl rfl rfl rfl rfl
  have hunqueued := @ConsumerSide.Loose.unqueue config _ [] (fun call => decide (call.hold = hold)) herased
  exact ⟨_, @ConsumerSide.Loose.removing config _ _ (ConsumerSide.isOn hold) hunqueued⟩

theorem Linked.forgotten {hold : Nat} (hsound : c.Sound config)
    (hopen : c.isOpen = true) (hforgotten : Linked config (c.forgotten hold) p) :
    Linked config (c.forget hold outcome) p := by
  rw [forget_eq hsound]
  obtain ⟨taken, hloose⟩ := @loose_forgotten config c hold hsound
  refine (hforgotten.drain hopen hloose hsound.announced ?_).settle
  intro call hcall
  exact waiting_low hsound call (mem_of_mem_filter hcall)

theorem Linked.release {hold : Nat} (hlinked : Linked config c p) (hsound : c.Sound config)
    (hopen : c.isOpen = true) (hhold : hold ∈ keys c.entries) : Linked config (c.release hold) p :=
  Linked.forgotten hsound.post hopen (hlinked.forgottenReleased (hsound.fresh hold hhold))

theorem keys_set_of_some {V : Type} {hold : Nat} {value : V} {entries : List (Nat × V)}
    (hsome : ¬ (get hold entries).isNone = true) :
    keys (JsMap.set hold value entries) = keys entries := by
  have hpresent : (get hold entries).isSome = true := by
    simpa [isNone_iff_eq_none, isSome_iff_ne_none] using hsome
  rw [JsMap.set, put, if_pos hpresent, keys_replace]

/-- A message arrives at the consumer. -/
theorem Linked.receive {message : ToConsumer} {rest : List ToConsumer} (hlinked : Linked config c p)
    (hsound : c.Sound config) (hopen : c.isOpen = true) (houtbox : p.outbox = message :: rest) :
    Linked config (c.message message) { p with outbox := rest } := by
  have hin : message ∈ p.outbox := by
    rw [houtbox]
    exact mem_cons_self
  have hreply : ∀ id outcome, message = .result id ∨ message = .error id →
      Linked config (c.reply id outcome) { p with outbox := rest } := by
    intro id outcome hmessage
    have hreplies : replies p id := by
      rcases hmessage with rfl | rfl
      · exact .inl hin
      · exact .inr hin
    have hid : ∀ other, message = .result other ∨ message = .error other → other = id := by
      intro other hother
      rcases hmessage with rfl | rfl <;> rcases hother with heq | heq <;> cases heq <;> rfl
    have hgone : ∀ hold, message ≠ .gone hold := by
      intro hold
      rcases hmessage with rfl | rfl <;> simp
    rw [ConsumerSide.reply]
    cases hget : get id c.calls with
    | none =>
      apply hlinked.pop houtbox
      · intro other hother
        rw [hid other hother]
        exact (get_eq_none_iff id c.calls).mp hget
      · exact fun hold heq => absurd heq (hgone hold)
    | some call =>
      rw [ConsumerSide.dropCall_removing hsound.loose.distinct hget]
      have hpopped := (hlinked.removingReply hreplies).pop houtbox
        (fun other hother => by rw [hid other hother]; exact not_mem_removing)
        (fun hold heq => absurd heq (hgone hold))
      exact (hpopped.drain hopen (hsound.loose.removingCall hget) hsound.announced
        (@waiting_low config c hsound)).settle
  have hother : (∀ id, message ≠ .result id ∧ message ≠ .error id) → (∀ hold, message ≠ .gone hold) →
      Linked config c { p with outbox := rest } := by
    intro hreply hgone
    apply hlinked.pop houtbox
    · rintro id (heq | heq)
      · exact absurd heq (hreply id).1
      · exact absurd heq (hreply id).2
    · exact fun hold heq => absurd heq (hgone hold)
  have hunbound : ∀ hold outcome, Linked config c { p with outbox := rest } →
      Linked config (c.unbound hold outcome) { p with outbox := rest } := by
    intro hold outcome hpopped
    rw [ConsumerSide.unbound]
    split
    · exact hpopped
    next hsome =>
      exact hpopped.congr rfl rfl (keys_set_of_some hsome) rfl rfl
  cases message with
  | bound hold methods =>
    have hpopped := hother (by simp) (by simp)
    simp only [ConsumerSide.message]
    split
    · exact hpopped
    next hsome =>
      exact hpopped.congr rfl rfl (keys_set_of_some hsome) rfl rfl
  | loading hold => exact hunbound hold _ (hother (by simp) (by simp))
  | failed hold => exact hunbound hold _ (hother (by simp) (by simp))
  | result id => exact hreply id _ (.inl rfl)
  | error id => exact hreply id _ (.inr rfl)
  | gone hold =>
    simp only [ConsumerSide.message]
    split
    next hnone =>
      have hout : hold ∉ keys c.entries := by
        rw [← get_isSome_iff]
        simpa [isSome_iff_ne_none, isNone_iff_eq_none] using hnone
      apply hlinked.pop houtbox
      · rintro id (heq | heq) <;> cases heq
      intro other heq
      cases heq
      exact ⟨hout, fun entry hentry hon => hout (hon ▸ hsound.placed.2 entry hentry)⟩
    · apply Linked.forgotten hsound hopen
      apply (hlinked.forgottenGone hin).pop houtbox
      · rintro id (heq | heq) <;> cases heq
      intro other heq
      cases heq
      refine ⟨not_mem_keys_erase, fun entry hentry => ?_⟩
      have hkept := (mem_filter.mp hentry).2
      simpa [ConsumerSide.isOn] using hkept

/-! ### The provider's operations -/

/-- A message that is neither a reply nor the end of a hold. -/
def ToConsumer.Quiet (message : ToConsumer) : Prop :=
  (∀ id, message ≠ .result id) ∧ (∀ id, message ≠ .error id) ∧ ∀ hold, message ≠ .gone hold

theorem quiet_notice {hold : Nat} {failed : Bool} : (ProviderSide.notice hold failed).Quiet := by
  cases failed <;> simp [ProviderSide.notice, ToConsumer.Quiet]

theorem quiet_bound {hold methods : Nat} : (ToConsumer.bound hold methods).Quiet := by
  simp [ToConsumer.Quiet]

/-- The provider after a hold's state changed, with what is told of it. -/
structure Turns (p p' : ProviderSide) : Prop where
  calls : p'.calls = p.calls
  holds : PropertyList.keys p'.holds = PropertyList.keys p.holds
  outbox : ∃ more : List ToConsumer, p'.outbox = p.outbox ++ more ∧ ∀ message ∈ more, message.Quiet
  isOpen : p'.isOpen = p.isOpen
  failure : p'.failure = p.failure

variable {state : HoldState}

theorem turns_setHold {hold : Nat} (hpresent : hold ∈ keys p.holds) :
    Turns p (p.setHold hold state) :=
  ⟨rfl, keys_setHold hpresent, ⟨[], by simp [ProviderSide.setHold], by simp⟩, rfl, rfl⟩

theorem turns_post {message : ToConsumer} (hquiet : message.Quiet) : Turns p (p.post message) :=
  ⟨rfl, rfl, ⟨[message], rfl, by simpa using hquiet⟩, rfl, rfl⟩

theorem turns_setHold_post {hold : Nat} {message : ToConsumer}
    (hpresent : hold ∈ keys p.holds) (hquiet : message.Quiet) :
    Turns p ((p.setHold hold state).post message) :=
  ⟨rfl, keys_setHold hpresent, ⟨[message], rfl, by simpa using hquiet⟩, rfl, rfl⟩

theorem rejectCalls_frame {hold : Nat} : (p.rejectCalls hold).isOpen = p.isOpen ∧
    (p.rejectCalls hold).failure = p.failure := by
  have hfold : ∀ (ids : List Nat) (p : ProviderSide),
      (ids.foldl (fun side id => side.reply id (.error id)) p).isOpen = p.isOpen ∧
        (ids.foldl (fun side id => side.reply id (.error id)) p).failure = p.failure := by
    intro ids
    induction ids with
    | nil => exact fun _ => ⟨rfl, rfl⟩
    | cons id rest ih =>
      intro p
      rw [foldl_cons, (ih _).1, (ih _).2, ProviderSide.reply]
      split <;> exact ⟨rfl, rfl⟩
  exact hfold _ p

variable {event : ProviderSide.HoldEvent}

variable {p' : ProviderSide}

/-- What a hold's event does: it turns, after its calls were rejected or not, or it ends. -/
theorem holdEvent_cases {hold : Nat} (hevent : p.holdEvent hold event = some p') :
    hold ∈ keys p.holds ∧
      (Turns p p' ∨ Turns (p.rejectCalls hold) p' ∨ p' = (p.forget hold).post (.gone hold)) := by
  have hpresent : hold ∈ keys p.holds := by
    rw [← get_isSome_iff]
    cases hget : get hold p.holds with
    | none => simp [ProviderSide.holdEvent, hget] at hevent
    | some state => rfl
  have hrejected : hold ∈ keys (p.rejectCalls hold).holds := by
    rw [holds_rejectCalls]
    exact hpresent
  refine ⟨hpresent, ?_⟩
  rw [ProviderSide.holdEvent.eq_def] at hevent
  split at hevent
  · cases hevent
    exact .inl (turns_setHold hpresent)
  · cases hevent
    exact .inl (turns_setHold_post hpresent quiet_bound)
  · cases hevent
    exact .inl (turns_post quiet_bound)
  · cases hevent
    exact .inl (turns_setHold hpresent)
  · cases hevent
    exact .inr (.inl (turns_setHold_post hrejected quiet_notice))
  · cases hevent
    exact .inr (.inl (turns_setHold_post hrejected quiet_notice))
  · cases hevent
    exact .inl (turns_post quiet_notice)
  · cases hevent
    exact .inl (turns_post quiet_notice)
  · cases hevent
    exact .inl (turns_setHold hpresent)
  · cases hevent
    exact .inl (turns_setHold hpresent)
  · cases hevent
    exact .inr (.inl (turns_setHold_post hrejected (by simp [ToConsumer.Quiet])))
  · cases hevent
    exact .inr (.inr rfl)
  · cases hevent

theorem Admits.turns {p' : ProviderSide} {messages : List ToProvider}
    (hadmits : Admits config p messages) (hturns : Turns p p') : Admits config p' messages :=
  hadmits.serves (serves_same hadmits hturns.calls hturns.holds)

theorem Linked.turns {p' : ProviderSide} (hlinked : Linked config c p) (hturns : Turns p p') :
    Linked config c p' := by
  obtain ⟨more, hmore, hquiet⟩ := hturns.outbox
  exact hlinked.same hturns.calls hturns.holds hmore hquiet

variable {message : ToProvider}

variable {rest : List ToProvider}

/-- Handling a message is no protocol error, but for a method outside the variant. -/
theorem handle_cases
    (hadmits : Admits config p (message :: rest)) :
    (∃ p', p.message config message = .ok p' ∧ Admits config p' rest ∧ p'.isOpen = p.isOpen ∧
        p'.failure = p.failure ∧ ∀ c : ConsumerSide, c.Placed → c.outbox = message :: rest →
          Linked config c p → Linked config { c with outbox := rest } p') ∨
      p.message config message = .error .noMethod := by
  cases message with
  | hold hold =>
    left
    refine ⟨_, handle_hold hadmits, hadmits.serves (serves_hold hadmits), rfl, rfl, ?_⟩
    exact fun c _ houtbox hlinked => hlinked.handleHold houtbox
  | release hold =>
    left
    refine ⟨_, handle_release hadmits, hadmits.serves (serves_release hadmits), rfl, rfl, ?_⟩
    exact fun c hplaced houtbox hlinked => hlinked.handleRelease hplaced.2 houtbox
  | abort id =>
    left
    refine ⟨_, rfl, hadmits.serves (serves_abort hadmits), rfl, rfl, ?_⟩
    exact fun c _ houtbox hlinked => hlinked.handleAbort houtbox
  | call id hold method args =>
    rcases call_cases hadmits with ⟨hunknown, hcall⟩ | ⟨hpresent, hcall | hcall | hcall⟩
    · left
      refine ⟨p, hcall, hadmits.serves (serves_refused hadmits), rfl, rfl, ?_⟩
      exact fun c hplaced houtbox hlinked => hlinked.ignored hplaced.2 houtbox hunknown
    · left
      refine ⟨_, hcall, { hadmits.serves (serves_refused hadmits) with }, rfl, rfl, ?_⟩
      exact fun c _ houtbox hlinked => hlinked.refused houtbox
    · left
      refine ⟨_, hcall, hadmits.serves (serves_running hadmits hpresent), rfl, rfl, ?_⟩
      exact fun c _ houtbox hlinked => hlinked.admitted houtbox hpresent
    · exact .inr hcall

/-! ### Steps -/

theorem Whole.consumer_step {c' : ConsumerSide} (hwhole : Whole config ends)
    (hsound : c'.Sound config) (hstill : c'.isOpen = true)
    (hlinked : ends.provider.isOpen = true → Linked config c' ends.provider) :
    Whole config { ends with consumer := c' } where
  consumer := hsound
  admits := fun hprovider => (hlinked hprovider).admits
  linked := fun _ hprovider => hlinked hprovider
  shut := by
    intro hshut
    rw [hstill] at hshut
    cases hshut
  stopped := hwhole.stopped
  failure := hwhole.failure

theorem isOpen_cancel : (c.cancel key).isOpen = c.isOpen := by
  rcases ConsumerSide.cancel_cases c key with ⟨_, _, _, hcancel⟩ | ⟨_, _, _, _, hcancel⟩ | hcancel
  · rw [hcancel]
    rfl
  · rw [hcancel]
    simp [ConsumerSide.settle, ConsumerSide.freed, ConsumerSide.drain, ConsumerSide.post]
  · rw [hcancel]

theorem isOpen_forget {hold : Nat} (hsound : c.Sound config) :
    (c.forget hold outcome).isOpen = c.isOpen := by
  rw [forget_eq hsound]
  simp [ConsumerSide.settle, ConsumerSide.drain, ConsumerSide.forgotten, ConsumerSide.removing,
    ConsumerSide.unqueued]

theorem isOpen_reply {id : Nat} : (c.reply id outcome).isOpen = c.isOpen := by
  rw [ConsumerSide.reply]
  split
  · rfl
  · simp [ConsumerSide.settle, ConsumerSide.dropCall, ConsumerSide.freed, ConsumerSide.drain]

theorem isOpen_unbound {hold : Nat} : (c.unbound hold outcome).isOpen = c.isOpen := by
  rw [ConsumerSide.unbound]
  split <;> rfl

theorem isOpen_message {message : ToConsumer} (hsound : c.Sound config) :
    (c.message message).isOpen = c.isOpen := by
  cases message with
  | bound hold methods =>
    simp only [ConsumerSide.message]
    split <;> rfl
  | result id => exact isOpen_reply
  | error id => exact isOpen_reply
  | gone hold =>
    simp only [ConsumerSide.message]
    split
    · rfl
    · exact isOpen_forget hsound
  | _ => exact isOpen_unbound

theorem isOpen_call {hold method : Nat} : (c.call config hold method args).isOpen = c.isOpen := by
  rw [ConsumerSide.call]
  simp only [ConsumerSide.submit]
  split <;> rfl

/-- A closed consumer side has no holds. -/
theorem Whole.isOpen_of_entry {hold : Nat} {entry : Option Nat} (hwhole : Whole config ends)
    (hget : get hold ends.consumer.entries = some entry) : ends.consumer.isOpen = true := by
  by_contra hshut
  rw [hwhole.shut (by simpa using hshut)] at hget
  cases hget

theorem mem_keys_of_get {V : Type} {hold : Nat} {value : V} {entries : List (Nat × V)}
    (hget : get hold entries = some value) : hold ∈ keys entries := by
  rw [← get_isSome_iff, hget]
  rfl

theorem cancel_of_closed (hsound : c.Sound config) (hshut : c.isOpen = false) :
    c.cancel key = c := by
  obtain ⟨hwaiting, hcalls⟩ := hsound.loose.shut hshut
  simp [ConsumerSide.cancel, hwaiting, hcalls]

theorem Whole.provider_step {p' : ProviderSide} (hwhole : Whole config ends)
    (hadmits : ends.provider.isOpen = true → Admits config p' ends.consumer.outbox)
    (hlinked : ends.consumer.isOpen = true → ends.provider.isOpen = true →
      Linked config ends.consumer p') (hopen : p'.isOpen = true)
    (hstill : ends.provider.isOpen = true) (hfailure : p'.failure = ends.provider.failure) :
    Whole config { ends with provider := p' } where
  consumer := hwhole.consumer
  admits := fun _ => hadmits hstill
  linked := fun hconsumer _ => hlinked hconsumer hstill
  shut := hwhole.shut
  stopped := by
    intro hshut
    rw [hopen] at hshut
    cases hshut
  failure := by
    rw [hfailure]
    exact hwhole.failure

theorem Whole.hold {hold : Nat}
    (hwhole : Whole config ends) (hevent : ends.provider.holdEvent hold event = some p') :
    Whole config { ends with provider := p' } := by
  obtain ⟨hpresent, hcases⟩ := holdEvent_cases hevent
  have hstill : ends.provider.isOpen = true := by
    by_contra hshut
    rw [(hwhole.stopped (by simpa using hshut)).2] at hpresent
    cases hpresent
  have hframe := @rejectCalls_frame ends.provider hold
  rcases hcases with hturns | hturns | rfl
  · apply hwhole.provider_step _ _ (hturns.isOpen.trans hstill) hstill hturns.failure
    · exact fun hprovider => (hwhole.admits hprovider).turns hturns
    · exact fun hconsumer hprovider => (hwhole.linked hconsumer hprovider).turns hturns
  · apply hwhole.provider_step _ _ (hturns.isOpen.trans (hframe.1.trans hstill)) hstill
      (hturns.failure.trans hframe.2)
    · intro hprovider
      exact @Admits.turns config (ends.provider.rejectCalls hold) _ _
        (hwhole.admits hprovider).rejectAll hturns
    intro hconsumer hprovider
    exact @Linked.turns config ends.consumer (ends.provider.rejectCalls hold) _
      (hwhole.linked hconsumer hprovider).rejectAll hturns
  refine @Whole.provider_step config ends ((ends.provider.forget hold).post (.gone hold)) hwhole ?_ ?_
    hstill hstill rfl
  · exact fun hprovider => (hwhole.admits hprovider).serves (serves_ended (hwhole.admits hprovider))
  · exact fun hconsumer hprovider => (hwhole.linked hconsumer hprovider).ended hpresent

theorem reply_frame {id : Nat} {message : ToConsumer} :
    (p.reply id message).isOpen = p.isOpen ∧ (p.reply id message).failure = p.failure := by
  rw [ProviderSide.reply]
  split <;> exact ⟨rfl, rfl⟩

theorem Sound_outbox {outbox : List ToProvider} (hsound : c.Sound config) :
    ConsumerSide.Sound config { c with outbox := outbox } :=
  ⟨hsound.loose.congr rfl rfl rfl rfl rfl rfl rfl rfl rfl, hsound.full, hsound.placed,
    hsound.announced, hsound.distinct, hsound.fresh⟩

theorem Whole.handle (hwhole : Whole config ends)
    (houtbox : ends.consumer.outbox = message :: rest) (hstill : ends.provider.isOpen = true)
    (hstep : step config ends .handle = some next) : Whole config next := by
  have hadmits := hwhole.admits hstill
  rw [houtbox] at hadmits
  simp only [step, houtbox, hstill, if_true] at hstep
  rcases handle_cases hadmits with ⟨p', hmessage, hafter, hopen, hfailure, hlinked⟩ | hmessage
  · simp only [hmessage] at hstep
    cases hstep
    refine ⟨Sound_outbox hwhole.consumer, fun _ => hafter, ?_, hwhole.shut, ?_, ?_⟩
    · exact fun hconsumer _ => hlinked ends.consumer hwhole.consumer.placed houtbox
        (hwhole.linked hconsumer hstill)
    · intro hshut
      rw [hopen, hstill] at hshut
      cases hshut
    rw [hfailure]
    exact hwhole.failure
  simp only [hmessage] at hstep
  cases hstep
  refine ⟨Sound_outbox hwhole.consumer, ?_, ?_, hwhole.shut, fun _ => ⟨rfl, rfl⟩, .inr rfl⟩
  · exact nofun
  · exact nofun

theorem Whole.step {input : Input} (hwhole : Whole config ends)
    (hstep : step config ends input = some next) : Whole config next := by
  have hsound := hwhole.consumer
  cases input with
  | attach =>
    obtain ⟨hopen, rfl⟩ := of_guard hstep
    exact hwhole.consumer_step hsound.attach hopen
      fun hprovider => (hwhole.linked hopen hprovider).attach
  | call hold method args =>
    simp only [Remote.step] at hstep
    split at hstep
    next methods hget =>
      obtain ⟨-, rfl⟩ := of_guard hstep
      have hopen := hwhole.isOpen_of_entry hget
      have hhold := mem_keys_of_get hget
      exact hwhole.consumer_step (hsound.call hopen hhold) (isOpen_call.trans hopen)
        fun hprovider => (hwhole.linked hopen hprovider).call hsound hopen hhold
    · cases hstep
  | cancel key =>
    cases hstep
    by_cases hopen : ends.consumer.isOpen = true
    · exact hwhole.consumer_step hsound.cancel (isOpen_cancel.trans hopen)
        fun hprovider => (hwhole.linked hopen hprovider).cancel hsound hopen
    rw [cancel_of_closed hsound (by simpa using hopen)]
    exact hwhole
  | release hold =>
    obtain ⟨hsome, rfl⟩ := of_guard hstep
    obtain ⟨entry, hget⟩ := isSome_iff_exists.mp hsome
    have hopen := hwhole.isOpen_of_entry hget
    have hstill : (ends.consumer.release hold).isOpen = true :=
      (isOpen_forget hsound.post).trans hopen
    exact hwhole.consumer_step hsound.release hstill
      fun hprovider => (hwhole.linked hopen hprovider).release hsound hopen (mem_keys_of_get hget)
  | hello =>
    obtain ⟨hopen, rfl⟩ := of_guard hstep
    have hstill : (ends.consumer.opened config.calls).isOpen = true := by
      simp [ConsumerSide.opened, ConsumerSide.drain, hopen.1]
    exact hwhole.consumer_step (hsound.opened hopen.2) hstill
      fun hprovider => (hwhole.linked hopen.1 hprovider).opened hsound hopen.1 hopen.2
  | receive =>
    simp only [Remote.step] at hstep
    split at hstep
    · cases hstep
    rename_i message rest houtbox
    obtain ⟨hopen, rfl⟩ := of_guard hstep
    have hstill : (ends.consumer.message message).isOpen = true :=
      (isOpen_message hsound).trans hopen
    have hlinked : ends.provider.isOpen = true → Linked config (ends.consumer.message message)
        { ends.provider with outbox := rest } := fun hprovider =>
      (hwhole.linked hopen hprovider).receive hsound hopen houtbox
    refine ⟨hsound.message, fun hprovider => (hlinked hprovider).admits,
      fun _ hprovider => hlinked hprovider, ?_, hwhole.stopped, hwhole.failure⟩
    intro hshut
    rw [hstill] at hshut
    cases hshut
  | handle =>
    have hcopy := hstep
    simp only [Remote.step] at hcopy
    split at hcopy
    · cases hcopy
    rename_i message rest houtbox
    split at hcopy
    next hstill =>
      exact hwhole.handle houtbox hstill hstep
    · cases hcopy
  | answer call result =>
    obtain ⟨hstill, rfl⟩ := of_guard hstep
    have hmessage : (if result then ToConsumer.result call else .error call) = .result call ∨
        (if result then ToConsumer.result call else .error call) = .error call := by
      cases result <;> simp
    apply hwhole.provider_step _ _ (reply_frame.1.trans hstill) hstill reply_frame.2
    · exact fun hprovider => (hwhole.admits hprovider).serves (serves_reply (hwhole.admits hprovider))
    · exact fun hconsumer hprovider => (hwhole.linked hconsumer hprovider).reply hmessage
  | hold hold event =>
    simp only [Remote.step, map_eq_some_iff] at hstep
    obtain ⟨p', hevent, rfl⟩ := hstep
    exact hwhole.hold hevent
  | closeConsumer =>
    obtain ⟨-, rfl⟩ := of_guard hstep
    refine ⟨hsound.closed, ?_, ?_, fun _ => rfl, hwhole.stopped, hwhole.failure⟩
    · exact fun hprovider => hwhole.admits hprovider
    · rintro ⟨⟩
  | closeProvider =>
    obtain ⟨-, rfl⟩ := of_guard hstep
    refine ⟨hsound, ?_, ?_, hwhole.shut, fun _ => ⟨rfl, rfl⟩, hwhole.failure⟩
    · rintro ⟨⟩
    · rintro hconsumer ⟨⟩

theorem whole_run {inputs : List Input} (hrun : run (step config) Ends.start inputs = some ends) :
    Whole config ends :=
  run_invariant (fun _ _ _ hwhole hstep => Whole.step hwhole hstep) whole_start hrun

/-- Nothing is on its way and the provider handles nothing: no call is in flight, and none
waits once the peer's window arrived. -/
theorem Whole.at_rest (hwhole : Whole config ends) (hopen : ends.consumer.isOpen = true)
    (hprovider : ends.provider.isOpen = true) (hasked : ends.consumer.outbox = [])
    (hanswered : ends.provider.outbox = []) (hcalls : ends.provider.calls = []) :
    ends.consumer.calls = [] ∧ (0 < ends.consumer.limit → ends.consumer.waiting = []) := by
  have hlinked := hwhole.linked hopen hprovider
  have hnone : ends.consumer.calls = [] := by
    by_contra hsome
    obtain ⟨⟨id, call⟩, hentry⟩ := exists_mem_of_ne_nil _ hsome
    rcases hlinked.answered id call hentry with hpending | hreplies | hgone
    · simp [hcalls, hasked, callIds] at hpending
    · simp [replies, hanswered] at hreplies
    · simp [hanswered] at hgone
  refine ⟨hnone, fun hwindow => ?_⟩
  by_contra hwaiting
  have hfull := hwhole.consumer.full hopen hwaiting
  have hcount := hwhole.consumer.loose.counted hopen
  rw [hnone, length_nil] at hcount
  omega

/-- In every run: each submitted call is settled, waiting or in flight, one of them and once;
calls are sent once each in the order of submission; until the link closes the slots taken
are the calls registered, within the announced limit, which the provider never sees
exceeded; and at rest no call is left and no slot taken. -/
theorem calls_over_link {inputs : List Input}
    (hrun : run (step config) Ends.start inputs = some ends) :
    (ends.consumer.settled.map Prod.fst ++ ends.consumer.queued ++ ends.consumer.flying).Perm
        (List.range ends.consumer.nextKey) ∧
      (ends.consumer.isOpen = false →
        (ends.consumer.settled.map Prod.fst).Perm (List.range ends.consumer.nextKey)) ∧
      ends.consumer.sent.Pairwise (· < ·) ∧
      (ends.consumer.isOpen = true → ends.consumer.inFlight = ends.consumer.calls.length ∧
        ends.consumer.inFlight ≤ ends.consumer.limit ∧ ends.consumer.limit ≤ config.calls) ∧
      ends.provider.calls.length ≤ config.calls ∧
      ends.provider.failure ≠ some .tooManyCalls ∧ ends.provider.failure ≠ some .callInUse ∧
      (ends.consumer.isOpen = true → ends.consumer.settled.length = ends.consumer.nextKey →
        ends.consumer.inFlight = 0) ∧
      (ends.consumer.isOpen = true → ends.provider.isOpen = true → ends.consumer.outbox = [] →
        ends.provider.outbox = [] → ends.provider.calls = [] →
        ends.consumer.inFlight = 0 ∧ ends.consumer.calls = [] ∧
          (0 < ends.consumer.limit → ends.consumer.waiting = [])) := by
  have hwhole := whole_run hrun
  have hloose := hwhole.consumer.loose
  have haccounted := hloose.accounted
  rw [append_nil] at haccounted
  refine ⟨haccounted, ?_, (pairwise_append.mp hloose.ordered).1, ?_, ?_, ?_, ?_, ?_, ?_⟩
  · intro hshut
    obtain ⟨hwaiting, hcalls⟩ := hloose.shut hshut
    simpa [ConsumerSide.queued, ConsumerSide.flying, hwaiting, hcalls] using haccounted
  · exact fun hopen => ⟨hloose.counted hopen, hloose.within hopen, hwhole.consumer.announced⟩
  · by_cases hprovider : ends.provider.isOpen = true
    · exact (hwhole.admits hprovider).within [] nil_prefix
    · rw [(hwhole.stopped (by simpa using hprovider)).1]
      exact Nat.zero_le _
  · rcases hwhole.failure with hnone | hmethod
    · simp [hnone]
    · simp [hmethod]
  · rcases hwhole.failure with hnone | hmethod
    · simp [hnone]
    · simp [hmethod]
  · intro hopen hsettled
    have hlength := haccounted.length_eq
    rw [length_range, length_append, length_append, length_map] at hlength
    have hflying : ends.consumer.flying.length = ends.consumer.calls.length := length_map _
    have hcount := hloose.counted hopen
    omega
  · intro hopen hprovider hasked hanswered hcalls
    obtain ⟨hnone, hwaiting⟩ := hwhole.at_rest hopen hprovider hasked hanswered hcalls
    refine ⟨?_, hnone, hwaiting⟩
    rw [hloose.counted hopen, hnone, length_nil]

/-- One hold is bound and a call on it is sent. -/
def sentCall : List Input :=
  [.attach, .hello, .handle, .hold 0 .binding, .hold 0 (.bound 1), .receive, .call 0 0 none]

theorem calls_over_link_sentCall :
    ∃ ends, run (step ⟨1, false⟩) Ends.start sentCall = some ends ∧
      ends.consumer.inFlight = ends.consumer.calls.length ∧ ends.consumer.inFlight = 1 :=
  ⟨_, rfl, ((@calls_over_link ⟨1, false⟩ _ sentCall rfl).2.2.2.1 rfl).1, rfl⟩

/-- The close drops the tables and leaves the count of the window as it was. -/
theorem closed_keeps_slot :
    ¬ ∀ ends, run (step ⟨1, false⟩) Ends.start (sentCall ++ [Input.closeConsumer]) = some ends →
      ends.consumer.inFlight = ends.consumer.calls.length ∧
        (ends.consumer.settled.length = ends.consumer.nextKey → ends.consumer.inFlight = 0) := by
  intro hall
  have hclosed := (hall _ rfl).1
  cases hclosed

end Hummin.Remote
