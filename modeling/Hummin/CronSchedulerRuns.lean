/-
Runs of the scheduler where no write loses another: the store is what the events leave.
-/
import Hummin.CronScheduler

namespace Hummin.Cron

open List Option Function

/-! ## Entries by the events -/

theorem bookOf_concat (log : List Event) (event : Event) :
    bookOf (log ++ [event]) = bookAfter (bookOf log) event := by
  rw [bookOf, foldl_append]
  rfl

theorem bookOf_cons (before : List Event) (event : Event) (after : List Event) :
    bookOf (before ++ event :: after) = after.foldl bookAfter (bookOf (before ++ [event])) := by
  rw [bookOf, foldl_append, foldl_cons, bookOf_concat]
  rfl

@[simp] theorem approved_name (entry : CronEntry) (approval : Option Approval) :
    (entry.approved approval).name = entry.name := by
  cases approval <;> rfl

@[simp] theorem applyTo_name (entry : CronEntry) (record : Record) :
    (record.applyTo entry).name = entry.name := by
  cases record with
  | held reason reviewId => rfl
  | ran approval now pid => exact approved_name entry approval

/-! ## The invariant -/

/-- The calls that have the scheduler lock. -/
def Call.holds : Call → Bool
  | .passing _ _ _ => true
  | .exiting _ _ _ (.waiting _) => false
  | .exiting _ _ _ _ => true
  | _ => false

/-- The entries of a pass, and those of them that it has not spawned. -/
def PassStage.all : PassStage → List CronEntry
  | .locked => []
  | .loop rest => rest
  | .reviewing entry rest => entry :: rest
  | .briefing entry _ rest => entry :: rest
  | .recording entry _ _ rest => entry :: rest

def PassStage.left : PassStage → List CronEntry
  | .recording _ _ _ rest => rest
  | stage => stage.all

/-- The entries of a pass are apart, and no wake is in flight of those it has not spawned. -/
def CallFits (clock : Int) (entries : List CronEntry) : Call → Prop
  | .passing now _ stage => now ≤ clock ∧ (stage.all.map CronEntry.name).Nodup ∧
      ∀ entry ∈ stage.left, ∀ found, getEntry entries entry.name = some found →
        isQueued found now = false
  | _ => True

structure Sound (state : State) : Prop where
  nodup : (state.entries.map CronEntry.name).Nodup
  book : ∀ name, getEntry state.entries name = bookOf state.log name
  lock : ∀ call, (state.calls call).holds = true ↔ state.lock = some call
  calls : ∀ call, CallFits state.clock state.entries (state.calls call)
  spawned : Along SpawnFits state.log

theorem isQueued_later {entry : CronEntry} {now later : Int} (hnow : now ≤ later)
    (hqueued : isQueued entry now = false) : isQueued entry later = false := by
  unfold isQueued at hqueued ⊢
  cases hsince : entry.queuedSince with
  | none => rfl
  | some since =>
    rw [hsince] at hqueued
    simp only [any_some, decide_eq_false_iff_not] at hqueued ⊢
    omega

/-- Entries that are gone or have no wake are no matter to a pass. -/
theorem CallFits.mono {clock : Int} {entries others : List CronEntry} {call : Call}
    (hfits : CallFits clock entries call)
    (hothers : ∀ name found, getEntry others name = some found →
      getEntry entries name = some found ∨ found.queuedSince = none) :
    CallFits clock others call := by
  cases call with
  | passing now reviews stage =>
    obtain ⟨hnow, hnodup, hleft⟩ := hfits
    refine ⟨hnow, hnodup, fun entry hentry found hfound => ?_⟩
    rcases hothers entry.name found hfound with hbefore | hnone
    · exact hleft entry hentry found hbefore
    unfold isQueued
    rw [hnone]
    rfl
  | _ => trivial

namespace Sound

variable {state : State} {call : Nat} {next : Call}

section

variable (hsound : Sound state)
include hsound

/-- One call changes: the others fit what it leaves, and who has the lock is clear. -/
theorem shift {after : State} (hcalls : after.calls = update state.calls call next)
    (hlock : next.holds = true ↔ after.lock = some call)
    (hothers : ∀ other ≠ call, (state.lock = some other ↔ after.lock = some other) ∧
      CallFits after.clock after.entries (state.calls other))
    (hnext : CallFits after.clock after.entries next)
    (hnodup : (after.entries.map CronEntry.name).Nodup)
    (hbook : ∀ name, getEntry after.entries name = bookOf after.log name)
    (hspawned : Along SpawnFits after.log) : Sound after := by
  refine ⟨hnodup, hbook, fun other => ?_, fun other => ?_, hspawned⟩
  · by_cases hother : other = call
    · rw [hother, hcalls, update_self]
      exact hlock
    rw [hcalls, update_of_ne hother, hsound.lock other]
    exact (hothers other hother).1
  by_cases hother : other = call
  · rw [hother, hcalls, update_self]
    exact hnext
  rw [hcalls, update_of_ne hother]
  exact (hothers other hother).2

/-- A call moves on, and the file stays. -/
theorem moveTo (hholds : next.holds = (state.calls call).holds)
    (hfits : CallFits state.clock state.entries next) : Sound (state.moveTo call next) :=
  hsound.shift rfl (by rw [hholds]; exact hsound.lock call)
    (fun other _ => ⟨Iff.rfl, hsound.calls other⟩) hfits hsound.nodup hsound.book hsound.spawned

/-- A call takes the lock that nobody has. -/
theorem acquire (hfree : state.lock = none) (hholds : next.holds = true)
    (hfits : CallFits state.clock state.entries next) :
    Sound ((state.acquire call).moveTo call next) := by
  refine hsound.shift rfl (iff_of_true hholds rfl) (fun other hother => ⟨?_, hsound.calls other⟩)
    hfits hsound.nodup hsound.book hsound.spawned
  rw [hfree]
  exact iff_of_false (by simp) fun hsame => hother (some.inj hsame).symm

/-- The call that has the lock ends. -/
theorem release (hheld : state.lock = some call) : Sound (state.release.moveTo call .idle) := by
  refine hsound.shift rfl (iff_of_false Bool.false_ne_true (by simp [State.release, State.moveTo]))
    (fun other hother => ⟨?_, hsound.calls other⟩) trivial hsound.nodup hsound.book hsound.spawned
  rw [hheld]
  exact iff_of_false (fun hsame => hother (some.inj hsame).symm)
    (by simp [State.release, State.moveTo])

/-- A call writes the file: the entries are as the event says, and the passes still fit. -/
theorem write {entries : List CronEntry} {event : Event}
    (hnodup : (entries.map CronEntry.name).Nodup)
    (hbook : ∀ name, getEntry entries name = bookAfter (getEntry state.entries) event name)
    (hothers : ∀ other ≠ call, CallFits state.clock entries (state.calls other))
    (hnext : CallFits state.clock entries next) (hholds : next.holds = (state.calls call).holds)
    (hevent : SpawnFits state.log event) :
    Sound ((state.write entries event).moveTo call next) := by
  refine hsound.shift rfl (by rw [hholds]; exact hsound.lock call)
    (fun other hother => ⟨Iff.rfl, hothers other hother⟩) hnext hnodup (fun name => ?_)
    (along_concat.mpr ⟨hsound.spawned, hevent⟩)
  have hsame : getEntry state.entries = bookOf state.log := funext hsound.book
  change getEntry entries name = bookOf (state.log ++ [event]) name
  rw [bookOf_concat, hbook, hsame]

/-- While a call has the lock no other call is a pass. -/
theorem alone (hholds : (state.calls call).holds = true) {other : Nat}
    (hother : other ≠ call) (clock : Int) (entries : List CronEntry) :
    CallFits clock entries (state.calls other) := by
  have hlock := (hsound.lock call).mp hholds
  have hnot : (state.calls other).holds ≠ true := by
    rw [ne_eq, hsound.lock other, hlock]
    exact fun hsame => hother (some.inj hsame).symm
  cases hcall : state.calls other with
  | passing now reviews stage =>
    rw [hcall] at hnot
    exact absurd rfl hnot
  | _ => trivial

end

variable {entry : CronEntry}

/-- A creation that finds no entry of its name. -/
theorem created (hsound : Sound state)
    (hnew : getEntry state.entries entry.name = none) (hqueued : entry.queuedSince = none)
    (hholds : (state.calls call).holds = false) :
    Sound ((state.write (upsert state.entries entry) (.created entry)).moveTo call .idle) := by
  refine hsound.write (names_upsert hsound.nodup entry) (fun name => ?_)
    (fun other _ => (hsound.calls other).mono fun name found hfound => ?_) trivial hholds.symm ?_
  · rw [getEntry_upsert]
    exact (update_apply ..).symm
  · rw [getEntry_upsert] at hfound
    split at hfound
    · cases hfound
      exact .inr hqueued
    · exact .inl hfound
  · exact (hsound.book entry.name).symm.trans hnew

theorem deleted (hsound : Sound state) (name : JsString)
    (hholds : (state.calls call).holds = false) :
    Sound ((state.write (without state.entries name) (.deleted name)).moveTo call .idle) := by
  refine hsound.write (names_without hsound.nodup name) (fun other => ?_)
    (fun other _ => (hsound.calls other).mono fun other found hfound => ?_) trivial hholds.symm
    trivial
  · rw [getEntry_without]
    exact (update_apply ..).symm
  rw [getEntry_without] at hfound
  split at hfound
  · cases hfound
  · exact .inl hfound

variable {record : Record}

/-- A pass writes into an entry that is as it read it. -/
theorem recorded (hsound : Sound state) {now : Int} {reviews : Bool}
    {read : Option (List CronEntry)} {rest : List CronEntry}
    (hcall : state.calls call = .passing now reviews (.recording entry record read rest))
    (hentry : getEntry state.entries entry.name = some entry) :
    Sound ((state.write (upsert state.entries (record.applyTo entry))
      (.recorded entry.name record)).moveTo call (.passing now reviews (.loop rest))) := by
  have hfits := hsound.calls call
  rw [hcall] at hfits
  obtain ⟨hnow, hnodup, hleft⟩ := hfits
  have hholds : (state.calls call).holds = true := by rw [hcall]; rfl
  refine hsound.write (names_upsert hsound.nodup _) (fun name => ?_)
    (fun other hother => hsound.alone hholds hother _ _) ?_ hholds.symm ?_
  · rw [getEntry_upsert, applyTo_name, bookAfter, update_apply, hentry]
    rfl
  · rw [PassStage.all, map_cons, nodup_cons] at hnodup
    refine ⟨hnow, hnodup.2, fun later hlater found hfound => ?_⟩
    rw [getEntry_upsert, applyTo_name, if_neg] at hfound
    · exact hleft later hlater found hfound
    intro hsame
    exact hnodup.1 (hsame ▸ mem_map_of_mem hlater)
  change bookOf state.log entry.name ≠ none
  rw [← hsound.book, hentry]
  simp

theorem exited (hsound : Sound state) (name : JsString) (pid : Nat) (code : Option Int)
    (hcall : (state.calls call).holds = true) (hnext : next.holds = true)
    (hfits : ∀ clock entries, CallFits clock entries next) :
    Sound ((state.write (withExit state.entries name pid code) (.exited name pid code)).moveTo
      call next) := by
  refine hsound.write ?_ (fun other => ?_) (fun other hother => hsound.alone hcall hother _ _)
    (hfits _ _) (hnext.trans hcall.symm) trivial
  · rw [names_withExit]
    exact hsound.nodup
  rw [getEntry_withExit, bookAfter, update_apply]
  split
  next hother =>
    subst hother
    cases hfound : getEntry state.entries other with
    | none => rfl
    | some found => simp [name_of_getEntry hfound]
  next hother =>
    cases hfound : getEntry state.entries other with
    | none => rfl
    | some found => simp [name_of_getEntry hfound, hother]

/-! ## Steps -/

section Steps

variable {dayStart : Int → Int} {after : State}

/-- The due entries of a pass have no wake in flight. -/
theorem dueEntries_fit (hsound : Sound state) (dayStart : Int → Int) (now : Int) :
    ((dueEntries dayStart state.entries now).map CronEntry.name).Nodup ∧
      ∀ entry ∈ dueEntries dayStart state.entries now, ∀ found,
        getEntry state.entries entry.name = some found → isQueued found now = false := by
  refine ⟨hsound.nodup.sublist (filter_sublist.map _), fun entry hentry found hfound => ?_⟩
  obtain ⟨hmem, hdue⟩ := mem_filter.mp hentry
  rw [getEntry_of_mem hsound.nodup hmem] at hfound
  cases hfound
  by_contra hqueued
  rw [Bool.not_eq_false] at hqueued
  simp [isDueEntry, hqueued] at hdue

variable {answer : Answer}

section

variable (hsound : Sound state)
include hsound

theorem advancePass {now : Int} {reviews : Bool}
    {stage : PassStage} (hcall : state.calls call = .passing now reviews stage)
    (hunraced : Unraced state (.advance call answer))
    (hafter : Cron.advancePass dayStart state call now reviews answer stage = some after) :
    Sound after := by
  have hfits := hsound.calls call
  rw [hcall] at hfits
  obtain ⟨hnow, hnodup, hleft⟩ := hfits
  have hholds : (state.calls call).holds = true := by rw [hcall]; rfl
  cases stage with
  | locked =>
    cases hafter
    obtain ⟨hnames, hqueued⟩ := hsound.dueEntries_fit dayStart now
    exact hsound.moveTo hholds.symm ⟨hnow, hnames, hqueued⟩
  | loop rest =>
    cases rest with
    | nil =>
      cases hafter
      exact hsound.release ((hsound.lock call).mp hholds)
    | cons entry rest =>
      cases hafter
      cases reviews with
      | true => exact hsound.moveTo hholds.symm ⟨hnow, hnodup, hleft⟩
      | false => exact hsound.moveTo hholds.symm ⟨hnow, hnodup, hleft⟩
  | reviewing entry rest =>
    cases answer with
    | block reason reviewId =>
      cases hafter
      exact hsound.moveTo hholds.symm ⟨hnow, hnodup, fun other hother =>
        hleft other (mem_cons_of_mem entry hother)⟩
    | allow approval =>
      cases hafter
      exact hsound.moveTo hholds.symm ⟨hnow, hnodup, hleft⟩
    | _ => exact absurd hafter (by simp [Cron.advancePass])
  | briefing entry approval rest =>
    cases answer with
    | spawned pid =>
      cases pid with
      | none =>
        cases hafter
        rw [PassStage.all, map_cons, nodup_cons] at hnodup
        exact hsound.moveTo hholds.symm ⟨hnow, hnodup.2, fun other hother =>
          hleft other (mem_cons_of_mem entry hother)⟩
      | some pid =>
        cases hafter
        have hspawned : Sound (state.log1 (.spawned entry.name state.clock)) := by
          refine ⟨hsound.nodup, fun name => ?_, hsound.lock, hsound.calls,
            along_concat.mpr ⟨hsound.spawned, fun found hfound => ?_⟩⟩
          · change getEntry state.entries name = bookOf (state.log ++ [_]) name
            rw [bookOf_concat]
            exact hsound.book name
          rw [← hsound.book] at hfound
          exact isQueued_later hnow (hleft entry mem_cons_self found hfound)
        exact hspawned.moveTo hholds.symm ⟨hnow, hnodup, fun other hother =>
          hleft other (mem_cons_of_mem entry hother)⟩
    | _ => exact absurd hafter (by simp [Cron.advancePass])
  | recording entry record read rest =>
    cases read with
    | none =>
      cases hafter
      exact hsound.moveTo hholds.symm ⟨hnow, hnodup, hleft⟩
    | some read =>
      cases hafter
      rw [Unraced, hcall] at hunraced
      obtain ⟨rfl, hentry⟩ := hunraced
      exact hsound.recorded hcall hentry

theorem advanceExit {name : JsString} {pid : Nat} {code : Option Int}
    {stage : ExitStage} (hcall : state.calls call = .exiting name pid code stage)
    (hunraced : Unraced state (.advance call answer)) :
    Sound (Cron.advanceExit state call name pid code stage) := by
  cases stage with
  | waiting attempt =>
    have hholds : (state.calls call).holds = false := by rw [hcall]; rfl
    rw [Cron.advanceExit]
    split
    next hfree =>
      exact hsound.acquire hfree rfl trivial
    · split
      · exact hsound.moveTo hholds.symm trivial
      · exact hsound.moveTo hholds.symm trivial
  | locked =>
    have hholds : (state.calls call).holds = true := by rw [hcall]; rfl
    rw [Cron.advanceExit]
    split
    · exact hsound.moveTo hholds.symm trivial
    · exact hsound.moveTo hholds.symm trivial
  | found =>
    have hholds : (state.calls call).holds = true := by rw [hcall]; rfl
    exact hsound.moveTo hholds.symm trivial
  | writing read =>
    have hholds : (state.calls call).holds = true := by rw [hcall]; rfl
    rw [Unraced, hcall] at hunraced
    subst hunraced
    exact hsound.exited name pid code hholds rfl fun _ _ => trivial
  | releasing =>
    have hholds : (state.calls call).holds = true := by rw [hcall]; rfl
    exact hsound.release ((hsound.lock call).mp hholds)

theorem advance (hunraced : Unraced state (.advance call answer))
    (hafter : Cron.advance dayStart state call answer = some after) : Sound after := by
  unfold Cron.advance at hafter
  cases hcall : state.calls call with
  | idle =>
    rw [hcall] at hafter
    cases hafter
  | creating params =>
    have hholds : (state.calls call).holds = false := by rw [hcall]; rfl
    rw [hcall] at hafter
    cases answer with
    | go => cases hafter
    | spawned pid => cases hafter
    | _ =>
      cases hafter
      exact hsound.moveTo hholds.symm trivial
  | upserting entry read =>
    have hholds : (state.calls call).holds = false := by rw [hcall]; rfl
    obtain ⟨params, approval, createdAt⟩ := entry
    rw [hcall] at hafter
    cases read with
    | none =>
      cases hafter
      exact hsound.moveTo hholds.symm trivial
    | some read =>
      cases hafter
      rw [Unraced, hcall] at hunraced
      obtain ⟨rfl, hnew⟩ := hunraced
      exact hsound.created hnew rfl hholds
  | deleting name read =>
    have hholds : (state.calls call).holds = false := by rw [hcall]; rfl
    rw [hcall] at hafter
    cases read with
    | none =>
      cases hafter
      exact hsound.moveTo hholds.symm trivial
    | some read =>
      dsimp only at hafter
      split at hafter
      next hfound =>
        cases hafter
        rw [Unraced, hcall] at hunraced
        obtain rfl := hunraced.resolve_left (isSome_iff_ne_none.mp hfound)
        exact hsound.deleted name hholds
      · cases hafter
        exact hsound.moveTo hholds.symm trivial
  | passing now reviews stage =>
    rw [hcall] at hafter
    exact hsound.advancePass hcall hunraced hafter
  | exiting name pid code stage =>
    rw [hcall] at hafter
    cases hafter
    exact hsound.advanceExit hcall hunraced

theorem step {input : Input} (hunraced : Unraced state input)
    (hafter : Cron.step dayStart state input = some after) : Sound after := by
  cases input with
  | tick ms =>
    cases hafter
    refine ⟨hsound.nodup, hsound.book, hsound.lock, fun call => ?_, hsound.spawned⟩
    have hfits := hsound.calls call
    cases hcall : state.calls call with
    | passing now reviews stage =>
      rw [hcall] at hfits
      exact ⟨Int.le_trans hfits.1 (Int.le_add_of_nonneg_right (Int.natCast_nonneg ms)), hfits.2⟩
    | _ => trivial
  | create call params =>
    obtain ⟨hidle, hsame⟩ := ite_none_right_eq_some.mp hafter
    cases hsame
    unfold createCall
    split
    · exact hsound.moveTo (by rw [hidle]; rfl) trivial
    · exact hsound
  | pass call reviews =>
    obtain ⟨hidle, hsame⟩ := ite_none_right_eq_some.mp hafter
    split at hsame
    next hfree =>
      cases hsame
      exact hsound.acquire hfree rfl ⟨le_refl _, nodup_nil,
        fun entry hentry => absurd hentry not_mem_nil⟩
    · cases hsame
      exact hsound
  | advance call answer => exact hsound.advance hunraced hafter
  | die call =>
    cases hafter
    by_cases hheld : state.lock = some call
    · rw [if_pos hheld]
      exact hsound.release hheld
    rw [if_neg hheld]
    refine hsound.moveTo ?_ trivial
    have hnot : (state.calls call).holds ≠ true := fun hholds =>
      hheld ((hsound.lock call).mp hholds)
    exact (Bool.eq_false_iff.mpr hnot).symm
  | _ =>
    obtain ⟨hidle, hsame⟩ := ite_none_right_eq_some.mp hafter
    cases hsame
    exact hsound.moveTo (by rw [hidle]; rfl) trivial

end

theorem start (clock : Int) : Sound (start clock) :=
  ⟨nodup_nil, fun _ => rfl, fun _ => iff_of_false Bool.false_ne_true (by simp [Cron.start]),
    fun _ => trivial, along_nil _⟩

end Steps

/-! ## What is kept -/

variable {name : JsString} {before : List Event}

/-- The entry that an event is about is there, and what it says stays until it is replaced. -/
theorem found {P : CronEntry → Prop} {after : List Event} {event : Event}
    (hsound : Sound state) (hlog : state.log = before ++ event :: after)
    (hat : bookOf (before ++ [event]) name = some entry) (hentry : P entry)
    (hreplaced : ∀ event ∈ after, ¬ Replaces name event)
    (hrecorded : ∀ record, .recorded name record ∈ after → ∀ entry, P entry →
      P (record.applyTo entry))
    (hexited : ∀ pid code, .exited name pid code ∈ after → ∀ entry, P entry →
      entry.lastPid = some pid → P { entry with lastExit := some code, queuedSince := none }) :
    ∃ found, getEntry state.entries name = some found ∧ P found := by
  rw [hsound.book, hlog, bookOf_cons]
  generalize hbook : bookOf (before ++ [event]) = book at hat
  clear hbook hlog
  induction after generalizing book entry with
  | nil => exact ⟨entry, hat, hentry⟩
  | cons first rest ih =>
    have hfirst := hreplaced first mem_cons_self
    have hnext : ∃ next, bookAfter book first name = some next ∧ P next := by
      cases first with
      | recorded other record =>
        by_cases hother : other = name
        · subst hother
          refine ⟨record.applyTo entry, ?_, hrecorded record mem_cons_self entry hentry⟩
          rw [bookAfter, update_self, hat]
          rfl
        refine ⟨entry, ?_, hentry⟩
        rw [bookAfter, update_of_ne (Ne.symm hother)]
        exact hat
      | exited other pid code =>
        by_cases hother : other = name
        · subst hother
          rw [bookAfter, update_self, hat]
          refine ⟨_, rfl, ?_⟩
          dsimp only
          split
          next hpid =>
            exact hexited pid code mem_cons_self entry hentry hpid
          · exact hentry
        refine ⟨entry, ?_, hentry⟩
        rw [bookAfter, update_of_ne (Ne.symm hother)]
        exact hat
      | spawned other time => exact ⟨entry, hat, hentry⟩
      | _ =>
        refine ⟨entry, ?_, hentry⟩
        rw [bookAfter, update_of_ne (Ne.symm hfirst)]
        exact hat
    obtain ⟨next, hnext, hkept⟩ := hnext
    exact ih hkept (fun other hother => hreplaced other (mem_cons_of_mem first hother))
      (fun record hrecord => hrecorded record (mem_cons_of_mem first hrecord))
      (fun pid code hexit => hexited pid code (mem_cons_of_mem first hexit)) _ hnext

theorem bookOf_created (before : List Event) (entry : CronEntry) :
    bookOf (before ++ [Event.created entry]) entry.name = some entry := by
  rw [bookOf_concat]
  exact update_self ..

/-- A record is written into an entry that is there. -/
theorem bookOf_recorded {after : List Event}
    (hsound : Sound state) (hlog : state.log = before ++ .recorded name record :: after) :
    ∃ entry, bookOf (before ++ [Event.recorded name record]) name = some (record.applyTo entry) := by
  obtain ⟨entry, hentry⟩ := ne_none_iff_exists'.mp (hsound.spawned before _ after hlog)
  refine ⟨entry, ?_⟩
  rw [bookOf_concat, bookAfter, update_self, hentry]
  rfl

/-- What replaces an entry replaces what was recorded of it. -/
theorem replaces_imp {event : Event} (hreplaces : Replaces name event) :
    ReplacesReview name event ∧ ReplacesRun name event ∧ ReplacesHold name event ∧
      ReplacesExit name event := by
  cases event with
  | recorded | exited | spawned => cases hreplaces
  | _ => exact ⟨hreplaces, hreplaces, hreplaces, hreplaces⟩

theorem kept (hsound : Sound state) : Kept state where
  book := hsound.book
  created before entry after hlog hafter := by
    refine hsound.found hlog (bookOf_created before entry) ⟨rfl, rfl, rfl, rfl, rfl⟩ hafter ?_ ?_
    · intro record _ other hother
      cases record with
      | held reason reviewId => exact hother
      | ran approval now pid => cases approval <;> exact hother
    · exact fun _ _ _ _ hother _ => hother
  configured before entry after hlog hafter := by
    refine hsound.found hlog (bookOf_created before entry) ⟨rfl, rfl⟩
      (fun event hevent hreplaces => hafter event hevent (replaces_imp hreplaces).1) ?_ ?_
    · intro record hrecord other hother
      cases record with
      | held reason reviewId => exact hother
      | ran approval now pid =>
        cases approval with
        | none => exact hother
        | some approval => exact absurd rfl (hafter _ hrecord)
    · exact fun _ _ _ _ hother _ => hother
  deleted before name after hlog hafter entry hentry hname := by
    have hnone : bookOf state.log name = none := by
      rw [hlog, bookOf_cons, bookOf_concat]
      generalize hbook : bookAfter (bookOf before) (.deleted name) = book
      have hstart : book name = none := by
        rw [← hbook]
        exact update_self ..
      clear hbook hlog
      induction after generalizing book with
      | nil => exact hstart
      | cons first rest ih =>
        refine ih (fun event hevent => hafter event (mem_cons_of_mem first hevent)) _ ?_
        have hfirst := hafter first mem_cons_self
        cases first with
        | created other =>
          rw [bookAfter, update_of_ne (Ne.symm hfirst)]
          exact hstart
        | deleted other =>
          rw [bookAfter, update_of_ne (Ne.symm hfirst)]
          exact hstart
        | spawned other time => exact hstart
        | _ =>
          rw [bookAfter, update_apply]
          split
          next hother =>
            rw [← hother, hstart]
            rfl
          · exact hstart
    rw [← hsound.book, getEntry_eq_none] at hnone
    exact hnone entry hentry hname
  ran before name approval now pid after hlog hafter := by
    obtain ⟨entry, hat⟩ := hsound.bookOf_recorded hlog
    refine hsound.found hlog hat ⟨rfl, rfl⟩
      (fun event hevent hreplaces => hafter event hevent (replaces_imp hreplaces).2.1) ?_ ?_
    · intro record hrecord other hother
      cases record with
      | held reason reviewId => exact hother
      | ran approval now pid => exact absurd rfl (hafter _ hrecord)
    · exact fun _ _ _ _ hother _ => hother
  held before name reason reviewId after hlog hafter := by
    obtain ⟨entry, hat⟩ := hsound.bookOf_recorded hlog
    refine hsound.found hlog hat ⟨rfl, rfl⟩
      (fun event hevent hreplaces => hafter event hevent (replaces_imp hreplaces).2.2.1) ?_ ?_
    · intro record hrecord other hother
      cases record with
      | held reason reviewId => exact absurd rfl (hafter _ hrecord)
      | ran approval now pid =>
        cases approval with
        | none => exact hother
        | some approval => exact absurd rfl (hafter _ hrecord)
    · exact fun _ _ _ _ hother _ => hother
  exited before name pid code after hlog hafter entry hentry hpid := by
    have hat : bookOf (before ++ [Event.exited name pid code]) name =
        some { entry with lastExit := some code, queuedSince := none } := by
      rw [bookOf_concat, bookAfter, update_self, hentry]
      simp [hpid]
    refine hsound.found hlog hat ⟨rfl, rfl⟩
      (fun event hevent hreplaces => hafter event hevent (replaces_imp hreplaces).2.2.2) ?_ ?_
    · intro record hrecord other hother
      cases record with
      | held reason reviewId => exact hother
      | ran approval now pid => exact absurd rfl (hafter _ hrecord)
    · exact fun pid code hexit => absurd rfl (hafter _ hexit)
  spawned := hsound.spawned

end Sound

section Revived

private def nightly : Params := ⟨js "nightly".toList, js "every:5".toList, js "go".toList, []⟩

private def approved : Approval := ⟨js "a/b".toList, js "off".toList, none, none⟩

/-- An entry is created, and a pass waits for its review. -/
private def reviewing : List Input :=
  [.create 0 nightly, .advance 0 (.allow approved), .advance 0 .go, .advance 0 .go,
    .pass 1 true, .advance 1 .go, .advance 1 .go]

/-- The review allows the run, and the pass records it. -/
private def recording : List Input :=
  [.advance 1 (.allow approved), .advance 1 (.spawned (some 7)), .advance 1 .go, .advance 1 .go]

/-- The entry is deleted while the pass waits. -/
private def deleting : List Input := [.delete 2 nightly.name, .advance 2 .go, .advance 2 .go]

end Revived

end Hummin.Cron
