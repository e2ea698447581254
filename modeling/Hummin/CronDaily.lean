/-
Daily runs over local days of 23, 24 or 25 hours.  A run falls on the first poll after a slot,
unless the day before the poll's was not 24 hours long and the last run lies where the code looks
for yesterday's slot on the wrong side.
-/
import Mathlib.Data.Int.ConditionallyCompleteOrder
import Mathlib.Order.Bounds.Basic
import Mathlib.Order.SuccPred.IntervalSucc
import Hummin.CronStore

namespace Hummin.Cron

open List

def hourMs : Int := 3600000

/-- The midnights of local days, and the local day of each time. -/
structure Calendar where
  midnight : Int → Int
  dayOf : Int → Int
  lengths : ∀ day, midnight (day + 1) - midnight day = 23 * hourMs ∨
    midnight (day + 1) - midnight day = 24 * hourMs ∨ midnight (day + 1) - midnight day = 25 * hourMs
  midnight_le : ∀ time, midnight (dayOf time) ≤ time
  lt_midnight : ∀ time, time < midnight (dayOf time + 1)

def nextDue (dayStart : Int → Int) (parsed : ParsedSchedule) (fromMs : Int)
    (lastRunMs : Option Int) : Int :=
  match parsed, lastRunMs with
  | .every _, none => fromMs
  | .every minutes, some lastRun => max (lastRun + minutes * 60000) fromMs
  | .daily hour minute, _ =>
      let candidates := [0, 1, 2].map fun day : Int =>
        slotOnDay (dayStart fromMs + day * 86400000) hour minute
      (candidates.find? fun candidate => fromMs < candidate).getD fromMs

/-- A poll of an entry: the run before it, and whether the entry was due. -/
structure Poll where
  time : Int
  last : Option Int
  due : Bool
deriving DecidableEq

/-- The polls of an entry; one that is due is run. -/
def polled (dayStart : Int → Int) (parsed : ParsedSchedule) : Option Int → List Int → List Poll
  | _, [] => []
  | last, time :: rest =>
      let due := isDue dayStart parsed time last
      ⟨time, last, due⟩ :: polled dayStart parsed (if due then some time else last) rest

def Calendar.dayStart (calendar : Calendar) (time : Int) : Int :=
  calendar.midnight (calendar.dayOf time)

/-- An entry that is run daily, and the calendar of its polls. -/
structure DailyEntry extends Calendar where
  hour : Fin 24
  minute : Fin 60

namespace DailyEntry

variable (entry : DailyEntry)

def schedule : ParsedSchedule := .daily entry.hour entry.minute

def slot (day : Int) : Int := slotOnDay (entry.midnight day) entry.hour entry.minute

def due (time : Int) (last : Option Int) : Bool := isDue entry.dayStart entry.schedule time last

def next (time : Int) (last : Option Int) : Int := nextDue entry.dayStart entry.schedule time last

def log (last : Option Int) (polls : List Int) : List Poll :=
  polled entry.dayStart entry.schedule last polls

/-- The slot of a day has passed and was not run since; an entry that never ran waits for the
slot of the poll's own day. -/
def Passed (last : Option Int) (time day : Int) : Prop :=
  entry.slot day ≤ time ∧ match last with
    | some last => last < entry.slot day
    | none => day = entry.dayOf time

/-- The day of the last slot that has passed. -/
def latest (time : Int) : Int :=
  let today := entry.dayOf time
  if entry.slot today ≤ time then today
  else if entry.slot (today - 1) ≤ time then today - 1
  else today - 2

/-- A run is at the first poll after a slot, and at no other. -/
structure OncePerDay (last : Option Int) (log : List Poll) : Prop where
  due : ∀ poll ∈ log, ∀ day, entry.Passed poll.last poll.time day → poll.due = true
  passed : ∀ poll ∈ log, poll.due = true →
    ∃ day, entry.Passed poll.last poll.time day
  apart : log.Pairwise fun first second => first.due = true → second.due = true →
    ∃ day, first.time < entry.slot day ∧ entry.slot day ≤ second.time
  kept : ∀ poll ∈ log, ∀ day, entry.Passed last poll.time day →
    ∃ other ∈ log, other.due = true ∧ entry.slot day ≤ other.time ∧
      other.time ≤ poll.time

/-- Today's slot has passed, or the last run is on the same side of the last slot as of the time
24 hours before today's. -/
def PollFits (poll : Poll) : Prop :=
  let todaySlot := entry.slot (entry.dayOf poll.time)
  todaySlot ≤ poll.time ∨ ∀ last, poll.last = some last →
    (last < entry.slot (entry.latest poll.time) ↔ last < todaySlot - 86400000)

/-- Today's slot has passed and today is 24 hours long, or today's slot is the next. -/
def NextFits (time : Int) : Prop :=
  let today := entry.dayOf time
  if entry.slot today ≤ time then
    entry.midnight (today + 1) - entry.midnight today = 24 * hourMs
  else entry.slot (today - 1) ≤ time

variable {entry} {last : Option Int} {time day : Int}

theorem slot_bounds (day : Int) : entry.midnight day ≤ entry.slot day ∧
    entry.slot day < entry.midnight day + 24 * hourMs := by
  have hhour := entry.hour.isLt
  have hminute := entry.minute.isLt
  simp only [slot, slotOnDay, hourMs]
  omega

theorem slot_succ (day : Int) : entry.slot (day + 1) =
    entry.slot day + (entry.midnight (day + 1) - entry.midnight day) := by
  simp only [slot, slotOnDay]
  omega

theorem slot_strictMono : StrictMono (entry.slot) := by
  apply strictMono_int_of_lt_succ
  intro day
  have hlength := entry.lengths day
  rw [slot_succ]
  simp only [hourMs] at hlength
  omega

theorem slot_latest (time : Int) :
    entry.slot (entry.latest time) ≤ time ∧ time < entry.slot (entry.latest time + 1) := by
  have hle := entry.midnight_le time
  have hlt := entry.lt_midnight time
  have hnext := @slot_bounds entry (entry.dayOf time + 1)
  unfold latest
  dsimp only
  split
  next htoday =>
    exact ⟨htoday, lt_of_lt_of_le hlt hnext.1⟩
  rename_i htoday
  split
  next hyesterday =>
    rw [Int.sub_add_cancel]
    exact ⟨hyesterday, not_le.mp htoday⟩
  rename_i hyesterday
  have hbefore := @slot_bounds entry (entry.dayOf time - 2)
  have hfirst := entry.lengths (entry.dayOf time - 2)
  have hsecond := entry.lengths (entry.dayOf time - 1)
  rw [show entry.dayOf time - 2 + 1 = entry.dayOf time - 1 by omega] at hfirst ⊢
  rw [Int.sub_add_cancel] at hsecond
  exact ⟨by omega, not_le.mp hyesterday⟩

/-- The slots that have passed are those up to the last. -/
theorem slot_le_iff : entry.slot day ≤ time ↔ day ≤ entry.latest time := by
  obtain ⟨hle, hlt⟩ := @slot_latest entry time
  constructor
  · intro hday
    exact Int.lt_add_one_iff.mp (slot_strictMono.lt_iff_lt.mp (lt_of_le_of_lt hday hlt))
  intro hday
  exact (slot_strictMono.monotone hday).trans hle

theorem passed_some_iff {before : Int} :
    (∃ day, entry.Passed (some before) time day) ↔ before < entry.slot (entry.latest time) := by
  constructor
  · rintro ⟨day, hday, hbefore⟩
    exact lt_of_lt_of_le hbefore (slot_strictMono.monotone (slot_le_iff.mp hday))
  intro hbefore
  exact ⟨_, (slot_latest time).1, hbefore⟩

/-- A poll finds the entry due as it should exactly when it fits. -/
theorem isDue_iff (time : Int) (last : Option Int) :
    (entry.due time last = true ↔ ∃ day, entry.Passed last time day) ↔
      entry.PollFits
        ⟨time, last, entry.due time last⟩ := by
  have hbounds := @slot_bounds entry (entry.dayOf time)
  have hle := entry.midnight_le time
  cases last with
  | none =>
    refine iff_of_true ?_ (.inr fun _ hnone => by cases hnone)
    constructor
    · intro hdue
      exact ⟨entry.dayOf time, of_decide_eq_true hdue, rfl⟩
    rintro ⟨day, hday, rfl⟩
    exact decide_eq_true hday
  | some before =>
    rw [passed_some_iff]
    have hslot : slotOnDay (entry.dayStart time) entry.hour entry.minute =
        entry.slot (entry.dayOf time) := rfl
    by_cases htoday : entry.slot (entry.dayOf time) ≤ time
    · refine iff_of_true ?_ (.inl htoday)
      have hlatest : entry.latest time = entry.dayOf time := if_pos htoday
      have hdue : entry.due time (some before) =
          decide (before < entry.slot (entry.dayOf time)) := by
        simp [due, schedule, isDue, hslot, htoday]
      rw [hdue, hlatest, decide_eq_true_iff]
    have hdue : entry.due time (some before) =
        decide (before < entry.slot (entry.dayOf time) - 86400000) := by
      have hearlier : entry.slot (entry.dayOf time) - 86400000 ≤ time := by
        simp only [hourMs] at hbounds
        omega
      simp [due, schedule, isDue, hslot, htoday, hearlier]
    rw [hdue, decide_eq_true_iff]
    constructor
    · intro hside
      refine .inr fun last hlast => ?_
      cases hlast
      exact hside.symm
    intro hfits
    exact (hfits.resolve_left htoday before rfl).symm

/-! ## Sequences of polls -/

section Polls

variable {polls : List Int}

/-- Each poll is due exactly after a slot that was not run since. -/
def Prompt (entry : DailyEntry) (log : List Poll) : Prop :=
  ∀ poll ∈ log, (poll.due = true ↔ ∃ day, entry.Passed poll.last poll.time day)

theorem mem_log_cons {poll : Poll} : poll ∈ entry.log last (time :: polls) ↔
    poll = ⟨time, last, entry.due time last⟩ ∨
      poll ∈ entry.log (if entry.due time last then some time else last) polls := mem_cons

theorem prompt_cons : entry.Prompt (entry.log last (time :: polls)) ↔
    (entry.due time last = true ↔ ∃ day, entry.Passed last time day) ∧
      entry.Prompt (entry.log (if entry.due time last then some time else last) polls) :=
  forall_mem_cons

theorem slot_before_run {before : Int} (hprompt : entry.Prompt (entry.log (some before) polls)) :
    ∀ poll ∈ entry.log (some before) polls, poll.due = true →
      ∃ day, before < entry.slot day ∧ entry.slot day ≤ poll.time := by
  induction polls generalizing before with
  | nil => exact fun poll hpoll => absurd hpoll not_mem_nil
  | cons time rest ih =>
    intro poll hpoll hdue
    obtain ⟨hhead, htail⟩ := prompt_cons.mp hprompt
    rcases mem_log_cons.mp hpoll with rfl | hpoll
    · obtain ⟨day, hday, hbefore⟩ := hhead.mp hdue
      exact ⟨day, hbefore, hday⟩
    cases hfirst : entry.due time (some before) with
    | true =>
      obtain ⟨day, hday, hbefore⟩ := hhead.mp hfirst
      rw [hfirst] at htail hpoll
      obtain ⟨later, hlater, hpassed⟩ := ih htail poll hpoll hdue
      exact ⟨later, lt_trans (lt_of_lt_of_le hbefore hday) hlater, hpassed⟩
    | false =>
      rw [hfirst] at htail hpoll
      exact ih htail poll hpoll hdue

theorem apart_of_prompt (hprompt : entry.Prompt (entry.log last polls)) :
    (entry.log last polls).Pairwise fun first second => first.due = true → second.due = true →
      ∃ day, first.time < entry.slot day ∧ entry.slot day ≤ second.time := by
  induction polls generalizing last with
  | nil => exact List.Pairwise.nil
  | cons time rest ih =>
    obtain ⟨-, htail⟩ := prompt_cons.mp hprompt
    refine List.Pairwise.cons (fun poll hpoll hfirst hdue => ?_) (ih htail)
    change entry.due time last = true at hfirst
    change poll ∈ entry.log (if entry.due time last then some time else last) rest at hpoll
    rw [hfirst] at htail hpoll
    exact slot_before_run htail poll hpoll hdue

variable {poll : Poll}

theorem of_mem_log (hpoll : poll ∈ entry.log last polls) :
    poll.time ∈ polls ∧ poll = ⟨poll.time, poll.last, entry.due poll.time poll.last⟩ := by
  induction polls generalizing last with
  | nil => exact absurd hpoll not_mem_nil
  | cons time rest ih =>
    rcases mem_log_cons.mp hpoll with rfl | hpoll
    · exact ⟨mem_cons_self, rfl⟩
    · exact ⟨mem_cons_of_mem time (ih hpoll).1, (ih hpoll).2⟩

/-- Every slot since the last run is run by a poll that comes after it. -/
theorem kept_of_prompt (hpolls : polls.Pairwise (· ≤ ·))
    (hprompt : entry.Prompt (entry.log last polls)) :
    ∀ poll ∈ entry.log last polls, ∀ day, entry.Passed last poll.time day →
      ∃ other ∈ entry.log last polls, other.due = true ∧ entry.slot day ≤ other.time ∧
        other.time ≤ poll.time := by
  induction polls generalizing last with
  | nil => exact fun poll hpoll => absurd hpoll not_mem_nil
  | cons time rest ih =>
    intro poll hpoll day hday
    obtain ⟨hlater, hrest⟩ := pairwise_cons.mp hpolls
    obtain ⟨hhead, htail⟩ := prompt_cons.mp hprompt
    rcases mem_log_cons.mp hpoll with rfl | hpoll
    · exact ⟨_, mem_log_cons.mpr (.inl rfl), hhead.mpr ⟨day, hday⟩, hday.1, le_refl _⟩
    have htime := hlater _ (of_mem_log hpoll).1
    have hadd (hpassed : entry.Passed (if entry.due time last then some time else last)
        poll.time day) := ih hrest htail poll hpoll day hpassed
    cases hfirst : entry.due time last with
    | true =>
      by_cases hrun : entry.slot day ≤ time
      · exact ⟨_, mem_log_cons.mpr (.inl rfl), hfirst, hrun, htime⟩
      obtain ⟨other, hother, hkept⟩ := hadd (by
        rw [hfirst]
        exact ⟨hday.1, not_le.mp hrun⟩)
      exact ⟨other, mem_log_cons.mpr (.inr hother), hkept⟩
    | false =>
      obtain ⟨other, hother, hkept⟩ := hadd (by
        rw [hfirst]
        exact hday)
      exact ⟨other, mem_log_cons.mpr (.inr hother), hkept⟩

theorem prompt_iff : entry.Prompt (entry.log last polls) ↔
    ∀ poll ∈ entry.log last polls, entry.PollFits poll := by
  refine forall₂_congr fun poll hpoll => ?_
  rw [(of_mem_log hpoll).2]
  exact isDue_iff poll.time poll.last

end Polls

/-! ## The next slot -/

theorem isLeast_slot (time : Int) :
    IsLeast {slot | time < slot ∧ ∃ day, slot = entry.slot day}
      (entry.slot (entry.latest time + 1)) := by
  obtain ⟨hle, hlt⟩ := @slot_latest entry time
  refine ⟨⟨hlt, _, rfl⟩, ?_⟩
  rintro _ ⟨hslot, day, rfl⟩
  have hday := slot_strictMono.lt_iff_lt.mp (lt_of_le_of_lt hle hslot)
  exact slot_strictMono.monotone (Int.add_one_le_iff.mpr hday)

theorem nextDue_daily (time : Int) (last : Option Int) :
    let todaySlot := entry.slot (entry.dayOf time)
    entry.next time last =
      if time < todaySlot then todaySlot
      else if time < todaySlot + 86400000 then todaySlot + 86400000 else todaySlot + 172800000 := by
  intro todaySlot
  have hbounds := @slot_bounds entry (entry.dayOf time)
  have hlength := entry.lengths (entry.dayOf time)
  have hlt := entry.lt_midnight time
  have hcandidate (day : Int) : slotOnDay (entry.dayStart time + day * 86400000) entry.hour entry.minute =
      todaySlot + day * 86400000 := by
    simp only [todaySlot, slot, slotOnDay, Calendar.dayStart]
    omega
  have hlast : time < todaySlot + 2 * 86400000 := by
    simp only [hourMs] at hlength
    omega
  simp only [next, schedule, nextDue, hcandidate, map_cons, map_nil, find?_cons, hlast]
  by_cases htoday : time < todaySlot
  · simp [htoday]
  by_cases hnext : time < todaySlot + 86400000
  · simp [htoday, hnext]
  · simp [htoday, hnext]

theorem nextDue_iff (time : Int) (last : Option Int) :
    IsLeast {slot | time < slot ∧ ∃ day, slot = entry.slot day}
        (entry.next time last) ↔
      entry.NextFits time := by
  have hleast := @isLeast_slot entry time
  have hsame : IsLeast {slot | time < slot ∧ ∃ day, slot = entry.slot day}
      (entry.next time last) ↔
      entry.next time last =
        entry.slot (entry.latest time + 1) :=
    ⟨fun hnext => hnext.unique hleast, fun hnext => hnext ▸ hleast⟩
  have hlength := entry.lengths (entry.dayOf time)
  have hbefore := entry.lengths (entry.dayOf time - 1)
  have hsucc := @slot_succ entry (entry.dayOf time)
  have hpred := @slot_succ entry (entry.dayOf time - 1)
  have hbounds := @slot_bounds entry (entry.dayOf time)
  have hlt := entry.lt_midnight time
  rw [Int.sub_add_cancel] at hbefore hpred
  rw [hsame, nextDue_daily]
  unfold latest NextFits
  simp only [hourMs] at hlength hbefore hbounds ⊢
  by_cases htoday : entry.slot (entry.dayOf time) ≤ time
  · rw [if_pos htoday, if_neg (not_lt.mpr htoday), if_pos htoday]
    split <;> omega
  rw [if_neg htoday, if_pos (not_le.mp htoday), if_neg htoday]
  split
  next hyesterday =>
    rw [Int.sub_add_cancel]
    exact iff_of_true rfl hyesterday
  next hyesterday =>
    rw [show entry.dayOf time - 2 + 1 = entry.dayOf time - 1 by omega]
    exact iff_of_false (by omega) hyesterday

/-- The polls run each slot once exactly when each of them fits, and the next slot is found
exactly when the time fits. -/
theorem daily_once (entry : DailyEntry) (last : Option Int)
    (polls : List Int) (hpolls : polls.Pairwise (· ≤ ·)) :
    (entry.OncePerDay last (entry.log last polls) ↔ ∀ poll ∈ entry.log last polls,
        entry.PollFits poll) ∧
    ∀ time last, IsLeast {slot | time < slot ∧ ∃ day, slot = entry.slot day}
        (entry.next time last) ↔
      entry.NextFits time := by
  refine ⟨?_, nextDue_iff⟩
  rw [← prompt_iff]
  constructor
  · intro honce poll hpoll
    exact ⟨honce.passed poll hpoll, fun ⟨day, hday⟩ => honce.due poll hpoll day hday⟩
  intro hprompt
  exact ⟨fun poll hpoll day hday => (hprompt poll hpoll).mpr ⟨day, hday⟩,
    fun poll hpoll => (hprompt poll hpoll).mp, apart_of_prompt hprompt,
    kept_of_prompt hpolls hprompt⟩

section LongDay

/-- Nine o'clock, where day 0 is 25 hours long. -/
private def longDay : DailyEntry where
  midnight day := if day ≤ 0 then day * 86400000 else day * 86400000 + 3600000
  dayOf time := if time < 0 then time / 86400000
    else if time < 90000000 then 0 else (time - 3600000) / 86400000
  lengths day := by
    simp only [hourMs]
    split_ifs <;> omega
  midnight_le time := by split_ifs <;> omega
  lt_midnight time := by split_ifs <;> omega
  hour := 9
  minute := 0

theorem daily_once_longDay : longDay.OncePerDay none (longDay.log none [34200000, 126000000]) := by
  refine (daily_once longDay none [34200000, 126000000] (by decide)).1.mpr ?_
  rw [show longDay.log none [34200000, 126000000] =
    [⟨34200000, none, true⟩, ⟨126000000, some 34200000, true⟩] by decide]
  exact forall_mem_cons.mpr ⟨.inl (by decide), forall_mem_singleton.mpr (.inl (by decide))⟩

/-- A run half an hour after the slot of a long day is made again at midnight. -/
theorem not_always_once : ¬ ∀ (entry : DailyEntry) (last : Option Int) (polls : List Int),
    polls.Pairwise (· ≤ ·) → entry.OncePerDay last (entry.log last polls) ∧
      ∀ time last, IsLeast {slot | time < slot ∧ ∃ day, slot = entry.slot day}
        (entry.next time last) := by
  intro halways
  have honce := (halways longDay none [34200000, 90000000] (by decide)).1
  rw [show longDay.log none [34200000, 90000000] =
    [⟨34200000, none, true⟩, ⟨90000000, some 34200000, true⟩] by decide] at honce
  have hagain := honce.passed ⟨90000000, some 34200000, true⟩ (by simp) rfl
  exact absurd (passed_some_iff.mp hagain) (by decide)

end LongDay

end DailyEntry

end Hummin.Cron
