/-
The store of scheduled runs and its schedule mathematics: entries with a daily or a periodic
schedule, the entries due for a wake, and the changes a writer makes to the list of entries.
Times are milliseconds; `dayStart` is the local midnight before a time.
-/
import Hummin.JsString
import Hummin.JsonRepair

namespace Hummin.Cron

open List

structure CronEntry where
  name : JsString
  schedule : JsString
  cwd : JsString
  prompt : JsString
  model : Option JsString
  thinking : Option JsString
  reviewId : Option JsString
  heldReason : Option JsString
  receipt : Option JsString
  createdAt : Int
  lastRun : Option Int
  lastExit : Option (Option Int)
  lastPid : Option Nat
  queuedSince : Option Int
deriving DecidableEq

inductive ParsedSchedule
  | daily (hour minute : Nat)
  | every (minutes : Nat)
deriving DecidableEq

def minEveryMinutes : Nat := 5
def queuedTtlMs : Int := 30 * 60 * 1000

def trim (text : JsString) : JsString :=
  ((text.dropWhile JsonRepair.isTrimmed).reverse.dropWhile JsonRepair.isTrimmed).reverse

/-- `^[a-z0-9-]{1,64}$` -/
def isValidCronName (name : JsString) : Bool :=
  name.all (fun unit => (97 ≤ unit.toNat && unit.toNat ≤ 122) || isDigitUnit unit || unit == 45) &&
    1 ≤ name.length && name.length ≤ 64

/-- `^every:(\d+)$` -/
def everyMatch (text : JsString) : Option Nat :=
  let word := js "every:".toList
  if word.isPrefixOf text then
    let digits := text.drop word.length
    if digits ≠ [] ∧ digits.all isDigitUnit then some (decimalValue digits) else none
  else none

/-- `^(\d{1,2}):(\d{2})$` -/
def dailyMatch (text : JsString) : Option (Nat × Nat) :=
  match text.splitOn 58 with
  | [hour, minute] =>
    if hour.all isDigitUnit ∧ (hour.length = 1 ∨ hour.length = 2) ∧
        minute.all isDigitUnit ∧ minute.length = 2 then
      some (decimalValue hour, decimalValue minute)
    else none
  | _ => none

def parseSchedule (raw : JsString) : Except JsString ParsedSchedule :=
  let invalid := js "Invalid schedule \"".toList ++ raw
  match everyMatch (trim raw) with
  | some minutes =>
    if minutes < minEveryMinutes then
      .error (invalid ++ js "\": every:<minutes> requires an integer >= ".toList ++
        decimal minEveryMinutes)
    else .ok (.every minutes)
  | none =>
    match dailyMatch (trim raw) with
    | some (hour, minute) =>
      if 23 < hour ∨ 59 < minute then .error (invalid ++ js "\": HH:MM out of range".toList)
      else .ok (.daily hour minute)
    | none =>
      .error (invalid ++ js "\": use \"HH:MM\" (daily, local) or \"every:<minutes>\" (>= ".toList ++
        decimal minEveryMinutes ++ js ")".toList)

def slotOnDay (dayStartMs : Int) (hour minute : Nat) : Int :=
  dayStartMs + (hour * 60 + minute) * 60000

section Due

variable (dayStart : Int → Int)

def isDue (parsed : ParsedSchedule) (nowMs : Int) (lastRunMs : Option Int) : Bool :=
  match parsed, lastRunMs with
  | .every _, none => true
  | .every minutes, some lastRun => minutes * 60000 ≤ nowMs - lastRun
  | .daily hour minute, none => slotOnDay (dayStart nowMs) hour minute ≤ nowMs
  | .daily hour minute, some lastRun =>
    let todaySlot := slotOnDay (dayStart nowMs) hour minute
    let lastSlot := if todaySlot ≤ nowMs then todaySlot else todaySlot - 86400000
    lastSlot ≤ nowMs && lastRun < lastSlot

/-- A wake is in flight: queued for less than `queuedTtlMs`. -/
def isQueued (entry : CronEntry) (nowMs : Int) : Bool :=
  entry.queuedSince.any fun since => nowMs - since < queuedTtlMs

def isDueEntry (nowMs : Int) (entry : CronEntry) : Bool :=
  if isQueued entry nowMs then false
  else
    match parseSchedule entry.schedule with
    | .error _ => false
    | .ok parsed => isDue dayStart parsed nowMs entry.lastRun

def dueEntries (entries : List CronEntry) (nowMs : Int) : List CronEntry :=
  entries.filter (isDueEntry dayStart nowMs)

def clearStaleQueued (entry : CronEntry) (nowMs : Int) : CronEntry :=
  if entry.queuedSince.any fun since => queuedTtlMs ≤ nowMs - since then
    { entry with queuedSince := none }
  else entry

/-- Clearing an abandoned marker changes nothing about what is due. -/
theorem isDueEntry_clearStaleQueued (entry : CronEntry) (nowMs : Int) :
    isDueEntry dayStart nowMs (clearStaleQueued entry nowMs) = isDueEntry dayStart nowMs entry := by
  unfold clearStaleQueued
  split
  next hstale =>
    have hold : isQueued entry nowMs = false := by
      unfold isQueued
      cases hsince : entry.queuedSince with
      | none => rfl
      | some since =>
        rw [hsince] at hstale
        simp only [Option.any_some, decide_eq_true_eq, decide_eq_false_iff_not] at hstale ⊢
        omega
    have hnew : isQueued { entry with queuedSince := none } nowMs = false := rfl
    unfold isDueEntry
    rw [hold, hnew]
  · rfl

end Due

/-! ## The changes of the writers -/

def getEntry (entries : List CronEntry) (name : JsString) : Option CronEntry :=
  entries.find? fun entry => entry.name == name

/-- `upsertEntry` on the entries it read. -/
def upsert (entries : List CronEntry) (entry : CronEntry) : List CronEntry :=
  entries.filter (fun candidate => candidate.name != entry.name) ++ [entry]

/-- `deleteEntry` on the entries it read. -/
def without (entries : List CronEntry) (name : JsString) : List CronEntry :=
  entries.filter fun entry => entry.name != name

/-- `recordExit` on the entries it read. -/
def withExit (entries : List CronEntry) (name : JsString) (pid : Nat) (code : Option Int) :
    List CronEntry :=
  entries.map fun candidate =>
    if candidate.name = name ∧ candidate.lastPid = some pid then
      { candidate with lastExit := some code, queuedSince := none }
    else candidate

section

variable {entries : List CronEntry} {entry : CronEntry} {name : JsString}

theorem name_of_getEntry (hget : getEntry entries name = some entry) : entry.name = name := by
  have hfound := find?_some hget
  exact beq_iff_eq.mp hfound

theorem getEntry_eq_none : getEntry entries name = none ↔ ∀ entry ∈ entries, entry.name ≠ name := by
  simp [getEntry]

/-- Where names are not repeated an entry is found under its name. -/
theorem getEntry_of_mem (hnodup : (entries.map CronEntry.name).Nodup) (hentry : entry ∈ entries) :
    getEntry entries entry.name = some entry := by
  induction entries with
  | nil => exact absurd hentry not_mem_nil
  | cons first rest ih =>
    rw [map_cons, nodup_cons] at hnodup
    rw [getEntry, find?_cons]
    rcases mem_cons.mp hentry with rfl | hentry
    · simp
    have hne : first.name ≠ entry.name := by
      intro hsame
      exact hnodup.1 (hsame ▸ mem_map_of_mem hentry)
    rw [beq_eq_false_iff_ne.mpr hne]
    exact ih hnodup.2 hentry

theorem getEntry_without (entries : List CronEntry) (deleted name : JsString) :
    getEntry (without entries deleted) name =
      if name = deleted then none else getEntry entries name := by
  rw [getEntry, without, find?_filter]
  split
  next hname =>
    simp [hname]
  rename_i hname
  rw [getEntry]
  congr 1
  funext candidate
  by_cases hcandidate : candidate.name = name
  · simp [hcandidate, hname]
  · simp [hcandidate]

theorem getEntry_upsert (entries : List CronEntry) (entry : CronEntry) (name : JsString) :
    getEntry (upsert entries entry) name =
      if name = entry.name then some entry else getEntry entries name := by
  have hothers : getEntry (upsert entries entry) name =
      (getEntry (without entries entry.name) name).or (getEntry [entry] name) :=
    find?_append
  rw [hothers, getEntry_without]
  split
  next hname =>
    simp [getEntry, hname]
  next hname =>
    simp [getEntry, Ne.symm hname]

theorem getEntry_withExit (entries : List CronEntry) (exited : JsString) (pid : Nat)
    (code : Option Int) (name : JsString) :
    getEntry (withExit entries exited pid code) name =
      (getEntry entries name).map fun entry =>
        if entry.name = exited ∧ entry.lastPid = some pid then
          { entry with lastExit := some code, queuedSince := none }
        else entry := by
  rw [getEntry, withExit, find?_map]
  congr 2
  funext candidate
  simp only [Function.comp_apply]
  split <;> rfl

theorem names_upsert (hnodup : (entries.map CronEntry.name).Nodup) (entry : CronEntry) :
    ((upsert entries entry).map CronEntry.name).Nodup := by
  rw [upsert, map_append]
  refine List.Nodup.append (hnodup.sublist (filter_sublist.map _)) (nodup_singleton _) ?_
  intro name hname hentry
  obtain ⟨candidate, hcandidate, rfl⟩ := mem_map.mp hname
  have hne := (mem_filter.mp hcandidate).2
  exact bne_iff_ne.mp hne (mem_singleton.mp hentry)

theorem names_without (hnodup : (entries.map CronEntry.name).Nodup) (name : JsString) :
    ((without entries name).map CronEntry.name).Nodup :=
  hnodup.sublist (filter_sublist.map _)

theorem names_withExit (entries : List CronEntry) (name : JsString) (pid : Nat)
    (code : Option Int) :
    (withExit entries name pid code).map CronEntry.name = entries.map CronEntry.name := by
  rw [withExit, map_map]
  refine map_congr_left fun candidate _ => ?_
  simp only [Function.comp_apply]
  split <;> rfl

end

end Hummin.Cron
