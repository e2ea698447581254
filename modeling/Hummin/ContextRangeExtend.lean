/-
Extending a range is deriving it again: results are ordered between assistant messages, so
what is settled stays, and entries without edits add their own messages only.
-/
import Hummin.ContextRange

namespace Hummin.ContextRange

open List PropertyList

/-! ### Settling -/

theorem findLastIndex_append (p : Message → Bool) (messages more : List Message) :
    findLastIndex p (messages ++ more) = match findLastIndex p more with
      | some index => some (messages.length + index)
      | none => findLastIndex p messages := by
  induction messages with
  | nil => rcases hmore : findLastIndex p more with _ | index <;> simp [hmore, findLastIndex]
  | cons message rest ih =>
    rw [cons_append, findLastIndex, ih]
    rcases findLastIndex p more with _ | index
    · rfl
    simp only [length_cons, Option.some.injEq]
    omega

variable {p : Message → Bool} {messages : List Message}

/-- The message at the last index, and none after it. -/
theorem findLastIndex_spec {index : Nat} (hindex : findLastIndex p messages = some index) :
    ∃ message rest, messages.drop index = message :: rest ∧ p message = true ∧ findLastIndex p rest = none := by
  induction messages generalizing index with
  | nil => simp [findLastIndex] at hindex
  | cons message rest ih =>
    rw [findLastIndex] at hindex
    rcases hrest : findLastIndex p rest with _ | last
    · simp only [hrest] at hindex
      split at hindex
      next hmessage =>
        cases hindex
        exact ⟨message, rest, rfl, hmessage, hrest⟩
      · cases hindex
    simp only [hrest] at hindex
    cases hindex
    exact ih hrest

theorem takeWhile_append_of_stop {later : List Message} {stop : Message} (hstop : p stop = false) :
    (messages ++ stop :: later).takeWhile p = messages.takeWhile p := by
  induction messages with
  | nil => simp [hstop]
  | cons message rest ih =>
    rw [cons_append, takeWhile_cons, takeWhile_cons, ih]

/-- Results are ordered within the messages up to the next assistant message. -/
theorem orderToolResults_append {stop : Message} (hstop : stop.isAssistant = true) (messages later : List Message) :
    orderToolResults (messages ++ stop :: later) = orderToolResults messages ++ orderToolResults (stop :: later) := by
  induction messages with
  | nil => rfl
  | cons message rest ih =>
    have hresult (call : ToolCall) (timestamp : Nat) :
        resultFor (rest ++ stop :: later) call timestamp = resultFor rest call timestamp := by
      rw [resultFor, resultFor, takeWhile_append_of_stop (by simp [hstop])]
    cases message with
    | assistant ref stopReason calls timestamp =>
      have hcalls : calls.map (fun call => resultFor (rest ++ stop :: later) call timestamp) =
          calls.map fun call => resultFor rest call timestamp :=
        map_congr_left fun call _ => hresult call timestamp
      show _ :: calls.map (fun call => resultFor (rest ++ stop :: later) call timestamp) ++
        orderToolResults (rest ++ stop :: later) = _
      rw [hcalls, ih, ← append_assoc]
      rfl
    | system ref => exact congrArg (Message.system ref :: ·) ih
    | user ref => exact congrArg (Message.user ref :: ·) ih
    | _ => exact ih

/-- Settling what was open with more messages settles the whole. -/
theorem settle_extend (messages more : List Message) :
    settle (settle [] messages).1 ((settle [] messages).2 ++ more) = settle [] (messages ++ more) := by
  rcases hlast : findLastIndex Message.isAssistant messages with _ | _ | index
  · simp [settle, hlast]
  · simp [settle, hlast]
  have hbefore : settle [] messages =
      (orderToolResults (messages.take (index + 1)), messages.drop (index + 1)) := by
    simp [settle, hlast]
  rw [hbefore]
  obtain ⟨stop, rest, hdrop, hstop, hnone⟩ := findLastIndex_spec hlast
  have hsplit : messages = messages.take (index + 1) ++ stop :: rest := by
    rw [← hdrop, take_append_drop]
  have hlength : (messages.take (index + 1)).length = index + 1 := by
    have htotal := congrArg length hdrop
    simp only [length_drop, length_cons] at htotal
    rw [length_take]
    omega
  have hopen : findLastIndex Message.isAssistant (stop :: rest) = some 0 := by
    simp [findLastIndex, hnone, hstop]
  rw [hdrop]
  rcases hmore : findLastIndex Message.isAssistant more with _ | last
  · have hleft : findLastIndex Message.isAssistant (stop :: rest ++ more) = some 0 := by
      rw [findLastIndex_append, hmore]
      exact hopen
    have hright : findLastIndex Message.isAssistant (messages ++ more) = some (index + 1) := by
      rw [findLastIndex_append, hmore]
      exact hlast
    have htake : (messages ++ more).take (index + 1) = messages.take (index + 1) :=
      take_append_of_le_length (by rw [← hlength]; exact length_take_le' _ _)
    have hrest : (messages ++ more).drop (index + 1) = stop :: rest ++ more := by
      rw [← hdrop]
      apply drop_append_of_le_length
      rw [← hlength]
      exact length_take_le' _ _
    simp only [settle, hleft, hright, htake, hrest, nil_append]
  -- the last assistant message is one of the new ones
  have hleft : findLastIndex Message.isAssistant (stop :: rest ++ more) =
      some (rest.length + last + 1) := by
    rw [findLastIndex_append, hmore]
    simp only [length_cons, Option.some.injEq]
    omega
  have hright : findLastIndex Message.isAssistant (messages ++ more) =
      some (index + (rest.length + last + 1) + 1) := by
    have hcount := congrArg length hsplit
    rw [length_append, hlength, length_cons] at hcount
    rw [findLastIndex_append, hmore]
    simp only [Option.some.injEq]
    omega
  have hall : messages ++ more = messages.take (index + 1) ++ (stop :: rest ++ more) := by
    rw [← append_assoc, ← hsplit]
  have hplace : index + (rest.length + last + 1) + 1 =
      (messages.take (index + 1)).length + (rest.length + last + 1) := by
    rw [hlength]
    omega
  have htake : (messages ++ more).take (index + (rest.length + last + 1) + 1) =
      messages.take (index + 1) ++ stop :: (rest ++ more).take (rest.length + last) := by
    rw [hall, hplace, take_length_add_append]
    rfl
  have hrest : (messages ++ more).drop (index + (rest.length + last + 1) + 1) =
      (stop :: rest ++ more).drop (rest.length + last + 1) := by
    rw [hall, hplace, drop_length_add_append]
  simp only [settle, hleft, hright, htake, hrest, nil_append, orderToolResults_append hstop]
  rfl

/-! ### Extending -/

theorem findBaseline_append (head : Option EntryRecord) (entries more : List EntryRecord) :
    findBaseline head (entries ++ more) = match findBaseline head entries with
      | .open => findBaseline head more
      | known => known := by
  induction entries with
  | nil => rfl
  | cons entry rest ih =>
    rw [cons_append, findBaseline, findBaseline]
    split
    · exact ih
    split
    · split <;> rfl
    split
    · rfl
    · exact ih

variable {added : List EntryRecord}

/-- Entries without edits leave the collected edits as they are. -/
theorem collectEdits_append {entries : List EntryRecord} (hadded : ∀ entry ∈ added, entry.edits = none) :
    collectEdits (entries ++ added) = collectEdits entries := by
  have hkept (edits : List (Nat × ContextEdit)) : added.foldl (fun edits entry =>
      (entry.edits.getD []).foldl (fun edits edit => JsMap.set edit.target edit edits) edits) edits = edits := by
    induction added generalizing edits with
    | nil => rfl
    | cons entry rest ih =>
      rw [foldl_cons, hadded entry mem_cons_self]
      exact ih (fun other hother => hadded other (mem_cons_of_mem entry hother)) edits
  rw [collectEdits, foldl_append, hkept]
  rfl

theorem selectActive_append (hadded : ∀ entry ∈ added, entry.head = none)
    (head : Option EntryRecord) (entries : List EntryRecord) :
    selectActive head (entries ++ added) = selectActive head entries ++ added := by
  cases head with
  | none => rfl
  | some head =>
    have hkept : added.filter (fun entry => entry.head.isNone) = added := by
      rw [filter_eq_self]
      intro entry hentry
      simp [hadded entry hentry]
    rw [selectActive, selectActive, filter_append, hkept]
    rfl

/-- A range extended by the entries after it is the range derived from all of them. -/
theorem extendRange_eq_deriveRange (head : Option EntryRecord) (tail next : Nat) (entries added : List EntryRecord)
    (before current : Bool) :
    extendRange (deriveRange head tail entries before) head next added current =
      deriveRange head next (entries ++ added) current := by
  rw [extendRange]
  split
  · rfl
  rename_i hplain
  simp only [any_eq_true, Bool.or_eq_true, decide_eq_true_eq, not_exists, not_and, not_or] at hplain
  have hedits : ∀ entry ∈ added, entry.edits = none := by
    intro entry hentry
    simpa using (hplain entry hentry).1.1
  have hheads : ∀ entry ∈ added, entry.head = none := by
    intro entry hentry
    simpa using (hplain entry hentry).1.2
  have hnew : added.map (fun entry => contribute entry (get entry.id (collectEdits entries))) =
      added.map fun entry => contribute entry none := by
    apply map_congr_left
    intro entry hentry
    have hnone : get entry.id (collectEdits entries) = none :=
      (get_eq_none_iff _ _).2 (hplain entry hentry).2
    rw [hnone]
  have hbaseline : findBaseline head (selectActive head entries ++ added) =
      match findBaseline head (selectActive head entries) with
      | .open => findBaseline head added
      | known => known := findBaseline_append head _ _
  simp only [deriveRange, collectEdits_append hedits, selectActive_append hheads, map_append, hnew,
    flatten_append, settle_extend, hbaseline] <;> rfl

end Hummin.ContextRange
