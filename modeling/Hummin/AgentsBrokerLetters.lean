/-
Where the messages of the broker are: each in one place, those of a name in the order of their
sends but for what a replay left waiting.
-/
import Mathlib.Data.List.Count
import Hummin.AgentsBrokerEvents

namespace Hummin.AgentsBroker

open List Option Function

variable {trace : List Event} {event : Event} {name : JsString} {stamp : Stamp}

/-! ## The places of a send after one more event -/

@[simp] theorem written_append (trace events : List Event) (name : JsString) :
    written (trace ++ events) name = written trace name ++ written events name :=
  filterMap_append

@[simp] theorem unwritten_append (trace events : List Event) (name : JsString) :
    unwritten (trace ++ events) name = unwritten trace name ++ unwritten events name :=
  filterMap_append

@[simp] theorem dropped_append (trace events : List Event) (name : JsString) :
    dropped (trace ++ events) name = dropped trace name ++ dropped events name :=
  filterMap_append

theorem forName_eq_some {other : Stamp} :
    other.forName name = some stamp ↔ other = stamp ∧ stamp.recipient = some name := by
  unfold Stamp.forName
  split
  next hother =>
    constructor
    · rintro ⟨⟩
      exact ⟨rfl, hother⟩
    rintro ⟨rfl, -⟩
    rfl
  next hother =>
    refine ⟨fun hnone => absurd hnone (by simp), ?_⟩
    rintro ⟨rfl, hname⟩
    exact absurd hname hother

@[simp] theorem forName_self (hstamp : stamp.recipient = some name) :
    stamp.forName name = some stamp :=
  if_pos hstamp

@[simp] theorem forName_other (hstamp : stamp.recipient ≠ some name) : stamp.forName name = none :=
  if_neg hstamp

theorem mem_written {id : Option JsString} {letter : Letter} {socket : Socket}
    (hevent : .wrote socket (.deliver id letter) ∈ trace)
    (hname : letter.stamp.recipient = some name) : letter.stamp ∈ written trace name :=
  mem_filterMap.mpr ⟨_, hevent, forName_self hname⟩

theorem mem_placed {waiting : JsString → List Letter} {letter : Letter}
    (hletter : letter ∈ waiting name) : letter.stamp ∈ placed trace waiting name :=
  mem_append_right _ (mem_append_right _ (mem_append_right _ (mem_map_of_mem hletter)))

/-- An event that puts no message of a name anywhere. -/
def isSilent : Event → Prop
  | .wrote _ (.deliver _ letter) | .skipped _ (.deliver _ letter) =>
    letter.stamp.recipient = none
  | .wrote _ (.ack stamp _ .queued _ _) => stamp.recipient = none
  | .dropped _ => False
  | _ => True

theorem written_silent (hsilent : isSilent event) : written [event] name = [] := by
  unfold written
  cases event with
  | wrote socket frame =>
    cases frame with
    | deliver id letter =>
      have hnone : letter.stamp.recipient = none := hsilent
      simp [hnone]
    | _ => rfl
  | _ => rfl

theorem unwritten_silent (hsilent : isSilent event) : unwritten [event] name = [] := by
  unfold unwritten
  cases event with
  | skipped socket frame =>
    cases frame with
    | deliver id letter =>
      have hnone : letter.stamp.recipient = none := hsilent
      simp [hnone]
    | _ => rfl
  | _ => rfl

theorem dropped_silent (hsilent : isSilent event) : dropped [event] name = [] := by
  cases event with
  | dropped messages => exact hsilent.elim
  | _ => rfl

/-- A send that is newer than all written to its name is not overtaken. -/
theorem notOvertaken_newest (hnewest : ∀ other ∈ written trace name, other.number ≤ stamp.number) :
    NotOvertaken trace name stamp := by
  rintro past event later rfl socket id letter rfl hname hlater
  have hmem : .wrote socket (.deliver id letter) ∈ past ++ .wrote socket (.deliver id letter) :: later :=
    mem_append_right past mem_cons_self
  exact absurd hlater (Int.not_lt.mpr (hnewest letter.stamp (mem_written hmem hname)))

/-! ## The invariant -/

/-- The messages of each name, the waiting ones as given; their sends are before `bound`. -/
structure Letters (trace : List Event) (bound : Int) (waiting : JsString → List Letter) :
    Prop where
  mine : ∀ name, ∀ letter ∈ waiting name, letter.stamp.recipient = some name ∧
    (0 ≤ letter.stamp.number → .queued letter.stamp ∈ trace)
  sorted : ∀ name, (waiting name).Pairwise fun first second =>
    first.stamp.number < second.stamp.number
  used : ∀ name, ∀ stamp ∈ placed trace waiting name, stamp.number < bound
  once : ∀ name, (placed trace waiting name).Nodup
  clear : ∀ name, ∀ letter ∈ waiting name, NotOvertaken trace name letter.stamp
  kept : ∀ socket stamp id targets detail name,
    .wrote socket (.ack stamp id .queued targets detail) ∈ trace →
      stamp.recipient = some name → stamp ∈ placed trace waiting name

namespace Letters

variable {bound : Int} {waiting : JsString → List Letter}

section

variable (hletters : Letters trace bound waiting)

include hletters

theorem mono {more : Int} (hmore : bound ≤ more) :
    Letters trace more waiting where
  mine := hletters.mine
  sorted := hletters.sorted
  used name stamp hstamp := lt_of_lt_of_le (hletters.used name stamp hstamp) hmore
  once := hletters.once
  clear := hletters.clear
  kept := hletters.kept

/-- An event that puts no message anywhere, and acknowledges only what has a place. -/
theorem unplaced (hwritten : ∀ name, written [event] name = [])
    (hunwritten : ∀ name, unwritten [event] name = [])
    (hdropped : ∀ name, dropped [event] name = []) (hack : ∀ socket stamp id targets detail name,
      event = .wrote socket (.ack stamp id .queued targets detail) →
        stamp.recipient = some name → stamp ∈ placed trace waiting name) :
    Letters (trace ++ [event]) bound waiting := by
  have hplaced : placed (trace ++ [event]) waiting = placed trace waiting := by
    funext name
    simp [placed, hwritten, hunwritten, hdropped]
  refine ⟨fun name letter hletter => ?_, hletters.sorted, fun name stamp hstamp => ?_,
    fun name => ?_, fun name letter hletter => ?_,
    fun socket stamp id targets detail name hmem hname => ?_⟩
  · obtain ⟨hmine, hqueued⟩ := hletters.mine name letter hletter
    exact ⟨hmine, fun hpos => mem_append_left [event] (hqueued hpos)⟩
  · rw [hplaced] at hstamp
    exact hletters.used name stamp hstamp
  · rw [hplaced]
    exact hletters.once name
  · refine along_concat.mpr ⟨hletters.clear name letter hletter, ?_⟩
    rintro socket id other rfl hname
    have hmem : other.stamp ∈ written [.wrote socket (.deliver id other)] name :=
      mem_written mem_cons_self hname
    rw [hwritten] at hmem
    exact absurd hmem not_mem_nil
  rw [hplaced]
  rcases mem_append.mp hmem with hmem | hmem
  · exact hletters.kept socket stamp id targets detail name hmem hname
  · exact hack socket stamp id targets detail name (mem_singleton.mp hmem).symm hname

theorem silent (hsilent : isSilent event) : Letters (trace ++ [event]) bound waiting := by
  refine hletters.unplaced (fun _ => written_silent hsilent) (fun _ => unwritten_silent hsilent)
    (fun _ => dropped_silent hsilent) ?_
  rintro socket stamp id targets detail name rfl hname
  have hnone : stamp.recipient = none := hsilent
  cases hnone.symm.trans hname

/-- A message with a place is acknowledged. -/
theorem acked {socket : Socket} {id detail : JsString} {targets : Option Nat} {status : AckStatus}
    (hplaced : ∀ name, stamp.recipient = some name → stamp ∈ placed trace waiting name) :
    Letters (trace ++ [Event.wrote socket (.ack stamp id status targets detail)]) bound waiting := by
  refine hletters.unplaced (fun _ => rfl) (fun _ => rfl) (fun _ => rfl) ?_
  intro other another _ _ _ name hsame hname
  obtain ⟨-, hframe⟩ := Event.wrote.inj hsame
  cases hframe
  exact hplaced name hname

variable {letter : Letter}

/-- The first waiting message of a name goes to another place. -/
theorem moved {rest : List Letter} (hwaiting : waiting name = letter :: rest)
    (hplaces : ∀ other, written [event] other ++ (unwritten [event] other ++
      dropped [event] other) = (letter.stamp.forName other).toList)
    (hack : ∀ socket stamp id targets detail,
      event ≠ .wrote socket (.ack stamp id .queued targets detail)) :
    Letters (trace ++ [event]) bound (update waiting name rest) := by
  have hmem : letter ∈ waiting name := hwaiting ▸ mem_cons_self
  have hname := (hletters.mine name letter hmem).1
  have hrest : ∀ other, ∀ letter ∈ update waiting name rest other,
      letter ∈ waiting other := by
    intro other another hanother
    by_cases hother : other = name
    · subst hother
      rw [update_self] at hanother
      exact hwaiting ▸ mem_cons_of_mem letter hanother
    · rwa [update_of_ne hother] at hanother
  have hperm : ∀ other, (placed (trace ++ [event]) (update waiting name rest) other).Perm
      (placed trace waiting other) := by
    intro other
    refine perm_iff_count.mpr fun stamp => ?_
    have hcount := congrArg (count stamp) (hplaces other)
    simp only [placed, written_append, unwritten_append, dropped_append, count_append]
      at hcount ⊢
    by_cases hother : other = name
    · subst hother
      rw [forName_self hname] at hcount
      rw [update_self, hwaiting, map_cons, count_cons]
      simp only [toList_some, count_singleton] at hcount
      omega
    have hnone : letter.stamp.recipient ≠ some other := by
      rw [hname]
      exact fun hsame => hother (some.inj hsame).symm
    rw [forName_other hnone] at hcount
    rw [update_of_ne hother]
    simp only [toList_none, count_nil] at hcount
    omega
  refine ⟨fun other another hanother => ?_, fun other => ?_, fun other stamp hstamp => ?_,
    fun other => (hperm other).nodup_iff.mpr (hletters.once other),
    fun other another hanother => ?_, fun socket stamp id targets detail other hmem hother => ?_⟩
  · obtain ⟨hmine, hqueued⟩ := hletters.mine other another (hrest other another hanother)
    exact ⟨hmine, fun hpos => mem_append_left [event] (hqueued hpos)⟩
  · by_cases hother : other = name
    · subst hother
      rw [update_self]
      have hsorted := hletters.sorted other
      rw [hwaiting] at hsorted
      exact hsorted.of_cons
    rw [update_of_ne hother]
    exact hletters.sorted other
  · exact hletters.used other stamp ((hperm other).mem_iff.mp hstamp)
  · refine along_concat.mpr ⟨hletters.clear other another (hrest other another hanother), ?_⟩
    -- the message that is written was the first that waited
    rintro socket id new rfl hnew hlater
    have hwritten : new.stamp ∈ (letter.stamp.forName other).toList := by
      rw [← hplaces other]
      exact mem_append_left _ (mem_written mem_cons_self hnew)
    obtain ⟨hsame, hfor⟩ := forName_eq_some.mp (mem_toList.mp hwritten)
    have hother : other = name := some.inj (hfor.symm.trans (hsame ▸ hname))
    subst hother
    rw [update_self] at hanother
    have hsorted := hletters.sorted other
    rw [hwaiting] at hsorted
    have hless := rel_of_pairwise_cons hsorted hanother
    rw [hsame] at hless
    omega
  · rcases mem_append.mp hmem with hmem | hmem
    · exact (hperm other).mem_iff.mpr (hletters.kept socket stamp id targets detail other hmem hother)
    · exact absurd (mem_singleton.mp hmem).symm (hack socket stamp id targets detail)

/-- The newest send takes a place. -/
theorem added {more : List Event} {later : JsString → List Letter} (hnumber : stamp.number = bound)
    (hperm : ∀ other, (placed more later other).Perm
      ((stamp.forName other).toList ++ placed trace waiting other)) :
    (∀ other, ∀ another ∈ placed more later other, another.number < bound + 1) ∧
      (∀ other, (placed more later other).Nodup) := by
  constructor
  · intro other another hanother
    rcases mem_append.mp ((hperm other).mem_iff.mp hanother) with hnew | hold
    · obtain ⟨rfl, -⟩ := forName_eq_some.mp (mem_toList.mp hnew)
      omega
    have hless := hletters.used other another hold
    omega
  intro other
  refine (hperm other).nodup_iff.mpr (List.Nodup.append ?_ (hletters.once other) ?_)
  · cases stamp.forName other <;> simp
  intro another hnew hold
  obtain ⟨rfl, -⟩ := forName_eq_some.mp (mem_toList.mp hnew)
  have hless := hletters.used other stamp hold
  omega

/-- The newest send is written at once to a connection whose hello left all that waits. -/
theorem direct {target : Socket} {id : JsString} (hnumber : letter.stamp.number = bound)
    (hname : letter.stamp.recipient = some name)
    (hlast : trace.getLast? = some (.sent letter.stamp))
    (hleft : ∀ other ∈ waiting name, LeftWaiting trace target name other.stamp) :
    Letters (trace ++ [Event.wrote target (.deliver (some id) letter)]) (bound + 1) waiting := by
  have hperm : ∀ other, (placed (trace ++ [Event.wrote target (.deliver (some id) letter)]) waiting
      other).Perm ((letter.stamp.forName other).toList ++ placed trace waiting other) := by
    intro other
    have hwritten : written [.wrote target (.deliver (some id) letter)] other =
        (letter.stamp.forName other).toList := by
      simp only [written, filterMap_cons, filterMap_nil]
      cases letter.stamp.forName other <;> rfl
    have hunwritten : unwritten [.wrote target (.deliver (some id) letter)] other = [] := rfl
    have hdropped : dropped [.wrote target (.deliver (some id) letter)] other = [] := rfl
    rw [placed, placed, written_append, unwritten_append, dropped_append, hwritten, hunwritten,
      hdropped, append_nil, append_nil]
    refine (perm_append_comm.append_right _).trans ?_
    rw [append_assoc]
  obtain ⟨hused, honce⟩ := added hletters hnumber hperm
  refine ⟨fun other another hanother => ?_, hletters.sorted, hused, honce,
    fun other another hanother => ?_, fun socket stamp id targets detail other hack hother => ?_⟩
  · obtain ⟨hmine, hqueued⟩ := hletters.mine other another hanother
    exact ⟨hmine, fun hpos => mem_append_left _ (hqueued hpos)⟩
  · refine along_concat.mpr ⟨hletters.clear other another hanother, ?_⟩
    rintro socket id new hsame hnew -
    obtain ⟨rfl, hframe⟩ := Event.wrote.inj hsame
    cases hframe
    cases hname.symm.trans hnew
    exact ⟨hleft another hanother, hlast⟩
  refine (hperm other).mem_iff.mpr (mem_append_right _ ?_)
  rcases mem_append.mp hack with hack | hack
  · exact hletters.kept socket stamp _ targets detail other hack hother
  · simp at hack

/-- The newest send waits at the end of an inbox. -/
theorem queued
    (hnumber : letter.stamp.number = bound) (hname : letter.stamp.recipient = some name) :
    Letters (trace ++ [Event.queued letter.stamp]) (bound + 1)
      (update waiting name (waiting name ++ [letter])) := by
  have hperm : ∀ other, (placed (trace ++ [Event.queued letter.stamp])
      (update waiting name (waiting name ++ [letter])) other).Perm
      ((letter.stamp.forName other).toList ++ placed trace waiting other) := by
    intro other
    have hwritten : written [.queued letter.stamp] other = [] := rfl
    have hunwritten : unwritten [.queued letter.stamp] other = [] := rfl
    have hdropped : dropped [.queued letter.stamp] other = [] := rfl
    rw [placed, placed, written_append, unwritten_append, dropped_append, hwritten, hunwritten,
      hdropped, append_nil, append_nil, append_nil]
    by_cases hother : other = name
    · subst hother
      rw [update_self, forName_self hname, map_append]
      refine perm_iff_count.mpr fun stamp => ?_
      simp only [count_append, map_cons, map_nil, toList_some]
      omega
    have hnone : letter.stamp.recipient ≠ some other := by
      rw [hname]
      exact fun hsame => hother (some.inj hsame).symm
    rw [update_of_ne hother, forName_other hnone]
    exact List.Perm.refl _
  obtain ⟨hused, honce⟩ := added hletters hnumber hperm
  have hold : ∀ other, ∀ another ∈ waiting other, another.stamp.number < bound := by
    intro other another hanother
    exact hletters.used other another.stamp (mem_placed hanother)
  have hcases : ∀ other, ∀ another ∈ update waiting name (waiting name ++ [letter]) other,
      another ∈ waiting other ∨ (another = letter ∧ other = name) := by
    intro other another hanother
    by_cases hother : other = name
    · subst hother
      rw [update_self, mem_append, mem_singleton] at hanother
      exact hanother.imp_right fun hsame => ⟨hsame, rfl⟩
    rw [update_of_ne hother] at hanother
    exact .inl hanother
  refine ⟨fun other another hanother => ?_, fun other => ?_, hused, honce,
    fun other another hanother => ?_, fun socket stamp id targets detail other hack hother => ?_⟩
  · rcases hcases other another hanother with hanother | ⟨rfl, rfl⟩
    · obtain ⟨hmine, hqueued⟩ := hletters.mine other another hanother
      exact ⟨hmine, fun hpos => mem_append_left _ (hqueued hpos)⟩
    · exact ⟨hname, fun _ => mem_append_right trace mem_cons_self⟩
  · by_cases hother : other = name
    · subst hother
      rw [update_self, pairwise_append]
      refine ⟨hletters.sorted other, pairwise_singleton _ _, fun another hanother last hlast => ?_⟩
      rw [mem_singleton.mp hlast, hnumber]
      exact hold other another hanother
    rw [update_of_ne hother]
    exact hletters.sorted other
  · refine along_concat.mpr ⟨?_, fun socket id new hsame => absurd hsame (by simp)⟩
    rcases hcases other another hanother with hanother | ⟨rfl, rfl⟩
    · exact hletters.clear other another hanother
    refine notOvertaken_newest fun older holder => ?_
    have hless := hletters.used other older (mem_append_left _ holder)
    omega
  refine (hperm other).mem_iff.mpr (mem_append_right _ ?_)
  rcases mem_append.mp hack with hack | hack
  · exact hletters.kept socket stamp id targets detail other hack hother
  · simp at hack

end

/-- Shifting the oldest messages out of an inbox. -/
theorem shifted (hfits : Along EventFits trace) {messages : List Letter}
    (hletters : Letters trace bound (update waiting name messages)) :
    Letters (trace ++ (shiftOldest messages).1.map Event.dropped) bound
        (update waiting name (shiftOldest messages).2) ∧
      Along EventFits (trace ++ (shiftOldest messages).1.map Event.dropped) := by
  induction messages using shiftOldest.induct generalizing trace with
  | case1 oldest next rest hover ih =>
    have hdropped : ∀ other, dropped [.dropped (oldest :: next :: rest)] other =
        (oldest.stamp.forName other).toList := by
      intro other
      simp only [dropped, filterMap_cons, filterMap_nil]
      cases oldest.stamp.forName other <;> rfl
    have hmoved : Letters (trace ++ [Event.dropped (oldest :: next :: rest)]) bound
        (update (update waiting name (oldest :: next :: rest)) name (next :: rest)) :=
      hletters.moved (update_self ..) (fun other => hdropped other) (by simp)
    rw [update_idem] at hmoved
    have hfit : EventFits trace (.dropped (oldest :: next :: rest)) := ⟨hover, by simp⟩
    have hnext := ih (along_concat.mpr ⟨hfits, hfit⟩) hmoved
    rw [shiftOldest, if_pos hover]
    simpa using hnext
  | case2 oldest next rest hover =>
    rw [shiftOldest, if_neg hover]
    simpa using ⟨hletters, hfits⟩
  | case3 messages hshort =>
    rw [shiftOldest.eq_def]
    split
    · exact absurd rfl (hshort _ _ _)
    · simpa using ⟨hletters, hfits⟩

end Letters

end Hummin.AgentsBroker
