/-
The kept range is the range: over every run of commits and reads, however they overlap, a
range is what its bounds and the conversation give when it is derived anew.
-/
import Hummin.ContextRangeExtend
import Hummin.Machine

namespace Hummin.ContextRange

open List Option

/-- The range through `tail`, derived from the whole conversation. -/
def fullRange (entries : List EntryRecord) (tail : Nat) (current : Bool) : Range :=
  deriveRange (latestHeadMarker entries tail) tail
    (scan entries (startOf (latestHeadMarker entries tail)) tail) current

/-- Entries in the order of their ids, with heads that are not after them. -/
structure Ordered (entries : List EntryRecord) : Prop where
  ids : entries.Pairwise fun entry later => entry.id < later.id
  heads : ∀ entry ∈ entries, ∀ head ∈ entry.head, head ≤ entry.id

/-! ### Scans -/

variable {low high : Nat}

/-- In ascending order a range of ids is its lower part and its upper part. -/
theorem scan_split {entries : List EntryRecord}
    (hids : entries.Pairwise fun entry later => entry.id < later.id) {middle : Nat}
    (hlow : low ≤ middle + 1) (hhigh : middle ≤ high) :
    scan entries low high = scan entries low middle ++ scan entries (middle + 1) high := by
  induction entries with
  | nil => rfl
  | cons entry rest ih =>
    rw [pairwise_cons] at hids
    have hrest := ih hids.2
    simp only [scan, filter_cons] at hrest ⊢
    by_cases hbelow : entry.id ≤ middle
    · have hnot : ¬ middle + 1 ≤ entry.id := by omega
      have hunder : entry.id ≤ high := by omega
      simp only [hbelow, hnot, hunder, decide_true, decide_false, Bool.and_true]
      split
      · rw [hrest]
        rfl
      · exact hrest
    -- from here on all ids are above the middle
    have habove : middle + 1 ≤ entry.id := by omega
    have hover : low ≤ entry.id := by omega
    have hnone : rest.filter (fun other => decide (low ≤ other.id) && decide (other.id ≤ middle)) = [] := by
      rw [filter_eq_nil_iff]
      intro other hother
      have hlater := hids.1 other hother
      simp only [Bool.and_eq_true, decide_eq_true_eq, not_and]
      omega
    rw [hnone, nil_append] at hrest
    simp only [hbelow, habove, hover, decide_true, decide_false, Bool.and_false, Bool.true_and, hnone]
    split
    · rw [hrest]
      rfl
    · exact hrest

theorem mem_scan {entries : List EntryRecord} {entry : EntryRecord} :
    entry ∈ scan entries low high ↔ entry ∈ entries ∧ low ≤ entry.id ∧ entry.id ≤ high := by
  simp [scan, mem_filter]

/-- Entries after `high` are not scanned. -/
theorem scan_append {entries appended : List EntryRecord}
    (hafter : ∀ entry ∈ appended, high < entry.id) :
    scan (entries ++ appended) low high = scan entries low high := by
  have hnone : appended.filter (fun entry => decide (low ≤ entry.id) && decide (entry.id ≤ high)) = [] := by
    rw [filter_eq_nil_iff]
    intro entry hentry
    have hlater := hafter entry hentry
    simp only [Bool.and_eq_true, decide_eq_true_eq, not_and]
    omega
  rw [scan, filter_append, hnone, append_nil]
  rfl

/-! ### Head markers -/

/-- The newest marker is one of the entries, or the one before them. -/
theorem newestMarker_cases (head : Option EntryRecord) (entries : List EntryRecord) :
    newestMarker head entries = head ∨ ∃ marker ∈ entries, newestMarker head entries = some marker ∧
      marker.head.isSome = true := by
  induction entries generalizing head with
  | nil => exact .inl rfl
  | cons entry rest ih =>
    rw [newestMarker, foldl_cons]
    rcases ih (if entry.head.isSome then some entry else head) with hsame | ⟨marker, hmarker, hfound, hhead⟩
    · rw [newestMarker] at hsame
      rw [hsame]
      split
      next hentry =>
        exact .inr ⟨entry, mem_cons_self, rfl, hentry⟩
      · exact .inl rfl
    · exact .inr ⟨marker, mem_cons_of_mem entry hmarker, hfound, hhead⟩

theorem newestMarker_append (head : Option EntryRecord) (entries more : List EntryRecord) :
    newestMarker head (entries ++ more) = newestMarker (newestMarker head entries) more :=
  foldl_append

variable {tail : Nat}

theorem latestHeadMarker_mem {entries : List EntryRecord} {marker : EntryRecord}
    (hmarker : latestHeadMarker entries tail = some marker) : marker ∈ entries ∧ marker.id ≤ tail := by
  rcases newestMarker_cases none (scan entries 0 tail) with hnone | ⟨found, hfound, hsome, -⟩
  · rw [latestHeadMarker, hnone] at hmarker
    cases hmarker
  cases hsome.symm.trans hmarker
  exact ⟨(mem_scan.1 hfound).1, (mem_scan.1 hfound).2.2⟩

/-- Markers of two tails with one id are one marker. -/
theorem latestHeadMarker_eq {entries : List EntryRecord}
    (hids : entries.Pairwise fun entry later => entry.id < later.id) {later : Nat} (htail : tail ≤ later)
    (hsame : (latestHeadMarker entries tail).map (fun marker => marker.id) =
      (latestHeadMarker entries later).map fun marker => marker.id) :
    latestHeadMarker entries tail = latestHeadMarker entries later := by
  have hsplit : latestHeadMarker entries later =
      newestMarker (latestHeadMarker entries tail) (scan entries (tail + 1) later) := by
    rw [latestHeadMarker, scan_split hids (Nat.zero_le _) htail, newestMarker_append]
    rfl
  rcases newestMarker_cases (latestHeadMarker entries tail) (scan entries (tail + 1) later) with
    hkept | ⟨marker, hmarker, hfound, -⟩
  · rw [hsplit, hkept]
  rw [hsplit, hfound] at hsame
  obtain ⟨old, hold, hid⟩ := map_eq_some_iff.1 hsame
  have hlow := (latestHeadMarker_mem hold).2
  have hhigh := (mem_scan.1 hmarker).2.1
  have hequal : old.id = marker.id := hid
  omega

theorem startOf_le {entries : List EntryRecord} (hordered : Ordered entries) (tail : Nat) :
    startOf (latestHeadMarker entries tail) ≤ tail := by
  rcases hmarker : latestHeadMarker entries tail with _ | marker
  · exact Nat.zero_le _
  obtain ⟨hmem, htail⟩ := latestHeadMarker_mem hmarker
  rcases hhead : marker.head with _ | head
  · simp [startOf, hhead]
  have hle := hordered.heads marker hmem head hhead
  simp only [startOf, bind_some, hhead, getD_some]
  omega

/-- Later entries change nothing of a range. -/
theorem fullRange_append {entries appended : List EntryRecord}
    (hafter : ∀ entry ∈ appended, tail < entry.id) (current : Bool) :
    fullRange (entries ++ appended) tail current = fullRange entries tail current := by
  have hhead : latestHeadMarker (entries ++ appended) tail = latestHeadMarker entries tail := by
    rw [latestHeadMarker, scan_append hafter]
    rfl
  rw [fullRange, hhead, scan_append hafter]
  rfl

/-! ### One operation -/

theorem scan_filter_low {entries : List EntryRecord} {start : Nat} (hstart : low ≤ start) :
    (scan entries low high).filter (fun entry => decide (start ≤ entry.id)) = scan entries start high := by
  rw [scan, List.filter_filter]
  apply filter_congr
  intro entry _
  by_cases hlow : start ≤ entry.id
  · have hover : low ≤ entry.id := by omega
    simp [hlow, hover]
  · simp [hlow]

theorem scan_filter_high {entries : List EntryRecord} (htail : tail ≤ high) :
    (scan entries low high).filter (fun entry => decide (entry.id ≤ tail)) = scan entries low tail := by
  rw [scan, List.filter_filter]
  apply filter_congr
  intro entry _
  by_cases hhigh : entry.id ≤ tail
  · have hunder : entry.id ≤ high := by omega
    simp [hhigh, hunder]
  · simp [hhigh]

theorem le_latestId {entries : List EntryRecord}
    (hids : entries.Pairwise fun entry later => entry.id < later.id)
    (hlatest : latestId entries = some tail) : ∀ entry ∈ entries, entry.id ≤ tail := by
  obtain ⟨last, hlast, hid⟩ := map_eq_some_iff.1 hlatest
  obtain ⟨init, rfl⟩ := getLast?_eq_some_iff.1 hlast
  have hlater := (pairwise_append.1 hids).2.2
  intro entry hentry
  rcases mem_append.1 hentry with hinit | hend
  · have hless := hlater entry hinit last mem_cons_self
    have hequal : last.id = tail := hid
    omega
  obtain rfl := mem_singleton.1 hend
  exact le_of_eq hid

/-- The entries of a commit come after the newest one before it. -/
theorem lt_of_latestId {entries appended : List EntryRecord} (hordered : Ordered (entries ++ appended))
    (hlatest : latestId entries = some tail) : ∀ entry ∈ appended, tail < entry.id := by
  obtain ⟨newest, hnewest, hid⟩ := map_eq_some_iff.1 hlatest
  have hequal : newest.id = tail := hid
  intro entry hentry
  rw [← hequal]
  exact (pairwise_append.1 hordered.ids).2.2 newest (mem_of_getLast? hnewest) entry hentry

variable {last : EntryRecord}

/-- A scan through the last entry of a commit has all of its entries. -/
theorem scan_commit {entries appended : List EntryRecord} (hordered : Ordered (entries ++ appended))
    (hlatest : latestId entries = some tail)
    (hlast : appended.getLast? = some last) (hlow : low ≤ tail + 1) :
    scan (entries ++ appended) low last.id = scan entries low tail ++ appended := by
  obtain ⟨hbefore, hcommit, -⟩ := pairwise_append.1 hordered.ids
  have hunder := le_latestId hbefore hlatest
  have hend : ∀ entry ∈ appended, entry.id ≤ last.id :=
    le_latestId hcommit (by rw [latestId, hlast]; rfl)
  have hafter := lt_of_latestId hordered hlatest
  have hmiddle : tail ≤ last.id := le_of_lt (hafter last (mem_of_getLast? hlast))
  have hnone : scan entries (tail + 1) last.id = [] := by
    rw [scan, filter_eq_nil_iff]
    intro entry hentry
    have hle := hunder entry hentry
    simp only [Bool.and_eq_true, decide_eq_true_eq, not_and]
    omega
  have hall : scan appended (tail + 1) last.id = appended := by
    rw [scan, filter_eq_self]
    intro entry hentry
    simp only [Bool.and_eq_true, decide_eq_true_eq]
    exact ⟨hafter entry hentry, hend entry hentry⟩
  have hadded : scan (entries ++ appended) (tail + 1) last.id = appended := by
    calc scan (entries ++ appended) (tail + 1) last.id
        = scan entries (tail + 1) last.id ++ scan appended (tail + 1) last.id := filter_append ..
      _ = appended := by rw [hnone, hall, nil_append]
  rw [scan_split hordered.ids hlow hmiddle, scan_append hafter, hadded]

/-- A range that ends at the newest entry, advanced by a commit. -/
theorem advanceRange_fullRange {entries appended : List EntryRecord} (hordered : Ordered (entries ++ appended))
    (hlatest : latestId entries = some tail) (hlast : appended.getLast? = some last) {next : Range}
    (hadvance : advanceRange (fullRange entries tail true) appended = some next) :
    next = fullRange (entries ++ appended) last.id true := by
  have hearlier : Ordered entries :=
    ⟨(pairwise_append.1 hordered.ids).1, fun entry hentry => hordered.heads entry (mem_append_left _ hentry)⟩
  have hstart := startOf_le hearlier tail
  have hhead : newestMarker (latestHeadMarker entries tail) appended =
      latestHeadMarker (entries ++ appended) last.id := by
    rw [latestHeadMarker, latestHeadMarker, scan_commit hordered hlatest hlast (Nat.zero_le _), newestMarker_append]
  have hscan : scan entries (startOf (latestHeadMarker entries tail)) tail ++ appended =
      scan (entries ++ appended) (startOf (latestHeadMarker entries tail)) last.id :=
    (scan_commit hordered hlatest hlast (by omega)).symm
  have hafter : ∀ entry ∈ appended, tail < entry.id := lt_of_latestId hordered hlatest
  have hbefore : latestHeadMarker (entries ++ appended) tail = latestHeadMarker entries tail := by
    rw [latestHeadMarker, scan_append hafter]
    rfl
  have htail : tail ≤ last.id := le_of_lt (hafter last (mem_of_getLast? hlast))
  have hnext : advanceRange (fullRange entries tail true) appended =
      if (latestHeadMarker (entries ++ appended) last.id).map (fun marker => marker.id) =
          (latestHeadMarker entries tail).map fun marker => marker.id then
        some (extendRange (fullRange entries tail true) (latestHeadMarker (entries ++ appended) last.id) last.id
          appended true)
      else if (latestHeadMarker entries tail).any fun marker =>
          decide (startOf (latestHeadMarker (entries ++ appended) last.id) < marker.head.getD 0) then none
      else some (deriveRange (latestHeadMarker (entries ++ appended) last.id) last.id
        ((scan entries (startOf (latestHeadMarker entries tail)) tail ++ appended).filter fun entry =>
          decide (startOf (latestHeadMarker (entries ++ appended) last.id) ≤ entry.id)) true) := by
    rw [← hhead]
    simp only [advanceRange, hlast]
    rfl
  rw [hnext] at hadvance
  split at hadvance
  next hsame =>
    cases hadvance
    have hmarker : latestHeadMarker entries tail = latestHeadMarker (entries ++ appended) last.id := by
      rw [← hbefore]
      apply latestHeadMarker_eq hordered.ids htail
      rw [hbefore, hsame]
    rw [fullRange, fullRange, ← hmarker, extendRange_eq_deriveRange, hscan]
  obtain ⟨hforward, rfl⟩ := of_not_guard hadvance
  have hlow : startOf (latestHeadMarker entries tail) ≤
      startOf (latestHeadMarker (entries ++ appended) last.id) := by
    rcases hold : latestHeadMarker entries tail with _ | marker
    · exact Nat.zero_le _
    rw [hold, any_some, decide_eq_true_eq] at hforward
    exact Nat.le_of_not_lt hforward
  rw [hscan, scan_filter_low hlow]
  rfl

variable {bounds : Bounds} {previous : Option Range}

/-- The range of a read, whatever range it was given to start from. -/
theorem readRange_eq {entries : List EntryRecord} (hordered : Ordered entries)
    (hhead : bounds.head = latestHeadMarker entries bounds.tail)
    (hprevious : ∀ range ∈ previous, range = fullRange entries range.tail range.current) :
    readRange entries bounds previous =
      fullRange entries bounds.tail (readRange entries bounds previous).current := by
  have hfresh (current : Bool) : deriveRange bounds.head bounds.tail
      (scan entries (startOf bounds.head) bounds.tail) current = fullRange entries bounds.tail current := by
    rw [hhead]
    rfl
  cases previous with
  | none =>
    rw [readRange, hfresh]
    rfl
  | some previous =>
    have hgiven := hprevious previous rfl
    have hentries : previous.entries =
        scan entries (startOf (latestHeadMarker entries previous.tail)) previous.tail := by
      rw [hgiven]
      rfl
    have hmarker : previous.head = latestHeadMarker entries previous.tail := by
      rw [hgiven]
      rfl
    rw [readRange]
    split
    · rw [hfresh]
      rfl
    rename_i hsame
    rw [not_not, hmarker, hhead] at hsame
    split
    next htail =>
      rw [htail]
      exact hgiven
    split
    · -- cut off at an earlier entry
      rename_i hearlier
      have hone : latestHeadMarker entries bounds.tail = latestHeadMarker entries previous.tail :=
        latestHeadMarker_eq hordered.ids (le_of_lt hearlier) hsame.symm
      rw [hentries, scan_filter_high (le_of_lt hearlier), ← hone, ← hhead, hfresh]
      rfl
    rename_i hdiffer hnot
    have hlater : previous.tail ≤ bounds.tail := Nat.le_of_not_lt hnot
    have hone : latestHeadMarker entries previous.tail = latestHeadMarker entries bounds.tail :=
      latestHeadMarker_eq hordered.ids hlater hsame
    have hstart := startOf_le hordered previous.tail
    have hwhole : extendRange previous bounds.head bounds.tail
        (scan entries (previous.tail + 1) bounds.tail) bounds.current =
        fullRange entries bounds.tail bounds.current := by
      calc extendRange previous bounds.head bounds.tail
            (scan entries (previous.tail + 1) bounds.tail) bounds.current
          = extendRange (fullRange entries previous.tail previous.current)
              (latestHeadMarker entries previous.tail) bounds.tail
              (scan entries (previous.tail + 1) bounds.tail) bounds.current := by
            rw [← hgiven, hhead, hone]
        _ = deriveRange (latestHeadMarker entries previous.tail) bounds.tail
              (scan entries (startOf (latestHeadMarker entries previous.tail)) bounds.tail)
              bounds.current := by
            rw [fullRange, extendRange_eq_deriveRange, ← scan_split hordered.ids (by omega) hlater]
        _ = fullRange entries bounds.tail bounds.current := by rw [hone, fullRange]
    rw [hwhole]
    rfl

/-! ### Runs -/

/-- A range that is the derived one through an entry of the conversation. -/
structure Derived (entries : List EntryRecord) (range : Range) : Prop where
  eq : range = fullRange entries range.tail range.current
  visible : ∃ entry ∈ entries, entry.id = range.tail

/-- What a read has so far is right for the conversation by now. -/
def Sound (entries : List EntryRecord) : Read → Prop
  | .opened _ previous => ∀ range ∈ previous, Derived entries range
  | .bounded bounds previous => bounds.head = latestHeadMarker entries bounds.tail ∧
      (∃ entry ∈ entries, entry.id = bounds.tail) ∧ ∀ range ∈ previous, Derived entries range
  | .returned range => Derived entries range

structure Invariant (state : State) : Prop where
  ordered : Ordered state.entries
  kept : ∀ range ∈ state.kept, Derived state.entries range ∧
    (range.current = true → latestId state.entries = some range.tail)
  reads : ∀ read ∈ state.reads, Sound state.entries read

theorem Derived.recheck {entries : List EntryRecord} {range : Range} (hderived : Derived entries range)
    (known : Bool) : Derived entries (recheck entries known range) ∧
      ((ContextRange.recheck entries known range).current = true →
        latestId entries = some (ContextRange.recheck entries known range).tail) := by
  rw [ContextRange.recheck]
  split
  · refine ⟨⟨?_, hderived.visible⟩, fun hcurrent => by cases hcurrent⟩
    calc { range with current := false }
        = { fullRange entries range.tail range.current with current := false } := by rw [← hderived.eq]
      _ = fullRange entries range.tail false := rfl
  rename_i hcheck
  refine ⟨hderived, fun hcurrent => ?_⟩
  by_contra hnot
  exact hcheck ⟨hcurrent, fun hknown => hnot hknown.2⟩

variable {at' : Option Nat}

theorem readTail_mem {entries : List EntryRecord}
    (htail : readTail entries at' = some tail) : ∃ entry ∈ entries, entry.id = tail := by
  cases at' with
  | none =>
    obtain ⟨newest, hnewest, hid⟩ := map_eq_some_iff.1 htail
    exact ⟨newest, mem_of_getLast? hnewest, hid⟩
  | some cut =>
    obtain ⟨hmem, rfl⟩ := of_guard htail
    obtain ⟨entry, hentry, hid⟩ := mem_map.1 hmem
    exact ⟨entry, hentry, hid⟩

section Commit

variable {entries appended : List EntryRecord} (hordered : Ordered (entries ++ appended))

include hordered

/-- The entries of a commit are after every visible one. -/
theorem lt_appended {tail : Nat} (hvisible : ∃ entry ∈ entries, entry.id = tail) :
    ∀ entry ∈ appended, tail < entry.id := by
  obtain ⟨old, hold, rfl⟩ := hvisible
  exact fun entry hentry => (pairwise_append.1 hordered.ids).2.2 old hold entry hentry

theorem Derived.commit {range : Range} (hderived : Derived entries range) : Derived (entries ++ appended) range := by
  obtain ⟨entry, hentry, hid⟩ := hderived.visible
  refine ⟨?_, entry, mem_append_left _ hentry, hid⟩
  rw [fullRange_append (lt_appended hordered hderived.visible)]
  exact hderived.eq

theorem Sound.commit {read : Read} (hsound : Sound entries read) : Sound (entries ++ appended) read := by
  cases read with
  | opened at' previous => exact fun range hrange => (hsound range hrange).commit hordered
  | bounded bounds previous =>
    obtain ⟨hhead, hvisible, hprevious⟩ := hsound
    refine ⟨?_, ?_, fun range hrange => (hprevious range hrange).commit hordered⟩
    · rw [latestHeadMarker, scan_append (lt_appended hordered hvisible)]
      exact hhead
    obtain ⟨entry, hentry, hid⟩ := hvisible
    exact ⟨entry, mem_append_left _ hentry, hid⟩
  | returned range => exact Derived.commit hordered hsound

/-- A kept range after a commit. -/
theorem Derived.advance {range next : Range} (hderived : Derived entries range)
    (hnewest : range.current = true → latestId entries = some range.tail)
    (hadvance : advanceRange range appended = some next) : Derived (entries ++ appended) next ∧
      (next.current = true → latestId (entries ++ appended) = some next.tail) := by
  rcases hlast : appended.getLast? with _ | last
  · obtain rfl := getLast?_eq_none_iff.1 hlast
    rw [append_nil]
    cases hadvance
    exact ⟨hderived, hnewest⟩
  by_cases hcurrent : range.current = true
  · have hlatest := hnewest hcurrent
    have hwhole : range = fullRange entries range.tail true := by
      rw [← hcurrent]
      exact hderived.eq
    rw [hwhole] at hadvance
    obtain rfl := advanceRange_fullRange hordered hlatest hlast hadvance
    have hend : latestId (entries ++ appended) = some last.id := by
      rw [latestId, getLast?_append, hlast]
      rfl
    exact ⟨⟨rfl, last, mem_append_right _ (mem_of_getLast? hlast), rfl⟩, fun _ => hend⟩
  have hkept : advanceRange range appended = some range := by
    simp [advanceRange, hlast, hcurrent]
  cases hkept.symm.trans hadvance
  exact ⟨hderived.commit hordered, fun hyes => absurd hyes hcurrent⟩

end Commit

theorem Sound.derive {entries : List EntryRecord} (hordered : Ordered entries)
    (hsound : Sound entries (.bounded bounds previous)) :
    Derived entries (readRange entries bounds previous) := by
  obtain ⟨hhead, hvisible, hprevious⟩ := hsound
  have heq := readRange_eq hordered hhead fun range hrange => (hprevious range hrange).eq
  have htail : (readRange entries bounds previous).tail = bounds.tail := by
    rw [heq]
    rfl
  exact ⟨by rw [htail]; exact heq, by rw [htail]; exact hvisible⟩

theorem Sound.capture {entries : List EntryRecord} {read : Read}
    (hsound : Sound entries (.opened at' previous)) (hread : captureBounds entries at' previous = some read) :
    Sound entries read := by
  obtain ⟨tail, htail, rfl⟩ := map_eq_some_iff.1 hread
  exact ⟨rfl, readTail_mem htail, hsound⟩

/-- The reads are changed at one place. -/
theorem Invariant.set {state : State} (hstate : Invariant state) (index : Nat) {read : Read}
    (hread : Sound state.entries read) : Invariant { state with reads := state.reads.set index read } := by
  refine ⟨hstate.ordered, hstate.kept, fun other hother => ?_⟩
  rcases mem_or_eq_of_mem_set hother with hold | rfl
  · exact hstate.reads other hold
  · exact hread

theorem Invariant.erase {state : State} (hstate : Invariant state) (index : Nat) :
    Invariant { state with reads := state.reads.eraseIdx index } :=
  ⟨hstate.ordered, hstate.kept, fun read hread => hstate.reads read (mem_of_mem_eraseIdx hread)⟩

theorem invariant_step (state : State) (input : Input) (next : State) (hstate : Invariant state)
    (hstep : step state input = some next) : Invariant next := by
  cases input with
  | commit appended =>
    obtain ⟨happended, rfl⟩ := of_guard hstep
    have hordered : Ordered (state.entries ++ appended) := by
      refine ⟨happended.1, fun entry hentry => ?_⟩
      rcases mem_append.1 hentry with hold | hnew
      · exact hstate.ordered.heads entry hold
      · exact happended.2 entry hnew
    refine ⟨hordered, ?_, fun read hread => (hstate.reads read hread).commit hordered⟩
    intro range hrange
    obtain ⟨old, hold, hadvance⟩ := bind_eq_some_iff.1 hrange
    exact (hstate.kept old hold).1.advance hordered (hstate.kept old hold).2 hadvance
  | «open» at' =>
    cases hstep
    refine ⟨hstate.ordered, hstate.kept, fun read hread => ?_⟩
    rcases mem_append.1 hread with hold | hnew
    · exact hstate.reads read hold
    obtain rfl := mem_singleton.1 hnew
    exact fun range hrange => (hstate.kept range hrange).1
  | capture index =>
    simp only [step] at hstep
    split at hstep
    next at' previous hopened =>
      have hsound := hstate.reads _ (mem_of_getElem? hopened)
      split at hstep
      next read hread =>
        cases hstep
        exact hstate.set index (hsound.capture hread)
      · cases hstep
        exact hstate.erase index
    · cases hstep
  | derive index known =>
    simp only [step] at hstep
    split at hstep
    next bounds previous hbounded =>
      cases hstep
      have hsound := hstate.reads _ (mem_of_getElem? hbounded)
      exact hstate.set index ((hsound.derive hstate.ordered).recheck known).1
    · cases hstep
  | keep index known =>
    simp only [step] at hstep
    split at hstep
    next range hreturned =>
      cases hstep
      have hsound : Derived state.entries range := hstate.reads _ (mem_of_getElem? hreturned)
      refine ⟨hstate.ordered, fun kept hkept => ?_, (hstate.erase index).reads⟩
      simp only [install] at hkept
      split at hkept
      · cases hkept
        exact hsound.recheck known
      · exact hstate.kept kept hkept
    · cases hstep
  | abandon index =>
    cases hstep
    exact hstate.erase index
  | drop =>
    cases hstep
    exact ⟨hstate.ordered, by simp, hstate.reads⟩

theorem invariant_start : Invariant start where
  ordered := ⟨List.Pairwise.nil, fun _ hentry => by cases hentry⟩
  kept := fun _ hrange => by cases hrange
  reads := fun _ hread => by cases hread

/-- Over every run of commits and reads, the range that is kept and every range a read returns
are those derived from the whole conversation within their bounds. -/
theorem ranges_derived {inputs : List Input} {state : State} (hrun : run step start inputs = some state) :
    (∀ range ∈ state.kept, range = fullRange state.entries range.tail range.current) ∧
      (∀ bounds previous, .bounded bounds previous ∈ state.reads →
        readRange state.entries bounds previous =
          fullRange state.entries bounds.tail (readRange state.entries bounds previous).current) ∧
      ∀ range, .returned range ∈ state.reads → range = fullRange state.entries range.tail range.current := by
  have hstate := run_invariant invariant_step invariant_start hrun
  refine ⟨fun range hrange => (hstate.kept range hrange).1.eq, ?_, fun range hrange => (hstate.reads _ hrange).eq⟩
  intro bounds previous hread
  obtain ⟨hhead, -, hprevious⟩ := hstate.reads _ hread
  exact readRange_eq hstate.ordered hhead fun range hrange => (hprevious range hrange).eq

/-- A call, its result after a first read, and an edit of the prompt, with a read at the
result meanwhile. -/
def calledInputs : List Input :=
  let call : ToolCall := ⟨js "c".toList, js "read".toList⟩
  [.commit [⟨1, js "user".toList, some [.user 1], none, none⟩],
    .open none, .capture 0, .derive 0 true, .keep 0 true,
    .commit [⟨2, js "assistant".toList, some [.assistant 2 .toolUse [call] 0], none, none⟩],
    .commit [⟨3, js "result".toList, some [.toolResult 3 call.id], none, none⟩],
    .open (some 3),
    .commit [⟨4, js "edit".toList, none, none, some [⟨1, .omit⟩]⟩,
      ⟨5, systemKind, some [.system 5], none, none⟩],
    .capture 0]

theorem ranges_derived_called : ∃ state, run step start calledInputs = some state ∧
    (∀ range ∈ state.kept, range = fullRange state.entries range.tail range.current) ∧
    (state.kept.map fun range => range.messages) =
      some [.system 5, .assistant 2 .toolUse [⟨js "c".toList, js "read".toList⟩] 0, .toolResult 3 (js "c".toList)] := by
  have hmessages : (run step start calledInputs).map (fun state => state.kept.map fun range => range.messages) =
      some (some [.system 5, .assistant 2 .toolUse [⟨js "c".toList, js "read".toList⟩] 0,
        .toolResult 3 (js "c".toList)]) := by decide
  obtain ⟨state, hrun, hkept⟩ := map_eq_some_iff.1 hmessages
  exact ⟨state, hrun, (ranges_derived hrun).1, hkept⟩

end Hummin.ContextRange
