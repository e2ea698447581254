/-
How the tables of a relaying host fit together: a relayed hold is held on its path's open
link, that link is one the origin relays to, and calls are on holds of their kind.
-/
import Mathlib.Data.List.Nodup
import Hummin.Relay

namespace Hummin.Relay

open List Function PropertyList

namespace State

variable {state : State} {config : Config} {stale : List Nat}

/-- The holds, paths and links of the host; `stale` are holds of a closed link that were not
told yet. -/
structure Placed (stale : List Nat) (state : State) : Prop where
  distinct : (PropertyList.keys state.entries).Nodup
  /-- A hold held upstream is on its path's link, and the origin relays to that link. -/
  held : ∀ hold path link, hold ∉ stale →
    PropertyList.get hold state.entries = some (.relayed path (some link)) →
    (state.paths path).link = some link ∧ link ∈ state.links
  holders : ∀ hold path, hold ∈ (state.paths path).holders ↔
    ∃ upstream, PropertyList.get hold state.entries = some (.relayed path upstream)
  once : ∀ path, (state.paths path).holders.Nodup
  /-- The links an origin relays to are open, and it has a number. -/
  relaying : ∀ link ∈ state.links, link ∈ state.openLinks ∧ state.relay.isSome = true
  linked : ∀ path link, (state.paths path).link = some link → link ∈ state.openLinks
  apart : ∀ path other link, (state.paths path).link = some link →
    (state.paths other).link = some link → path = other
  low : ∀ link ∈ state.openLinks, link < state.nextLink
  opened : state.openLinks.Nodup
  single : state.links.Nodup

/-- A call runs on a hold of its kind. -/
def Suits (entries : List (Nat × Entry)) : Running → Prop
  | .served hold => PropertyList.get hold entries = some .served
  | .relayed hold _ => ∃ path upstream, PropertyList.get hold entries = some (.relayed path upstream)

/-- The whole of the tables. -/
structure Shape (stale : List Nat) (state : State) : Prop where
  placed : Placed stale state
  distinct : (PropertyList.keys state.calls).Nodup
  suits : ∀ call ∈ state.calls, Suits state.entries call.2
  /-- Without a side there is nothing of it. -/
  dead : state.isLive = false → state.entries = [] ∧ state.calls = [] ∧ state.sent = [] ∧
    state.relay = none ∧ state.links = []

/-! ### Parts that only tell -/

@[simp]
theorem send_entries (message : DownMessage) : (state.send message).entries = state.entries := rfl

/-- The tables do not change with what is sent or counted. -/
theorem Placed.congr {other : State} (hplaced : Placed stale state)
    (hentries : other.entries = state.entries)
    (hpaths : other.paths = state.paths) (hlinks : other.links = state.links)
    (hopen : other.openLinks = state.openLinks) (hrelay : other.relay = state.relay)
    (hnext : other.nextLink = state.nextLink) : Placed stale other := by
  obtain ⟨distinct, held, holders, once, relaying, linked, apart, low, opened, single⟩ := hplaced
  refine ⟨?_, ?_, ?_, ?_, ?_, ?_, ?_, ?_, ?_, ?_⟩ <;>
    simp only [hentries, hpaths, hlinks, hopen, hrelay, hnext] <;> assumption

theorem Shape.congr {other : State} (hshape : Shape stale state)
    (hentries : other.entries = state.entries)
    (hpaths : other.paths = state.paths) (hlinks : other.links = state.links)
    (hopen : other.openLinks = state.openLinks) (hrelay : other.relay = state.relay)
    (hnext : other.nextLink = state.nextLink) (hcalls : other.calls = state.calls)
    (hlive : other.isLive = state.isLive) (hsent : other.isLive = false → other.sent = state.sent) :
    Shape stale other := by
  refine ⟨hshape.placed.congr hentries hpaths hlinks hopen hrelay hnext, ?_, ?_, ?_⟩
  · rw [hcalls]
    exact hshape.distinct
  · rw [hcalls, hentries]
    exact hshape.suits
  intro hdead
  obtain ⟨hnone, hno, hsilent, hunrelayed, hunlinked⟩ := hshape.dead (hlive.symm.trans hdead)
  refine ⟨hentries.trans hnone, hcalls.trans hno, (hsent hdead).trans hsilent, hrelay.trans hunrelayed,
    hlinks.trans hunlinked⟩

/-- The acks sent upstream: link, origin and message. -/
def acksOf (up : List (Nat × UpMessage)) : List (Nat × Nat × Nat) :=
  up.filterMap fun entry => match entry.2 with
    | .ack origin message => some (entry.1, origin, message)
    | _ => none

/-- `sendUp` changes only what was sent up. -/
theorem sendUp_eq (link : Nat) (message : UpMessage) :
    ∃ up, state.sendUp link message = { state with up := up } := by
  rw [sendUp]
  split
  · exact ⟨_, rfl⟩
  · exact ⟨state.up, rfl⟩

theorem acksOf_sendUp {link : Nat} {message : UpMessage}
    (hmessage : ∀ origin number, message ≠ .ack origin number) :
    acksOf (state.sendUp link message).up = acksOf state.up := by
  rw [sendUp]
  split
  · cases message with
    | ack origin number => exact absurd rfl (hmessage origin number)
    | _ => simp [acksOf]
  · rfl

theorem Shape.sendUp {link : Nat} {message : UpMessage} (hshape : Shape stale state) :
    Shape stale (state.sendUp link message) := by
  obtain ⟨up, hup⟩ := @sendUp_eq state link message
  rw [hup]
  exact hshape.congr rfl rfl rfl rfl rfl rfl rfl rfl fun _ => rfl

theorem Shape.send {message : DownMessage} (hshape : Shape stale state) :
    Shape stale (state.send message) :=
  hshape.congr rfl rfl rfl rfl rfl rfl rfl rfl fun _ => rfl

/-- `endCall` changes only what ended. -/
theorem endCall_eq (answered : Bool) (running : Running) :
    state.endCall answered running =
      { state with ended := state.ended ++ running.serial.toList.map fun serial => (serial, answered) } := by
  rw [endCall]
  cases running.serial with
  | none => simp
  | some serial => rfl

theorem foldl_endCall (answered : Bool) (calls : List (Nat × Running)) :
    calls.foldl (fun state call => state.endCall answered call.2) state =
      { state with
        ended := state.ended ++ (calls.filterMap fun call => call.2.serial).map (·, answered) } := by
  induction calls generalizing state with
  | nil => simp
  | cons call rest ih =>
    rw [foldl_cons, ih, endCall_eq]
    cases hserial : call.2.serial <;> simp [hserial]

theorem foldl_sendUp (links : List Nat) (message : UpMessage) :
    links.foldl (fun state link => state.sendUp link message) state =
      { state with up := state.up ++ (links.filter (· ∈ state.openLinks)).map (·, message) } := by
  induction links generalizing state with
  | nil => simp
  | cons link rest ih =>
    rw [foldl_cons, ih, sendUp]
    by_cases hopen : link ∈ state.openLinks <;> simp [hopen]

/-! ### Dropping holds -/

/-- `dropHold` changes only the holders of the hold's path. -/
theorem dropHold_eq (hold : Nat) (entry : Entry) :
    ∃ paths, state.dropHold hold entry = { state with paths := paths } ∧
      (∀ path, (paths path).link = (state.paths path).link) ∧
      (∀ path, (paths path).holders.Sublist (state.paths path).holders) ∧
      (∀ path upstream, entry = .relayed path upstream →
        (paths path).holders = (state.paths path).holders.erase hold) ∧
      ∀ path, (∀ upstream, entry ≠ .relayed path upstream) →
        (paths path).holders = (state.paths path).holders := by
  cases entry with
  | relayed path upstream =>
    refine ⟨update state.paths path
      ⟨(state.paths path).link, (state.paths path).holders.erase hold⟩, rfl, ?_, ?_, ?_, ?_⟩
    · intro other
      by_cases hsame : other = path
      · subst hsame
        simp
      · simp [update_of_ne hsame]
    · intro other
      by_cases hsame : other = path
      · subst hsame
        simpa using erase_sublist
      · simp [update_of_ne hsame]
    · rintro other _ heq
      cases heq
      simp
    intro other hother
    have hne : other ≠ path := by
      rintro rfl
      exact hother upstream rfl
    simp [update_of_ne hne]
  | _ =>
    refine ⟨state.paths, rfl, fun _ => rfl, fun _ => List.Sublist.refl _, ?_, fun _ _ => rfl⟩
    rintro path upstream heq
    cases heq

/-- Dropping listed holds takes them out of their paths. -/
theorem foldl_dropHold (entries : List (Nat × Entry)) :
    ∃ paths, entries.foldl (fun state entry => state.dropHold entry.1 entry.2) state =
        { state with paths := paths } ∧
      (∀ path, (paths path).link = (state.paths path).link) ∧
      (∀ path, (paths path).holders.Sublist (state.paths path).holders) ∧
      ∀ path, (state.paths path).holders.Nodup → ∀ hold upstream,
        (hold, Entry.relayed path upstream) ∈ entries → hold ∉ (paths path).holders := by
  induction entries generalizing state with
  | nil => exact ⟨state.paths, rfl, fun _ => rfl, fun _ => List.Sublist.refl _, by simp⟩
  | cons entry rest ih =>
    obtain ⟨paths, hpaths, hlink, hsub, hself, -⟩ := @dropHold_eq state entry.1 entry.2
    obtain ⟨later, hlater, hlinks, hsubs, hgone⟩ := @ih { state with paths := paths }
    refine ⟨later, ?_, ?_, ?_, ?_⟩
    · rw [foldl_cons, hpaths]
      exact hlater
    · exact fun path => (hlinks path).trans (hlink path)
    · exact fun path => (hsubs path).trans (hsub path)
    intro path honce hold upstream hmem
    rcases mem_cons.mp hmem with rfl | hmem
    · intro hin
      have herased := (hsubs path).subset hin
      rw [show ({ state with paths := paths } : State).paths = paths from rfl,
        hself path upstream rfl] at herased
      exact (List.Nodup.mem_erase_iff honce).mp herased |>.1 rfl
    · exact hgone path (honce.sublist (hsub path)) hold upstream hmem

/-! ### The side's end -/

/-- The numbers of the relayed calls that run. -/
def serials (calls : List (Nat × Running)) : List Nat :=
  calls.filterMap fun call => call.2.serial

/-- The messages of upstream links that wait for an ack. -/
def pendingAcks (state : State) : List (Nat × Nat × Nat) :=
  match state.relay with
  | none => []
  | some origin => pendingOf origin state.sent

/-- What the links are told at the side's end. -/
def closings (state : State) : List (Nat × UpMessage) :=
  match state.relay with
  | none => []
  | some origin => (state.links.filter (· ∈ state.openLinks)).map (·, UpMessage.closed origin)

theorem acksOf_closings (up : List (Nat × UpMessage)) : acksOf
    (up ++ state.closings) = acksOf up := by
  rw [closings]
  cases state.relay with
  | none => simp
  | some origin => simp [acksOf]

/-- What `closed` leaves. -/
theorem closed_eq : state.closed = { state with
      isLive := false, entries := [], calls := [], sent := [], inFlight := 0, relay := none, links := []
      windows := [], acked := []
      paths := (state.entries.foldl (fun state entry => state.dropHold entry.1 entry.2) state).paths
      up := state.up ++ state.closings
      lost := state.lost ++ state.pendingAcks
      ended := state.ended ++ (serials state.calls).map (·, false) } := by
  obtain ⟨paths, hpaths, -⟩ := @foldl_dropHold state state.entries
  simp only [closed, hpaths, foldl_endCall, foldl_sendUp]
  cases hrelay : state.relay with
  | none => simp [pendingAcks, closings, serials, hrelay]
  | some origin => simp [pendingAcks, closings, serials, hrelay]

section

variable (hshape : Shape stale state)

include hshape

theorem Shape.closed : Shape [] state.closed := by
  obtain ⟨paths, hpaths, hlink, hsub, hgone⟩ := @foldl_dropHold state state.entries
  have hplaced := hshape.placed
  rw [closed_eq, hpaths]
  refine ⟨⟨nodup_nil, by simp, ?_, fun path => (hplaced.once path).sublist (hsub path), by simp,
    by simpa only [hlink] using hplaced.linked, by simpa only [hlink] using hplaced.apart,
    hplaced.low, hplaced.opened, nodup_nil⟩, nodup_nil, by simp,
    fun _ => ⟨rfl, rfl, rfl, rfl, rfl⟩⟩
  intro hold path
  constructor
  · intro hmem
    obtain ⟨upstream, hget⟩ := (hplaced.holders hold path).mp ((hsub path).subset hmem)
    exact absurd hmem (hgone path (hplaced.once path) hold upstream (mem_of_get_eq_some hget))
  rintro ⟨upstream, hget⟩
  cases hget

/-- Fewer stale holds are asked for less. -/
theorem Shape.mono {more : List Nat} (hmore : ∀ hold ∈ stale, hold ∈ more) : Shape more state := by
  refine { hshape with placed := { hshape.placed with held := ?_ } }
  exact fun hold path link hout hget =>
    hshape.placed.held hold path link (fun hin => hout (hmore hold hin)) hget

theorem Shape.settle : Shape stale state.settle := by
  rw [State.settle]
  split
  · exact hshape.closed.mono (by simp)
  · exact hshape

/-- Fewer calls fit as well. -/
theorem Shape.fewer {calls : List (Nat × Running)} {ended : List (Nat × Bool)}
    (hfewer : calls.Sublist state.calls) :
    Shape stale { state with calls := calls, ended := ended } := by
  refine ⟨{ hshape.placed with }, hshape.distinct.sublist (hfewer.map Prod.fst),
    fun call hcall => hshape.suits call (hfewer.subset hcall), ?_⟩
  intro hdead
  obtain ⟨hentries, hcalls, hsent, hrelay, hlinks⟩ := hshape.dead hdead
  refine ⟨hentries, ?_, hsent, hrelay, hlinks⟩
  rw [hcalls] at hfewer
  exact sublist_nil.mp hfewer

theorem Shape.reply {call : Nat} {result : Bool} : Shape stale (state.reply call result) := by
  rw [State.reply]
  split
  · exact hshape
  rw [endCall_eq]
  exact (hshape.fewer filter_sublist).send.settle

end

/-- The tables without a hold and its calls. -/
def without (state : State) (hold : Nat) (entry : Entry) : State :=
  { (state.dropHold hold entry) with
    entries := PropertyList.erase hold state.entries
    calls := state.calls.filter fun call => call.2.hold ≠ hold
    ended := state.ended ++
      (serials (state.calls.filter fun call => call.2.hold = hold)).map (·, false) }

variable {hold : Nat}

theorem Suits.erase {entries : List (Nat × Entry)} {running : Running}
    (hsuits : Suits entries running) (hne : running.hold ≠ hold) :
    Suits (erase hold entries) running := by
  cases running with
  | served other =>
    change other ≠ hold at hne
    rw [Suits, get_erase, if_neg hne]
    exact hsuits
  | relayed other serial =>
    obtain ⟨path, upstream, hget⟩ := hsuits
    change other ≠ hold at hne
    refine ⟨path, upstream, ?_⟩
    rw [get_erase, if_neg hne]
    exact hget

theorem Shape.without {hold : Nat} {entry : Entry} (hshape : Shape stale state)
    (hget : get hold state.entries = some entry) : Shape stale (state.without hold entry) := by
  obtain ⟨paths, hpaths, hlink, hsub, hself, hother⟩ := @dropHold_eq state hold entry
  have hplaced := hshape.placed
  rw [State.without, hpaths]
  refine ⟨⟨keys_erase_nodup hold hplaced.distinct, ?_, ?_,
    fun path => (hplaced.once path).sublist (hsub path), hplaced.relaying,
    by simpa only [hlink] using hplaced.linked, by simpa only [hlink] using hplaced.apart,
    hplaced.low, hplaced.opened, hplaced.single⟩,
    hshape.distinct.sublist (filter_sublist.map Prod.fst), ?_, ?_⟩
  · intro other path link hout hfound
    rw [get_erase] at hfound
    split at hfound
    · cases hfound
    rw [hlink path]
    exact hplaced.held other path link hout hfound
  · intro other path
    rw [get_erase]
    by_cases hsame : other = hold
    · subst hsame
      simp only [if_true, reduceCtorEq, exists_false, iff_false]
      intro hin
      obtain ⟨upstream, hfound⟩ := (hplaced.holders other path).mp ((hsub path).subset hin)
      rw [hget] at hfound
      rw [hself path upstream (Option.some.inj hfound)] at hin
      exact ((List.Nodup.mem_erase_iff (hplaced.once path)).mp hin).1 rfl
    rw [if_neg hsame, ← hplaced.holders other path]
    by_cases hpath : ∃ upstream, entry = .relayed path upstream
    · obtain ⟨upstream, hentry⟩ := hpath
      rw [hself path upstream hentry]
      exact mem_erase_of_ne hsame
    · rw [hother path (fun upstream heq => hpath ⟨upstream, heq⟩)]
  · intro call hcall
    obtain ⟨hcall, hne⟩ := mem_filter.mp hcall
    exact (hshape.suits call hcall).erase (by simpa using hne)
  · intro hdead
    rw [(hshape.dead hdead).1] at hget
    cases hget

/-- `forget` of a hold that was dropped already. -/
theorem forget_dropHold {hold : Nat} {entry : Entry} :
    (state.dropHold hold entry).forget hold = (state.without hold entry).settle := by
  obtain ⟨paths, hpaths, -⟩ := @dropHold_eq state hold entry
  rw [forget, without, hpaths]
  rw [foldl_endCall]
  rfl

/-- A hold may be dropped after a settling as well as before. -/
theorem settle_dropHold {entry : Entry} :
    (state.settle).dropHold hold entry = (state.dropHold hold entry).settle := by
  obtain ⟨paths, hpaths, -⟩ := @dropHold_eq state hold entry
  rw [hpaths]
  by_cases hall : state.isLive ∧ state.entries = [] ∧ state.calls = [] ∧ state.sent = []
  · rw [settle, if_pos hall, settle, if_pos hall, closed_eq, closed_eq]
    simp only [hall.2.1, foldl_nil]
    have hsame : paths = (state.dropHold hold entry).paths := (congrArg State.paths hpaths).symm
    rw [hsame]
    cases entry <;> rfl
  · rw [settle, if_neg hall, settle, if_neg hall, hpaths]

theorem forget_then_dropHold {entry : Entry} :
    (state.forget hold).dropHold hold entry = (state.without hold entry).settle := by
  rw [forget, settle_dropHold]
  congr 1
  rw [foldl_endCall]
  cases entry <;> rfl

end State

end Hummin.Relay
