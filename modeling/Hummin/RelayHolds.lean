/-
Holds placed on paths and links, links that drop and come back under them, and the calls on
them: every input keeps the tables of a relaying host fitted together.
-/
import Hummin.RelayShape

namespace Hummin.Relay

open List Function PropertyList JsMap

namespace State

variable {state : State} {config : Config} {stale : List Nat}

/-! ### Placing a hold -/

variable {entries : List (Nat × Entry)}

/-- A call still suits when its hold's entry keeps its kind. -/
theorem Suits.set {hold path : Nat} {before after : Option Nat}
    {running : Running} (hsuits : Suits entries running)
    (hget : get hold entries = some (.relayed path before)) :
    Suits (JsMap.set hold (.relayed path after) entries) running := by
  cases running with
  | served other =>
    have hother : get other entries = some .served := hsuits
    rw [Suits, get_set]
    split
    next hsame =>
      rw [hsame, hget] at hother
      cases hother
    · exact hother
  | relayed other serial =>
    obtain ⟨otherPath, upstream, hother⟩ := hsuits
    rw [Suits, get_set]
    split
    · exact ⟨path, after, rfl⟩
    · exact ⟨otherPath, upstream, hother⟩

/-- No call runs on a pending hold. -/
theorem Suits.of_pending {hold : Nat} {running : Running}
    (hsuits : Suits entries running) (hget : get hold entries = some .pending) :
    running.hold ≠ hold := by
  intro hsame
  cases running with
  | served other =>
    have hother : get other entries = some .served := hsuits
    rw [show other = hold from hsame, hget] at hother
    cases hother
  | relayed other serial =>
    obtain ⟨path, upstream, hother⟩ := hsuits
    rw [show other = hold from hsame, hget] at hother
    cases hother

variable {entry : Entry}

theorem Suits.set_of_ne {hold : Nat} {running : Running}
    (hsuits : Suits entries running) (hne : running.hold ≠ hold) :
    Suits (JsMap.set hold entry entries) running := by
  cases running with
  | served other =>
    change other ≠ hold at hne
    rw [Suits, get_set, if_neg hne]
    exact hsuits
  | relayed other serial =>
    change other ≠ hold at hne
    obtain ⟨path, upstream, hother⟩ := hsuits
    refine ⟨path, upstream, ?_⟩
    rw [get_set, if_neg hne]
    exact hother

/-- Nothing but its end is left of a side without holds. -/
theorem Shape.live (hshape : Shape stale state) {hold : Nat}
    (hget : get hold state.entries = some entry) : state.isLive = true := by
  by_contra hdead
  obtain ⟨hnone, -⟩ := hshape.dead (by simpa using hdead)
  rw [hnone] at hget
  cases hget

/-- A hold gets another entry on the same path: off its link, or on it once it is linked. -/
theorem Placed.set {hold : Nat} {others : List Nat} (hplaced : Placed others state)
    (hothers : ∀ other ∈ others, other = hold ∨ other ∈ stale)
    (hkind : ∀ path, (∃ upstream, entry = .relayed path upstream) ↔
      ∃ upstream, get hold state.entries = some (.relayed path upstream))
    (hentry : ∀ path link, entry = .relayed path (some link) →
      (state.paths path).link = some link ∧ link ∈ state.links) :
    Placed stale { state with entries := JsMap.set hold entry state.entries } := by
  refine { hplaced with
    distinct := keys_set_nodup _ _ hplaced.distinct, held := ?_, holders := ?_ }
  · intro other path link hout hfound
    rw [get_set] at hfound
    split at hfound
    · exact hentry path link (Option.some.inj hfound)
    next hne =>
      refine hplaced.held other path link (fun hin => ?_) hfound
      exact (hothers other hin).elim hne hout
  intro other path
  rw [hplaced.holders other path, get_set]
  split
  next hsame => simp only [hsame, ← hkind, Option.some.injEq]
  · rfl

/-- `relayTo` numbers the origin once and adds the link. -/
theorem relayTo_eq (link : Nat) : ∃ relay links nextOrigin,
    (state.relayTo link).1 = { state with relay := relay, links := links, nextOrigin := nextOrigin } ∧
      relay = some (state.relayTo link).2 ∧ (∀ origin, state.relay = some origin → relay = some origin) ∧
      (state.links.Nodup → links.Nodup) ∧
      ∀ other, other ∈ links ↔ other = link ∨ (state.relay.isSome = true ∧ other ∈ state.links) := by
  rw [relayTo]
  cases hrelay : state.relay with
  | none => exact ⟨_, _, _, rfl, rfl, by simp, by simp, by simp⟩
  | some origin =>
    refine ⟨some origin, if link ∈ state.links then state.links else state.links ++ [link],
      state.nextOrigin, ?_, rfl, fun _ h => h, ?_, ?_⟩
    · simp only
    · intro hsingle
      split
      · exact hsingle
      rename_i hnew
      rw [nodup_append]
      refine ⟨hsingle, by simp, ?_⟩
      rintro other hother found hfound rfl
      exact hnew (mem_singleton.mp hfound ▸ hother)
    intro other
    by_cases hmem : link ∈ state.links
    · simp only [hmem, if_true, Option.isSome_some, true_and]
      constructor
      · exact .inr
      rintro (rfl | hother)
      · exact hmem
      · exact hother
    simp only [hmem, if_false, mem_append, mem_singleton, Option.isSome_some, true_and]
    exact Or.comm

theorem Shape.attach {link hold : Nat} (hshape : Shape stale state) (hopen : link ∈ state.openLinks)
    (hpath : ∀ path upstream, get hold state.entries = some (.relayed path upstream) →
      (state.paths path).link = some link) : Shape stale (state.attach link hold) := by
  rw [State.attach]
  split
  next path upstream hget =>
    obtain ⟨relay, links, nextOrigin, hrelayTo, hrelay, -, hsingle, hlinks⟩ := @relayTo_eq state link
    have hplaced := hshape.placed
    simp only [hrelayTo]
    apply Shape.sendUp
    refine ⟨@Placed.set { state with relay := relay, links := links, nextOrigin := nextOrigin }
      stale _ hold stale { hplaced with held := ?_, relaying := ?_, single := hsingle hplaced.single }
      (fun _ => .inr) (by simp [hget]) ?_, hshape.distinct,
      fun call hcall => (hshape.suits call hcall).set hget, by simp [hshape.live hget]⟩
    · intro other otherPath otherLink hout hfound
      obtain ⟨hother, hmem⟩ := hplaced.held other otherPath otherLink hout hfound
      exact ⟨hother, (hlinks otherLink).mpr (.inr ⟨(hplaced.relaying _ hmem).2, hmem⟩)⟩
    · intro other hother
      rcases (hlinks other).mp hother with rfl | ⟨-, hmem⟩
      · exact ⟨hopen, by simp [hrelay]⟩
      · exact ⟨(hplaced.relaying other hmem).1, by simp [hrelay]⟩
    · rintro _ _ ⟨⟩
      exact ⟨hpath path upstream hget, (hlinks link).mpr (.inl rfl)⟩
  · exact hshape

/-- What `attach` leaves as it was. -/
theorem attach_frame (link hold : Nat) :
    (state.attach link hold).paths = state.paths ∧ (state.attach link hold).openLinks = state.openLinks ∧
      ∀ other path, (∃ upstream, get other (state.attach link hold).entries =
        some (.relayed path upstream)) ↔
          ∃ upstream, get other state.entries = some (.relayed path upstream) := by
  rw [State.attach]
  split
  next path upstream hget =>
    obtain ⟨relay, links, nextOrigin, hrelayTo, -⟩ := @relayTo_eq state link
    simp only [hrelayTo]
    obtain ⟨up, hup⟩ := @sendUp_eq { state with
      relay := relay, links := links, nextOrigin := nextOrigin
      entries := JsMap.set hold (Entry.relayed path (some link)) state.entries } link
      (.hold (state.relayTo link).2 hold)
    rw [hup]
    refine ⟨rfl, rfl, ?_⟩
    intro other otherPath
    rw [get_set]
    split
    next hsame =>
      rw [hsame, hget]
      simp
    · rfl
  · exact ⟨rfl, rfl, fun _ _ => Iff.rfl⟩

theorem Shape.foldl_attach {link path : Nat} {holds : List Nat} (hshape : Shape stale state)
    (hopen : link ∈ state.openLinks) (hpath : (state.paths path).link = some link)
    (hholds : ∀ hold ∈ holds, ∃ upstream, get hold state.entries = some (.relayed path upstream)) :
    Shape stale (holds.foldl (fun held hold => held.attach link hold) state) := by
  induction holds generalizing state with
  | nil => exact hshape
  | cons hold rest ih =>
    rw [foldl_cons]
    obtain ⟨hpaths, hlinks, hentries⟩ := @attach_frame state link hold
    apply ih
    · apply hshape.attach hopen
      intro other upstream hget
      obtain ⟨found, hfound⟩ := hholds hold mem_cons_self
      rw [hget] at hfound
      cases hfound
      exact hpath
    · rw [hlinks]
      exact hopen
    · rw [hpaths]
      exact hpath
    · intro other hother
      exact (hentries other path).mpr (hholds other (mem_cons_of_mem _ hother))

/-! ### A link drops -/

/-- `reply` leaves the holds, unless the side ends with it. -/
theorem reply_entries {call : Nat} {result : Bool} (hentries : state.entries ≠ []) :
    (state.reply call result).entries = state.entries ∧ (state.reply call result).paths = state.paths := by
  rw [State.reply]
  split
  · exact ⟨rfl, rfl⟩
  rw [endCall_eq, State.settle, if_neg (by simp [State.send, hentries])]
  exact ⟨rfl, rfl⟩

variable {calls : List Nat}

variable {result : Bool}

theorem foldl_reply_entries (hentries : state.entries ≠ []) :
    (calls.foldl (fun state call => state.reply call result) state).entries = state.entries ∧
      (calls.foldl (fun state call => state.reply call result) state).paths = state.paths := by
  induction calls generalizing state with
  | nil => exact ⟨rfl, rfl⟩
  | cons call rest ih =>
    obtain ⟨hreply, hpaths⟩ := @reply_entries state call result hentries
    rw [foldl_cons]
    obtain ⟨hrest, hrestPaths⟩ := @ih (state.reply call result) (hreply ▸ hentries)
    exact ⟨hrest.trans hreply, hrestPaths.trans hpaths⟩

theorem Shape.foldl_reply (hshape : Shape stale state) :
    Shape stale (calls.foldl (fun state call => state.reply call result) state) := by
  induction calls generalizing state with
  | nil => exact hshape
  | cons call rest ih =>
    rw [foldl_cons]
    exact ih hshape.reply

/-- A hold told of its link's drop is stale no more. -/
theorem Shape.unheld {hold path : Nat} {before : Option Nat} (hshape : Shape (hold :: stale) state)
    (hget : get hold state.entries = some (.relayed path before)) :
    Shape stale { state with entries := JsMap.set hold (Entry.relayed path none) state.entries } := by
  exact ⟨hshape.placed.set (fun _ => mem_cons.mp) (by simp [hget]) (by simp), hshape.distinct,
    fun call hcall => (hshape.suits call hcall).set hget, by simp [hshape.live hget]⟩

theorem Shape.dropped {hold : Nat} (hshape : Shape (hold :: stale) state) :
    Shape stale (state.dropped hold) := by
  rw [State.dropped]
  split
  next path link hget =>
    exact (hshape.unheld hget).foldl_reply.send
  rename_i hother
  refine { hshape with placed := { hshape.placed with held := ?_ } }
  intro other path link hout hget
  apply hshape.placed.held other path link _ hget
  have hne : other ≠ hold := by
    rintro rfl
    exact hother path link hget
  simp [hne, hout]

theorem Shape.foldl_dropped {holds : List Nat} (hshape : Shape (holds ++ stale) state) :
    Shape stale (holds.foldl State.dropped state) := by
  induction holds generalizing state with
  | nil => exact hshape
  | cons hold rest ih =>
    rw [foldl_cons]
    exact ih hshape.dropped

/-! ### What arrives -/

section

variable (hshape : Shape stale state)

include hshape

variable {id : Nat}

theorem Shape.running {running : Running} {nextSerial : Nat}
    (hnew : get id state.calls = none) (hsuits : Suits state.entries running)
    (hlive : state.isLive = true) :
    Shape stale { state with calls := state.calls ++ [(id, running)], nextSerial := nextSerial } := by
  refine ⟨{ hshape.placed with }, ?_, ?_, by simp [hlive]⟩
  · have hout : id ∉ PropertyList.keys state.calls := (get_eq_none_iff id _).mp hnew
    simp only [PropertyList.keys, map_append, map_cons, map_nil]
    rw [nodup_append]
    refine ⟨hshape.distinct, by simp, ?_⟩
    intro other hother key hkey
    obtain rfl := mem_singleton.mp hkey
    rintro rfl
    exact hout hother
  · exact forall_mem_append.mpr ⟨hshape.suits, forall_mem_singleton.mpr hsuits⟩

theorem Shape.call {hold : Nat} {deflated fits admitted : Bool} :
    Shape stale (state.call config id hold deflated fits admitted) := by
  rw [State.call]
  split
  · exact hshape
  rename_i hnew
  have hnone : get id state.calls = none := by simpa using hnew
  split
  · exact hshape
  rename_i entry hget
  have hlive := hshape.live hget
  split
  · exact hshape
  split
  · exact hshape
  cases entry with
  | pending => exact hshape.send
  | served =>
    dsimp only
    split
    · exact hshape.running hnone hget hlive
    · exact hshape.send
  | relayed path upstream =>
    dsimp only
    split
    · exact hshape.send
    have hrunning : Shape stale { state with
        calls := state.calls ++ [(id, Running.relayed hold state.nextSerial)]
        nextSerial := state.nextSerial + 1 } :=
      hshape.running hnone ⟨path, upstream, hget⟩ hlive
    split
    · exact hrunning.sendUp
    · exact hrunning.reply

theorem Shape.abort : Shape stale (state.abort id) := by
  rw [State.abort]
  split
  · exact hshape.settle
  rw [endCall_eq]
  split
  · exact (hshape.fewer filter_sublist).sendUp.settle
  · exact (hshape.fewer filter_sublist).settle

theorem Shape.release {hold : Nat} : Shape stale (state.release hold) := by
  rw [State.release]
  split
  · exact hshape.settle
  rename_i entry hget
  rw [forget_then_dropHold]
  have hforgotten := (hshape.without hget).settle
  split
  · exact hforgotten.sendUp.settle
  · exact hforgotten.settle

theorem Shape.popped {rest acked : List (Sender × Nat)} {inFlight : Nat} (hsent : state.sent ≠ []) :
    Shape stale { state with sent := rest, acked := acked, inFlight := inFlight } := by
  refine hshape.congr rfl rfl rfl rfl rfl rfl rfl rfl ?_
  intro hdead
  exact absurd (hshape.dead hdead).2.2.1 hsent

theorem Shape.ack : Shape stale state.ack := by
  rw [State.ack]
  split
  · exact hshape.settle
  rename_i sender message rest hsent
  have hne : state.sent ≠ [] := by simp [hsent]
  split
  · exact (hshape.popped hne).sendUp.settle
  · exact (hshape.popped hne).settle
  · exact (hshape.popped hne).settle

theorem Shape.closeDown : Shape stale state.closeDown := by
  rw [State.closeDown]
  split
  · exact (hshape.closed.mono (by simp)).congr rfl rfl rfl rfl rfl rfl rfl rfl fun _ => rfl
  · exact hshape.congr rfl rfl rfl rfl rfl rfl rfl rfl fun _ => rfl

/-- A message of an upstream link. -/
theorem Shape.forward {link origin : Nat} {message : FromUpstream} :
    Shape stale (state.forward link origin message) := by
  rw [State.forward]
  split
  next hlinked =>
    have hlive : state.isLive = true := by
      by_contra hdead
      rw [(hshape.dead (by simpa using hdead)).2.2.2.1] at hlinked
      cases hlinked.1
    cases message with
    | window bound message holds =>
      simp only [forwardFrom]
      split
      · apply Shape.sendUp
        exact hshape.congr rfl rfl rfl rfl rfl rfl rfl rfl fun _ => rfl
      exact hshape.congr rfl rfl rfl rfl rfl rfl rfl rfl (by simp [State.send, hlive])
    | reply call result =>
      simp only [forwardFrom]
      split
      · split
        · exact hshape.reply
        · exact hshape
      · exact hshape
    | gone hold =>
      simp only [forwardFrom]
      split
      next path upstream hget =>
        split
        · have hforgotten := (hshape.without hget).settle
          rw [← forget_dropHold] at hforgotten
          exact hforgotten.send
        · exact hshape
      · exact hshape
    | notice hold failed =>
      simp only [forwardFrom]
      split
      · exact hshape.send
      · exact hshape
  · exact hshape

/-! ### Every input -/

theorem Shape.hold {hold : Nat} (hnew : get hold state.entries = none) :
    Shape stale { state with isLive := true, entries := state.entries ++ [(hold, .pending)] } := by
  have hset : state.entries ++ [(hold, Entry.pending)] = JsMap.set hold .pending state.entries :=
    (set_of_not_has (by simp [JsMap.has, hnew]) _).symm
  rw [hset]
  refine ⟨{ @Placed.set _ stale .pending _ _ hshape.placed (fun _ => .inr) (by simp [hnew])
    (by simp) with },
    hshape.distinct, ?_, by simp⟩
  intro call hcall
  apply (hshape.suits call hcall).set_of_ne
  intro hsame
  have hsuits := hshape.suits call hcall
  cases hrunning : call.2 with
  | served other =>
    rw [hrunning] at hsame hsuits
    rw [Suits, show other = hold from hsame, hnew] at hsuits
    cases hsuits
  | relayed other serial =>
    rw [hrunning] at hsame hsuits
    obtain ⟨path, upstream, hfound⟩ := hsuits
    rw [show other = hold from hsame, hnew] at hfound
    cases hfound

/-- A hold that is not relayed is placed anew, away from every path. -/
theorem Shape.setUnrelayed {hold : Nat} {before after : Entry}
    (hget : get hold state.entries = some before)
    (hbefore : ∀ path upstream, before ≠ .relayed path upstream)
    (hafter : ∀ path upstream, after ≠ .relayed path upstream)
    (hcalls : ∀ call ∈ state.calls, call.2.hold ≠ hold) :
    Shape stale { state with entries := JsMap.set hold after state.entries } := by
  exact ⟨hshape.placed.set (fun _ => .inr) (by simp [hget, hbefore, hafter]) (by simp [hafter]),
    hshape.distinct, fun call hcall => (hshape.suits call hcall).set_of_ne (hcalls call hcall),
    by simp [hshape.live hget]⟩

end

theorem Shape.relay {hold path : Nat} (hshape : Shape stale state)
    (hget : get hold state.entries = some .pending) :
    Shape stale ({ state with
      entries := JsMap.set hold (Entry.relayed path none) state.entries }.setPath path
        ⟨(state.paths path).link, (state.paths path).holders ++ [hold]⟩) := by
  have hplaced := hshape.placed
  have hlink : ∀ other, (update state.paths path
      ⟨(state.paths path).link, (state.paths path).holders ++ [hold]⟩ other).link =
        (state.paths other).link := by
    intro other
    by_cases hsame : other = path
    · subst hsame
      simp
    · simp [update_of_ne hsame]
  have hfree : ∀ other, hold ∉ (state.paths other).holders := by
    intro other hin
    obtain ⟨upstream, hfound⟩ := (hplaced.holders hold other).mp hin
    rw [hget] at hfound
    cases hfound
  refine ⟨⟨keys_set_nodup _ _ hplaced.distinct, ?_, ?_, ?_, hplaced.relaying,
    by simpa only [setPath, hlink] using hplaced.linked,
    by simpa only [setPath, hlink] using hplaced.apart, hplaced.low, hplaced.opened,
    hplaced.single⟩, hshape.distinct, ?_, by simp [setPath, hshape.live hget]⟩
  · intro other otherPath link hout hfound
    dsimp only [setPath] at hfound ⊢
    rw [hlink]
    rw [get_set] at hfound
    split at hfound
    · cases hfound
    · exact hplaced.held other otherPath link hout hfound
  · intro other otherPath
    dsimp only [setPath]
    rw [get_set]
    by_cases hsame : otherPath = path
    · subst hsame
      rw [update_self]
      simp only [mem_append, mem_singleton, hplaced.holders other otherPath]
      by_cases hother : other = hold
      · simp [hother]
      · simp [hother]
    rw [update_of_ne hsame, hplaced.holders other otherPath]
    split
    next hother =>
      rw [hother, hget]
      simp [Ne.symm hsame]
    · rfl
  · intro otherPath
    dsimp only [setPath]
    by_cases hsame : otherPath = path
    · subst hsame
      rw [update_self, nodup_append]
      refine ⟨hplaced.once otherPath, by simp, ?_⟩
      intro other hother found hfound
      obtain rfl := mem_singleton.mp hfound
      rintro rfl
      exact hfree otherPath hother
    rw [update_of_ne hsame]
    exact hplaced.once otherPath
  · exact fun call hcall =>
      (hshape.suits call hcall).set_of_ne ((hshape.suits call hcall).of_pending hget)

/-- `reply` takes the call away. -/
theorem mem_reply_calls {id : Nat} {call : Nat × Running}
    (hcall : call ∈ (state.reply id result).calls) : call ∈ state.calls ∧ call.1 ≠ id := by
  rw [State.reply] at hcall
  split at hcall
  next hnone =>
    refine ⟨hcall, ?_⟩
    rintro rfl
    exact (get_eq_none_iff call.1 _).mp hnone (mem_map_of_mem hcall)
  rw [endCall_eq, State.settle] at hcall
  split at hcall
  · rw [closed_eq] at hcall
    cases hcall
  · simpa [State.send, erase] using hcall

theorem mem_foldl_reply_calls {ids : List Nat} {call : Nat × Running}
    (hcall : call ∈ (ids.foldl (fun state id => state.reply id result) state).calls) :
    call ∈ state.calls ∧ call.1 ∉ ids := by
  induction ids generalizing state with
  | nil => exact ⟨hcall, by simp⟩
  | cons id rest ih =>
    obtain ⟨hreplied, hrest⟩ := ih hcall
    obtain ⟨hmem, hne⟩ := mem_reply_calls hreplied
    exact ⟨hmem, by simp [hne, hrest]⟩

theorem Shape.unserve {hold : Nat} (hshape : Shape stale state)
    (hget : get hold state.entries = some .served) :
    let rejected := ((state.calls.filter fun call => call.2.hold = hold).map Prod.fst).foldl
      (fun state call => state.reply call false) state
    Shape stale { rejected with entries := JsMap.set hold .pending rejected.entries } := by
  have hentries : state.entries ≠ [] := by
    intro hnone
    rw [hnone] at hget
    cases hget
  intro rejected
  have hsame : rejected.entries = state.entries := (foldl_reply_entries hentries).1
  apply Shape.setUnrelayed hshape.foldl_reply (hsame ▸ hget) (by simp) (by simp)
  intro call hcall
  obtain ⟨hmem, hout⟩ := mem_foldl_reply_calls hcall
  intro hon
  exact hout (mem_map_of_mem (mem_filter.mpr ⟨hmem, by simpa using hon⟩))

theorem Shape.own {message : Nat} {inFlight : Nat} {windows : List (Sender × Nat)}
    (hshape : Shape stale state) (hlive : state.isLive = true) :
    Shape stale { state with
      inFlight := inFlight, sent := state.sent ++ [(Sender.here, message)], windows := windows } := by
  exact hshape.congr rfl rfl rfl rfl rfl rfl rfl rfl (by simp [hlive])

/-- A path gets a link of its own. -/
theorem Shape.connect {path : Nat} (hshape : Shape [] state)
    (hnone : (state.paths path).link = none) :
    Shape [] ({ state with
      nextLink := state.nextLink + 1
      openLinks := state.openLinks ++ [state.nextLink] }.setPath path
        ⟨some state.nextLink, (state.paths path).holders⟩) := by
  obtain ⟨⟨distinct, held, holders, once, relaying, linked, apart, low, opened, single⟩, distinctCalls,
    suits, dead⟩ := hshape
  have hholders : ∀ other, (update state.paths path
      ⟨some state.nextLink, (state.paths path).holders⟩ other).holders = (state.paths other).holders := by
    intro other
    by_cases hsame : other = path
    · subst hsame
      simp
    · simp [update_of_ne hsame]
  have hfresh : state.nextLink ∉ state.openLinks := fun hin => Nat.lt_irrefl _ (low _ hin)
  refine ⟨⟨distinct, ?_, by simpa only [setPath, hholders] using holders,
    by simpa only [setPath, hholders] using once, ?_, ?_, ?_, ?_, ?_, single⟩,
    distinctCalls, suits, dead⟩
  · intro other otherPath link hout hfound
    obtain ⟨hlink, hmem⟩ := held other otherPath link hout hfound
    refine ⟨?_, hmem⟩
    have hne : otherPath ≠ path := by
      rintro rfl
      rw [hnone] at hlink
      cases hlink
    simpa [setPath, update_of_ne hne] using hlink
  · intro link hlink
    exact ⟨mem_append_left _ (relaying link hlink).1, (relaying link hlink).2⟩
  · intro otherPath link hfound
    dsimp only [setPath] at hfound ⊢
    by_cases hsame : otherPath = path
    · subst hsame
      rw [update_self] at hfound
      cases hfound
      simp
    rw [update_of_ne hsame] at hfound
    exact mem_append_left _ (linked otherPath link hfound)
  · intro first second link hfirst hsecond
    dsimp only [setPath] at hfirst hsecond
    by_cases hone : first = path
    · by_cases htwo : second = path
      · exact hone.trans htwo.symm
      subst hone
      rw [update_self] at hfirst
      rw [update_of_ne htwo] at hsecond
      cases hfirst
      exact absurd (linked second _ hsecond) hfresh
    rw [update_of_ne hone] at hfirst
    by_cases htwo : second = path
    · subst htwo
      rw [update_self] at hsecond
      cases hsecond
      exact absurd (linked first _ hfirst) hfresh
    rw [update_of_ne htwo] at hsecond
    exact apart first second link hfirst hsecond
  · intro link hlink
    rcases mem_append.mp hlink with hlink | hlink
    · exact Nat.lt_succ_of_lt (low link hlink)
    obtain rfl := mem_singleton.mp hlink
    exact Nat.lt_succ_self _
  · dsimp only [setPath]
    rw [nodup_append]
    refine ⟨opened, by simp, ?_⟩
    rintro link hlink other hother rfl
    exact hfresh (mem_singleton.mp hother ▸ hlink)

/-- A path loses its link; its holders are to be told. -/
theorem Shape.disconnect {path link : Nat} (hshape : Shape [] state)
    (hlink : (state.paths path).link = some link) :
    Shape (state.paths path).holders ({ state with
      openLinks := state.openLinks.erase link
      links := state.links.erase link }.setPath path ⟨none, (state.paths path).holders⟩) := by
  obtain ⟨⟨distinct, held, holders, once, relaying, linked, apart, low, opened, single⟩, distinctCalls,
    suits, dead⟩ := hshape
  have hholders : ∀ other, (update state.paths path
      ⟨none, (state.paths path).holders⟩ other).holders = (state.paths other).holders := by
    intro other
    by_cases hsame : other = path
    · subst hsame
      simp
    · simp [update_of_ne hsame]
  have hother : ∀ other found, update state.paths path
      ⟨none, (state.paths path).holders⟩ other = found → ∀ otherLink, found.link = some otherLink →
        other ≠ path ∧ (state.paths other).link = some otherLink ∧ otherLink ≠ link := by
    rintro other _ rfl otherLink hfound
    by_cases hsame : other = path
    · subst hsame
      rw [update_self] at hfound
      cases hfound
    rw [update_of_ne hsame] at hfound
    refine ⟨hsame, hfound, ?_⟩
    rintro rfl
    exact hsame (apart other path otherLink hfound hlink)
  refine ⟨⟨distinct, ?_, by simpa only [setPath, hholders] using holders,
    by simpa only [setPath, hholders] using once, ?_, ?_, ?_, ?_, opened.erase link,
    single.erase link⟩, distinctCalls, suits, ?_⟩
  · intro hold otherPath otherLink hout hfound
    obtain ⟨hpath, hmem⟩ := held hold otherPath otherLink (by simp) hfound
    have hne : otherPath ≠ path := by
      rintro rfl
      exact hout ((holders hold otherPath).mpr ⟨_, hfound⟩)
    refine ⟨?_, (List.Nodup.mem_erase_iff single).mpr ⟨?_, hmem⟩⟩
    · simpa [setPath, update_of_ne hne] using hpath
    rintro rfl
    exact hne (apart otherPath path otherLink hpath hlink)
  · intro other hmem
    obtain ⟨hne, hmem⟩ := (List.Nodup.mem_erase_iff single).mp hmem
    exact ⟨(List.Nodup.mem_erase_iff opened).mpr ⟨hne, (relaying other hmem).1⟩, (relaying other hmem).2⟩
  · intro otherPath otherLink hfound
    obtain ⟨-, hpath, hne⟩ := hother otherPath _ rfl otherLink hfound
    exact (List.Nodup.mem_erase_iff opened).mpr ⟨hne, linked otherPath otherLink hpath⟩
  · intro first second otherLink hfirst hsecond
    exact apart first second otherLink (hother first _ rfl otherLink hfirst).2.1
      (hother second _ rfl otherLink hsecond).2.1
  · exact fun other hmem => low other (mem_of_mem_erase hmem)
  intro hdead
  obtain ⟨hentries, hcalls, hsent, hrelay, hlinks⟩ := dead hdead
  refine ⟨hentries, hcalls, hsent, hrelay, ?_⟩
  simp [setPath, hlinks]

theorem foldl_notice (holds : List Nat) (failed : Bool) :
    holds.foldl (fun state hold => state.send (.notice hold failed)) state =
      { state with down := state.down ++ holds.map (DownMessage.notice · failed) } := by
  induction holds generalizing state with
  | nil => simp
  | cons hold rest ih =>
    rw [foldl_cons, ih]
    simp [State.send]

/-- A hold away from every path is forgotten. -/
theorem Shape.endHold {hold : Nat} (hshape : Shape stale state)
    (hget : get hold state.entries = some entry)
    (hentry : ∀ path upstream, entry ≠ .relayed path upstream) : Shape stale (state.forget hold) := by
  have hforgotten := (hshape.without hget).settle
  rw [← forget_dropHold] at hforgotten
  cases entry with
  | relayed path upstream => exact absurd rfl (hentry path upstream)
  | pending => exact hforgotten
  | served => exact hforgotten

end State

theorem shape_start : State.Shape [] start := by
  refine ⟨⟨?_, ?_, ?_, ?_, ?_, ?_, ?_, ?_, ?_, ?_⟩, ?_, ?_, ?_⟩ <;>
    simp [start, PropertyList.keys]

end Hummin.Relay
