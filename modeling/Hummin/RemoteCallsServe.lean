/-
The provider's moves: handling the oldest message, answering calls, and what happens to its
holds.  Each leaves it fewer calls to count than expected, and answers or ends what it drops.
-/
import Hummin.RemoteCallsLink

namespace Hummin.Remote

open List Option PropertyList

variable {config : Config} {c : ConsumerSide} {p p' : ProviderSide} {messages rest : List ToProvider}

/-- The calls and the holds the provider counts or is asked for. -/
def pendingIds (p : ProviderSide) (messages : List ToProvider) : List Nat :=
  p.calls.map Prod.fst ++ callIds messages

def pendingHolds (p : ProviderSide) (messages : List ToProvider) : List Nat :=
  PropertyList.keys p.holds ++ holdIds messages

theorem knows_iff {messages : List ToProvider} {hold : Nat} :
    knows p messages hold = true ↔ hold ∈ pendingHolds p messages := by
  simp [knows, pendingHolds]

/-- What a move of the provider may do to the calls and holds. -/
structure Serves (p : ProviderSide) (messages : List ToProvider) (p' : ProviderSide)
    (rest : List ToProvider) : Prop where
  later : rest <:+ messages
  ids : (pendingIds p' rest).Sublist (pendingIds p messages)
  holds : (pendingHolds p' rest).Perm (pendingHolds p messages) ∨
    (pendingHolds p' rest).Sublist (pendingHolds p messages)
  placed : ∀ call ∈ p'.calls, call.2 ∈ PropertyList.keys p'.holds
  /-- Handling the messages before `rest` leaves no more than expected. -/
  fewer : ∃ front, messages = front ++ rest ∧
    p'.calls.Sublist (expected (knows p messages) p.calls front)

theorem Serves.knows (hserves : Serves p messages p' rest) {hold : Nat}
    (hknown : Remote.knows p' rest hold = true) : Remote.knows p messages hold = true := by
  rw [knows_iff] at hknown ⊢
  rcases hserves.holds with hperm | hsub
  · exact hperm.mem_iff.mp hknown
  · exact hsub.subset hknown

theorem Admits.serves (hadmits : Admits config p messages) (hserves : Serves p messages p' rest) :
    Admits config p' rest where
  ids := hadmits.ids.sublist hserves.ids
  holds := by
    rcases hserves.holds with hperm | hsub
    · exact hperm.nodup_iff.mpr hadmits.holds
    · exact hadmits.holds.sublist hsub
  placed := hserves.placed
  within := by
    obtain ⟨front, rfl, hfewer⟩ := hserves.fewer
    intro part hpart
    have hsub : (expected (Remote.knows p' rest) p'.calls part).Sublist
        (expected (Remote.knows p (front ++ rest)) p.calls (front ++ part)) := by
      rw [expected_append]
      exact expected_sublist (fun hold => hserves.knows) hfewer
    refine le_trans hsub.length_le (hadmits.within (front ++ part) ?_)
    exact (prefix_append_right_inj front).mpr hpart
  plain := by
    intro hparent id hold method args hmem
    exact hadmits.plain hparent id hold method args (hserves.later.subset hmem)

/-- A move that answers the calls it drops and says which holds are gone. -/
theorem Linked.serves (hlinked : Linked config c p) (hserves : Serves p c.outbox p' rest)
    (hasked : ∀ call ∈ p'.calls, call ∈ p.calls ∨
      ∃ method args, .call call.1 call.2 method args ∈ c.outbox)
    (hkept : ∀ message ∈ p.outbox, message ∈ p'.outbox)
    (hreplies : ∀ id, replies p' id → replies p id ∨
      id ∈ pendingIds p c.outbox ∧ id ∉ pendingIds p' rest)
    (hgone : ∀ hold, .gone hold ∈ p'.outbox → .gone hold ∈ p.outbox ∨
      hold ∈ pendingHolds p c.outbox ∧ hold ∉ pendingHolds p' rest)
    (hleft : ∀ hold ∈ keys c.entries, hold ∈ pendingHolds p c.outbox →
      hold ∈ pendingHolds p' rest ∨ .gone hold ∈ p'.outbox)
    (hanswered : ∀ id registered, (id, registered) ∈ c.calls → id ∈ pendingIds p c.outbox →
      id ∈ pendingIds p' rest ∨ replies p' id ∨ .gone registered.hold ∈ p'.outbox) :
    Linked config { c with outbox := rest } p' := by
  have hadmits := hlinked.admits.serves hserves
  have hlater : ∀ {message}, message ∈ rest → message ∈ c.outbox := fun hmem =>
    hserves.later.subset hmem
  have hholds : ∀ {hold}, hold ∈ pendingHolds p' rest → hold ∈ pendingHolds p c.outbox := by
    intro hold hmem
    rcases hserves.holds with hperm | hsub
    · exact hperm.mem_iff.mp hmem
    · exact hsub.subset hmem
  obtain ⟨admits, idsLow, holdsLow, asksLow, live, replied, lost, entered, released, aborted, running,
    asked, answered, ordered⟩ := hlinked
  refine ⟨hadmits, ?_, ?_, ?_, ?_, ?_, ?_, ?_, ?_, ?_, ?_, ?_, ?_, ?_⟩
  · exact fun id hid => idsLow id (hserves.ids.subset hid)
  · exact fun hold hmem => holdsLow hold (hholds hmem)
  · exact fun id hold method args hmem => asksLow id hold method args (hlater hmem)
  · intro call hcall
    obtain ⟨front, hfront, hfewer⟩ := hserves.fewer
    apply live call
    have hsub : (expected (Remote.knows p' rest) p'.calls rest).Sublist
        (expected (Remote.knows p c.outbox) p.calls (front ++ rest)) := by
      rw [expected_append]
      exact expected_sublist (fun hold => hserves.knows) hfewer
    rw [← hfront] at hsub
    exact hsub.subset hcall
  · intro id hid
    rcases hreplies id hid with hold | ⟨hold, hnew⟩
    · obtain ⟨hlow, hout⟩ := replied id hold
      exact ⟨hlow, fun hin => hout (hserves.ids.subset hin)⟩
    · exact ⟨idsLow id hold, hnew⟩
  · intro hold hmem
    rcases hgone hold hmem with hbefore | ⟨hbefore, hnew⟩
    · obtain ⟨hlow, hout⟩ := lost hold hbefore
      exact ⟨hlow, fun hin => hout (hholds hin)⟩
    · exact ⟨holdsLow hold hbefore, hnew⟩
  · intro hold hmem
    rcases entered hold hmem with hknown | hlost
    · exact hleft hold hmem hknown
    · exact .inr (hkept _ hlost)
  · exact fun hold hmem => released hold (hlater hmem)
  · exact fun id hmem => aborted id (hlater hmem)
  · intro call hcall registered hin
    rcases hasked call hcall with hrunning | ⟨method, args, hmem⟩
    · exact running call hrunning registered hin
    · exact asked call.1 call.2 method args hmem registered hin
  · exact fun id hold method args hmem => asked id hold method args (hlater hmem)
  · intro id registered hin
    rcases answered id registered hin with hpending | hreplied | hlost
    · exact hanswered id registered hin hpending
    · exact .inr (.inl (hreplied.imp (hkept _) (hkept _)))
    · exact .inr (.inr (hkept _ hlost))
  · exact List.Pairwise.sublist hserves.later.sublist ordered

/-! ### Moves of its own -/

variable {id hold : Nat}

theorem keys_setHold {state : HoldState} (hpresent : hold ∈ keys p.holds) :
    keys (p.setHold hold state).holds = keys p.holds := by
  rw [← get_isSome_iff] at hpresent
  rw [ProviderSide.setHold, JsMap.set, put, if_pos hpresent, keys_replace]

/-- The same calls and holds, whatever is told of them. -/
theorem serves_same (hadmits : Admits config p messages) (hcalls : p'.calls = p.calls)
    (hholds : keys p'.holds = keys p.holds) :
    Serves p messages p' messages where
  later := suffix_refl _
  ids := by
    rw [pendingIds, pendingIds, hcalls]
  holds := by
    rw [pendingHolds, pendingHolds, hholds]
    exact .inl (List.Perm.refl _)
  placed := by
    rw [hcalls, hholds]
    exact hadmits.placed
  fewer := ⟨[], rfl, by rw [hcalls]; exact List.Sublist.refl _⟩

/-- A hold's state changes, and a notice or a binding may be sent. -/
theorem Linked.same {more : List ToConsumer} (hlinked : Linked config c p)
    (hcalls : p'.calls = p.calls) (hholds : keys p'.holds = keys p.holds)
    (houtbox : p'.outbox = p.outbox ++ more)
    (hmore : ∀ message ∈ more, (∀ id, message ≠ .result id) ∧ (∀ id, message ≠ .error id) ∧
      ∀ hold, message ≠ .gone hold) : Linked config c p' := by
  have hserves := serves_same hlinked.admits hcalls hholds
  have hold : ∀ {message : ToConsumer}, message ∈ p'.outbox →
      message ∈ p.outbox ∨ message ∈ more := by
    intro message hmem
    rw [houtbox] at hmem
    exact mem_append.mp hmem
  refine hlinked.serves hserves ?_ ?_ ?_ ?_ ?_ ?_
  · intro call hcall
    rw [hcalls] at hcall
    exact .inl hcall
  · intro message hmem
    rw [houtbox]
    exact mem_append_left _ hmem
  · rintro id (hresult | herror)
    · exact .inl (.inl ((hold hresult).resolve_right fun hin => (hmore _ hin).1 id rfl))
    · exact .inl (.inr ((hold herror).resolve_right fun hin => (hmore _ hin).2.1 id rfl))
  · intro other hmem
    exact .inl ((hold hmem).resolve_right fun hin => (hmore _ hin).2.2 other rfl)
  · intro other _ hpending
    rw [pendingHolds, hholds]
    exact .inl hpending
  intro id registered _ hpending
  rw [pendingIds, hcalls]
  exact .inl hpending

theorem mem_erase_ids {other : Nat} {calls : List (Nat × Nat)} :
    other ∈ (erase id calls).map Prod.fst ↔ other ∈ calls.map Prod.fst ∧ other ≠ id := by
  simp only [erase, List.mem_map, mem_filter]
  constructor
  · rintro ⟨call, ⟨hcall, hne⟩, rfl⟩
    exact ⟨⟨call, hcall, rfl⟩, by simpa using hne⟩
  rintro ⟨⟨call, hcall, rfl⟩, hne⟩
  exact ⟨call, ⟨hcall, by simpa using hne⟩, rfl⟩

/-- Calls and holds dropped. -/
theorem serves_fewer (hlater : rest <:+ messages)
    (hfront : ∃ front, messages = front ++ rest ∧
      p'.calls.Sublist (expected (knows p messages) p.calls front))
    (hcalls : p'.calls.Sublist p.calls) (hholds : p'.holds.Sublist p.holds)
    (hplaced : ∀ call ∈ p'.calls, call.2 ∈ keys p'.holds) : Serves p messages p' rest where
  later := hlater
  ids := (hcalls.map Prod.fst).append (hlater.sublist.filterMap _)
  holds := .inr ((hholds.map Prod.fst).append (hlater.sublist.filterMap _))
  placed := hplaced
  fewer := hfront

theorem serves_reply {id : Nat} {message : ToConsumer} (hadmits : Admits config p messages) :
    Serves p messages (p.reply id message) messages := by
  rw [ProviderSide.reply]
  split
  · exact serves_same hadmits rfl rfl
  exact serves_fewer (suffix_refl _) ⟨[], rfl, filter_sublist⟩ filter_sublist (.refl _)
    fun call hcall => hadmits.placed call (mem_of_mem_filter hcall)

/-- A call answered. -/
theorem Linked.reply {message : ToConsumer} (hlinked : Linked config c p)
    (hmessage : message = .result id ∨ message = .error id) :
    Linked config c (p.reply id message) := by
  have hserves := @serves_reply config p c.outbox id message hlinked.admits
  rw [ProviderSide.reply] at hserves ⊢
  split at hserves
  next hnone =>
    rw [if_pos hnone]
    exact hlinked
  rename_i hsome
  rw [if_neg hsome]
  have hrunning : id ∈ p.calls.map Prod.fst := by
    have hget : (get id p.calls).isSome = true := by
      simpa [isNone_iff_eq_none, isSome_iff_ne_none] using hsome
    exact (get_isSome_iff id p.calls).mp hget
  have hnew : id ∉ pendingIds ({ p with calls := erase id p.calls }.post message)
      c.outbox := by
    intro hin
    rcases mem_append.mp hin with hin | hin
    · exact (mem_erase_ids.mp hin).2 rfl
    · exact (nodup_append.mp hlinked.admits.ids).2.2 id hrunning id hin rfl
  refine hlinked.serves hserves (fun call hcall => .inl (mem_of_mem_filter hcall))
    (fun other hmem => mem_append_left _ hmem) ?_ ?_ ?_ ?_
  · intro other hother
    by_cases hsame : other = id
    · subst hsame
      exact .inr ⟨mem_append_left _ hrunning, hnew⟩
    left
    have hkept : ∀ {sent}, sent ∈ p.outbox ++ [message] → sent ≠ message → sent ∈ p.outbox := by
      intro sent hsent hne
      exact (mem_append.mp hsent).resolve_right fun hin => hne (mem_singleton.mp hin)
    rcases hother with hresult | herror
    · refine .inl (hkept hresult ?_)
      rcases hmessage with rfl | rfl <;> simp [hsame]
    refine .inr (hkept herror ?_)
    rcases hmessage with rfl | rfl <;> simp [hsame]
  · intro hold hmem
    left
    have hne : ToConsumer.gone hold ≠ message := by
      rcases hmessage with rfl | rfl <;> simp
    exact (mem_append.mp hmem).resolve_right fun hin => hne (mem_singleton.mp hin)
  · exact fun hold _ hpending => .inl hpending
  intro other registered _ hpending
  by_cases hsame : other = id
  · subst hsame
    refine .inr (.inl ?_)
    have hsent : message ∈ p.outbox ++ [message] := mem_append_right _ mem_cons_self
    rcases hmessage with rfl | rfl
    · exact .inl hsent
    · exact .inr hsent
  left
  rcases mem_append.mp hpending with hin | hin
  · exact mem_append_left _ (mem_erase_ids.mpr ⟨hin, hsame⟩)
  · exact mem_append_right _ hin

theorem Admits.rejectAll {ids : List Nat} (hadmits : Admits config p messages) :
    Admits config (ids.foldl (fun side id => side.reply id (.error id)) p) messages := by
  induction ids generalizing p with
  | nil => exact hadmits
  | cons id rest ih => exact ih (hadmits.serves (serves_reply hadmits))

theorem Linked.rejectAll {ids : List Nat} (hlinked : Linked config c p) :
    Linked config c (ids.foldl (fun side id => side.reply id (.error id)) p) := by
  induction ids generalizing p with
  | nil => exact hlinked
  | cons id rest ih => exact ih (hlinked.reply (.inr rfl))

theorem holds_rejectCalls : (p.rejectCalls hold).holds = p.holds := by
  have hfold : ∀ (ids : List Nat) (p : ProviderSide),
      (ids.foldl (fun side id => side.reply id (.error id)) p).holds = p.holds := by
    intro ids
    induction ids with
    | nil => exact fun _ => rfl
    | cons id rest ih =>
      intro p
      rw [foldl_cons, ih, ProviderSide.reply]
      split <;> rfl
  exact hfold _ p

theorem mem_keys_erase {V : Type} {hold other : Nat} {entries : List (Nat × V)} :
    other ∈ keys (erase hold entries) ↔ other ∈ keys entries ∧ other ≠ hold := by
  rw [← get_isSome_iff, ← get_isSome_iff, get_erase]
  by_cases hsame : other = hold <;> simp [hsame]

/-- A hold forgotten with its calls. -/
theorem placed_forget (hadmits : Admits config p messages) :
    ∀ call ∈ (p.forget hold).calls, call.2 ∈ keys (p.forget hold).holds := by
  intro call hcall
  obtain ⟨hcall, hne⟩ := mem_filter.mp hcall
  exact mem_keys_erase.mpr ⟨hadmits.placed call hcall, by simpa using hne⟩

theorem serves_ended {hold : Nat} (hadmits : Admits config p messages) :
    Serves p messages ((p.forget hold).post (.gone hold)) messages :=
  serves_fewer (suffix_refl _) ⟨[], rfl, filter_sublist⟩ filter_sublist filter_sublist
    (placed_forget hadmits)

/-- A hold's end. -/
theorem Linked.ended (hlinked : Linked config c p) (hpresent : hold ∈ keys p.holds) :
    Linked config c ((p.forget hold).post (.gone hold)) := by
  have hserves := @serves_ended config p c.outbox hold hlinked.admits
  have hsent : ToConsumer.gone hold ∈ ((p.forget hold).post (.gone hold)).outbox :=
    mem_append_right _ mem_cons_self
  refine hlinked.serves hserves (fun call hcall => .inl (mem_of_mem_filter hcall))
    (fun message hmem => mem_append_left _ hmem) ?_ ?_ ?_ ?_
  · intro id hid
    left
    have hkept : ∀ {sent : ToConsumer}, sent ∈ p.outbox ++ [ToConsumer.gone hold] → sent ≠ .gone hold →
        sent ∈ p.outbox := by
      intro sent hin hne
      exact (mem_append.mp hin).resolve_right fun hlast => hne (mem_singleton.mp hlast)
    rcases hid with hresult | herror
    · exact .inl (hkept hresult (by simp))
    · exact .inr (hkept herror (by simp))
  · intro other hmem
    rcases mem_append.mp hmem with hmem | hmem
    · exact .inl hmem
    rw [mem_singleton] at hmem
    cases hmem
    refine .inr ⟨mem_append_left _ hpresent, fun hin => ?_⟩
    rcases mem_append.mp hin with hin | hin
    · exact (mem_keys_erase.mp hin).2 rfl
    · exact (nodup_append.mp hlinked.admits.holds).2.2 _ hpresent _ hin rfl
  · intro other _ hpending
    by_cases hsame : other = hold
    · subst hsame
      exact .inr hsent
    left
    rcases mem_append.mp hpending with hin | hin
    · exact mem_append_left _ (mem_keys_erase.mpr ⟨hin, hsame⟩)
    · exact mem_append_right _ hin
  intro id registered hregistered hpending
  rcases mem_append.mp hpending with hin | hin
  · obtain ⟨call, hcall, rfl⟩ := mem_map.mp hin
    have hon := hlinked.running call hcall registered hregistered
    by_cases hsame : call.2 = hold
    · rw [hon, hsame]
      exact .inr (.inr hsent)
    refine .inl (mem_append_left _ (mem_map_of_mem ?_))
    exact mem_filter.mpr ⟨hcall, by simpa using hsame⟩
  · exact .inl (mem_append_right _ hin)

/-! ### Handling a message -/

theorem handle_hold (hadmits : Admits config p (.hold hold :: rest)) :
    p.message config (.hold hold) = .ok { p with holds := p.holds ++ [(hold, .pending)] } := by
  have hnew : (get hold p.holds).isSome = false := by
    rw [← Bool.not_eq_true, get_isSome_iff]
    intro hin
    exact (nodup_append.mp hadmits.holds).2.2 hold hin hold
      (mem_holdIds.mpr mem_cons_self) rfl
  simp [ProviderSide.message, hnew]

theorem serves_hold (hadmits : Admits config p (.hold hold :: rest)) :
    Serves p (.hold hold :: rest) { p with holds := p.holds ++ [(hold, .pending)] } rest where
  later := suffix_cons _ _
  ids := by
    simp [pendingIds, callIds, ToProvider.asks, filterMap_cons]
  holds := by
    left
    simp [pendingHolds, holdIds, ToProvider.holds, PropertyList.keys]
  placed := by
    intro call hcall
    simp only [PropertyList.keys, map_append]
    exact mem_append_left _ (hadmits.placed call hcall)
  fewer := ⟨[.hold hold], rfl, List.Sublist.refl _⟩

theorem Linked.handleHold (hlinked : Linked config c p) (houtbox : c.outbox = .hold hold :: rest) :
    Linked config { c with outbox := rest } { p with holds := p.holds ++ [(hold, .pending)] } := by
  have hadmits := hlinked.admits
  rw [houtbox] at hadmits
  have hserves := serves_hold hadmits
  have hsame : pendingHolds { p with holds := p.holds ++ [(hold, .pending)] } rest =
      pendingHolds p c.outbox := by
    rw [houtbox]
    simp [pendingHolds, holdIds, ToProvider.holds, PropertyList.keys]
  have hids : pendingIds { p with holds := p.holds ++ [(hold, .pending)] } rest =
      pendingIds p c.outbox := by
    rw [houtbox]
    simp [pendingIds, callIds, ToProvider.asks, filterMap_cons]
  rw [← houtbox] at hserves
  refine hlinked.serves hserves (fun call hcall => .inl hcall) (fun message hmem => hmem)
    (fun id hid => .inl hid) (fun other hmem => .inl hmem) ?_ ?_
  · intro other _ hpending
    rw [hsame]
    exact .inl hpending
  intro id registered _ hpending
  rw [hids]
  exact .inl hpending

/-- A hold that is not there has no calls to forget. -/
theorem handle_release (hadmits : Admits config p messages) :
    p.message config (.release hold) = .ok (p.forget hold) := by
  rw [ProviderSide.message]
  split
  next hnone =>
    have hout : JsMap.has hold p.holds = false := by
      rw [JsMap.has, ← not_isNone, hnone]
      rfl
    have hcalls : p.calls.filter (fun call => decide (call.2 ≠ hold)) = p.calls := by
      apply filter_eq_self.mpr
      intro call hcall
      have hne : call.2 ≠ hold := by
        intro heq
        have hplaced := hadmits.placed call hcall
        rw [heq, ← get_isSome_iff] at hplaced
        exact Bool.false_ne_true (hout.symm.trans hplaced)
      simpa using hne
    rw [ProviderSide.forget, hcalls, JsMap.erase_of_not_has hout]
  · rfl

theorem serves_release (hadmits : Admits config p (.release hold :: rest)) :
    Serves p (.release hold :: rest) (p.forget hold) rest :=
  serves_fewer (suffix_cons _ _) ⟨[.release hold], rfl, List.Sublist.refl _⟩ filter_sublist
    filter_sublist (placed_forget hadmits)

theorem Linked.handleRelease (hlinked : Linked config c p)
    (hplaced : ∀ entry ∈ c.calls, entry.2.hold ∈ keys c.entries)
    (houtbox : c.outbox = .release hold :: rest) :
    Linked config { c with outbox := rest } (p.forget hold) := by
  have hadmits := hlinked.admits
  rw [houtbox] at hadmits
  have hserves := serves_release hadmits
  have hsame : holdIds c.outbox = holdIds rest := by rw [houtbox]; rfl
  have hids : callIds c.outbox = callIds rest := by rw [houtbox]; rfl
  have hout : hold ∉ keys c.entries :=
    (hlinked.released hold (by rw [houtbox]; exact mem_cons_self)).2
  rw [← houtbox] at hserves
  refine hlinked.serves hserves (fun call hcall => .inl (mem_of_mem_filter hcall))
    (fun message hmem => hmem) (fun id hid => .inl hid) (fun other hmem => .inl hmem) ?_ ?_
  · intro other hentry hpending
    left
    rw [pendingHolds, hsame] at hpending
    rcases mem_append.mp hpending with hin | hin
    · refine mem_append_left _ (mem_keys_erase.mpr ⟨hin, ?_⟩)
      exact fun heq => hout (heq ▸ hentry)
    · exact mem_append_right _ hin
  intro id registered hregistered hpending
  left
  rw [pendingIds, hids] at hpending
  rcases mem_append.mp hpending with hin | hin
  · obtain ⟨call, hcall, rfl⟩ := mem_map.mp hin
    have hon := hlinked.running call hcall registered hregistered
    have hentry := hplaced _ hregistered
    refine mem_append_left _ (mem_map_of_mem (mem_filter.mpr ⟨hcall, ?_⟩))
    have hne : call.2 ≠ hold := fun heq => hout (by rw [← heq, ← hon]; exact hentry)
    simpa using hne
  · exact mem_append_right _ hin

theorem serves_abort (hadmits : Admits config p (.abort id :: rest)) :
    Serves p (.abort id :: rest) { p with calls := erase id p.calls } rest := by
  refine serves_fewer (suffix_cons _ _) ⟨[.abort id], rfl, List.Sublist.refl _⟩ filter_sublist
    (.refl _) ?_
  exact fun call hcall => hadmits.placed call (mem_of_mem_filter hcall)

theorem Linked.handleAbort (hlinked : Linked config c p)
    (houtbox : c.outbox = .abort id :: rest) :
    Linked config { c with outbox := rest } { p with calls := erase id p.calls } := by
  have hadmits := hlinked.admits
  rw [houtbox] at hadmits
  have hserves := serves_abort hadmits
  have hsame : holdIds c.outbox = holdIds rest := by rw [houtbox]; rfl
  have hids : callIds c.outbox = callIds rest := by rw [houtbox]; rfl
  have hout : id ∉ c.calls.map Prod.fst :=
    (hlinked.aborted id (by rw [houtbox]; exact mem_cons_self)).2
  rw [← houtbox] at hserves
  refine hlinked.serves hserves (fun call hcall => .inl (mem_of_mem_filter hcall))
    (fun message hmem => hmem) (fun other hid => .inl hid) (fun other hmem => .inl hmem) ?_ ?_
  · intro other _ hpending
    rw [pendingHolds, hsame] at hpending
    exact .inl hpending
  intro other registered hregistered hpending
  left
  rw [pendingIds, hids] at hpending
  rcases mem_append.mp hpending with hin | hin
  · refine mem_append_left _ (mem_erase_ids.mpr ⟨hin, ?_⟩)
    exact fun heq => hout (heq ▸ mem_map.mpr ⟨_, hregistered, rfl⟩)
  · exact mem_append_right _ hin

variable {method : Nat} {args : Option Args}

/-- What becomes of a call that is no protocol error: ignored, refused, or handled. -/
theorem call_cases (hadmits : Admits config p (.call id hold method args :: rest)) :
    (hold ∉ PropertyList.keys p.holds ∧ p.call config id hold method args = .ok p) ∨
      hold ∈ PropertyList.keys p.holds ∧
        (p.call config id hold method args = .ok (p.post (.error id)) ∨
          p.call config id hold method args = .ok { p with calls := p.calls ++ [(id, hold)] } ∨
          p.call config id hold method args = .error .noMethod) := by
  have hnew : id ∉ p.calls.map Prod.fst := by
    intro hin
    exact (nodup_append.mp hadmits.ids).2.2 id hin id
      (mem_callIds.mpr ⟨hold, method, args, mem_cons_self⟩) rfl
  have hget : (get id p.calls).isSome = false := by
    rw [← Bool.not_eq_true, get_isSome_iff]
    exact hnew
  -- Registered and answered at once, a call leaves the table as it was.
  have hatOnce : ({ p with calls := p.calls ++ [(id, hold)] } : ProviderSide).reply id (.error id) =
      p.post (.error id) := by
    have hhas : (get id (p.calls ++ [(id, hold)])).isNone = false := by
      have hmem : (get id (p.calls ++ [(id, hold)])).isSome = true := by
        rw [get_isSome_iff]
        simp [PropertyList.keys]
      cases hfound : get id (p.calls ++ [(id, hold)]) with
      | none =>
        rw [hfound] at hmem
        cases hmem
      | some _ => rfl
    have hall : erase id (p.calls ++ [(id, hold)]) = p.calls := by
      rw [erase, filter_append]
      have hself : p.calls.filter (fun call => decide (call.1 ≠ id)) = p.calls := by
        apply filter_eq_self.mpr
        intro call hcall
        have hne : call.1 ≠ id := fun heq => hnew (heq ▸ mem_map_of_mem hcall)
        simpa using hne
      rw [hself]
      simp
    simp only [ProviderSide.reply, hhas, Bool.false_eq_true, if_false, hall]
  rw [ProviderSide.call, hget]
  cases hstate : get hold p.holds with
  | none =>
    left
    refine ⟨?_, rfl⟩
    rw [← get_isSome_iff, hstate]
    simp
  | some state =>
    right
    have hpresent : hold ∈ PropertyList.keys p.holds := by
      rw [← get_isSome_iff, hstate]
      rfl
    refine ⟨hpresent, ?_⟩
    have hroom : ¬ p.calls.length ≥ config.calls := by
      have hlength := hadmits.within [.call id hold method args] (by simp)
      simp only [expected_cons, expected_nil, expect, knows, hpresent, decide_true, Bool.true_or,
        if_true, length_append, length_singleton] at hlength
      omega
    have hplain : ((args.any fun part => part.deflated) && config.parent) = false := by
      cases hparent : config.parent with
      | false => simp
      | true =>
        rw [hadmits.plain hparent id hold method args mem_cons_self]
        rfl
    simp only [hroom, if_false, hplain, Bool.false_eq_true]
    cases state with
    | relayed upstream =>
      simp only
      split
      · exact .inl rfl
      split
      · exact .inr (.inl rfl)
      rw [hatOnce]
      exact .inl rfl
    | pending => exact .inl rfl
    | bound methods =>
      simp only [ProviderSide.callable]
      split
      · exact .inr (.inr rfl)
      split
      · exact .inl rfl
      · exact .inr (.inl rfl)
    | binding previous =>
      simp only [ProviderSide.callable]
      cases previous with
      | none => exact .inl rfl
      | some methods =>
        simp only
        split
        · exact .inr (.inr rfl)
        split
        · exact .inl rfl
        · exact .inr (.inl rfl)

theorem holdIds_call : holdIds (.call id hold method args :: rest) = holdIds rest := rfl

theorem callIds_call : callIds (.call id hold method args :: rest) = id :: callIds rest := rfl

/-- A call ignored or refused. -/
theorem serves_refused (hadmits : Admits config p (.call id hold method args :: rest)) :
    Serves p (.call id hold method args :: rest) p rest := by
  refine serves_fewer (suffix_cons _ _) ⟨[.call id hold method args], rfl, ?_⟩ (.refl _) (.refl _)
    hadmits.placed
  simp only [expected_cons, expected_nil, expect]
  split
  · exact sublist_append_left _ _
  · exact List.Sublist.refl _

theorem serves_running (hadmits : Admits config p (.call id hold method args :: rest))
    (hpresent : hold ∈ keys p.holds) :
    Serves p (.call id hold method args :: rest) { p with calls := p.calls ++ [(id, hold)] } rest where
  later := suffix_cons _ _
  ids := by
    rw [pendingIds, pendingIds, callIds_call]
    simp
  holds := by
    rw [pendingHolds, pendingHolds, holdIds_call]
    exact .inl (List.Perm.refl _)
  placed := by
    intro call hcall
    rcases mem_append.mp hcall with hcall | hcall
    · exact hadmits.placed call hcall
    rw [mem_singleton] at hcall
    rw [hcall]
    exact hpresent
  fewer := by
    refine ⟨[.call id hold method args], rfl, ?_⟩
    simp [expected_cons, expect, knows, hpresent]

theorem Linked.ignored (hlinked : Linked config c p)
    (hplaced : ∀ entry ∈ c.calls, entry.2.hold ∈ keys c.entries)
    (houtbox : c.outbox = .call id hold method args :: rest)
    (hunknown : hold ∉ keys p.holds) : Linked config { c with outbox := rest } p := by
  have hadmits := hlinked.admits
  rw [houtbox] at hadmits
  have hserves : Serves p c.outbox p rest := by
    rw [houtbox]
    exact { serves_refused hadmits with }
  refine hlinked.serves hserves (fun call hcall => .inl hcall) (fun message hmem => hmem)
    (fun other hid => .inl hid) (fun other hmem => .inl hmem) ?_ ?_
  · intro other _ hpending
    rw [pendingHolds, houtbox, holdIds_call] at hpending
    exact .inl hpending
  intro other registered hregistered hpending
  rw [pendingIds, houtbox, callIds_call] at hpending
  by_cases hsame : other = id
  · subst hsame
    -- The hold was asked for before the call, so it is gone.
    have hon := hlinked.asked other hold method args (by rw [houtbox]; exact mem_cons_self)
      registered hregistered
    have hentry := hplaced _ hregistered
    rcases hlinked.entered _ hentry with hknown | hgone
    · rw [hon] at hknown
      rcases mem_append.mp hknown with hin | hin
      · exact absurd hin hunknown
      rw [houtbox, holdIds_call, mem_holdIds] at hin
      have hordered := hlinked.ordered
      rw [houtbox, pairwise_cons] at hordered
      exact absurd rfl (hordered.1 _ hin other hold method args rfl)
    · exact .inr (.inr hgone)
  left
  rcases mem_append.mp hpending with hin | hin
  · exact mem_append_left _ hin
  · exact mem_append_right _ ((mem_cons.mp hin).resolve_left hsame)

theorem Linked.refused (hlinked : Linked config c p)
    (houtbox : c.outbox = .call id hold method args :: rest) :
    Linked config { c with outbox := rest } (p.post (.error id)) := by
  have hadmits := hlinked.admits
  rw [houtbox] at hadmits
  have hserves : Serves p c.outbox (p.post (.error id)) rest := by
    rw [houtbox]
    exact { serves_refused hadmits with }
  have hnodup := hadmits.ids
  rw [callIds_call, nodup_append] at hnodup
  have hsent : replies (p.post (.error id)) id := .inr (mem_append_right _ mem_cons_self)
  have hnew : id ∉ pendingIds (p.post (.error id)) rest := by
    intro hin
    rcases mem_append.mp hin with hin | hin
    · exact hnodup.2.2 id hin id mem_cons_self rfl
    · exact (nodup_cons.mp hnodup.2.1).1 hin
  refine hlinked.serves hserves (fun call hcall => .inl hcall)
    (fun message hmem => mem_append_left _ hmem) ?_ ?_ ?_ ?_
  · intro other hother
    by_cases hsame : other = id
    · subst hsame
      refine .inr ⟨?_, hnew⟩
      rw [pendingIds, houtbox, callIds_call]
      exact mem_append_right _ mem_cons_self
    left
    rcases hother with hresult | herror
    · exact .inl ((mem_append.mp hresult).resolve_right (by simp))
    · exact .inr ((mem_append.mp herror).resolve_right (by simp [hsame]))
  · exact fun other hmem => .inl ((mem_append.mp hmem).resolve_right (by simp))
  · intro other _ hpending
    rw [pendingHolds, houtbox, holdIds_call] at hpending
    exact .inl hpending
  intro other registered _ hpending
  rw [pendingIds, houtbox, callIds_call] at hpending
  by_cases hsame : other = id
  · subst hsame
    exact .inr (.inl hsent)
  left
  rcases mem_append.mp hpending with hin | hin
  · exact mem_append_left _ hin
  · exact mem_append_right _ ((mem_cons.mp hin).resolve_left hsame)

theorem Linked.admitted (hlinked : Linked config c p)
    (houtbox : c.outbox = .call id hold method args :: rest)
    (hpresent : hold ∈ keys p.holds) :
    Linked config { c with outbox := rest } { p with calls := p.calls ++ [(id, hold)] } := by
  have hadmits := hlinked.admits
  rw [houtbox] at hadmits
  have hserves : Serves p c.outbox { p with calls := p.calls ++ [(id, hold)] } rest := by
    rw [houtbox]
    exact serves_running hadmits hpresent
  refine hlinked.serves hserves ?_ ?_ ?_ ?_ ?_ ?_
  · intro call hcall
    rcases mem_append.mp hcall with hcall | hcall
    · exact .inl hcall
    rw [mem_singleton] at hcall
    rw [hcall, houtbox]
    exact .inr ⟨method, args, mem_cons_self⟩
  · exact fun message hmem => hmem
  · exact fun other hid => .inl hid
  · exact fun other hmem => .inl hmem
  · intro other _ hpending
    rw [pendingHolds, houtbox, holdIds_call] at hpending
    exact .inl hpending
  intro other registered _ hpending
  rw [pendingIds, houtbox, callIds_call] at hpending
  left
  simpa [pendingIds] using hpending

end Hummin.Remote
