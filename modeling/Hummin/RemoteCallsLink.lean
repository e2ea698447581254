/-
Both ends of a link together: what the provider still counts once it has handled what is on
its way is registered at the consumer, so it never counts more than it announced; and what
is registered at the consumer is asked for, being handled, answered or gone.
-/
import Hummin.RemoteCallsWindow

namespace Hummin.Remote

open List PropertyList

variable {config : Config} {c : ConsumerSide} {p : ProviderSide} {known : Nat → Bool}
  {calls : List (Nat × Nat)} {messages : List ToProvider}

/-- The call a message asks for. -/
def ToProvider.asks : ToProvider → Option Nat
  | .call id _ _ _ => some id
  | _ => none

/-- The hold a message asks for. -/
def ToProvider.holds : ToProvider → Option Nat
  | .hold held => some held
  | _ => none

def callIds (messages : List ToProvider) : List Nat :=
  messages.filterMap ToProvider.asks

def holdIds (messages : List ToProvider) : List Nat :=
  messages.filterMap ToProvider.holds

/-- A hold the provider has, or will have once it handled the messages. -/
def knows (p : ProviderSide) (messages : List ToProvider) (hold : Nat) : Bool :=
  decide (hold ∈ PropertyList.keys p.holds) || decide (hold ∈ holdIds messages)

/-- What a message adds to the calls being handled, and takes from them, at most. -/
def expect (known : Nat → Bool) (calls : List (Nat × Nat)) : ToProvider → List (Nat × Nat)
  | .hold _ => calls
  | .release hold => calls.filter fun call => call.2 ≠ hold
  | .call id hold _ _ => if known hold then calls ++ [(id, hold)] else calls
  | .abort id => calls.filter fun call => call.1 ≠ id

def expected (known : Nat → Bool) (calls : List (Nat × Nat)) (messages : List ToProvider) :
    List (Nat × Nat) :=
  messages.foldl (expect known) calls

/-- The provider can take every message on its way. -/
structure Admits (config : Config) (p : ProviderSide) (messages : List ToProvider) : Prop where
  ids : (p.calls.map Prod.fst ++ callIds messages).Nodup
  holds : (PropertyList.keys p.holds ++ holdIds messages).Nodup
  placed : ∀ call ∈ p.calls, call.2 ∈ PropertyList.keys p.holds
  within : ∀ front, front <+: messages →
    (expected (knows p messages) p.calls front).length ≤ config.calls
  plain : config.parent = true → ∀ id hold method args, .call id hold method args ∈ messages →
    (args.any fun part => part.deflated) = false

/-- The provider answered a call. -/
def replies (p : ProviderSide) (id : Nat) : Prop :=
  .result id ∈ p.outbox ∨ .error id ∈ p.outbox

/-- What the two ends know of each other while both are open. -/
structure Linked (config : Config) (c : ConsumerSide) (p : ProviderSide) : Prop where
  admits : Admits config p c.outbox
  idsLow : ∀ id ∈ p.calls.map Prod.fst ++ callIds c.outbox, id < c.nextCall
  holdsLow : ∀ hold ∈ PropertyList.keys p.holds ++ holdIds c.outbox, hold < c.nextHold
  asksLow : ∀ id hold method args, .call id hold method args ∈ c.outbox → hold < c.nextHold
  /-- What the provider will still count is registered. -/
  live : ∀ call ∈ expected (knows p c.outbox) p.calls c.outbox,
    ∃ registered, (call.1, registered) ∈ c.calls ∧ registered.hold = call.2
  replied : ∀ id, replies p id → id < c.nextCall ∧ id ∉ p.calls.map Prod.fst ++ callIds c.outbox
  lost : ∀ hold, .gone hold ∈ p.outbox →
    hold < c.nextHold ∧ hold ∉ PropertyList.keys p.holds ++ holdIds c.outbox
  entered : ∀ hold ∈ PropertyList.keys c.entries,
    hold ∈ PropertyList.keys p.holds ++ holdIds c.outbox ∨ .gone hold ∈ p.outbox
  released : ∀ hold, .release hold ∈ c.outbox →
    hold < c.nextHold ∧ hold ∉ PropertyList.keys c.entries
  aborted : ∀ id, .abort id ∈ c.outbox → id < c.nextCall ∧ id ∉ c.calls.map Prod.fst
  running : ∀ call ∈ p.calls, ∀ registered, (call.1, registered) ∈ c.calls → registered.hold = call.2
  asked : ∀ id hold method args, .call id hold method args ∈ c.outbox →
    ∀ registered, (id, registered) ∈ c.calls → registered.hold = hold
  /-- What is registered is asked for, being handled, answered or gone. -/
  answered : ∀ id registered, (id, registered) ∈ c.calls →
    id ∈ p.calls.map Prod.fst ++ callIds c.outbox ∨ replies p id ∨ .gone registered.hold ∈ p.outbox
  /-- A hold is asked for before any call on it. -/
  ordered : c.outbox.Pairwise fun first second =>
    ∀ id hold method args, first = .call id hold method args → second ≠ .hold hold

/-! ### What is expected of messages -/

@[simp]
theorem expected_nil : expected known calls [] = calls := rfl

theorem expected_cons (message : ToProvider) :
    expected known calls (message :: messages) = expected known (expect known calls message) messages := rfl

variable (more : List ToProvider)

theorem expected_append :
    expected known calls (messages ++ more) = expected known (expected known calls messages) more := by
  simp [expected]

theorem callIds_append : callIds (messages ++ more) = callIds messages ++ callIds more := by
  simp [callIds]

theorem holdIds_append : holdIds (messages ++ more) = holdIds messages ++ holdIds more := by
  simp [holdIds]

variable {id : Nat}

theorem mem_callIds :
    id ∈ callIds messages ↔ ∃ hold method args, .call id hold method args ∈ messages := by
  rw [callIds, mem_filterMap]
  constructor
  · rintro ⟨message, hmem, hasks⟩
    cases message with
    | call other hold method args =>
      cases hasks
      exact ⟨hold, method, args, hmem⟩
    | _ => cases hasks
  rintro ⟨hold, method, args, hmem⟩
  exact ⟨_, hmem, rfl⟩

theorem mem_holdIds {hold : Nat} : hold ∈ holdIds messages ↔ .hold hold ∈ messages := by
  rw [holdIds, mem_filterMap]
  constructor
  · rintro ⟨message, hmem, hholds⟩
    cases message with
    | hold other =>
      cases hholds
      exact hmem
    | _ => cases hholds
  · exact fun hmem => ⟨_, hmem, rfl⟩

variable {other : Nat → Bool}

/-- Fewer calls and fewer holds leave fewer calls. -/
theorem expected_sublist {fewer : List (Nat × Nat)}
    (hknown : ∀ hold, other hold = true → known hold = true) (hfewer : fewer.Sublist calls) :
    (expected other fewer messages).Sublist (expected known calls messages) := by
  induction messages generalizing fewer calls with
  | nil => exact hfewer
  | cons message rest ih =>
    rw [expected_cons, expected_cons]
    apply ih
    cases message with
    | hold hold => exact hfewer
    | call id hold method args =>
      simp only [expect]
      by_cases hother : other hold = true
      · rw [if_pos hother, if_pos (hknown hold hother)]
        exact hfewer.append_right _
      rw [if_neg hother]
      split
      · exact hfewer.trans (sublist_append_left _ _)
      · exact hfewer
    | _ => exact hfewer.filter _

theorem expected_congr
    (hsame : ∀ id hold method args, .call id hold method args ∈ messages → other hold = known hold) :
    expected other calls messages = expected known calls messages := by
  induction messages generalizing calls with
  | nil => rfl
  | cons message rest ih =>
    have hhead : expect other calls message = expect known calls message := by
      cases message with
      | call id hold method args =>
        simp only [expect]
        rw [hsame id hold method args mem_cons_self]
      | _ => rfl
    rw [expected_cons, expected_cons, hhead]
    apply ih
    exact fun id hold method args hmem => hsame id hold method args (mem_cons_of_mem _ hmem)

theorem expected_ids :
    ((expected known calls messages).map Prod.fst).Sublist (calls.map Prod.fst ++ callIds messages) := by
  induction messages generalizing calls with
  | nil => simp [callIds]
  | cons message rest ih =>
    rw [expected_cons]
    refine ih.trans ?_
    cases message with
    | hold hold => simp [expect, callIds, ToProvider.asks, filterMap_cons]
    | call id hold method args =>
      simp only [expect, callIds, ToProvider.asks, filterMap_cons]
      split
      · simp
      · exact List.Sublist.append_left (sublist_cons_self _ _) _
    | _ =>
      exact (filter_sublist.map Prod.fst).append_right _

/-- Only calls on known holds are counted. -/
theorem known_of_expected (hcalls : ∀ call ∈ calls, known call.2 = true) {call : Nat × Nat}
    (hmem : call ∈ expected known calls messages) : known call.2 = true := by
  induction messages generalizing calls with
  | nil => exact hcalls call hmem
  | cons message rest ih =>
    rw [expected_cons] at hmem
    refine ih ?_ hmem
    intro other hother
    cases message with
    | hold hold => exact hcalls other hother
    | call id hold method args =>
      simp only [expect] at hother
      split at hother
      next hknown =>
        rcases mem_append.mp hother with hother | hother
        · exact hcalls other hother
        rw [mem_singleton] at hother
        rw [hother]
        exact hknown
      · exact hcalls other hother
    | _ => exact hcalls other (mem_of_mem_filter hother)

/-! ### The consumer's moves -/

theorem knows_append {more : List ToProvider} (hmore : ∀ message ∈ more, message.holds = none) :
    knows p (messages ++ more) = knows p messages := by
  have hnone : holdIds more = [] := by
    rw [holdIds, filterMap_eq_nil_iff]
    exact hmore
  funext hold
  simp [knows, holdIds_append, hnone]

theorem expected_filters {more : List ToProvider} (hmore : ∀ message ∈ more, message.asks = none) :
    (expected known calls more).Sublist calls := by
  induction more generalizing calls with
  | nil => exact List.Sublist.refl calls
  | cons message rest ih =>
    rw [expected_cons]
    refine (ih fun other hother => hmore other (mem_cons_of_mem _ hother)).trans ?_
    have hasks := hmore message mem_cons_self
    cases message with
    | call id hold method args => cases hasks
    | hold hold => exact List.Sublist.refl _
    | _ => exact filter_sublist

/-- Calls given up, with the messages that say so. -/
theorem Linked.shrink {c' : ConsumerSide} {posted : List ToProvider} (hlinked : Linked config c p)
    (hposted : ∀ message ∈ posted, message.asks = none ∧ message.holds = none)
    (houtbox : c'.outbox = c.outbox ++ posted) (hcalls : ∀ entry ∈ c'.calls, entry ∈ c.calls)
    (hentries : ∀ hold ∈ keys c'.entries, hold ∈ keys c.entries)
    (hcall : c'.nextCall = c.nextCall) (hhold : c'.nextHold = c.nextHold)
    (hlive : ∀ call ∈ expected (knows p c.outbox) p.calls (c.outbox ++ posted),
      ∀ registered, (call.1, registered) ∈ c.calls → registered.hold = call.2 →
        (call.1, registered) ∈ c'.calls) (hreleased : ∀ hold, .release hold ∈ posted →
      hold < c.nextHold ∧ hold ∉ keys c'.entries)
    (haborted : ∀ id, .abort id ∈ posted → id < c.nextCall ∧ id ∉ c'.calls.map Prod.fst) :
    Linked config c' p := by
  have hasks : callIds (c.outbox ++ posted) = callIds c.outbox := by
    have hnone : callIds posted = [] := by
      rw [callIds, filterMap_eq_nil_iff]
      exact fun message hmem => (hposted message hmem).1
    rw [callIds_append, hnone, append_nil]
  have hholds : holdIds (c.outbox ++ posted) = holdIds c.outbox := by
    have hnone : holdIds posted = [] := by
      rw [holdIds, filterMap_eq_nil_iff]
      exact fun message hmem => (hposted message hmem).2
    rw [holdIds_append, hnone, append_nil]
  have hknows : knows p (c.outbox ++ posted) = knows p c.outbox :=
    knows_append fun message hmem => (hposted message hmem).2
  have hearlier : ∀ {id hold method args}, .call id hold method args ∈ c.outbox ++ posted →
      .call id hold method args ∈ c.outbox := by
    intro id hold method args hmem
    rcases mem_append.mp hmem with hmem | hmem
    · exact hmem
    · exact absurd (hposted _ hmem).1 (by simp [ToProvider.asks])
  have hwithin : ∀ front, front <+: c.outbox ++ posted →
      (expected (knows p c.outbox) p.calls front).length ≤ config.calls := by
    intro front hfront
    rcases prefix_or_prefix_of_prefix hfront (prefix_append c.outbox posted) with
      hshort | ⟨part, rfl⟩
    · exact hlinked.admits.within front hshort
    rw [expected_append]
    have hpart : part <+: posted := (prefix_append_right_inj c.outbox).mp hfront
    have hfilters : (expected (knows p c.outbox) (expected (knows p c.outbox) p.calls c.outbox)
        part).Sublist _ := expected_filters fun message hmem => (hposted message (hpart.subset hmem)).1
    exact le_trans hfilters.length_le (hlinked.admits.within c.outbox (prefix_refl _))
  obtain ⟨admits, idsLow, holdsLow, asksLow, live, replied, lost, entered, released, aborted, running,
    asked, answered, ordered⟩ := hlinked
  refine ⟨⟨?_, ?_, admits.placed, ?_, ?_⟩, ?_, ?_, ?_, ?_, ?_, ?_, ?_, ?_, ?_, ?_, ?_, ?_, ?_⟩
  · rw [houtbox, hasks]
    exact admits.ids
  · rw [houtbox, hholds]
    exact admits.holds
  · rw [houtbox, hknows]
    exact hwithin
  · intro hparent id hold method args hmem
    rw [houtbox] at hmem
    exact admits.plain hparent id hold method args (hearlier hmem)
  · rw [houtbox, hasks, hcall]
    exact idsLow
  · rw [houtbox, hholds, hhold]
    exact holdsLow
  · intro id other method args hmem
    rw [houtbox] at hmem
    rw [hhold]
    exact asksLow id other method args (hearlier hmem)
  · intro call hmem
    rw [houtbox, hknows] at hmem
    have hbefore : call ∈ expected (knows p c.outbox) p.calls c.outbox := by
      rw [expected_append] at hmem
      exact (expected_filters fun message hmem => (hposted message hmem).1).subset hmem
    obtain ⟨registered, hregistered, hsame⟩ := live call hbefore
    exact ⟨registered, hlive call hmem registered hregistered hsame, hsame⟩
  · rw [houtbox, hasks, hcall]
    exact replied
  · rw [houtbox, hholds, hhold]
    exact lost
  · intro other hmem
    rw [houtbox, hholds]
    exact entered other (hentries other hmem)
  · intro other hmem
    rw [houtbox] at hmem
    rw [hhold]
    rcases mem_append.mp hmem with hmem | hmem
    · obtain ⟨hlow, hout⟩ := released other hmem
      exact ⟨hlow, fun hin => hout (hentries other hin)⟩
    · exact hreleased other hmem
  · intro id hmem
    rw [houtbox] at hmem
    rw [hcall]
    rcases mem_append.mp hmem with hmem | hmem
    · obtain ⟨hlow, hout⟩ := aborted id hmem
      refine ⟨hlow, fun hin => hout ?_⟩
      obtain ⟨entry, hentry, rfl⟩ := mem_map.mp hin
      exact mem_map_of_mem (hcalls entry hentry)
    · exact haborted id hmem
  · exact fun call hmem registered hin => running call hmem registered (hcalls _ hin)
  · intro id other method args hmem registered hin
    rw [houtbox] at hmem
    exact asked id other method args (hearlier hmem) registered (hcalls _ hin)
  · intro id registered hin
    rw [houtbox, hasks]
    exact answered id registered (hcalls _ hin)
  rw [houtbox]
  apply pairwise_append.mpr
  refine ⟨ordered, ?_, ?_⟩
  · apply pairwise_of_forall_mem_list
    intro first _ second hsecond id other method args _ heq
    have hnone := (hposted second hsecond).2
    rw [heq] at hnone
    cases hnone
  intro first _ second hsecond id other method args _ heq
  have hnone := (hposted second hsecond).2
  rw [heq] at hnone
  cases hnone

theorem length_expected_le (hlinked : Linked config c p) :
    (expected (knows p c.outbox) p.calls c.outbox).length ≤ c.calls.length := by
  have hnodup : ((expected (knows p c.outbox) p.calls c.outbox).map Prod.fst).Nodup :=
    hlinked.admits.ids.sublist expected_ids
  have hsubset : (expected (knows p c.outbox) p.calls c.outbox).map Prod.fst ⊆
      c.calls.map Prod.fst := by
    intro id hid
    obtain ⟨call, hcall, rfl⟩ := mem_map.mp hid
    obtain ⟨registered, hregistered, -⟩ := hlinked.live call hcall
    exact mem_map.mpr ⟨_, hregistered, rfl⟩
  have hlength := (hnodup.subperm hsubset).length_le
  simpa using hlength

/-- A call that got its slot. -/
theorem Linked.send {call : OutgoingCall} (hlinked : Linked config c p)
    (hnumbered : ∀ entry ∈ c.calls, entry.1 < c.nextCall) (hroom : c.calls.length < config.calls)
    (hplaced : call.hold < c.nextHold)
    (hplain : config.parent = true → (call.args.any fun part => part.deflated) = false) :
    Linked config (c.send call) p := by
  have hknows : knows p (c.outbox ++ [ToProvider.call c.nextCall call.hold call.method call.args]) =
      knows p c.outbox := knows_append (by simp [ToProvider.holds])
  have hasks : callIds (c.outbox ++ [ToProvider.call c.nextCall call.hold call.method call.args]) =
      callIds c.outbox ++ [c.nextCall] := by
    rw [callIds_append]
    rfl
  have hholds : holdIds (c.outbox ++ [ToProvider.call c.nextCall call.hold call.method call.args]) =
      holdIds c.outbox := by
    rw [holdIds_append]
    exact append_nil _
  have hids : ∀ {id}, id ∈ p.calls.map Prod.fst ++ (callIds c.outbox ++ [c.nextCall]) ↔
      id ∈ p.calls.map Prod.fst ++ callIds c.outbox ∨ id = c.nextCall := by
    intro id
    rw [← append_assoc, mem_append, mem_singleton]
  have hcount := length_expected_le hlinked
  obtain ⟨admits, idsLow, holdsLow, asksLow, live, replied, lost, entered, released, aborted, running,
    asked, answered, ordered⟩ := hlinked
  refine ⟨⟨?_, ?_, admits.placed, ?_, ?_⟩, ?_, ?_, ?_, ?_, ?_, ?_, ?_, ?_, ?_, ?_, ?_, ?_, ?_⟩
  all_goals simp only [ConsumerSide.send, hknows, hasks, hholds]
  · rw [← append_assoc]
    apply nodup_append.mpr
    refine ⟨admits.ids, nodup_singleton _, ?_⟩
    intro id hid other hother
    rw [mem_singleton] at hother
    have hlow := idsLow id hid
    omega
  · exact admits.holds
  · intro front hfront
    rcases prefix_concat_iff.mp hfront with rfl | hfront
    · rw [expected_append]
      simp only [expected_cons, expected_nil, expect]
      split
      · rw [length_append, length_singleton]
        omega
      · omega
    · exact admits.within front hfront
  · intro hparent id hold method args hmem
    rcases mem_append.mp hmem with hmem | hmem
    · exact admits.plain hparent id hold method args hmem
    rw [mem_singleton] at hmem
    cases hmem
    exact hplain hparent
  · intro id hid
    rcases hids.mp hid with hid | rfl
    · exact Nat.lt_succ_of_lt (idsLow id hid)
    · exact Nat.lt_succ_self _
  · exact holdsLow
  · intro id hold method args hmem
    rcases mem_append.mp hmem with hmem | hmem
    · exact asksLow id hold method args hmem
    rw [mem_singleton] at hmem
    cases hmem
    exact hplaced
  · intro counted hmem
    rw [expected_append] at hmem
    simp only [expected_cons, expected_nil, expect] at hmem
    have hcases : counted ∈ expected (knows p c.outbox) p.calls c.outbox ∨
        counted = (c.nextCall, call.hold) := by
      split at hmem
      · simpa using hmem
      · exact .inl hmem
    rcases hcases with hold | rfl
    · obtain ⟨registered, hregistered, hsame⟩ := live counted hold
      exact ⟨registered, mem_append_left _ hregistered, hsame⟩
    · exact ⟨call, mem_append_right _ (mem_singleton.mpr rfl), rfl⟩
  · intro id hreply
    obtain ⟨hlow, hout⟩ := replied id hreply
    refine ⟨Nat.lt_succ_of_lt hlow, fun hin => ?_⟩
    rcases hids.mp hin with hin | rfl
    · exact hout hin
    · exact lt_irrefl _ hlow
  · exact lost
  · exact entered
  · exact fun hold hmem => released hold (by simpa using hmem)
  · intro id hmem
    have hmem : .abort id ∈ c.outbox := by simpa using hmem
    obtain ⟨hlow, hout⟩ := aborted id hmem
    refine ⟨Nat.lt_succ_of_lt hlow, ?_⟩
    rw [map_append, mem_append, not_or]
    refine ⟨hout, ?_⟩
    simp only [map_cons, map_nil, mem_singleton]
    exact ne_of_lt hlow
  · intro counted hcounted registered hin
    rcases mem_append.mp hin with hin | hin
    · exact running counted hcounted registered hin
    rw [mem_singleton] at hin
    have hlow := idsLow counted.1 (mem_append_left _ (mem_map_of_mem hcounted))
    rw [(Prod.mk.inj hin).1] at hlow
    exact absurd hlow (lt_irrefl _)
  · intro id hold method args hmem registered hin
    rcases mem_append.mp hmem with hmem | hmem
    · rcases mem_append.mp hin with hin | hin
      · exact asked id hold method args hmem registered hin
      rw [mem_singleton] at hin
      have hlow := idsLow id (mem_append_right _ (mem_callIds.mpr ⟨hold, method, args, hmem⟩))
      rw [(Prod.mk.inj hin).1] at hlow
      exact absurd hlow (lt_irrefl _)
    rw [mem_singleton] at hmem
    cases hmem
    rcases mem_append.mp hin with hin | hin
    · exact absurd (hnumbered _ hin) (lt_irrefl _)
    rw [mem_singleton] at hin
    rw [(Prod.mk.inj hin).2]
  · intro id registered hin
    rcases mem_append.mp hin with hin | hin
    · rcases answered id registered hin with hasked | hrest
      · exact .inl (hids.mpr (.inl hasked))
      · exact .inr hrest
    rw [mem_singleton] at hin
    exact .inl (hids.mpr (.inr (Prod.mk.inj hin).1))
  · apply pairwise_append.mpr
    refine ⟨ordered, pairwise_singleton _ _, ?_⟩
    intro first _ second hsecond id hold method args _ heq
    rw [mem_singleton] at hsecond
    rw [hsecond] at heq
    cases heq

section

variable (hlinked : Linked config c p)

include hlinked

/-- Fields of the consumer side that only it reads. -/
theorem Linked.congr {c' : ConsumerSide} (houtbox : c'.outbox = c.outbox)
    (hcalls : c'.calls = c.calls) (hentries : keys c'.entries = keys c.entries)
    (hcall : c'.nextCall = c.nextCall) (hhold : c'.nextHold = c.nextHold) : Linked config c' p := by
  obtain ⟨admits, idsLow, holdsLow, asksLow, live, replied, lost, entered, released, aborted, running,
    asked, answered, ordered⟩ := hlinked
  refine ⟨?_, ?_, ?_, ?_, ?_, ?_, ?_, ?_, ?_, ?_, ?_, ?_, ?_, ?_⟩ <;>
    simp only [houtbox, hcalls, hentries, hcall, hhold] <;> assumption

theorem Linked.drainFrom {taken : List Nat} {queue : List OutgoingCall} (hopen : c.isOpen = true)
    (hloose : ConsumerSide.Loose config taken { c with waiting := queue })
    (hannounced : c.limit ≤ config.calls)
    (hplaced : ∀ call ∈ queue, call.hold < c.nextHold) : Linked config (c.drainFrom queue) p := by
  induction queue generalizing c with
  | nil => exact hlinked.congr rfl rfl rfl rfl rfl
  | cons call rest ih =>
    rw [ConsumerSide.drainFrom]
    split
    · exact hlinked.congr rfl rfl rfl rfl rfl
    rename_i hroom
    have hcount : c.inFlight = c.calls.length := hloose.counted hopen
    have hcounted : Linked config { c with inFlight := c.inFlight + 1 } p :=
      hlinked.congr rfl rfl rfl rfl rfl
    have hsent := @Linked.send config { c with inFlight := c.inFlight + 1 } p call hcounted
      hloose.numbered (by simp only; omega) (hplaced call mem_cons_self)
      fun hparent => hloose.plain hparent call mem_cons_self
    apply ih hsent hopen (hloose.sendNext (Nat.lt_of_not_le hroom)) hannounced
    exact fun other hother => hplaced other (mem_cons_of_mem call hother)

theorem Linked.attach : Linked config c.attach p := by
  have hasks : callIds (c.outbox ++ [ToProvider.hold c.nextHold]) = callIds c.outbox := by
    rw [callIds_append]
    exact append_nil _
  have hholds : holdIds (c.outbox ++ [ToProvider.hold c.nextHold]) = holdIds c.outbox ++ [c.nextHold] := by
    rw [holdIds_append]
    rfl
  have hids : ∀ {hold}, hold ∈ PropertyList.keys p.holds ++ (holdIds c.outbox ++ [c.nextHold]) ↔
      hold ∈ PropertyList.keys p.holds ++ holdIds c.outbox ∨ hold = c.nextHold := by
    intro hold
    rw [← append_assoc, mem_append, mem_singleton]
  have hexpected : ∀ front, front <+: c.outbox →
      expected (knows p (c.outbox ++ [ToProvider.hold c.nextHold])) p.calls front =
        expected (knows p c.outbox) p.calls front := by
    intro front hfront
    apply expected_congr
    intro id hold method args hmem
    have hlow := hlinked.asksLow id hold method args (hfront.subset hmem)
    simp [knows, hholds, ne_of_lt hlow]
  have hwhole : expected (knows p (c.outbox ++ [ToProvider.hold c.nextHold])) p.calls
      (c.outbox ++ [ToProvider.hold c.nextHold]) = expected (knows p c.outbox) p.calls c.outbox := by
    rw [expected_append, hexpected c.outbox (prefix_refl _)]
    rfl
  have hkeys : PropertyList.keys (c.entries ++ [(c.nextHold, none)]) =
      PropertyList.keys c.entries ++ [c.nextHold] := by
    simp [PropertyList.keys]
  obtain ⟨admits, idsLow, holdsLow, asksLow, live, replied, lost, entered, released, aborted, running,
    asked, answered, ordered⟩ := hlinked
  refine ⟨⟨?_, ?_, admits.placed, ?_, ?_⟩, ?_, ?_, ?_, ?_, ?_, ?_, ?_, ?_, ?_, running, ?_, ?_, ?_⟩
  all_goals simp only [ConsumerSide.attach, ConsumerSide.post, hasks, hholds]
  · exact admits.ids
  · rw [← append_assoc]
    apply nodup_append.mpr
    refine ⟨admits.holds, nodup_singleton _, ?_⟩
    intro hold hmem other hother
    rw [mem_singleton] at hother
    have hlow := holdsLow hold hmem
    omega
  · intro front hfront
    rcases prefix_concat_iff.mp hfront with rfl | hfront
    · rw [hwhole]
      exact admits.within c.outbox (prefix_refl _)
    rw [hexpected front hfront]
    exact admits.within front hfront
  · intro hparent id hold method args hmem
    exact admits.plain hparent id hold method args (by simpa using hmem)
  · exact idsLow
  · intro hold hmem
    rcases hids.mp hmem with hmem | rfl
    · exact Nat.lt_succ_of_lt (holdsLow hold hmem)
    · exact Nat.lt_succ_self _
  · intro id hold method args hmem
    exact Nat.lt_succ_of_lt (asksLow id hold method args (by simpa using hmem))
  · rw [hwhole]
    exact live
  · exact replied
  · intro hold hgone
    obtain ⟨hlow, hout⟩ := lost hold hgone
    refine ⟨Nat.lt_succ_of_lt hlow, fun hin => ?_⟩
    rcases hids.mp hin with hin | rfl
    · exact hout hin
    · exact lt_irrefl _ hlow
  · intro hold hmem
    rw [hkeys] at hmem
    rcases mem_append.mp hmem with hmem | hmem
    · rcases entered hold hmem with hin | hgone
      · exact .inl (hids.mpr (.inl hin))
      · exact .inr hgone
    rw [mem_singleton] at hmem
    exact .inl (hids.mpr (.inr hmem))
  · intro hold hmem
    obtain ⟨hlow, hout⟩ := released hold (by simpa using hmem)
    refine ⟨Nat.lt_succ_of_lt hlow, ?_⟩
    rw [hkeys, mem_append, mem_singleton, not_or]
    exact ⟨hout, ne_of_lt hlow⟩
  · exact fun id hmem => aborted id (by simpa using hmem)
  · exact fun id hold method args hmem => asked id hold method args (by simpa using hmem)
  · exact answered
  apply pairwise_append.mpr
  refine ⟨ordered, pairwise_singleton _ _, ?_⟩
  intro first hfirst second hsecond id hold method args hcall heq
  rw [mem_singleton] at hsecond
  rw [hsecond] at heq
  cases heq
  rw [hcall] at hfirst
  exact lt_irrefl _ (asksLow id _ method args hfirst)

/-- The provider's oldest message arrived. -/
theorem Linked.pop {message : ToConsumer} {rest : List ToConsumer}
    (houtbox : p.outbox = message :: rest)
    (hreply : ∀ id, message = .result id ∨ message = .error id → id ∉ c.calls.map Prod.fst)
    (hgone : ∀ hold, message = .gone hold → hold ∉ keys c.entries ∧
      ∀ entry ∈ c.calls, entry.2.hold ≠ hold) :
    Linked config c { p with outbox := rest } := by
  have hmem : ∀ {other}, other ∈ rest → other ∈ p.outbox := by
    intro other hother
    rw [houtbox]
    exact mem_cons_of_mem message hother
  have hlater : ∀ {other}, other ∈ p.outbox → other ≠ message → other ∈ rest := by
    intro other hother hne
    rw [houtbox] at hother
    exact (mem_cons.mp hother).resolve_left hne
  obtain ⟨admits, idsLow, holdsLow, asksLow, live, replied, lost, entered, released, aborted, running,
    asked, answered, ordered⟩ := hlinked
  refine ⟨⟨admits.ids, admits.holds, admits.placed, admits.within, admits.plain⟩, idsLow, holdsLow,
    asksLow, live, ?_, ?_, ?_, released, aborted, running, asked, ?_, ordered⟩
  · intro id hreplies
    exact replied id (hreplies.imp hmem hmem)
  · exact fun hold hin => lost hold (hmem hin)
  · intro hold hin
    rcases entered hold hin with hknown | hlost
    · exact .inl hknown
    refine .inr (hlater hlost ?_)
    intro heq
    exact (hgone hold heq.symm).1 hin
  intro id registered hin
  rcases answered id registered hin with hasked | hreplies | hlost
  · exact .inl hasked
  · refine .inr (.inl ?_)
    have hnot : ∀ heq : message = .result id ∨ message = .error id, False := fun heq =>
      hreply id heq (mem_map.mpr ⟨_, hin, rfl⟩)
    rcases hreplies with hresult | herror
    · exact .inl (hlater hresult fun heq => hnot (.inl heq.symm))
    · exact .inr (hlater herror fun heq => hnot (.inr heq.symm))
  refine .inr (.inr (hlater hlost ?_))
  intro heq
  exact (hgone _ heq.symm).2 _ hin rfl

theorem Linked.removingReply {id : Nat} (hreplies : replies p id) :
    Linked config (c.removing (ConsumerSide.isCall id)) p := by
  refine @Linked.shrink config c p _ [] hlinked (by simp) (by simp [ConsumerSide.removing]) ?_ ?_ rfl rfl ?_
    (by simp) (by simp)
  · exact fun entry hentry => mem_of_mem_filter hentry
  · exact fun hold hmem => hmem
  intro call hcall registered hregistered _
  rw [append_nil] at hcall
  have hid := expected_ids.subset (mem_map_of_mem hcall)
  have hout := (hlinked.replied id hreplies).2
  refine mem_filter.mpr ⟨hregistered, ?_⟩
  have hne : call.1 ≠ id := fun heq => hout (heq ▸ hid)
  simpa [ConsumerSide.isCall] using hne

end

theorem not_mem_removing : id ∉ (c.removing (ConsumerSide.isCall id)).calls.map Prod.fst := by
  intro hmem
  obtain ⟨entry, hentry, heq⟩ := mem_map.mp hmem
  have hkept := (mem_filter.mp hentry).2
  simp [ConsumerSide.isCall, heq] at hkept

theorem Linked.removingAbort (hlinked : Linked config c p) (hlow : id < c.nextCall) :
    Linked config ((c.post (.abort id)).removing (ConsumerSide.isCall id)) p := by
  refine @Linked.shrink config c p _ [.abort id] hlinked (by simp [ToProvider.asks, ToProvider.holds]) rfl ?_ ?_
    rfl rfl ?_ (by simp) ?_
  · exact fun entry hentry => mem_of_mem_filter hentry
  · exact fun hold hmem => hmem
  · intro call hcall registered hregistered _
    rw [expected_append] at hcall
    have hne := (mem_filter.mp hcall).2
    refine mem_filter.mpr ⟨hregistered, ?_⟩
    simpa [ConsumerSide.isCall] using hne
  intro other hother
  simp only [mem_singleton, ToProvider.abort.injEq] at hother
  subst hother
  exact ⟨hlow, @not_mem_removing (c.post (.abort other)) other⟩

/-- The tables without a hold and its calls. -/
def ConsumerSide.forgotten (c : ConsumerSide) (hold : Nat) : ConsumerSide :=
  ({ c with entries := PropertyList.erase hold c.entries }.unqueued hold).removing
    (ConsumerSide.isOn hold)

theorem not_mem_keys_erase {V : Type} {hold : Nat} {entries : List (Nat × V)} :
    hold ∉ keys (erase hold entries) := by
  rw [← get_isSome_iff, get_erase, if_pos rfl]
  simp

theorem mem_keys_of_erase {V : Type} {hold other : Nat} {entries : List (Nat × V)}
    (hmem : other ∈ keys (erase hold entries)) : other ∈ keys entries :=
  (List.Sublist.map Prod.fst filter_sublist).subset hmem

variable {hold : Nat}

theorem Linked.forgottenGone (hlinked : Linked config c p)
    (hgone : .gone hold ∈ p.outbox) : Linked config (c.forgotten hold) p := by
  refine @Linked.shrink config c p _ [] hlinked (by simp)
    (by simp [ConsumerSide.forgotten, ConsumerSide.removing, ConsumerSide.unqueued]) ?_ ?_ rfl rfl ?_
    (by simp) (by simp)
  · exact fun entry hentry => mem_of_mem_filter hentry
  · exact fun other hmem => mem_keys_of_erase hmem
  intro call hcall registered hregistered hsame
  rw [append_nil] at hcall
  have hknown : knows p c.outbox call.2 = true := by
    refine known_of_expected ?_ hcall
    intro other hother
    simp [knows, hlinked.admits.placed other hother]
  have hout := (hlinked.lost hold hgone).2
  have hne : call.2 ≠ hold := by
    intro heq
    apply hout
    rw [heq] at hknown
    simpa [knows] using hknown
  refine mem_filter.mpr ⟨hregistered, ?_⟩
  simpa [ConsumerSide.isOn, hsame] using hne

theorem Linked.forgottenReleased (hlinked : Linked config c p)
    (hlow : hold < c.nextHold) : Linked config ((c.post (.release hold)).forgotten hold) p := by
  refine @Linked.shrink config c p _ [.release hold] hlinked (by simp [ToProvider.asks, ToProvider.holds]) rfl
    ?_ ?_ rfl rfl ?_ ?_ (by simp)
  · exact fun entry hentry => mem_of_mem_filter hentry
  · exact fun other hmem => mem_keys_of_erase hmem
  · intro call hcall registered hregistered hsame
    rw [expected_append] at hcall
    have hne := (mem_filter.mp hcall).2
    refine mem_filter.mpr ⟨hregistered, ?_⟩
    simpa [ConsumerSide.isOn, hsame] using hne
  intro other hother
  simp only [mem_singleton, ToProvider.release.injEq] at hother
  subst hother
  exact ⟨hlow, not_mem_keys_erase⟩

end Hummin.Remote
