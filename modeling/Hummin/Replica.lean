/-
A derived member of a hold and its replica on the other end of an in-order link: the provider
sends a snapshot and then the encoded operations of each batch, or that the member failed; the
consumer decodes and applies what arrives.
-/
import Hummin.DeltaSame
import Hummin.DeltaWireRoundTrip
import Hummin.Machine

namespace Hummin.Replica

open List Delta JsonTree

variable {ι : Type} [DecidableEq ι]

/-- What a member is sent: the snapshot of a binding, the wire operations of one batch, or its
failure. A failed member has no value. -/
inductive Part
  | snapshot (value : Option JsonValue)
  | ops (wire : List JsonValue)
  | failed

/-- The member's value and encoder, the parts in flight, and the replica with its decoder. -/
structure State (ι : Type) where
  value : Option (JsonTree ι)
  encoder : Encoder
  sent : List Part
  decoder : Decoder
  replica : Option JsonValue

/-- A batch that changes the member or fails it while the window has a slot, a binding, or an
arrival. -/
inductive Input (ι : Type)
  | commit (after : JsonTree ι)
  | fail
  | bind
  | receive

/-- The operations of a batch; a member recovers from a failure with a root replacement. -/
def changes (before : Option (JsonTree ι)) (after : JsonTree ι) : Option (List (Op ι)) :=
  match before with
  | some before => diffRevisions before after
  | none => some [.r after]

/-- `entry`: a batch without operations has no entry of the member. -/
def entry (state : State ι) (after : JsonTree ι) : Option (State ι) :=
  (changes state.value after).map fun ops =>
    if ops.isEmpty then { state with value := some after }
    else
      let encoded := state.encoder.encode (ops.map Op.erase)
      { state with
        value := some after
        encoder := encoded.1
        sent := state.sent ++ [.ops encoded.2] }

/-- `boundEntry`: the snapshot, and an encoder that starts anew with it. -/
def boundEntry (state : State ι) : State ι :=
  { state with encoder, sent := state.sent ++ [.snapshot (state.value.map JsonTree.erase)] }

/-- The value that decoded operations make, `none` when they throw. -/
def applied (replica : Option JsonValue) (ops : List (Op Unit)) : Option JsonValue :=
  match replica with
  | some value => (applyImmutable value ops).toOption
  | none => if isBase ops then (applyImmutable .null ops).toOption else none

/-- `reset` for a snapshot, `fail` for a failure; `decode` and `adopt` for operations. -/
def take (decoder : Decoder) (replica : Option JsonValue) :
    Part → Option (Decoder × Option JsonValue)
  | .snapshot value => some (Delta.decoder, value)
  | .failed => some (decoder, none)
  | .ops wire =>
    match decoder.decode wire with
    | .error _ => none
    | .ok (next, ops) => (applied replica ops).map fun value => (next, some value)

def step (state : State ι) : Input ι → Option (State ι)
  | .commit after => entry state after
  | .fail => some { state with value := none, sent := state.sent ++ [.failed] }
  | .bind => some (boundEntry state)
  | .receive =>
    match state.sent with
    | [] => none
    | part :: rest => (take state.decoder state.replica part).map fun taken =>
      { state with sent := rest, decoder := taken.1, replica := taken.2 }

/-- A bound member whose snapshot has arrived. -/
def start (value : JsonTree ι) : State ι :=
  ⟨some value, encoder, [], decoder, some value.erase⟩

/-- Revisions are strict JSON, and two that share a container are equal there. -/
def Revises (state : State ι) : Input ι → Prop
  | .commit after => after.Strict ∧ ∀ before ∈ state.value, IdentitySound before after
  | _ => True

/-! ### Parts in flight -/

/-- Taking the parts in order never throws and ends where the member is, at its value or failed,
in step with the encoder. -/
def Leads (value : Option (JsonTree ι)) (encoder : Encoder) :
    List Part → Decoder → Option JsonValue → Prop
  | [], decoder, replica => Agrees encoder decoder ∧ Option.Rel SameValue replica value
  | part :: rest, decoder, replica => ∃ following next,
    take decoder replica part = some (following, next) ∧ Leads value encoder rest following next

variable {value : Option (JsonTree ι)} {after : JsonTree ι} {encoder : Encoder}
  {sent : List Part} {decoder : Decoder} {replica : Option JsonValue}

theorem step_receive {part : Part} {following : Decoder} {next : Option JsonValue}
    (htake : take decoder replica part = some (following, next)) :
    step ⟨value, encoder, part :: sent, decoder, replica⟩ .receive =
      some ⟨value, encoder, sent, following, next⟩ := by
  simp only [step, htake, Option.map_some]

omit [DecidableEq ι] in
theorem rel_erase : Option.Rel SameValue (value.map JsonTree.erase) value := by
  cases value with
  | none => exact .none
  | some value => exact .some (sameValue_erase value).symm

omit [DecidableEq ι] in
/-- More parts may be sent if they lead on from where the parts in flight end. -/
theorem Leads.append {later : Option (JsonTree ι)} {following : Encoder} {more : List Part}
    (hleads : Leads value encoder sent decoder replica) (hmore : ∀ decoder replica,
      Agrees encoder decoder → Option.Rel SameValue replica value →
        Leads later following more decoder replica) :
    Leads later following (sent ++ more) decoder replica := by
  induction sent generalizing decoder replica with
  | nil => exact hmore decoder replica hleads.1 hleads.2
  | cons part rest ih =>
    obtain ⟨following, next, htake, hrest⟩ := hleads
    exact ⟨following, next, htake, ih hrest⟩

theorem valid_of_applyOps {root result : JsonValue} {ops : List (Op Unit)}
    (hok : applyOps root ops = .ok result) : ∀ op ∈ ops, op.Valid := by
  induction ops generalizing root with
  | nil => exact forall_mem_nil _
  | cons op rest ih =>
    obtain ⟨middle, hmiddle, hrest⟩ := (foldlM_except_cons_eq_ok_iff _ _ _ _ _).mp hok
    exact forall_mem_cons.mpr ⟨valid_of_applyOp hmiddle, ih hrest⟩

/-- What a batch sends brings the replica along. -/
theorem exists_changes (hrel : Option.Rel SameValue replica value)
    (hvalue : ∀ before ∈ value, before.Strict) (hafter : after.Strict)
    (hidentity : ∀ before ∈ value, IdentitySound before after) :
    ∃ ops result, changes value after = some ops ∧ (∀ op ∈ ops.map Op.erase, op.Valid) ∧
      applied replica (ops.map Op.erase) = some result ∧ SameValue result after := by
  cases hrel with
  | none =>
    have happly : applyImmutable .null [.r after.erase] = .ok after.erase := by
      rw [applyImmutable, applyImmutableBatches_eq_ok_iff]
      rfl
    refine ⟨[.r after], after.erase, rfl, by simp [Op.Valid, Op.erase, Op.mapMark, assertValidOp],
      ?_, (sameValue_erase after).symm⟩
    exact congrArg Except.toOption happly
  | some hsame =>
    obtain ⟨ops, hops, result, happly, hresult⟩ :=
      diffRevisions_replays (hvalue _ rfl) hafter (hidentity _ rfl) hsame
    refine ⟨ops, result, hops, ?_, by rw [applied, happly]; rfl, hresult⟩
    rw [applyImmutable, applyImmutableBatches_eq_ok_iff, flatten_singleton] at happly
    exact valid_of_applyOps happly

def Invariant (state : State ι) : Prop :=
  (∀ value ∈ state.value, value.Strict) ∧
    Leads state.value state.encoder state.sent state.decoder state.replica

theorem Invariant.commit {state next : State ι} (hstate : Invariant state)
    (hrevises : Revises state (.commit after)) (hstep : entry state after = some next) :
    Invariant next := by
  obtain ⟨hstrict, hleads⟩ := hstate
  obtain ⟨hafter, hidentity⟩ := hrevises
  obtain ⟨ops, hops, rfl⟩ := Option.map_eq_some_iff.mp hstep
  have hnext : ∀ value ∈ some after, value.Strict := by
    rintro _ ⟨⟩
    exact hafter
  have hchanges {replica} (hrel : Option.Rel SameValue replica state.value) :
      (∀ op ∈ ops.map Op.erase, op.Valid) ∧ ∃ result,
        applied replica (ops.map Op.erase) = some result ∧ SameValue result after := by
    obtain ⟨_, result, hsame, hvalid, happlied⟩ := exists_changes hrel hstrict hafter hidentity
    cases hops.symm.trans hsame
    exact ⟨hvalid, result, happlied⟩
  split
  next hempty =>
    rw [isEmpty_iff.mp hempty] at hchanges
    refine ⟨hnext, append_nil state.sent ▸ hleads.append fun _ _ hagrees hrel => ⟨hagrees, ?_⟩⟩
    obtain ⟨-, result, happlied, hresult⟩ := hchanges hrel
    generalize state.value = value at hrel
    cases hrel with
    | none => cases happlied
    | some =>
      obtain rfl : _ = result := by
        simpa [applied, applyImmutable, applyImmutableBatches, Except.toOption] using happlied
      exact .some hresult
  · refine ⟨hnext, hleads.append fun decoder _ hagrees hrel => ?_⟩
    obtain ⟨hvalid, result, happlied, hresult⟩ := hchanges hrel
    obtain ⟨paths, previous, hpaths, hdecode⟩ :=
      decodeOps_encodeOps hvalid (.inr ⟨hagrees, previousAgrees_none none⟩)
    have hall := hdecode []
    rw [append_nil] at hall
    refine ⟨paths, result, ?_, hpaths, .some hresult⟩
    rw [take, Decoder.decode, Encoder.encode, hall]
    simp [decodeOps, happlied]

theorem Invariant.step {state next : State ι} {input : Input ι} (hstate : Invariant state)
    (hrevises : Revises state input) (hstep : step state input = some next) : Invariant next := by
  cases input with
  | commit after => exact hstate.commit hrevises hstep
  | fail =>
    cases hstep
    refine ⟨by rintro _ ⟨⟩, hstate.2.append fun decoder _ hagrees _ => ?_⟩
    exact ⟨decoder, none, rfl, hagrees, .none⟩
  | bind =>
    cases hstep
    refine ⟨hstate.1, hstate.2.append fun _ _ _ _ => ?_⟩
    exact ⟨_, _, rfl, agrees_encoder _, rel_erase⟩
  | receive =>
    obtain ⟨value, encoder, sent, decoder, replica⟩ := state
    obtain ⟨hstrict, hleads⟩ := hstate
    cases sent with
    | nil => cases hstep
    | cons part rest =>
      obtain ⟨_, _, htake, hrest⟩ := hleads
      cases (step_receive htake).symm.trans hstep
      exact ⟨hstrict, hrest⟩

/-- Taking all parts in flight never throws and brings the replica to where the member is. -/
theorem Leads.drain (hleads : Leads value encoder sent decoder replica) :
    ∃ following last, run step ⟨value, encoder, sent, decoder, replica⟩
        (replicate sent.length .receive) = some ⟨value, encoder, [], following, last⟩ ∧
      Option.Rel SameValue last value := by
  induction sent generalizing decoder replica with
  | nil => exact ⟨decoder, replica, rfl, hleads.2⟩
  | cons part rest ih =>
    obtain ⟨following, next, htake, hrest⟩ := hleads
    obtain ⟨final, last, hrun, hlast⟩ := ih hrest
    refine ⟨final, last, ?_, hlast⟩
    rw [length_cons, replicate_succ, run, step_receive htake]
    exact hrun

/-- However batches, failures, bindings and arrivals interleave, no batch of the provider fails
to be written, and taking what is in flight never throws and brings the replica to the member's
value, or to its failure. -/
theorem replica_follows {first : JsonTree ι} (hfirst : first.Strict) {inputs : List (Input ι)}
    {state : State ι} (hrevises : EveryStep step Revises (start first) inputs)
    (hrun : run step (start first) inputs = some state) :
    (∀ after, Revises state (.commit after) → (step state (.commit after)).isSome = true) ∧
      ∃ decoder last, run step state (replicate state.sent.length .receive) =
          some { state with sent := [], decoder, replica := last } ∧
        Option.Rel SameValue last state.value := by
  have hstart : Invariant (start first) :=
    ⟨by rintro _ ⟨⟩; exact hfirst, agrees_encoder _, .some (sameValue_erase first).symm⟩
  obtain ⟨hstrict, hleads⟩ : Invariant state := by
    apply everyStep_invariant _ hstart hrevises (prefix_refl inputs) hrun
    exact fun _ _ _ hstate hrevises hstep => hstate.step hrevises hstep
  refine ⟨fun after hafter => ?_, hleads.drain⟩
  obtain ⟨ops, _, hops, -⟩ := exists_changes rel_erase hstrict hafter.1 hafter.2
  rw [step, entry, hops]
  rfl

/-- A failure, the batch after it and a new binding, all in flight. -/
theorem replica_follows_rebound : ∃ state last : State Bool,
    run step (start (.arr false [])) [.fail, .commit (.bool true), .bind] = some state ∧
      run step state (replicate state.sent.length .receive) = some last ∧
        Option.Rel SameValue last.replica state.value := by
  have hrevises : EveryStep step Revises (start (.arr false []))
      [.fail, .commit (.bool true), .bind] := by
    refine ⟨trivial, ?_⟩
    rintro _ ⟨⟩
    exact ⟨⟨rfl, by rintro _ ⟨⟩⟩, fun _ _ => ⟨trivial, fun _ _ => trivial⟩⟩
  obtain ⟨_, _, hdrain, hlast⟩ := (@replica_follows Bool _ (.arr false []) rfl _ _ hrevises rfl).2
  exact ⟨_, _, rfl, hdrain, hlast⟩

end Hummin.Replica
