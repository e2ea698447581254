/-
What a read of a derive gives: its compute over its sources' values now, or the failure of it,
whichever derives were read or marked before.
-/
import Hummin.Derives

namespace Hummin.Derives

open List Function Option

open State

variable {V E O : Type} {graph : Graph V E} {state before middle after : State V E O}

/-! ### The values there ought to be -/

variable {values : Nat → V}

variable {node : Nat} {sources : List Nat}

variable {compute : List V → Except E V}

/-- The value a read gives without a compute. -/
def known (graph : Graph V E) (state : State V E O) (node : Nat) : Option (Except E V) :=
  match graph.nodes[node]? with
  | some (.derive ..) =>
    match state.derives node with
    | .dirty => none
    | .clean value => some (.ok value)
    | .failed error => some (.error error)
  | _ => some (.ok (state.values node))

/-- The sources' values as far as a compute reads them. -/
def gather (known : Nat → Option (Except E V)) : List Nat → Option (Except E (List V))
  | [] => some (.ok [])
  | source :: rest =>
    match known source with
    | none => none
    | some (.error error) => some (.error error)
    | some (.ok value) => (gather known rest).map fun gathered => gathered.map (value :: ·)

/-- A derive that is not dirty has the outcome of its compute over what its sources have. -/
def Sound (graph : Graph V E) (state : State V E O) : Prop :=
  ∀ node sources compute, graph.nodes[node]? = some (.derive sources compute) →
    ∀ outcome, known graph state node = some outcome →
      ∃ gathered, gather (known graph state) sources = some gathered ∧ outcome = gathered.bind compute

variable {gathered : Except E (List V)}

theorem gather_mono {known more : Nat → Option (Except E V)} {sources : List Nat}
    (hmore : ∀ source ∈ sources, ∀ outcome, known source = some outcome → more source = some outcome)
    (hgather : gather known sources = some gathered) : gather more sources = some gathered := by
  induction sources generalizing gathered with
  | nil => exact hgather
  | cons source rest ih =>
    rw [gather] at hgather ⊢
    cases hsource : known source with
    | none =>
      rw [hsource] at hgather
      cases hgather
    | some outcome =>
      rw [hsource] at hgather
      rw [hmore source mem_cons_self outcome hsource]
      cases outcome with
      | error error => exact hgather
      | ok value =>
        obtain ⟨rest, hrest, rfl⟩ := map_eq_some_iff.mp hgather
        rw [ih (fun other hother => hmore other (mem_cons_of_mem _ hother)) hrest]
        rfl

variable {outcome : Except E V}

/-- What a read may do: dirty derives are computed, each once, and nothing else changes. -/
structure Pulled (before after : State V E O) : Prop where
  values : after.values = before.values
  framed : after.framed = before.framed
  followers : after.followers = before.followers
  nextFollower : after.nextFollower = before.nextFollower
  running : after.running = before.running
  changed : after.changed = before.changed
  kept : ∀ node, before.derives node ≠ .dirty →
    after.derives node = before.derives node ∧ after.computes node = before.computes node
  counted : ∀ node, before.derives node = .dirty →
    after.derives node = .dirty ∧ after.computes node = before.computes node ∨
      after.derives node ≠ .dirty ∧ after.computes node = before.computes node + 1

theorem Pulled.refl : Pulled state state :=
  ⟨rfl, rfl, rfl, rfl, rfl, rfl, fun _ _ => ⟨rfl, rfl⟩, fun _ hdirty => .inl ⟨hdirty, rfl⟩⟩

theorem Pulled.trans (hfirst : Pulled before middle) (hsecond : Pulled middle after) :
    Pulled before after := by
  refine ⟨hsecond.values.trans hfirst.values, hsecond.framed.trans hfirst.framed,
    hsecond.followers.trans hfirst.followers, hsecond.nextFollower.trans hfirst.nextFollower,
    hsecond.running.trans hfirst.running, hsecond.changed.trans hfirst.changed, ?_, ?_⟩
  · intro node hclean
    obtain ⟨hstate, hcount⟩ := hfirst.kept node hclean
    obtain ⟨hlater, hlaterCount⟩ := hsecond.kept node (hstate ▸ hclean)
    exact ⟨hlater.trans hstate, hlaterCount.trans hcount⟩
  intro node hdirty
  rcases hfirst.counted node hdirty with ⟨hstill, hcount⟩ | ⟨hclean, hcount⟩
  · rw [← hcount]
    exact hsecond.counted node hstill
  obtain ⟨hlater, hlaterCount⟩ := hsecond.kept node hclean
  exact .inr ⟨hlater ▸ hclean, hlaterCount.trans hcount⟩

theorem known_of_pulled (hpulled : Pulled before after) {node : Nat} {outcome : Except E V}
    (hknown : known graph before node = some outcome) : known graph after node = some outcome := by
  rw [known] at hknown ⊢
  rw [hpulled.values]
  split at hknown
  · have hclean : before.derives node ≠ .dirty := by
      intro hdirty
      rw [hdirty] at hknown
      cases hknown
    rw [(hpulled.kept node hclean).1]
    exact hknown
  · exact hknown

/-- Only nodes up to a number are read. -/
def Below (bound : Nat) (before after : State V E O) : Prop :=
  ∀ node, bound ≤ node → after.derives node = before.derives node ∧
    after.computes node = before.computes node

/-- The outcome of a read is what is known afterwards. -/
structure Reads (graph : Graph V E) (before : State V E O) (node : Nat)
    (result : State V E O × Except E V) : Prop where
  pulled : Pulled before result.1
  below : Below (node + 1) before result.1
  sound : Sound graph result.1
  known : known graph result.1 node = some result.2

theorem readAll_spec {read : State V E O → Nat → State V E O × Except E V} {sources : List Nat}
    {bound : Nat} (hread : ∀ state : State V E O, Sound graph state → ∀ source ∈ sources,
      Reads graph state source (read state source))
    (hbound : ∀ source ∈ sources, source < bound) (hsound : Sound graph state) :
    Pulled state (readAll read state sources).1 ∧ Below bound state (readAll read state sources).1 ∧
      Sound graph (readAll read state sources).1 ∧
      gather (known graph (readAll read state sources).1) sources =
        some (readAll read state sources).2 := by
  induction sources generalizing state with
  | nil => exact ⟨.refl, fun _ _ => ⟨rfl, rfl⟩, hsound, rfl⟩
  | cons source rest ih =>
    obtain ⟨hpulled, hbelow, hafter, hknown⟩ := hread state hsound source mem_cons_self
    have hlocal : Below bound state (read state source).1 := by
      intro node hnode
      have hless := hbound source mem_cons_self
      exact hbelow node (by omega)
    cases hresult : read state source with
    | mk later outcome =>
      rw [hresult] at hpulled hlocal hafter hknown
      cases outcome with
      | error error =>
        simp only [readAll, hresult]
        refine ⟨hpulled, hlocal, hafter, ?_⟩
        rw [gather, hknown]
      | ok value =>
        obtain ⟨hmore, hmoreBelow, hmoreSound, hgather⟩ := ih
          (fun state hstate other hother => hread state hstate other (mem_cons_of_mem _ hother))
          (fun other hother => hbound other (mem_cons_of_mem _ hother)) hafter
        have hstill := @known_of_pulled _ _ _ graph _ _ hmore _ _ hknown
        have hboth : Below bound state (readAll read later rest).1 := by
          intro node hnode
          obtain ⟨hone, hcount⟩ := hmoreBelow node hnode
          exact ⟨hone.trans (hlocal node hnode).1, hcount.trans (hlocal node hnode).2⟩
        simp only [readAll, hresult]
        cases hrest : readAll read later rest with
        | mk last values =>
          rw [hrest] at hmore hboth hmoreSound hgather hstill
          cases values with
          | error error =>
            refine ⟨hpulled.trans hmore, hboth, hmoreSound, ?_⟩
            rw [gather, hstill]
            simp only [hgather]
            rfl
          | ok values =>
            refine ⟨hpulled.trans hmore, hboth, hmoreSound, ?_⟩
            rw [gather, hstill]
            simp only [hgather]
            rfl

/-- A compute over what the sources have settles its derive. -/
theorem reads_computed (hnode : graph.nodes[node]? = some (.derive sources compute))
    (hdirty : state.derives node = .dirty) (hsound : Sound graph state)
    (hgather : gather (known graph state) sources = some gathered) :
    Sound graph (state.computed node (gathered.bind compute)).1 ∧
      known graph (state.computed node (gathered.bind compute)).1 node = some (gathered.bind compute) ∧
      (state.computed node (gathered.bind compute)).2 = gathered.bind compute := by
  have hself : known graph (state.computed node (gathered.bind compute)).1 node =
      some (gathered.bind compute) := by
    cases houtcome : gathered.bind compute <;> simp [computed, known, hnode]
  have hother : ∀ other, other ≠ node →
      known graph (state.computed node (gathered.bind compute)).1 other = known graph state other := by
    intro other hne
    cases gathered.bind compute <;> simp [computed, known, update_of_ne hne]
  have hmore : ∀ source outcome, known graph state source = some outcome →
      known graph (state.computed node (gathered.bind compute)).1 source = some outcome := by
    intro source outcome hknown
    by_cases hsame : source = node
    · subst hsame
      simp [known, hnode, hdirty] at hknown
    rw [hother source hsame]
    exact hknown
  refine ⟨?_, hself, by cases gathered.bind compute <;> rfl⟩
  intro other otherSources otherCompute hfound outcome hknown
  by_cases hsame : other = node
  · subst hsame
    rw [hnode] at hfound
    cases hfound
    rw [hself] at hknown
    cases hknown
    exact ⟨gathered, gather_mono (fun source _ => hmore source) hgather, rfl⟩
  rw [hother other hsame] at hknown
  obtain ⟨found, hothers, houtcome⟩ := hsound other otherSources otherCompute hfound outcome hknown
  exact ⟨found, gather_mono (fun source _ => hmore source) hothers, houtcome⟩

/-- What `computed` leaves. -/
theorem computed_frame (node : Nat) (outcome : Except E V) :
    ∃ derives good, (state.computed node outcome).1 = { state with derives := derives, good := good } ∧
      derives node ≠ .dirty ∧ ∀ other, other ≠ node → derives other = state.derives other := by
  cases outcome with
  | ok value =>
    refine ⟨_, _, rfl, ?_, fun other hne => update_of_ne hne _ _⟩
    rw [update_self]
    simp
  | error error =>
    refine ⟨_, state.good, rfl, ?_, fun other hne => update_of_ne hne _ _⟩
    rw [update_self]
    simp

theorem pulled_computed {computes : Nat → Nat}
    (hdirty : before.derives node = .dirty) (hpulled : Pulled { before with computes := computes } middle)
    (hself : computes node = before.computes node + 1)
    (hothers : ∀ other, other ≠ node → computes other = before.computes other)
    (hstill : middle.derives node = .dirty) :
    Pulled before (middle.computed node outcome).1 := by
  obtain ⟨derives, good, hcomputed, hclean, hother⟩ := @computed_frame V E O middle node outcome
  obtain ⟨values, framed, followers, nextFollower, running, changed, kept, counted⟩ := hpulled
  rw [hcomputed]
  refine ⟨values, framed, followers, nextFollower, running, changed, ?_, ?_⟩
  · intro other hotherClean
    have hne : other ≠ node := by
      rintro rfl
      exact hotherClean hdirty
    obtain ⟨hstate, hcount⟩ := kept other hotherClean
    exact ⟨(hother other hne).trans hstate, hcount.trans (hothers other hne)⟩
  intro other hotherDirty
  by_cases hsame : other = node
  · subst hsame
    have hcount : middle.computes other = before.computes other + 1 := by
      rcases counted other hotherDirty with ⟨-, hcount⟩ | ⟨hnot, -⟩
      · exact hcount.trans hself
      · exact absurd hstill hnot
    exact .inr ⟨hclean, hcount⟩
  rcases counted other hotherDirty with ⟨hdirty, hcount⟩ | ⟨hcleaned, hcount⟩
  · exact .inl ⟨(hother other hsame).trans hdirty, hcount.trans (hothers other hsame)⟩
  refine .inr ⟨fun hagain => hcleaned ((hother other hsame).symm.trans hagain), hcount.trans ?_⟩
  exact congrArg (· + 1) (hothers other hsame)

theorem readFrom_spec {fuel node : Nat} (hfuel : node < fuel) (hsound : Sound graph state) :
    Reads graph state node (readFrom graph fuel state node) := by
  induction fuel generalizing state node with
  | zero => omega
  | succ fuel ih =>
    cases hnode : graph.nodes[node]? with
    | none =>
      simp only [readFrom, hnode]
      exact ⟨.refl, fun _ _ => ⟨rfl, rfl⟩, hsound, by simp [known, hnode]⟩
    | some found =>
      cases found with
      | source =>
        simp only [readFrom, hnode]
        exact ⟨.refl, fun _ _ => ⟨rfl, rfl⟩, hsound, by simp [known, hnode]⟩
      | derive sources compute =>
        cases hstate : state.derives node with
        | dirty =>
          have hbefore := graph.acyclic node sources compute hnode
          let counted : State V E O := { state with
            computes := update state.computes node (state.computes node + 1) }
          obtain ⟨hpulled, hbelow, hsources, hgather⟩ := @readAll_spec V E O graph counted
            (readFrom graph fuel) sources node
            (fun state hstate source hsource => ih (by have := hbefore source hsource; omega) hstate)
            hbefore hsound
          have hread : readFrom graph (fuel + 1) state node =
              (readAll (readFrom graph fuel) counted sources).1.computed node
                ((readAll (readFrom graph fuel) counted sources).2.bind compute) := by
            simp only [readFrom, hnode, hstate]
            cases hall : readAll (readFrom graph fuel) counted sources with
            | mk read gathered => cases gathered <;> rfl
          rw [hread]
          generalize hall : readAll (readFrom graph fuel) counted sources = all at *
          obtain ⟨read, gathered⟩ := all
          obtain ⟨hselfState, hselfCount⟩ := hbelow node (Nat.le_refl _)
          obtain ⟨hafter, hknown, houtcome⟩ := reads_computed hnode (hselfState.trans hstate)
            hsources hgather
          refine ⟨pulled_computed hstate hpulled (update_self _ _ _)
            (fun other hne => update_of_ne hne _ _) (hselfState.trans hstate), ?_, hafter, ?_⟩
          · intro other hbeyond
            obtain ⟨derives, good, hcomputed, -, hothers⟩ :=
              @computed_frame V E O read node (gathered.bind compute)
            have hne : other ≠ node := by omega
            obtain ⟨hone, hcount⟩ := hbelow other (by omega)
            rw [hcomputed]
            exact ⟨(hothers other hne).trans hone, hcount.trans (update_of_ne hne _ _)⟩
          rw [houtcome]
          exact hknown
        | _ =>
          simp only [readFrom, hnode, hstate]
          exact ⟨.refl, fun _ _ => ⟨rfl, rfl⟩, hsound, by simp [known, hnode, hstate]⟩

theorem read_spec (hsound : Sound graph state) (node : Nat) :
    Reads graph state node (state.read graph node) :=
  readFrom_spec (Nat.lt_succ_self node) hsound

end Hummin.Derives
