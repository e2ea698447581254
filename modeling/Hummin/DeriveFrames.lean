/-
What the followers of derives have: the value they started at, with the calls they got, is the
derive's value whenever no frame of it is due.
-/
import Hummin.DeriveMarks

namespace Hummin.Derives

open List Function

open State

variable {V W E O : Type} {graph : Graph V E} {deltas : Deltas V W O} {state before after : State V E O}

/-! ### Changes keep what is known right -/

theorem set_spec {source : Nat} {value : V} :
    Invalidates graph (graph.dependents source)
      { state with values := update state.values source value } (state.set graph source value) := by
  apply foldl_invalidate
  intro state node hnode
  obtain ⟨sources, compute, hfound, -⟩ := (graph.dependents_iff source node).mp hnode
  exact invalidate_spec (List.getElem?_eq_some_iff.mp hfound).1 (Nat.le_add_left _ _)

variable {source : Nat} {value : V}

theorem Sound.set (hsound : Sound graph state)
    (hsource : graph.nodes[source]? = some .source) : Sound graph (state.set graph source value) := by
  obtain ⟨hmarked, hdirtied, -⟩ := @set_spec V E O graph state source value
  have hvalues : ∀ other, other ≠ source →
      (state.set graph source value).values other = state.values other :=
    fun other hne => (congrFun hmarked.values other).trans (update_of_ne hne _ _)
  intro node sources compute hnode outcome hknown
  have hkept : (state.set graph source value).derives node = state.derives node ∧
      (state.set graph source value).derives node ≠ .dirty := by
    have hclean : (state.set graph source value).derives node ≠ .dirty := by
      intro hdirty
      simp [known, hnode, hdirty] at hknown
    rcases hmarked.derives node with hsame | hdirty
    · exact ⟨hsame, hclean⟩
    · exact absurd hdirty hclean
  have hbefore : known graph state node = some outcome := by
    rw [known, hnode] at hknown ⊢
    rw [← hkept.1]
    exact hknown
  obtain ⟨gathered, hgather, houtcome⟩ := hsound node sources compute hnode outcome hbefore
  refine ⟨gathered, gather_mono ?_ hgather, houtcome⟩
  intro other hother found hfound
  have hover : node ∈ graph.dependents other :=
    (graph.dependents_iff other node).mpr ⟨sources, compute, hnode, hother⟩
  rw [known] at hfound ⊢
  cases hkind : graph.nodes[other]? with
  | some kind =>
    rw [hkind] at hfound
    cases kind with
    | derive otherSources otherCompute =>
      -- a source that was marked would have marked this derive
      have hsame : (state.set graph source value).derives other = state.derives other := by
        rcases hmarked.derives other with hsame | hdirty
        · exact hsame
        by_cases hwas : state.derives other = .dirty
        · exact hdirty.trans hwas.symm
        · exact absurd (hmarked.closed other ⟨hwas, hdirty⟩ (by simp) node hover) hkept.2
      rw [hsame]
      exact hfound
    | source =>
      have hne : other ≠ source := by
        rintro rfl
        exact hkept.2 (hdirtied node hover)
      rw [hvalues other hne]
      exact hfound
  | none =>
    rw [hkind] at hfound
    have hne : other ≠ source := by
      rintro rfl
      rw [hsource] at hkind
      cases hkind
    rw [hvalues other hne]
    exact hfound

/-! ### What a follower has -/

/-- A follower's value, and whether it was told of a failure since. -/
structure View (W : Type) where
  value : W
  failing : Bool

/-- A call a follower may get: ops that apply, a replacement after a failure, and a failure
once. -/
def Takes (deltas : Deltas V W O) (view : View W) : Call V E O → View W → Prop
  | .value value ops, next => (view.failing = true → ops = [deltas.replace value]) ∧
      deltas.apply view.value ops = some next.value ∧ deltas.Same next.value value ∧ next.failing = false
  | .failed _, next => view.failing = false ∧ next = ⟨view.value, true⟩

/-- The calls in order. -/
def Follows (deltas : Deltas V W O) : View W → List (Call V E O) → View W → Prop
  | view, [], last => last = view
  | view, call :: rest, last => ∃ next, Takes deltas view call next ∧ Follows deltas next rest last

variable {view : View W}

variable {call : Call V E O}

theorem Follows.snoc {middle last : View W} {calls : List (Call V E O)}
    (hcalls : Follows deltas view calls middle) (hcall : Takes deltas middle call last) :
    Follows deltas view (calls ++ [call]) last := by
  induction calls generalizing view with
  | nil =>
    obtain rfl : middle = view := hcalls
    exact ⟨last, hcall, rfl⟩
  | cons first rest ih =>
    obtain ⟨next, hfirst, hrest⟩ := hcalls
    exact ⟨next, hfirst, ih hrest⟩

/-- The view is up to date with the derive. -/
def Agrees (deltas : Deltas V W O) (view : View W) : DeriveState V E → Prop
  | .dirty => False
  | .clean value => view.failing = false ∧ deltas.Same view.value value
  | .failed _ => view.failing = true

/-- The view is what was kept for the frame. -/
def Frames (deltas : Deltas V W O) (view : View W) : Framed V → Prop
  | .absent => False
  | .noValue => view.failing = true
  | .value value => view.failing = false ∧ deltas.Same view.value value

theorem Agrees.frames {derive : DeriveState V E} (hagrees : Agrees deltas view derive) :
    Frames deltas view (framedOf derive) := by
  cases derive with
  | dirty => exact hagrees.elim
  | _ => exact hagrees

/-- What a follower has, whether a frame of its derive is due or not. -/
def Tracks (deltas : Deltas V W O) (state : State V E O) (follower : Follower V E O) : Prop :=
  ∃ view, Follows deltas ⟨deltas.hold follower.start, false⟩ follower.calls view ∧
    (follower.node ∉ state.changed → Agrees deltas view (state.derives follower.node)) ∧
    (follower.node ∈ state.changed → Frames deltas view (state.framed follower.node))

structure Steady (graph : Graph V E) (deltas : Deltas V W O) (state : State V E O) : Prop where
  sound : Sound graph state
  once : state.changed.Nodup
  idle : state.running = false → state.changed = []
  derives : ∀ follower ∈ state.followers, ∃ sources compute,
    graph.nodes[follower.node]? = some (.derive sources compute)
  tracks : ∀ follower ∈ state.followers, Tracks deltas state follower

variable {node : Nat} {follower : Follower V E O}

theorem watched_of_mem (hmem : follower ∈ state.followers) :
    state.watched follower.node = true := by
  rw [watched, any_eq_true]
  exact ⟨follower, hmem, by simp⟩

/-! ### Each input -/

/-- The change reaches no derive that is followed, due a frame and computed since it was
marked. -/
def Plain (graph : Graph V E) (state : State V E O) (source : Nat) : Prop :=
  ∀ node, Marks graph state source node → state.watched node = true → node ∉ state.changed

theorem marks_of_markedIn
    (hmarked : MarkedIn state (state.set graph source value) node) : Marks graph state source node := by
  obtain ⟨-, -, hreaches⟩ := @set_spec V E O graph state source value
  have hstate : ∀ {first last : Nat}, Marks graph
      { state with values := update state.values source value } first last →
        Marks graph state first last := by
    intro first last hmarks
    induction hmarks with
    | single hnode hclean => exact .single hnode hclean
    | through hnode hclean _ ih => exact .through hnode hclean ih
  obtain ⟨root, hroot, hclean, hover⟩ := hreaches node hmarked
  rcases hover with rfl | hover
  · exact .single hroot hclean
  · exact .through hroot hclean (hstate hover)

theorem Steady.set (hsteady : Steady graph deltas state)
    (hsource : graph.nodes[source]? = some .source) (hrunning : state.running = true)
    (hplain : Plain graph state source) : Steady graph deltas (state.set graph source value) := by
  obtain ⟨hmarked, -, -⟩ := @set_spec V E O graph state source value
  obtain ⟨added, hadded, honce, hlisted⟩ := hmarked.listed
  have hnew : ∀ node ∈ added, node ∉ state.changed := by
    intro node hnode
    obtain ⟨hmark, hwatched⟩ := (hlisted node).mp hnode
    exact hplain node (marks_of_markedIn hmark) hwatched
  refine ⟨hsteady.sound.set hsource, ?_, ?_, ?_, ?_⟩
  · rw [hadded, nodup_append]
    refine ⟨hsteady.once, honce, ?_⟩
    rintro node hold other hother rfl
    exact hnew node hother hold
  · intro hstopped
    rw [hmarked.running] at hstopped
    rw [show state.running = false from hstopped] at hrunning
    cases hrunning
  · rw [hmarked.followers]
    exact hsteady.derives
  rw [hmarked.followers]
  intro follower hfollower
  obtain ⟨view, hfollows, hagrees, hframes⟩ := hsteady.tracks follower hfollower
  have hwatched := watched_of_mem hfollower
  refine ⟨view, hfollows, ?_, ?_⟩
  · intro hout
    rw [hadded, mem_append, not_or] at hout
    have hunmarked : ¬ MarkedIn state (state.set graph source value) follower.node :=
      fun hmark => hout.2 ((hlisted _).mpr ⟨hmark, hwatched⟩)
    have hup := hagrees hout.1
    rcases hmarked.derives follower.node with hsame | hdirty
    · rw [hsame]
      exact hup
    have hwas : state.derives follower.node = .dirty := by
      by_contra hclean
      exact hunmarked ⟨hclean, hdirty⟩
    rw [hwas] at hup
    exact hup.elim
  intro hin
  rw [hadded, mem_append] at hin
  rcases hin with hold | hjoined
  · have hunmarked : ¬ MarkedIn state (state.set graph source value) follower.node :=
      fun hmark => hnew _ ((hlisted _).mpr ⟨hmark, hwatched⟩) hold
    rcases hmarked.framed follower.node with hsame | ⟨hmark, -⟩
    · rw [hsame]
      exact hframes hold
    · exact absurd hmark hunmarked
  have hmark := ((hlisted _).mp hjoined).1
  rw [hmarked.kept follower.node hmark hwatched]
  exact (hagrees (hnew _ hjoined)).frames

theorem Tracks.pulled (htracks : Tracks deltas before follower)
    (hpulled : Pulled before after) : Tracks deltas after follower := by
  obtain ⟨view, hfollows, hagrees, hframes⟩ := htracks
  refine ⟨view, hfollows, ?_, ?_⟩
  · intro hout
    rw [hpulled.changed] at hout
    have hup := hagrees hout
    have hclean : before.derives follower.node ≠ .dirty := by
      intro hdirty
      rw [hdirty] at hup
      exact hup
    rw [(hpulled.kept follower.node hclean).1]
    exact hup
  intro hin
  rw [hpulled.changed] at hin
  rw [hpulled.framed]
  exact hframes hin

theorem Steady.read {node : Nat} (hsteady : Steady graph deltas state) :
    Steady graph deltas (state.read graph node).1 := by
  obtain ⟨hpulled, -, hsound, -⟩ := read_spec hsteady.sound node
  refine ⟨hsound, hpulled.changed ▸ hsteady.once, ?_, ?_, ?_⟩
  · intro hidle
    rw [hpulled.changed]
    exact hsteady.idle (hpulled.running ▸ hidle)
  · rw [hpulled.followers]
    exact hsteady.derives
  rw [hpulled.followers]
  exact fun follower hfollower => (hsteady.tracks follower hfollower).pulled hpulled

/-- The view is right about an outcome. -/
def Shows (deltas : Deltas V W O) (view : View W) : Except E V → Prop
  | .ok value => view.failing = false ∧ deltas.Same view.value value
  | .error _ => view.failing = true

theorem agrees_iff_shows {sources : List Nat} {compute : List V → Except E V} {outcome : Except E V}
    (hnode : graph.nodes[node]? = some (.derive sources compute))
    (hknown : known graph state node = some outcome) :
    Agrees deltas view (state.derives node) ↔ Shows deltas view outcome := by
  rw [known, hnode] at hknown
  cases hstate : state.derives node with
  | dirty =>
    rw [hstate] at hknown
    cases hknown
  | _ =>
    rw [hstate] at hknown
    cases hknown
    rfl

/-- The call of a frame, if there is one. -/
def callOf (deltas : Deltas V W O) (framed : Framed V) : Except E V → Option (Call V E O)
  | .error error =>
    match framed with
    | .noValue => none
    | _ => some (.failed error)
  | .ok value =>
    if (opsFrom deltas framed value).isEmpty then none
    else some (.value value (opsFrom deltas framed value))

theorem deliver_eq (node : Nat) :
    let cleared := { state with framed := update state.framed node .absent }.read graph node
    state.deliver graph deltas node = match callOf deltas (state.framed node) cleared.2 with
      | none => cleared.1
      | some call => cleared.1.forward node call := by
  simp only [deliver]
  cases hread : { state with framed := update state.framed node .absent }.read graph node with
  | mk read outcome =>
    cases outcome with
    | error error => cases state.framed node <;> rfl
    | ok value =>
      simp only [callOf]
      split <;> rfl

/-- A frame brings its followers up to date. -/
theorem callOf_spec {view : View W} {framed : Framed V} (hframes : Frames deltas view framed)
    (outcome : Except E V) :
    match callOf deltas framed outcome with
    | none => Shows deltas view outcome
    | some call => ∃ next, Takes deltas view call next ∧ Shows deltas next outcome := by
  cases outcome with
  | error error =>
    cases framed with
    | absent => exact hframes.elim
    | noValue => exact hframes
    | value held => exact ⟨⟨view.value, true⟩, ⟨hframes.1, rfl⟩, rfl⟩
  | ok value =>
    cases framed with
    | absent => exact hframes.elim
    | noValue =>
      obtain ⟨result, happly, hsame⟩ := deltas.apply_replace view.value value
      exact ⟨⟨result, false⟩, ⟨fun _ => rfl, happly, hsame, rfl⟩, rfl, hsame⟩
    | value held =>
      obtain ⟨hsteady, hheld⟩ := hframes
      obtain ⟨result, happly, hsame⟩ := deltas.apply_diff view.value held value hheld
      rw [callOf]
      split
      next hcall =>
        split at hcall
        next hempty =>
          -- no ops: the value did not change
          rw [show deltas.diff held value = [] by simpa [opsFrom] using hempty,
            deltas.apply_nil] at happly
          cases happly
          exact ⟨hsteady, hsame⟩
        · cases hcall
      next call hcall =>
        obtain ⟨-, rfl⟩ := of_not_guard hcall
        refine ⟨⟨result, false⟩, ⟨?_, happly, hsame, rfl⟩, rfl, hsame⟩
        intro hfailing
        rw [hsteady] at hfailing
        cases hfailing

theorem mem_forward {follower : Follower V E O} :
    follower ∈ (state.forward node call).followers ↔ ∃ held ∈ state.followers,
      follower = if held.node = node then { held with calls := held.calls ++ [call] } else held := by
  simp only [forward, mem_map]
  exact ⟨fun ⟨held, hheld, heq⟩ => ⟨held, hheld, heq.symm⟩, fun ⟨held, hheld, heq⟩ => ⟨held, hheld, heq.symm⟩⟩

theorem Steady.deliver {node : Nat} {rest : List Nat} (hsteady : Steady graph deltas state)
    (hchanged : state.changed = node :: rest) (hrunning : state.running = true) :
    Steady graph deltas ({ state with changed := rest }.deliver graph deltas node) := by
  have honce := hsteady.once
  rw [hchanged] at honce
  obtain ⟨hout, hrest⟩ := nodup_cons.mp honce
  obtain ⟨hpulled, -, hsound, hknown⟩ := @read_spec V E O graph
    { state with changed := rest, framed := update state.framed node .absent } hsteady.sound node
  -- the others: nothing of theirs changed
  have hothers : ∀ follower ∈ state.followers, follower.node ≠ node → Tracks deltas
      ({ state with changed := rest, framed := update state.framed node .absent }.read graph node).1
      follower := by
    intro follower hfollower hne
    obtain ⟨view, hfollows, hagrees, hframes⟩ := hsteady.tracks follower hfollower
    apply Tracks.pulled _ hpulled
    refine ⟨view, hfollows, ?_, ?_⟩
    · intro hnot
      apply hagrees
      rw [hchanged]
      simpa [hne] using hnot
    intro hin
    rw [show ({ state with changed := rest, framed := update state.framed node .absent } :
      State V E O).framed follower.node = state.framed follower.node from update_of_ne hne _ _]
    apply hframes
    rw [hchanged]
    exact mem_cons_of_mem _ hin
  have hidle : ({ state with changed := rest, framed := update state.framed node .absent }.read
      graph node).1.running = true := hpulled.running.trans hrunning
  have hown : ∀ follower ∈ state.followers, follower.node = node → ∃ view,
      Follows deltas ⟨deltas.hold follower.start, false⟩ follower.calls view ∧
        Frames deltas view (state.framed node) := by
    intro follower hfollower hnode
    obtain ⟨view, hfollows, -, hframes⟩ := hsteady.tracks follower hfollower
    rw [hnode] at hframes
    exact ⟨view, hfollows, hframes (by simp [hchanged])⟩
  rw [deliver_eq]
  generalize hresult : { state with changed := rest, framed := update state.framed node .absent }.read
    graph node = result at *
  have hlisted : node ∉ result.1.changed := by
    rw [hpulled.changed]
    exact hout
  cases hcall : callOf deltas (state.framed node) result.2 with
  | none =>
    refine ⟨hsound, hpulled.changed ▸ hrest, ?_, ?_, ?_⟩
    · intro hstopped
      rw [hidle] at hstopped
      cases hstopped
    · rw [hpulled.followers]
      exact hsteady.derives
    rw [hpulled.followers]
    intro follower hfollower
    by_cases hnode : follower.node = node
    · obtain ⟨view, hfollows, hframes⟩ := hown follower hfollower hnode
      obtain ⟨sources, compute, hfound⟩ := hsteady.derives follower hfollower
      have hshows := callOf_spec hframes result.2
      rw [hcall] at hshows
      rw [hnode] at hfound
      refine ⟨view, hfollows, ?_, fun hin => absurd (hnode ▸ hin) hlisted⟩
      intro _
      rw [hnode]
      exact (agrees_iff_shows hfound hknown).mpr hshows
    · exact hothers follower hfollower hnode
  | some call =>
    refine ⟨hsound, hpulled.changed ▸ hrest, ?_, ?_, ?_⟩
    · intro hstopped
      rw [show (result.1.forward node call).running = result.1.running from rfl, hidle] at hstopped
      cases hstopped
    · intro follower hfollower
      obtain ⟨held, hheld, rfl⟩ := mem_forward.mp hfollower
      rw [hpulled.followers] at hheld
      have hderives := hsteady.derives held hheld
      split <;> exact hderives
    intro follower hfollower
    obtain ⟨held, hheld, rfl⟩ := mem_forward.mp hfollower
    rw [hpulled.followers] at hheld
    by_cases hnode : held.node = node
    · rw [if_pos hnode]
      obtain ⟨view, hfollows, hframes⟩ := hown held hheld hnode
      obtain ⟨sources, compute, hfound⟩ := hsteady.derives held hheld
      have hspec := callOf_spec hframes result.2
      rw [hcall] at hspec
      obtain ⟨next, htakes, hshows⟩ := hspec
      rw [hnode] at hfound
      refine ⟨next, hfollows.snoc htakes, ?_, fun hin => absurd (hnode ▸ hin) hlisted⟩
      intro _
      have hagrees : Agrees deltas next (result.1.derives node) :=
        (agrees_iff_shows hfound hknown).mpr hshows
      rw [← hnode] at hagrees
      exact hagrees
    · rw [if_neg hnode]
      exact hothers held hheld hnode

theorem Steady.follow (hsteady : Steady graph deltas state)
    (hderive : ∃ sources compute, graph.nodes[node]? = some (.derive sources compute))
    (hidle : state.running = false) (hfollow : state.follow graph node = some after) :
    Steady graph deltas after := by
  obtain ⟨hsound, honce, hstopped, hderives, htracks⟩ := @Steady.read V W E O graph deltas state node hsteady
  obtain ⟨hpulled, -, -, hknown⟩ := read_spec hsteady.sound node
  obtain ⟨sources, compute, hfound⟩ := hderive
  have hnone : (state.read graph node).1.changed = [] := by
    rw [hpulled.changed]
    exact hsteady.idle hidle
  have hadd : ∀ value calls view,
      Follows deltas ⟨deltas.hold value, false⟩ calls view → Shows deltas view (state.read graph node).2 →
      Steady graph deltas { (state.read graph node).1 with
        followers := (state.read graph node).1.followers ++
          [⟨(state.read graph node).1.nextFollower, node, value, calls⟩]
        nextFollower := (state.read graph node).1.nextFollower + 1 } := by
    intro value calls view hfollows hshows
    refine ⟨hsound, honce, hstopped, ?_, ?_⟩
    · refine forall_mem_append.mpr ⟨hderives, forall_mem_singleton.mpr ?_⟩
      exact ⟨sources, compute, hfound⟩
    refine forall_mem_append.mpr ⟨htracks, forall_mem_singleton.mpr ?_⟩
    refine ⟨view, hfollows, ?_, ?_⟩
    · exact fun _ => (agrees_iff_shows hfound hknown).mpr hshows
    intro hin
    rw [show ((state.read graph node).1.changed) = [] from hnone] at hin
    cases hin
  simp only [State.follow] at hfollow
  generalize hresult : state.read graph node = result at *
  obtain ⟨read, outcome⟩ := result
  cases outcome with
  | ok value =>
    cases hfollow
    exact hadd value [] ⟨deltas.hold value, false⟩ rfl ⟨rfl, deltas.same_hold value⟩
  | error error =>
    dsimp only at hfollow
    split at hfollow
    next last hlast =>
      cases hfollow
      exact hadd last [.failed error] ⟨deltas.hold last, true⟩ ⟨⟨deltas.hold last, true⟩, ⟨rfl, rfl⟩, rfl⟩ rfl
    · cases hfollow

end Hummin.Derives
