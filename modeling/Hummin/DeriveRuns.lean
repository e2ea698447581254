/-
Runs of batches over derives: whatever is set and read, whatever frames bring along, and
whoever follows.
-/
import Hummin.DeriveFrames

namespace Hummin.Derives

open List Function

open State

variable {V W E O : Type} {graph : Graph V E} {deltas : Deltas V W O} {state opening next after : State V E O}

/-! ### Reads, in every run -/

variable {node : Nat}

theorem deliver_frame :
    ∃ followers, state.deliver graph deltas node = { ({ state with
      framed := update state.framed node .absent }.read graph node).1 with followers := followers } := by
  rw [deliver_eq]
  split
  · exact ⟨_, rfl⟩
  · exact ⟨_, rfl⟩

theorem Sound.deliver (hsound : Sound graph state) :
    Sound graph (state.deliver graph deltas node) := by
  obtain ⟨followers, hdeliver⟩ := @deliver_frame V W E O graph deltas state node
  obtain ⟨-, -, hafter, -⟩ := @read_spec V E O graph
    { state with framed := update state.framed node .absent } hsound node
  rw [hdeliver]
  exact hafter

variable {input : Input V}

theorem sound_start (values : Nat → V) : Sound graph (start values : State V E O) := by
  intro node sources compute hnode outcome hknown
  simp [known, hnode, start] at hknown

variable {inputs : List (Input V)}

/-- Changes were made, nothing was read: what is due is dirty. -/
structure Listing (opening state : State V E O) : Prop where
  computes : ∀ node, state.computes node = 0
  once : state.changed.Nodup
  dirty : ∀ node ∈ state.changed, state.derives node = .dirty
  followers : state.followers = opening.followers

/-- Nothing changes any more: each derive was computed once at most, and each follower got one
call at most. -/
structure Pulling (opening state : State V E O) : Prop where
  computes : ∀ node, state.computes node ≤ 1
  uncounted : ∀ node, state.derives node = .dirty → state.computes node = 0
  once : state.changed.Nodup
  followers : ∀ follower ∈ state.followers, ∃ held ∈ opening.followers, held.id = follower.id ∧
    held.node = follower.node ∧
      follower.calls.length ≤ held.calls.length + if follower.node ∈ state.changed then 0 else 1

def Input.isSet : Input V → Bool
  | .set _ _ => true
  | _ => false

theorem Listing.set (hlisting : Listing opening state) (hset : input.isSet = true)
    (hstep : step graph deltas state input = some next) : Listing opening next := by
  cases input with
  | set source value =>
    simp only [step] at hstep
    split at hstep
    · split at hstep
      · cases hstep
        obtain ⟨hmarked, -, -⟩ := @set_spec V E O graph state source value
        obtain ⟨added, hadded, honce, hlisted⟩ := hmarked.listed
        refine ⟨?_, ?_, ?_, hmarked.followers.trans hlisting.followers⟩
        · intro node
          rw [hmarked.computes]
          exact hlisting.computes node
        · rw [hadded, nodup_append]
          refine ⟨hlisting.once, honce, ?_⟩
          rintro node hold other hother rfl
          exact ((hlisted node).mp hother).1.1 (hlisting.dirty node hold)
        intro node hnode
        rw [hadded, mem_append] at hnode
        rcases hnode with hold | hjoined
        · rcases hmarked.derives node with hsame | hdirty
          · exact hsame.trans (hlisting.dirty node hold)
          · exact hdirty
        · exact ((hlisted node).mp hjoined).1.2
      · cases hstep
    · cases hstep
  | _ => cases hset

theorem counts_pulled {before : State V E O} (hpulled : Pulled before after)
    (hpulling : Pulling opening state) (hderives : before.derives = state.derives)
    (hcomputes : before.computes = state.computes) (node : Nat) :
    after.computes node ≤ 1 ∧ (after.derives node = .dirty → after.computes node = 0) := by
  by_cases hdirty : before.derives node = .dirty
  · have hzero := hpulling.uncounted node (hderives ▸ hdirty)
    rw [← hcomputes] at hzero
    rcases hpulled.counted node hdirty with ⟨-, hcount⟩ | ⟨hclean, hcount⟩
    · exact ⟨by omega, fun _ => by omega⟩
    · exact ⟨by omega, fun hagain => absurd hagain hclean⟩
  obtain ⟨hstate, hcount⟩ := hpulled.kept node hdirty
  rw [hcomputes] at hcount
  exact ⟨hcount ▸ hpulling.computes node, fun hagain => absurd (hstate.symm.trans hagain) hdirty⟩

theorem Pulling.deliver {rest : List Nat} (hpulling : Pulling opening state)
    (hsound : Sound graph state) (hchanged : state.changed = node :: rest) :
    Pulling opening ({ state with changed := rest }.deliver graph deltas node) := by
  have honce := hpulling.once
  rw [hchanged] at honce
  obtain ⟨hout, hrest⟩ := nodup_cons.mp honce
  obtain ⟨hpulled, -, -, -⟩ := @read_spec V E O graph
    { state with changed := rest, framed := update state.framed node .absent } hsound node
  have hcounts := counts_pulled hpulled hpulling rfl rfl
  have hheld : ∀ follower ∈ state.followers, ∃ held ∈ opening.followers, held.id = follower.id ∧
      held.node = follower.node ∧ (follower.node = node → follower.calls.length ≤ held.calls.length) ∧
        follower.calls.length ≤ held.calls.length + if follower.node ∈ rest then 0 else 1 := by
    intro follower hfollower
    obtain ⟨held, hmem, hid, hnode, hcalls⟩ := hpulling.followers follower hfollower
    refine ⟨held, hmem, hid, hnode, ?_, ?_⟩
    · rintro rfl
      simpa [hchanged] using hcalls
    by_cases hsame : follower.node = node
    · rw [hsame, hchanged, if_pos mem_cons_self] at hcalls
      omega
    rw [hchanged] at hcalls
    simpa [hsame] using hcalls
  rw [deliver_eq]
  generalize { state with changed := rest, framed := update state.framed node .absent }.read
    graph node = result at *
  cases hcall : callOf deltas (state.framed node) result.2 with
  | none =>
    refine ⟨fun other => (hcounts other).1, fun other => (hcounts other).2, hpulled.changed ▸ hrest, ?_⟩
    rw [hpulled.followers, hpulled.changed]
    intro follower hfollower
    obtain ⟨held, hmem, hid, hnode, -, hcalls⟩ := hheld follower hfollower
    exact ⟨held, hmem, hid, hnode, hcalls⟩
  | some call =>
    refine ⟨fun other => (hcounts other).1, fun other => (hcounts other).2, hpulled.changed ▸ hrest, ?_⟩
    intro follower hfollower
    obtain ⟨got, hgot, rfl⟩ := mem_forward.mp hfollower
    rw [hpulled.followers] at hgot
    obtain ⟨held, hmem, hid, hnode, hown, hcalls⟩ := hheld got hgot
    rw [show (result.1.forward node call).changed = rest from hpulled.changed]
    by_cases hsame : got.node = node
    · rw [if_pos hsame]
      refine ⟨held, hmem, hid, hnode, ?_⟩
      have hless := hown hsame
      simp only [hsame, hout, if_false, length_append, length_singleton]
      omega
    rw [if_neg hsame]
    exact ⟨held, hmem, hid, hnode, hcalls⟩

end Hummin.Derives
