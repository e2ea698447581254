/-
What a change marks: the derives over it that are not dirty yet, each listed once for its
frame when something follows it.
-/
import Mathlib.Data.List.Nodup
import Hummin.DeriveReads

namespace Hummin.Derives

open List Function

open State

variable {V E O : Type} {graph : Graph V E} {state before middle after : State V E O}

/-- A derive that was marked, and what it was. -/
def MarkedIn (before after : State V E O) (node : Nat) : Prop :=
  before.derives node ≠ .dirty ∧ after.derives node = .dirty

/-- Marking: derives go dirty, and with each (but the `unclosed` ones) all over it. -/
structure Marked (graph : Graph V E) (unclosed : List Nat) (before after : State V E O) : Prop where
  values : after.values = before.values
  good : after.good = before.good
  followers : after.followers = before.followers
  nextFollower : after.nextFollower = before.nextFollower
  running : after.running = before.running
  computes : after.computes = before.computes
  derives : ∀ node, after.derives node = before.derives node ∨ after.derives node = .dirty
  closed : ∀ node, MarkedIn before after node → node ∉ unclosed →
    ∀ dependent ∈ graph.dependents node, after.derives dependent = .dirty
  framed : ∀ node, after.framed node = before.framed node ∨
    MarkedIn before after node ∧ before.watched node = true ∧
      after.framed node = framedOf (before.derives node)
  kept : ∀ node, MarkedIn before after node → before.watched node = true →
    after.framed node = framedOf (before.derives node)
  listed : ∃ added, after.changed = before.changed ++ added ∧ added.Nodup ∧
    ∀ node, node ∈ added ↔ MarkedIn before after node ∧ before.watched node = true

theorem watched_congr (hfollowers : after.followers = before.followers) (node : Nat) :
    after.watched node = before.watched node := by
  rw [watched, watched, hfollowers]

theorem Marked.refl : Marked graph [] state state := by
  have hnone : ∀ node, ¬ MarkedIn state state node := fun node hmarked => hmarked.1 hmarked.2
  refine ⟨rfl, rfl, rfl, rfl, rfl, rfl, fun _ => .inl rfl, ?_, fun _ => .inl rfl, ?_, [], by simp, by simp, ?_⟩
  · exact fun node hmarked => absurd hmarked (hnone node)
  · exact fun node hmarked => absurd hmarked (hnone node)
  intro node
  simp only [not_mem_nil, false_iff]
  exact fun hmarked => hnone node hmarked.1

variable {unclosed : List Nat}

/-- What was marked on the way to `after` was marked first or second. -/
theorem markedIn_trans (hfirst : Marked graph unclosed before middle)
    (hsecond : Marked graph [] middle after) (node : Nat) :
    MarkedIn before after node ↔ MarkedIn before middle node ∨ MarkedIn middle after node := by
  constructor
  · rintro ⟨hclean, hdirty⟩
    by_cases hmiddle : middle.derives node = .dirty
    · exact .inl ⟨hclean, hmiddle⟩
    · exact .inr ⟨hmiddle, hdirty⟩
  rintro (⟨hclean, hdirty⟩ | ⟨hclean, hdirty⟩)
  · refine ⟨hclean, ?_⟩
    rcases hsecond.derives node with hsame | hmarked
    · exact hsame.trans hdirty
    · exact hmarked
  refine ⟨?_, hdirty⟩
  rcases hfirst.derives node with hsame | hmarked
  · rwa [← hsame]
  · exact absurd hmarked hclean

theorem Marked.trans (hfirst : Marked graph unclosed before middle)
    (hsecond : Marked graph [] middle after) : Marked graph unclosed before after := by
  have hmarked := markedIn_trans hfirst hsecond
  have hwatched := @watched_congr V E O before middle hfirst.followers
  have hbefore : ∀ node, MarkedIn middle after node → middle.derives node = before.derives node := by
    intro node hnode
    rcases hfirst.derives node with hsame | hdirty
    · exact hsame
    · exact absurd hdirty hnode.1
  have hapart : ∀ node, MarkedIn before middle node → ¬ MarkedIn middle after node :=
    fun node hone htwo => htwo.1 hone.2
  have hstays : ∀ node, MarkedIn before middle node → after.framed node = middle.framed node := by
    intro node hone
    rcases hsecond.framed node with hsame | ⟨htwo, -⟩
    · exact hsame
    · exact absurd htwo (hapart node hone)
  refine ⟨hsecond.values.trans hfirst.values, hsecond.good.trans hfirst.good,
    hsecond.followers.trans hfirst.followers, hsecond.nextFollower.trans hfirst.nextFollower,
    hsecond.running.trans hfirst.running, hsecond.computes.trans hfirst.computes, ?_, ?_, ?_, ?_, ?_⟩
  · intro node
    rcases hsecond.derives node with hsame | hdirty
    · rw [hsame]
      exact hfirst.derives node
    · exact .inr hdirty
  · intro node hnode hout dependent hdependent
    rcases (hmarked node).mp hnode with hone | htwo
    · have hdirty := hfirst.closed node hone hout dependent hdependent
      rcases hsecond.derives dependent with hsame | hmore
      · exact hsame.trans hdirty
      · exact hmore
    · exact hsecond.closed node htwo (by simp) dependent hdependent
  · intro node
    rcases hsecond.framed node with hsame | ⟨htwo, hfollowed, hframed⟩
    · rcases hfirst.framed node with hsameFirst | ⟨hone, hfollowed, hframed⟩
      · exact .inl (hsame.trans hsameFirst)
      · exact .inr ⟨(hmarked node).mpr (.inl hone), hfollowed, hsame.trans hframed⟩
    refine .inr ⟨(hmarked node).mpr (.inr htwo), hwatched node ▸ hfollowed, ?_⟩
    rw [hframed, hbefore node htwo]
  · intro node hnode hfollowed
    rcases (hmarked node).mp hnode with hone | htwo
    · exact (hstays node hone).trans (hfirst.kept node hone hfollowed)
    · rw [hsecond.kept node htwo ((hwatched node).trans hfollowed), hbefore node htwo]
  obtain ⟨added, hadded, honce, hlisted⟩ := hfirst.listed
  obtain ⟨more, hmore, hmoreOnce, hmoreListed⟩ := hsecond.listed
  refine ⟨added ++ more, by rw [hmore, hadded, append_assoc], ?_, ?_⟩
  · rw [nodup_append]
    refine ⟨honce, hmoreOnce, ?_⟩
    rintro node hone other htwo rfl
    exact hapart node ((hlisted node).mp hone).1 ((hmoreListed node).mp htwo).1
  intro node
  rw [mem_append, hlisted, hmoreListed, hmarked, hwatched]
  exact or_and_right.symm

/-- The derives that a change marks: over it, through derives that are not dirty. -/
inductive Marks (graph : Graph V E) (state : State V E O) : Nat → Nat → Prop
  | single {source node : Nat} (hnode : node ∈ graph.dependents source)
      (hclean : state.derives node ≠ .dirty) : Marks graph state source node
  | through {source node last : Nat} (hnode : node ∈ graph.dependents source)
      (hclean : state.derives node ≠ .dirty) (hrest : Marks graph state node last) :
      Marks graph state source last

theorem Marks.mono (hmarked : Marked graph unclosed before after) {source node : Nat}
    (hmarks : Marks graph after source node) : Marks graph before source node := by
  have hclean : ∀ node, after.derives node ≠ .dirty → before.derives node ≠ .dirty := by
    intro node hclean
    rcases hmarked.derives node with hsame | hdirty
    · rwa [← hsame]
    · exact absurd hdirty hclean
  induction hmarks with
  | single hnode hafter => exact .single hnode (hclean _ hafter)
  | through hnode hafter _ ih => exact .through hnode (hclean _ hafter) ih

/-- What `mark` does to one derive. -/
theorem mark_spec {node : Nat} (hclean : state.derives node ≠ .dirty) :
    Marked graph [node] state (state.mark node) ∧ (state.mark node).derives node = .dirty ∧
      ∀ other, MarkedIn state (state.mark node) other → other = node := by
  have hderives : (state.mark node).derives = update state.derives node .dirty := by
    rw [mark]
    split <;> rfl
  have hself : (state.mark node).derives node = .dirty := by
    rw [hderives]
    exact update_self _ _ _
  have hother : ∀ other, other ≠ node → (state.mark node).derives other = state.derives other := by
    intro other hne
    rw [hderives]
    exact update_of_ne hne _ _
  have honly : ∀ other, MarkedIn state (state.mark node) other → other = node := by
    intro other hmarked
    by_contra hne
    exact hmarked.1 ((hother other hne).symm.trans hmarked.2)
  refine ⟨⟨?_, ?_, ?_, ?_, ?_, ?_, ?_, ?_, ?_, ?_, ?_⟩, hself, honly⟩
  · rw [mark]
    split <;> rfl
  · rw [mark]
    split <;> rfl
  · rw [mark]
    split <;> rfl
  · rw [mark]
    split <;> rfl
  · rw [mark]
    split <;> rfl
  · rw [mark]
    split <;> rfl
  · intro other
    by_cases hsame : other = node
    · exact .inr (hsame ▸ hself)
    · exact .inl (hother other hsame)
  · intro other hmarked hout
    exact absurd (honly other hmarked) (by simpa using hout)
  · intro other
    by_cases hsame : other = node
    · subst hsame
      by_cases hwatched : state.watched other = true
      · refine .inr ⟨⟨hclean, hself⟩, hwatched, ?_⟩
        simp [mark, hwatched]
      left
      simp [mark, hwatched]
    left
    by_cases hwatched : state.watched node = true
    · simp [mark, hwatched, update_of_ne hsame]
    · simp [mark, hwatched]
  · intro other hmarked hwatched
    obtain rfl := honly other hmarked
    simp [mark, hwatched]
  by_cases hwatched : state.watched node = true
  · refine ⟨[node], by simp [mark, hwatched], by simp, ?_⟩
    intro other
    rw [mem_singleton]
    constructor
    · rintro rfl
      exact ⟨⟨hclean, hself⟩, hwatched⟩
    · exact fun hmarked => honly other hmarked.1
  refine ⟨[], by simp [mark, hwatched], by simp, ?_⟩
  intro other
  simp only [not_mem_nil, false_iff]
  rintro ⟨hmarked, hfollowed⟩
  obtain rfl := honly other hmarked
  exact hwatched hfollowed

/-- The nodes marked are the listed ones, or over them. -/
def Reaches (graph : Graph V E) (roots : List Nat) (before after : State V E O) : Prop :=
  ∀ node, MarkedIn before after node →
    ∃ root ∈ roots, before.derives root ≠ .dirty ∧ (node = root ∨ Marks graph before root node)

/-- What `invalidate` does. -/
structure Invalidates (graph : Graph V E) (roots : List Nat) (before after : State V E O) : Prop where
  marked : Marked graph [] before after
  dirtied : ∀ root ∈ roots, after.derives root = .dirty
  reaches : Reaches graph roots before after

theorem foldl_invalidate {mark : State V E O → Nat → State V E O} {nodes : List Nat}
    (hmark : ∀ state : State V E O, ∀ node ∈ nodes, Invalidates graph [node] state (mark state node)) :
    Invalidates graph nodes state (nodes.foldl mark state) := by
  induction nodes generalizing state with
  | nil => exact ⟨.refl, by simp, fun node hmarked => absurd hmarked.2 hmarked.1⟩
  | cons node rest ih =>
    rw [foldl_cons]
    obtain ⟨hone, hroot, hreach⟩ := hmark state node mem_cons_self
    obtain ⟨htwo, hroots, hreaches⟩ := @ih (mark state node)
      fun state other hother => hmark state other (mem_cons_of_mem _ hother)
    refine ⟨hone.trans htwo, ?_, ?_⟩
    · intro root hmem
      rcases mem_cons.mp hmem with rfl | hmem
      · rcases htwo.derives root with hsame | hdirty
        · exact hsame.trans (hroot root mem_cons_self)
        · exact hdirty
      · exact hroots root hmem
    intro other hmarked
    rcases (markedIn_trans hone htwo other).mp hmarked with hfirst | hsecond
    · obtain ⟨root, hmem, hclean, hover⟩ := hreach other hfirst
      obtain rfl := mem_singleton.mp hmem
      exact ⟨root, mem_cons_self, hclean, hover⟩
    obtain ⟨root, hmem, hclean, hover⟩ := hreaches other hsecond
    refine ⟨root, mem_cons_of_mem _ hmem, ?_, ?_⟩
    · rcases hone.derives root with hsame | hdirty
      · rwa [← hsame]
      · exact absurd hdirty hclean
    rcases hover with rfl | hover
    · exact .inl rfl
    · exact .inr (hover.mono hone)

theorem invalidate_spec {fuel node : Nat} (hnode : node < graph.nodes.length)
    (hfuel : graph.nodes.length ≤ node + fuel) :
    Invalidates graph [node] state (invalidate graph fuel state node) := by
  induction fuel generalizing state node with
  | zero => omega
  | succ fuel ih =>
    by_cases hdirty : state.derives node = .dirty
    · simp only [invalidate, hdirty]
      refine ⟨.refl, ?_, fun other hmarked => absurd hmarked.2 hmarked.1⟩
      simpa using hdirty
    have hinvalidate : invalidate graph (fuel + 1) state node =
        (graph.dependents node).foldl (invalidate graph fuel) (state.mark node) := by
      rw [invalidate]
      split
      next hagain =>
        exact absurd hagain hdirty
      · rfl
    rw [hinvalidate]
    obtain ⟨hmarked, hself, honly⟩ := @mark_spec V E O graph state node hdirty
    obtain ⟨hspread, hroots, hreaches⟩ := @foldl_invalidate V E O graph (state.mark node)
      (invalidate graph fuel) (graph.dependents node) (by
        intro state dependent hdependent
        obtain ⟨sources, compute, hfound, hsource⟩ := (graph.dependents_iff node dependent).mp hdependent
        have hless := graph.acyclic dependent sources compute hfound node hsource
        have hbound := (List.getElem?_eq_some_iff.mp hfound).1
        exact ih hbound (by omega))
    have hboth := hmarked.trans hspread
    have hdirtied : ((graph.dependents node).foldl (invalidate graph fuel) (state.mark node)).derives node =
        .dirty := by
      rcases hspread.derives node with hsame | hagain
      · exact hsame.trans hself
      · exact hagain
    refine ⟨⟨hboth.values, hboth.good, hboth.followers, hboth.nextFollower, hboth.running,
      hboth.computes, hboth.derives, ?_, hboth.framed, hboth.kept, hboth.listed⟩, ?_, ?_⟩
    · intro other hother _ dependent hdependent
      by_cases hsame : other = node
      · subst hsame
        exact hroots dependent hdependent
      · exact hboth.closed other hother (by simpa using hsame) dependent hdependent
    · intro root hroot
      obtain rfl := mem_singleton.mp hroot
      exact hdirtied
    intro other hother
    refine ⟨node, mem_singleton.mpr rfl, hdirty, ?_⟩
    rcases (markedIn_trans hmarked hspread other).mp hother with hfirst | hsecond
    · exact .inl (honly other hfirst)
    obtain ⟨root, hroot, hclean, hover⟩ := hreaches other hsecond
    have hrootClean : state.derives root ≠ .dirty := by
      rcases hmarked.derives root with hsame | hagain
      · rwa [← hsame]
      · exact absurd hagain hclean
    right
    rcases hover with rfl | hover
    · exact .single hroot hrootClean
    · exact .through hroot hrootClean (hover.mono hmarked)

end Hummin.Derives
