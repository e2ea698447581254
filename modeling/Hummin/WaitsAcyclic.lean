/-
What keeps the wait-for graph without cycles: a commit that adds no wait leads new tasks to
new tasks only, and a wait adds edges of one task, which the search has checked.
-/
import Hummin.Acyclic
import Hummin.WaitGraph

namespace Hummin.Scheduler

open Option

namespace Stored

variable {stored next : Stored} {start node : Node} {id other : TaskId} {change : Write}

open Relation

/-! ### The graph of what was stored before -/

theorem Grows.opens (hgrows : Grows stored next) (hnode : stored.has node = true)
    (hopens : next.opens node = true) : stored.opens node = true := by
  cases node with
  | conversation id => rfl
  | task id =>
    obtain ⟨record, hrecord⟩ := isSome_iff_exists.mp hnode
    obtain ⟨later, hlater, hsame, -⟩ := hgrows.task id record hrecord
    rw [Stored.opens, hlater] at hopens
    rw [Stored.opens, hrecord]
    dsimp only at hopens ⊢
    rw [← hsame]
    exact hopens

/-- Ordinary traversal reaches what was stored as it did. -/
theorem Forest.reaches_of_grows (hforest : Forest stored) (hgrows : Grows stored next)
    (hnode : stored.has node = true) (hreaches : next.Reaches start node) :
    stored.Reaches start node := by
  induction hreaches with
  | child hparent => exact .child (hforest.parent_of_grows hgrows hnode hparent).1
  | through _ hopens hparent ih =>
    obtain ⟨hup, hhas⟩ := hforest.parent_of_grows hgrows hnode hparent
    exact .through (ih hhas) (hgrows.opens hhas hopens) hup

theorem Grows.live (hgrows : Grows stored next) (hid : (stored.tasks id).isSome = true)
    (hlive : next.Live id) : stored.Live id := by
  obtain ⟨record, hrecord⟩ := isSome_iff_exists.mp hid
  obtain ⟨later, hlater, -, hended⟩ := hgrows.task id record hrecord
  obtain ⟨found, hfound, hisLive⟩ := hlive
  cases hlater.symm.trans hfound
  refine ⟨record, hrecord, ?_⟩
  by_contra hdead
  rw [Bool.not_eq_true] at hdead
  rw [hended hdead, hdead] at hisLive
  cases hisLive

theorem Forest.owns_of_grows (hforest : Forest stored) (hgrows : Grows stored next)
    (hother : (stored.tasks other).isSome = true) (howns : next.Owns id other) :
    stored.Owns id other := by
  obtain ⟨record, hrecord, hisLive⟩ := hgrows.live hother howns.live
  obtain ⟨later, hlater, hsame, -⟩ := hgrows.task other record hrecord
  obtain ⟨found, hfound, -, hordinary, hreaches⟩ := howns
  cases hlater.symm.trans hfound
  refine ⟨record, hrecord, hisLive, ?_, ?_⟩
  · rw [← hsame]
    exact hordinary
  · exact hforest.reaches_of_grows hgrows hother hreaches

/-! ### Changes that add no wait -/

/-- A store that took no new wait. -/
structure Keeps (stored next : Stored) : Prop extends Grows stored next where
  waits : ∀ id record on policy, next.tasks id = some record → record.state = .waiting on policy →
    ∃ previous, stored.tasks id = some previous ∧ previous.state = .waiting on policy ∧
      (record.abortRequested = false → previous.abortRequested = false)

theorem Keeps.names (hkeeps : Keeps stored next) (hnames : stored.Names) : next.Names := by
  intro id record on policy hrecord hwaiting member hmember
  obtain ⟨previous, hprevious, hwaited, -⟩ := hkeeps.waits id record on policy hrecord hwaiting
  have hnamed := hnames id previous on policy hprevious hwaited member hmember
  exact @Grows.has _ _ hkeeps.toGrows (.task member) hnamed

theorem Keeps.acyclic (hkeeps : Keeps stored next) (hforest : Forest stored)
    (hnext : Forest next) (hacyclic : Acyclic stored.WaitsFor) : Acyclic next.WaitsFor := by
  apply @Acyclic.add_nodes _ _ _ (fun id => stored.tasks id = none) (fun id => id) hacyclic
  · rintro id other ⟨hid, hother, hedge⟩ hold
    rw [← ne_eq, ← isSome_iff_ne_none] at hold
    rcases hedge with ⟨record, on, policy, hrecord, hwaiting, hmark, hmember⟩ | howns
    · obtain ⟨previous, hprevious, hwaited, hunmarked⟩ :=
        hkeeps.waits id record on policy hrecord hwaiting
      refine ⟨hkeeps.toGrows.live (isSome_iff_exists.mpr ⟨previous, hprevious⟩) hid,
        hkeeps.toGrows.live hold hother, .inl ?_⟩
      exact ⟨previous, on, policy, hprevious, hwaited, hunmarked hmark, hmember⟩
    have hearlier := hforest.owns_of_grows hkeeps.toGrows hold howns
    obtain ⟨-, -, -, -, hreaches⟩ := howns
    have hstart := hreaches.has_start hforest hkeeps.toGrows hold
    exact ⟨hkeeps.toGrows.live hstart hid, hkeeps.toGrows.live hold hother, .inr hearlier⟩
  rintro id other hnew ⟨-, -, hedge⟩
  rcases hedge with ⟨record, on, policy, hrecord, hwaiting, -⟩ | ⟨-, -, -, -, hreaches⟩
  · obtain ⟨previous, hprevious, -⟩ := hkeeps.waits id record on policy hrecord hwaiting
    cases hnew.symm.trans hprevious
  refine ⟨?_, hreaches.lt hnext⟩
  by_contra hold
  rw [← ne_eq, ← isSome_iff_ne_none] at hold
  have hstart := hreaches.has_start hforest hkeeps.toGrows hold
  rw [has, hnew] at hstart
  cases hstart

/-- A child is never background. -/
def Ordinary (stored : Stored) : Prop :=
  ∀ id record owner, stored.tasks id = some record → record.owner = some owner →
    record.background = false

/-- What every committed store is. -/
structure Sane (stored : Stored) : Prop where
  forest : Forest stored
  names : Names stored
  ordinary : Ordinary stored
  acyclic : Acyclic stored.WaitsFor

/-- A write that adds no wait, and makes no child background. -/
def Quiet (stored : Stored) : Write → Prop
  | .conversation _ _ => True
  | .task record =>
    (∀ on policy, record.state = .waiting on policy →
      ∃ previous, stored.tasks record.id = some previous ∧ previous.state = .waiting on policy ∧
        (record.abortRequested = false → previous.abortRequested = false)) ∧
    ∀ owner, record.owner = some owner → record.background = false

theorem Forest.keeps_write (hforest : Forest stored) (hquiet : Quiet stored change)
    (hwrite : stored.write change = some next) : Keeps stored next := by
  refine ⟨hforest.grows_write hwrite, ?_⟩
  intro id record on policy hrecord hwaiting
  cases change with
  | conversation conversation owner =>
    rw [tasks_write_conversation hwrite] at hrecord
    exact ⟨record, hrecord, hwaiting, fun hmark => hmark⟩
  | task written =>
    rw [tasks_write_task hwrite] at hrecord
    by_cases hid : id = written.id
    · subst hid
      rw [Function.update_self] at hrecord
      cases hrecord
      exact hquiet.1 on policy hwaiting
    rw [Function.update_of_ne hid] at hrecord
    exact ⟨record, hrecord, hwaiting, fun hmark => hmark⟩

theorem Ordinary.write (hordinary : Ordinary stored)
    (hwritten : ∀ record, change = .task record → ∀ owner, record.owner = some owner →
      record.background = false) (hwrite : stored.write change = some next) : Ordinary next := by
  intro id record owner hrecord howner
  cases change with
  | conversation conversation owner =>
    rw [tasks_write_conversation hwrite] at hrecord
    exact hordinary id record _ hrecord howner
  | task written =>
    rw [tasks_write_task hwrite] at hrecord
    by_cases hid : id = written.id
    · rw [hid, Function.update_self] at hrecord
      obtain rfl := some.inj hrecord
      exact hwritten written rfl owner howner
    rw [Function.update_of_ne hid] at hrecord
    exact hordinary id record owner hrecord howner

theorem Sane.write (hsane : Sane stored) (hquiet : Quiet stored change)
    (hwrite : stored.write change = some next) : Sane next := by
  have hkeeps := hsane.forest.keeps_write hquiet hwrite
  have hforest := hsane.forest.write hwrite
  refine ⟨hforest, hkeeps.names hsane.names, ?_, hkeeps.acyclic hsane.forest hforest hsane.acyclic⟩
  apply hsane.ordinary.write _ hwrite
  rintro record rfl
  exact hquiet.2

/-! ### A wait -/

/-- A wait of a running task keeps the graph without cycles when the live tasks it names are
its children or lead back to it along no path. -/
theorem Sane.wait (hsane : Sane stored) {current : TaskRecord} {on : List TaskId}
    {policy : JoinPolicy} (hcurrent : stored.tasks id = some current)
    (hnamed : ∀ member ∈ on, (stored.tasks member).isSome = true)
    (hfree : ∀ member ∈ on, ∀ record, stored.tasks member = some record → record.isLive = true →
      record.owner ≠ some id → ¬ ReflTransGen stored.WaitsFor member id)
    (hwrite : stored.write (.task { current with state := .waiting on policy }) = some next) :
    Sane next := by
  have hgrows := hsane.forest.grows_write hwrite
  have hforest := hsane.forest.write hwrite
  obtain rfl := hsane.forest.taskId id current hcurrent
  have htasks := tasks_write_task hwrite
  have hself : next.tasks current.id = some { current with state := .waiting on policy } := by
    rw [htasks, Function.update_self]
  have hothers : ∀ other, other ≠ current.id → next.tasks other = stored.tasks other := by
    intro other hne
    rw [htasks, Function.update_of_ne hne]
  have hexists : ∀ other, (next.tasks other).isSome = true → (stored.tasks other).isSome = true := by
    intro other hother
    by_cases hne : other = current.id
    · rw [hne, hcurrent]
      rfl
    rw [hothers other hne] at hother
    exact hother
  refine ⟨hforest, ?_, ?_, ?_⟩
  · intro other record members joins hrecord hwaiting member hmember
    apply @Grows.has _ _ hgrows (.task member)
    by_cases hne : other = current.id
    · rw [hne, hself] at hrecord
      cases hrecord
      cases hwaiting
      exact hnamed member hmember
    rw [hothers other hne] at hrecord
    exact hsane.names other record members joins hrecord hwaiting member hmember
  · apply hsane.ordinary.write _ hwrite
    rintro record hrecord owner howner
    cases hrecord
    exact hsane.ordinary _ current owner hcurrent howner
  apply @Acyclic.add_edges _ _ _ current.id (fun member => ∃ record, member ∈ on ∧
    stored.tasks member = some record ∧ record.isLive = true ∧ record.owner ≠ some current.id) hsane.acyclic
  · rintro first second ⟨hfirst, hsecond, hedge⟩
    have hfirstLive := hgrows.live (hexists first hfirst.exists_isSome) hfirst
    have hsecondLive := hgrows.live (hexists second hsecond.exists_isSome) hsecond
    rcases hedge with ⟨record, members, joins, hrecord, hwaiting, hmark, hmember⟩ | howns
    · by_cases hne : first = current.id
      · subst hne
        rw [hself] at hrecord
        cases hrecord
        cases hwaiting
        obtain ⟨found, hfound, hisLive⟩ := hsecondLive
        by_cases hchild : found.owner = some current.id
        · -- A live child already holds the waiter.
          left
          refine ⟨hfirstLive, ⟨found, hfound, hisLive⟩, .inr ⟨found, hfound, hisLive, ?_, .child ?_⟩⟩
          · exact hsane.ordinary second found current.id hfound hchild
          · rw [parent, hfound, map_some, parentNode, hchild]
        · exact .inr ⟨rfl, found, hmember, hfound, hisLive, hchild⟩
      rw [hothers first hne] at hrecord
      exact .inl ⟨hfirstLive, hsecondLive,
        .inl ⟨record, members, joins, hrecord, hwaiting, hmark, hmember⟩⟩
    left
    exact ⟨hfirstLive, hsecondLive,
      .inr (hsane.forest.owns_of_grows hgrows (hexists second hsecond.exists_isSome) howns)⟩
  · rintro member ⟨record, hmember, hrecord, hisLive, howner⟩
    exact hfree member hmember record hrecord hisLive howner

end Stored

end Hummin.Scheduler
