/-
Loaded chains: a known task that is not marked unloaded has every node above it known, up
to an ownerless conversation.
-/
import Mathlib.Logic.Relation
import Hummin.OwnershipListed

namespace Hummin.Scheduler

open Option Function

namespace Memory

variable {memory next : Memory} {node up other : Node} {gone : Node → Prop}

/-- A known node hangs from another. -/
def Hangs (memory : Memory) (node up : Node) : Prop :=
  memory.parent node = some (some up)

/-- The known nodes lead up from one node to another. -/
def Above (memory : Memory) : Node → Node → Prop :=
  Relation.ReflTransGen (Hangs memory)

/-- Every node from this one up to an ownerless conversation is known. -/
inductive Rooted (memory : Memory) : Node → Prop
  | root {node : Node} (hroot : memory.parent node = some none) : Rooted memory node
  | hangs {node up : Node} (hup : Hangs memory node up) (hrooted : Rooted memory up) :
      Rooted memory node

/-- A known task outside `unloaded` has a loaded chain. -/
def Chained (memory : Memory) : Prop :=
  ∀ id, memory.taskNode id ≠ none → id ∉ memory.unloaded → Rooted memory (.task id)

/-- What is known of a node stays known. -/
def Extends (memory next : Memory) : Prop :=
  ∀ node found, memory.parent node = some found → next.parent node = some found

theorem Extends.refl (memory : Memory) : Extends memory memory :=
  fun _ _ hfound => hfound

theorem Extends.trans {last : Memory} (hfirst : Extends memory next)
    (hsecond : Extends next last) : Extends memory last :=
  fun node found hfound => hsecond node found (hfirst node found hfound)

theorem SameNodes.extends (hsame : SameNodes memory next) : Extends memory next :=
  fun node _ hfound => (hsame.parent node).trans hfound

theorem Installs.extends (hinstalls : Installs memory next node) : Extends memory next :=
  fun _ _ hfound => hinstalls.parent_of_some hfound

theorem Above.mono (habove : Above memory node up) (hextends : Extends memory next) :
    Above next node up := by
  induction habove with
  | refl => exact .refl
  | tail _ hup ih => exact ih.tail (hextends _ _ hup)

theorem Rooted.mono (hrooted : Rooted memory node) (hextends : Extends memory next) :
    Rooted next node := by
  induction hrooted with
  | root hroot => exact .root (hextends _ _ hroot)
  | hangs hup _ ih => exact .hangs (hextends _ _ hup) ih

theorem Rooted.of_above (habove : Above memory node up) (hrooted : Rooted memory up) :
    Rooted memory node := by
  induction habove using Relation.ReflTransGen.head_induction_on with
  | refl => exact hrooted
  | head hup _ ih => exact .hangs hup ih

theorem Rooted.known (hrooted : Rooted memory node) : memory.parent node ≠ none := by
  cases hrooted with
  | root hroot => exact hroot ▸ some_ne_none _
  | hangs hup _ =>
    rw [Hangs] at hup
    exact hup ▸ some_ne_none _

/-- A listed node keeps everything above it needed. -/
theorem Listed.needed_of_above (hlisted : Listed memory) (habove : Above memory node up)
    (hneeded : memory.needed node = true) : memory.needed up = true := by
  induction habove with
  | refl => exact hneeded
  | tail _ hup ih => exact needed_of_mem_below (((hlisted.all _).below _ hup).mpr ih)

/-! ### Chains under changes -/

theorem Chained.congr (hchained : Chained memory) (hsame : SameNodes memory next)
    (hunloaded : ∀ id ∈ memory.unloaded, id ∈ next.unloaded) : Chained next := by
  intro id hknown hloaded
  rw [hsame.taskNode] at hknown
  exact (hchained id hknown fun hid => hloaded (hunloaded id hid)).mono hsame.extends

theorem Chained.relists (hchained : Chained memory) (hrelists : Relists memory next) :
    Chained next :=
  hchained.congr hrelists.toSameNodes fun _ hid => hrelists.unloaded ▸ hid

theorem relists_relist_dropIfUnneeded (node : Node) :
    Relists memory ((memory.relist node).dropIfUnneeded node) :=
  (relists_relist node).trans (relists_dropIfUnneeded node)

/-- Only one task becomes known, and it is rooted or marked. -/
theorem Chained.of_extends (hchained : Chained memory) (hextends : Extends memory next)
    (hunloaded : ∀ id, id ∉ next.unloaded → id ∉ memory.unloaded)
    (hnew : ∀ id, next.taskNode id ≠ none → memory.taskNode id = none → id ∉ next.unloaded →
      Rooted next (.task id)) : Chained next := by
  intro id hknown hloaded
  by_cases hold : memory.taskNode id = none
  · exact hnew id hknown hold hloaded
  · exact (hchained id hold (hunloaded id hloaded)).mono hextends

theorem Chained.setEdge (hchained : Chained memory) {id : ConversationId} {owner : Option TaskId}
    (hnew : memory.edges id = none) (howner : ∀ task ∈ owner, task < id) :
    Chained (memory.setEdge id owner) := by
  have hput : Chained (memory.putEdge id owner) := by
    apply hchained.of_extends (installs_putEdge hnew howner).extends (fun _ hid => hid)
    intro task hknown hunknown
    exact absurd hunknown hknown
  exact hput.relists (relists_relist_dropIfUnneeded _)

variable {id : TaskId} {fields : TaskNode}

theorem taskNode_putSettled_of_ne {task : TaskId} (hne : task ≠ id) :
    (memory.putSettled id fields).taskNode task = memory.taskNode task := by
  rw [Memory.taskNode, Memory.taskNode, putSettled]
  dsimp only
  rw [update_of_ne hne]

theorem Chained.settle (hchained : Chained memory)
    (hnew : memory.taskNode id = none) (hordered : (parentNode fields).id < id) :
    Chained (memory.settle id fields) := by
  have hput : Chained (memory.putSettled id fields) := by
    apply hchained.of_extends (installs_putSettled hnew hordered).extends
    · intro task hloaded hold
      exact hloaded (mem_add.mpr (.inl hold))
    intro task hknown hunknown hloaded
    by_cases htask : task = id
    · exact absurd (mem_add.mpr (.inr htask)) hloaded
    rw [taskNode_putSettled_of_ne htask] at hknown
    exact absurd hunknown hknown
  exact hput.relists (relists_relist_dropIfUnneeded _)

/-- A node whose chain is known to be loaded is rooted. -/
theorem Chained.rooted_of_known (hchained : Chained memory) (hknown : memory.known node = true) :
    Rooted memory node := by
  have htask : ∀ id, ((memory.taskNode id).isSome && decide (id ∉ memory.unloaded)) = true →
      Rooted memory (.task id) := by
    intro id hid
    rw [Bool.and_eq_true, decide_eq_true_eq, isSome_iff_ne_none] at hid
    exact hchained id hid.1 hid.2
  cases node with
  | task id => exact htask id hknown
  | conversation id =>
    rw [Memory.known] at hknown
    split at hknown
    · cases hknown
    next hedge =>
      apply Rooted.root
      rw [Memory.parent, hedge]
      rfl
    next owner hedge =>
      apply Rooted.hangs _ (htask owner hknown)
      rw [Hangs, Memory.parent, hedge]
      rfl

variable {record : TaskRecord}

theorem taskNode_setLive_of_ne (hne : id ≠ record.id) :
    (memory.setLive record).taskNode id = memory.taskNode id := by
  rw [Memory.taskNode, Memory.taskNode, setLive]
  dsimp only
  rw [update_of_ne hne]

theorem known_setLive (hne : node ≠ .task record.id)
    (hedge : ∀ id owner, node = .conversation id → memory.edges id = some (some owner) →
      owner ≠ record.id) : (memory.setLive record).known node = memory.known node := by
  cases node with
  | task id =>
    have hid : id ≠ record.id := fun heq => hne (congrArg Node.task heq)
    rw [Memory.known, Memory.known, taskNode_setLive_of_ne hid]
    rfl
  | conversation id =>
    have hsame : (memory.setLive record).edges id = memory.edges id := rfl
    rw [Memory.known, Memory.known, hsame]
    cases hfound : memory.edges id with
    | none => rfl
    | some edge =>
      cases edge with
      | none => rfl
      | some owner =>
        dsimp only
        rw [taskNode_setLive_of_ne (hedge id owner rfl hfound)]
        rfl

section

variable (hchained : Chained memory)
include hchained

theorem Chained.setEnded (hfits : Fits memory record) (hlive : memory.live record.id ≠ none) :
    Chained (memory.setEnded record) := by
  apply hchained.of_extends hfits.installs_setEnded.extends (fun _ hid => hid)
  intro id hknown hunknown
  by_cases hid : id = record.id
  · rw [hid] at hunknown
    exact absurd (live_eq_none_of_taskNode hunknown) hlive
  rw [Memory.taskNode, Memory.setEnded] at hknown
  dsimp only at hknown
  rw [update_of_ne hid, update_of_ne hid] at hknown
  exact absurd hunknown hknown

/-- A known parent's chain is loaded once the new task is live. -/
theorem Chained.rooted_setLive (hhung : Hung memory) (hfits : Fits memory record)
    (hknown : (memory.setLive record).known (parentNode record.toTaskNode) = true) :
    Rooted (memory.setLive record) (.task record.id) := by
  have hne : parentNode record.toTaskNode ≠ .task record.id := by
    intro heq
    exact absurd hfits.ordered (heq ▸ Nat.lt_irrefl _)
  rw [known_setLive hne] at hknown
  · apply Rooted.hangs (parent_task_of_taskNode taskNode_setLive_self)
    exact (hchained.rooted_of_known hknown).mono hfits.installs_setLive.extends
  rintro id owner hparent hedge rfl
  have howner : record.id < id := by
    apply hhung.ordered (.conversation id) (.task record.id)
    rw [Memory.parent, hedge]
    rfl
  have hordered := hfits.ordered
  rw [hparent] at hordered
  exact Nat.lt_asymm howner hordered

theorem Chained.markUnloaded (hhung : Hung memory) (hfits : Fits memory record) :
    Chained ((memory.setLive record).markUnloaded record) := by
  apply hchained.of_extends hfits.installs_markUnloaded.extends
  · intro id hloaded hold
    apply hloaded
    rw [Memory.markUnloaded]
    split
    · exact hold
    · exact mem_add.mpr (.inl hold)
  intro id hnew hunknown hloaded
  obtain rfl : id = record.id := by
    by_contra hid
    exact hnew ((taskNode_setLive_of_ne hid).trans hunknown)
  by_cases hknown : (memory.setLive record).known (parentNode record.toTaskNode) = true
  · exact (hchained.rooted_setLive hhung hfits hknown).mono fun _ _ hfound => hfound
  rw [Memory.markUnloaded] at hloaded
  rw [if_neg hknown] at hloaded
  exact absurd (mem_add.mpr (.inr rfl)) hloaded

theorem Chained.track (hhung : Hung memory)
    (hfits : Fits memory record) (hends : record.state = .terminal → memory.live record.id ≠ none) :
    Chained (memory.track record) := by
  rw [Memory.track]
  split
  next hterminal =>
    exact (hchained.setEnded hfits (hends hterminal)).relists (relists_relist_dropIfUnneeded _)
  split
  next previous hprevious =>
    apply hchained.of_extends hfits.installs_setLive.extends (fun _ hid => hid)
    intro id hknown hunknown
    by_cases hid : id = record.id
    · rw [hid] at hunknown
      rw [live_eq_none_of_taskNode hunknown] at hprevious
      cases hprevious
    rw [taskNode_setLive_of_ne hid] at hknown
    exact absurd hunknown hknown
  · exact (hchained.markUnloaded hhung hfits).relists (relists_relist _)

end

/-! ### Chains under sweeps -/

theorem Above.forgets (habove : Above memory node up) (hforgets : Forgets memory next gone)
    (hkept : ∀ between, Above memory node between → ¬ gone between) : Above next node up := by
  induction habove with
  | refl => exact .refl
  | tail hbetween hup ih =>
    apply ih.tail
    rw [Hangs, hforgets.parent (hkept _ hbetween)]
    exact hup

theorem Rooted.forgets (hrooted : Rooted memory node) (hforgets : Forgets memory next gone)
    (hkept : ∀ between, Above memory node between → ¬ gone between) : Rooted next node := by
  induction hrooted with
  | root hroot => exact .root ((hforgets.parent (hkept _ .refl)).trans hroot)
  | hangs hup _ ih =>
    apply Rooted.hangs ((hforgets.parent (hkept _ .refl)).trans hup)
    apply ih
    intro between hbetween
    exact hkept between (hbetween.head hup)

/-- No node above one that stays is forgotten. -/
theorem Listed.kept_above (hlisted : Listed memory) (hforgets : Forgets memory next gone)
    (hneeded : memory.needed node = true) (habove : Above memory node up) : ¬ gone up := by
  intro hgone
  have hup := hlisted.needed_of_above habove hneeded
  rw [hforgets.unneeded up hgone] at hup
  cases hup

end Memory

end Hummin.Scheduler
