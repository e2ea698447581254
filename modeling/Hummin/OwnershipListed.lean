/-
The downward index lists a known node exactly while it is a live task or has nodes
listed below it, and every other known node is pinned or queued for the sweep.
-/
import Hummin.OwnershipIndex

namespace Hummin.Scheduler

open List Option Function

section Sets

variable {α : Type} [DecidableEq α] {set : List α} {value other : α}

@[simp] theorem mem_add : other ∈ add set value ↔ other ∈ set ∨ other = value := by
  rw [add]
  split
  next hmem =>
    constructor
    · exact .inl
    rintro (hother | rfl)
    · exact hother
    · exact hmem
  · rw [mem_append, mem_singleton]

@[simp] theorem mem_delete : other ∈ delete set value ↔ other ∈ set ∧ other ≠ value := by
  rw [delete, mem_filter, decide_eq_true_eq]

end Sets

namespace Memory

variable {memory next : Memory} {node up other : Node} {children : List Node}

/-! ### What changes leave alone -/

/-- The same tasks and conversations are known. -/
structure SameNodes (memory next : Memory) : Prop where
  live : next.live = memory.live
  settled : next.settled = memory.settled
  edges : next.edges = memory.edges

/-- Only what is listed and queued changes. -/
structure Relists (memory next : Memory) : Prop extends SameNodes memory next where
  unloaded : next.unloaded = memory.unloaded
  pins : next.pins = memory.pins

theorem Relists.refl (memory : Memory) : Relists memory memory :=
  ⟨⟨rfl, rfl, rfl⟩, rfl, rfl⟩

theorem Relists.trans {last : Memory} (hfirst : Relists memory next)
    (hsecond : Relists next last) : Relists memory last :=
  ⟨⟨hsecond.live.trans hfirst.live, hsecond.settled.trans hfirst.settled,
    hsecond.edges.trans hfirst.edges⟩, hsecond.unloaded.trans hfirst.unloaded,
    hsecond.pins.trans hfirst.pins⟩

theorem SameNodes.taskNode (hsame : SameNodes memory next) (id : TaskId) :
    next.taskNode id = memory.taskNode id := by
  rw [Memory.taskNode, Memory.taskNode, hsame.live, hsame.settled]

theorem SameNodes.parent (hsame : SameNodes memory next) (node : Node) :
    next.parent node = memory.parent node := by
  cases node with
  | task id => rw [Memory.parent, Memory.parent, hsame.taskNode]
  | conversation id => rw [Memory.parent, Memory.parent, hsame.edges]

theorem SameNodes.isLive (hsame : SameNodes memory next) (node : Node) :
    next.isLive node = memory.isLive node := by
  cases node with
  | task id => rw [Memory.isLive, Memory.isLive, hsame.live]
  | conversation id => rfl

theorem relists_setBelow (node : Node) (children : List Node) :
    Relists memory (memory.setBelow node children) :=
  ⟨⟨rfl, rfl, rfl⟩, rfl, rfl⟩

theorem relists_setRoots (roots : List ConversationId) :
    Relists memory { memory with roots := roots } :=
  ⟨⟨rfl, rfl, rfl⟩, rfl, rfl⟩

theorem relists_dropIfUnneeded (node : Node) : Relists memory (memory.dropIfUnneeded node) := by
  rw [dropIfUnneeded]
  split
  · exact .refl memory
  · exact ⟨⟨rfl, rfl, rfl⟩, rfl, rfl⟩

@[simp] theorem below_dropIfUnneeded (node : Node) :
    (memory.dropIfUnneeded node).below = memory.below := by
  rw [dropIfUnneeded]
  split <;> rfl

@[simp] theorem roots_dropIfUnneeded (node : Node) :
    (memory.dropIfUnneeded node).roots = memory.roots := by
  rw [dropIfUnneeded]
  split <;> rfl

theorem mem_dropQueue_dropIfUnneeded_of_mem {node other : Node}
    (hother : other ∈ memory.dropQueue) : other ∈ (memory.dropIfUnneeded node).dropQueue := by
  rw [dropIfUnneeded]
  split
  · exact hother
  · exact mem_add.mpr (.inl hother)

theorem mem_dropQueue_dropIfUnneeded (hunneeded : memory.needed node = false) :
    node ∈ (memory.dropIfUnneeded node).dropQueue := by
  rw [dropIfUnneeded, hunneeded]
  exact mem_add.mpr (.inr rfl)

theorem below_setBelow_self : (memory.setBelow node children).below node = children :=
  update_self ..

theorem below_setBelow_of_ne (hne : other ≠ node) :
    (memory.setBelow node children).below other = memory.below other :=
  update_of_ne hne ..

theorem hasBelow_iff : memory.hasBelow node = true ↔ ∃ child, child ∈ memory.below node := by
  rw [hasBelow, Bool.not_eq_true', isEmpty_eq_false_iff_exists_mem]

theorem needed_setBelow_of_ne (hne : other ≠ node) :
    (memory.setBelow node children).needed other = memory.needed other := by
  rw [needed, needed, hasBelow, hasBelow, below_setBelow_of_ne hne,
    (relists_setBelow node children).isLive]

theorem needed_of_mem_below (hchild : other ∈ memory.below node) : memory.needed node = true := by
  rw [needed, hasBelow_iff.mpr ⟨other, hchild⟩, Bool.or_true]

theorem needed_setBelow_add :
    (memory.setBelow up (add (memory.below up) node)).needed up = true := by
  apply @needed_of_mem_below _ _ node
  rw [below_setBelow_self]
  exact mem_add.mpr (.inr rfl)

theorem SameNodes.needed (hsame : SameNodes memory next)
    (hbelow : next.below node = memory.below node) : next.needed node = memory.needed node := by
  rw [Memory.needed, Memory.needed, hasBelow, hasBelow, hbelow, hsame.isLive]

/-- A known node without a parent is a conversation. -/
theorem eq_conversation_of_parent_eq_some_none (hroot : memory.parent node = some none) :
    node = .conversation node.id := by
  cases node with
  | task id =>
    rw [Memory.parent, map_eq_some_iff] at hroot
    obtain ⟨_, _, hnone⟩ := hroot
    cases hnone
  | conversation id => rfl

variable {id : TaskId} {bound : Nat}

theorem relists_relistFrom : Relists memory (memory.relistFrom bound node) := by
  induction bound generalizing memory node with
  | zero => exact .refl memory
  | succ bound ih =>
    rw [relistFrom]
    split
    · exact .refl memory
    · exact ⟨⟨rfl, rfl, rfl⟩, rfl, rfl⟩
    rename_i parent _
    dsimp only
    split_ifs
    · exact .refl memory
    · exact relists_setBelow ..
    · exact (relists_setBelow ..).trans ih
    · exact relists_setBelow ..
    · exact ((relists_setBelow ..).trans (relists_dropIfUnneeded parent)).trans ih

theorem relists_relist (node : Node) : Relists memory (memory.relist node) :=
  relists_relistFrom

/-! ### Listing -/

/-- Nodes hang from nodes minted before them, and are listed where they hang. -/
structure Hung (memory : Memory) : Prop where
  ordered : ∀ node parent, memory.parent node = some (some parent) → parent.id < node.id
  below : ∀ node parent, node ∈ memory.below parent → memory.parent node = some (some parent)
  roots : ∀ id ∈ memory.roots, memory.parent (.conversation id) = some none

/-- A known node is listed exactly while it is needed. -/
structure ListedAt (memory : Memory) (node : Node) : Prop where
  below : ∀ parent, memory.parent node = some (some parent) →
    (node ∈ memory.below parent ↔ memory.needed node = true)
  root : memory.parent node = some none →
    (node.id ∈ memory.roots ↔ memory.needed node = true)

theorem Hung.ne (hhung : Hung memory) (hparent : memory.parent node = some (some up)) :
    up ≠ node := by
  rintro rfl
  exact Nat.lt_irrefl _ (hhung.ordered _ _ hparent)

/-- A known node that is not needed is pinned or queued. -/
def KeptAt (memory : Memory) (node : Node) : Prop :=
  memory.parent node ≠ none → memory.needed node = false →
    node ∈ memory.dropQueue ∨ node ∈ memory.pins

theorem ListedAt.of_eq (hlisted : ListedAt memory node)
    (hparent : next.parent node = memory.parent node)
    (hneeded : next.needed node = memory.needed node) (hbelow : next.below = memory.below)
    (hroots : node.id ∈ next.roots ↔ node.id ∈ memory.roots) : ListedAt next node := by
  constructor
  · intro up hup
    rw [hneeded, hbelow]
    exact hlisted.below up (hparent.symm.trans hup)
  intro hroot
  rw [hneeded, hroots]
  exact hlisted.root (hparent.symm.trans hroot)

theorem ListedAt.congr (hlisted : ListedAt memory node) (hsame : SameNodes memory next)
    (hbelow : next.below = memory.below) (hroots : next.roots = memory.roots) :
    ListedAt next node := by
  apply hlisted.of_eq (hsame.parent node) (hsame.needed (congrFun hbelow node)) hbelow
  rw [hroots]

theorem Hung.congr (hhung : Hung memory) (hsame : SameNodes memory next)
    (hbelow : next.below = memory.below) (hroots : next.roots = memory.roots) : Hung next := by
  constructor
  · intro node parent hparent
    exact hhung.ordered node parent ((hsame.parent node).symm.trans hparent)
  · intro node parent hchild
    rw [hbelow] at hchild
    rw [hsame.parent]
    exact hhung.below node parent hchild
  intro id hid
  rw [hroots] at hid
  rw [hsame.parent]
  exact hhung.roots id hid

theorem ListedAt.dropIfUnneeded (hlisted : ListedAt memory node) :
    ListedAt (memory.dropIfUnneeded other) node :=
  hlisted.congr (relists_dropIfUnneeded other).toSameNodes (below_dropIfUnneeded other)
    (roots_dropIfUnneeded other)

theorem Hung.dropIfUnneeded (hhung : Hung memory) : Hung (memory.dropIfUnneeded other) :=
  hhung.congr (relists_dropIfUnneeded other).toSameNodes (below_dropIfUnneeded other)
    (roots_dropIfUnneeded other)

theorem ListedAt.setBelow (hlisted : ListedAt memory other)
    (hmem : other ∈ children ↔ other ∈ memory.below node)
    (hneeded : (memory.setBelow node children).needed other = memory.needed other) :
    ListedAt (memory.setBelow node children) other := by
  constructor
  · intro parent hparent
    rw [hneeded, ← hlisted.below parent hparent]
    by_cases hnode : parent = node
    · rw [hnode, below_setBelow_self, hmem]
    · rw [below_setBelow_of_ne hnode]
  intro hroot
  rw [hneeded]
  exact hlisted.root hroot

theorem Hung.setBelow (hhung : Hung memory)
    (hchildren : ∀ child ∈ children, memory.parent child = some (some node)) :
    Hung (memory.setBelow node children) := by
  refine ⟨hhung.ordered, ?_, hhung.roots⟩
  intro child parent hchild
  by_cases hnode : parent = node
  · rw [hnode, below_setBelow_self] at hchild
    rw [hnode]
    exact hchildren child hchild
  rw [below_setBelow_of_ne hnode] at hchild
  exact hhung.below child parent hchild

/-- Everything but one node is listed right. -/
structure ListedBut (memory : Memory) (node : Node) : Prop extends Hung memory where
  others : ∀ other, other ≠ node → ListedAt memory other

/-- The index is exact: every known node is listed while it is needed. -/
structure Listed (memory : Memory) : Prop extends Hung memory where
  all : ∀ node, ListedAt memory node

theorem ListedBut.listed (hbut : ListedBut memory node) (hnode : ListedAt memory node) :
    Listed memory := by
  refine ⟨hbut.toHung, ?_⟩
  intro other
  by_cases hother : other = node
  · rw [hother]
    exact hnode
  · exact hbut.others other hother

theorem Listed.dropIfUnneeded (hlisted : Listed memory) : Listed (memory.dropIfUnneeded node) :=
  ⟨hlisted.toHung.dropIfUnneeded, fun other => (hlisted.all other).dropIfUnneeded⟩

section

variable (hbut : ListedBut memory node)

include hbut

theorem ListedBut.dropIfUnneeded : ListedBut (memory.dropIfUnneeded other) node :=
  ⟨hbut.toHung.dropIfUnneeded, fun other hne => (hbut.others other hne).dropIfUnneeded⟩

/-- Listing a node right leaves at most its parent wrong. -/
theorem ListedBut.setBelow (hparent : memory.parent node = some (some up))
    (hmem : ∀ other, other ≠ node → (other ∈ children ↔ other ∈ memory.below up))
    (hself : node ∈ children ↔ memory.needed node = true) :
    ListedBut (memory.setBelow up children) up := by
  refine ⟨hbut.toHung.setBelow ?_, ?_⟩
  · intro child hchild
    by_cases hnode : child = node
    · rw [hnode]
      exact hparent
    · exact hbut.below child up ((hmem child hnode).mp hchild)
  intro other hother
  have hneeded := @needed_setBelow_of_ne memory up other children hother
  by_cases hnode : other = node
  · subst hnode
    constructor
    · intro above habove
      obtain rfl : up = above := some.inj (some.inj (hparent.symm.trans habove))
      rw [below_setBelow_self, hneeded]
      exact hself
    intro hroot
    cases hparent.symm.trans hroot
  · exact (hbut.others other hnode).setBelow (hmem other hnode) hneeded

/-- With the parent needed before and after, nothing is wrong. -/
theorem ListedBut.setBelow_listed (hparent : memory.parent node = some (some up))
    (hmem : ∀ other, other ≠ node → (other ∈ children ↔ other ∈ memory.below up))
    (hself : node ∈ children ↔ memory.needed node = true) (hbefore : memory.needed up = true)
    (hafter : (memory.setBelow up children).needed up = true) :
    Listed (memory.setBelow up children) := by
  apply (hbut.setBelow hparent hmem hself).listed
  have hne := hbut.toHung.ne hparent
  exact (hbut.others up hne).setBelow (hmem up hne) (hafter.trans hbefore.symm)

theorem ListedBut.setRoots (hroot : memory.parent node = some none) :
    Listed { memory with roots :=
      (if memory.needed node then add memory.roots node.id
      else delete memory.roots node.id) } := by
  have hnode := eq_conversation_of_parent_eq_some_none hroot
  refine ⟨⟨hbut.ordered, hbut.below, ?_⟩, ?_⟩
  · intro id hid
    split_ifs at hid
    · rcases mem_add.mp hid with hold | rfl
      · exact hbut.roots id hold
      · exact hnode ▸ hroot
    · exact hbut.roots id (mem_delete.mp hid).1
  intro other
  by_cases hother : other = node
  · subst hother
    constructor
    · intro up hup
      cases hroot.symm.trans hup
    intro _
    split_ifs with hneeded
    · exact iff_of_true (mem_add.mpr (.inr rfl)) hneeded
    · exact iff_of_false (fun hmem => (mem_delete.mp hmem).2 rfl) hneeded
  constructor
  · exact (hbut.others other hother).below
  intro hotherRoot
  have hid : other.id ≠ node.id := by
    intro heq
    rw [eq_conversation_of_parent_eq_some_none hotherRoot, heq] at hother
    exact hother hnode.symm
  change (other.id ∈ if memory.needed node = true then _ else _) ↔ memory.needed other = true
  rw [← (hbut.others other hother).root hotherRoot]
  split_ifs
  · rw [mem_add, or_iff_left hid]
  · rw [mem_delete, and_iff_left hid]

theorem ListedBut.relistFrom (hbound : node.id < bound) : Listed
    (memory.relistFrom bound node) := by
  induction bound generalizing memory node with
  | zero => exact absurd hbound (Nat.not_lt_zero _)
  | succ bound ih =>
    rw [Memory.relistFrom]
    split
    next hparent =>
      apply hbut.listed
      exact ⟨fun _ h => (some_ne_none _ (h.symm.trans hparent)).elim,
        fun h => (some_ne_none _ (h.symm.trans hparent)).elim⟩
    · next hroot => exact hbut.setRoots hroot
    rename_i parent hparent
    have hparentBound : parent.id < bound :=
      Nat.lt_of_lt_of_le (hbut.ordered node parent hparent) (Nat.le_of_lt_succ hbound)
    dsimp only
    split_ifs with hright hneeded hfirst hlast
    · apply hbut.listed
      constructor
      · intro up hup
        cases some.inj (hparent.symm.trans hup)
        rw [← hright, decide_eq_true_eq]
      intro hroot
      cases hparent.symm.trans hroot
    · apply hbut.setBelow_listed hparent
      · intro other hother
        rw [mem_add, or_iff_left hother]
      · exact iff_of_true (mem_add.mpr (.inr rfl)) hneeded
      · rw [Memory.needed, hfirst, Bool.or_true]
      · exact needed_setBelow_add
    · apply ih _ hparentBound
      apply hbut.setBelow hparent
      · intro other hother
        rw [mem_add, or_iff_left hother]
      · exact iff_of_true (mem_add.mpr (.inr rfl)) hneeded
    · obtain ⟨kept, hkept⟩ := hasBelow_iff.mp hlast
      apply hbut.setBelow_listed hparent
      · intro other hother
        rw [mem_delete, and_iff_left hother]
      · exact iff_of_false (fun hmem => (mem_delete.mp hmem).2 rfl) hneeded
      · rw [below_setBelow_self] at hkept
        exact needed_of_mem_below (mem_delete.mp hkept).1
      · exact needed_of_mem_below hkept
    apply ih _ hparentBound
    apply ListedBut.dropIfUnneeded
    apply hbut.setBelow hparent
    · intro other hother
      rw [mem_delete, and_iff_left hother]
    · exact iff_of_false (fun hmem => (mem_delete.mp hmem).2 rfl) hneeded

theorem ListedBut.relist : Listed (memory.relist node) :=
  hbut.relistFrom (Nat.lt_succ_self _)

end

/-! ### Keeping -/

theorem keptAt_of_needed (hneeded : memory.needed node = true) : KeptAt memory node := by
  intro _ hunneeded
  exact absurd (hneeded.symm.trans hunneeded) Bool.noConfusion

theorem KeptAt.congr (hkept : KeptAt memory node) (hsame : SameNodes memory next)
    (hbelow : next.below node = memory.below node)
    (hqueue : node ∈ memory.dropQueue → node ∈ next.dropQueue)
    (hpins : node ∈ memory.pins → node ∈ next.pins) : KeptAt next node := by
  intro hknown hunneeded
  rw [hsame.parent] at hknown
  rw [hsame.needed hbelow] at hunneeded
  exact (hkept hknown hunneeded).imp hqueue hpins

theorem KeptAt.dropIfUnneeded (hkept : KeptAt memory other) :
    KeptAt (memory.dropIfUnneeded node) other := by
  have hrelists := @relists_dropIfUnneeded memory node
  apply hkept.congr hrelists.toSameNodes (congrFun (below_dropIfUnneeded node) other)
    mem_dropQueue_dropIfUnneeded_of_mem
  rw [hrelists.pins]
  exact id

theorem keptAt_dropIfUnneeded_self : KeptAt (memory.dropIfUnneeded node) node := by
  cases hneeded : memory.needed node with
  | true =>
    rw [Memory.dropIfUnneeded, hneeded]
    exact keptAt_of_needed hneeded
  | false =>
    intro _ _
    exact .inl (mem_dropQueue_dropIfUnneeded hneeded)

theorem KeptAt.setBelow_of_ne (hkept : KeptAt memory other) (hne : other ≠ node) :
    KeptAt (memory.setBelow node children) other :=
  hkept.congr (relists_setBelow node children).toSameNodes (below_setBelow_of_ne hne) id id

theorem KeptAt.setBelow (hkept : KeptAt memory other)
    (hneeded : (memory.setBelow node children).needed node = true) :
    KeptAt (memory.setBelow node children) other := by
  by_cases hother : other = node
  · rw [hother]
    exact keptAt_of_needed hneeded
  · exact hkept.setBelow_of_ne hother

theorem KeptAt.relistFrom (hkept : KeptAt memory other) :
    KeptAt (memory.relistFrom bound node) other := by
  induction bound generalizing memory node with
  | zero => exact hkept
  | succ bound ih =>
    rw [Memory.relistFrom]
    split
    · exact hkept
    · exact hkept.congr (relists_setRoots _).toSameNodes rfl id id
    rename_i parent hparent
    dsimp only
    split_ifs with hright hneeded hfirst hlast
    · exact hkept
    · exact hkept.setBelow needed_setBelow_add
    · exact ih (hkept.setBelow needed_setBelow_add)
    · apply hkept.setBelow
      rw [Memory.needed, hlast, Bool.or_true]
    apply ih
    by_cases hother : other = parent
    · rw [hother]
      exact keptAt_dropIfUnneeded_self
    · exact (hkept.setBelow_of_ne hother).dropIfUnneeded

theorem KeptAt.relist (hkept : KeptAt memory other) : KeptAt (memory.relist node) other :=
  hkept.relistFrom

/-- The index is exact, and every known node that is not needed is pinned or queued. -/
structure Tidy (memory : Memory) : Prop extends Listed memory where
  kept : ∀ node, KeptAt memory node

/-! ### Changes of one node -/

/-- Nothing but one node changed, and it hangs where it hung if it was known. -/
structure Installs (memory next : Memory) (node : Node) : Prop where
  below : next.below = memory.below
  roots : next.roots = memory.roots
  dropQueue : next.dropQueue = memory.dropQueue
  pins : next.pins = memory.pins
  parent : ∀ other, other ≠ node → next.parent other = memory.parent other
  isLive : ∀ other, other ≠ node → next.isLive other = memory.isLive other
  self : memory.parent node = none ∨ next.parent node = memory.parent node
  ordered : ∀ up, next.parent node = some (some up) → up.id < node.id

section

variable (hinstalls : Installs memory next node)

include hinstalls

theorem Installs.needed (hne : other ≠ node) : next.needed other = memory.needed other := by
  rw [Memory.needed, Memory.needed, hinstalls.isLive other hne, hasBelow, hasBelow, hinstalls.below]

theorem Installs.parent_of_some {found : Option Node}
    (hfound : memory.parent other = some found) : next.parent other = some found := by
  by_cases hother : other = node
  · subst hother
    rcases hinstalls.self with hnone | hsame
    · cases hnone.symm.trans hfound
    · exact hsame.trans hfound
  · exact (hinstalls.parent other hother).trans hfound

theorem Installs.listedBut (hlisted : Listed memory) : ListedBut next node := by
  refine ⟨⟨?_, ?_, ?_⟩, ?_⟩
  · intro other up hup
    by_cases hother : other = node
    · rw [hother] at hup ⊢
      exact hinstalls.ordered up hup
    · exact hlisted.ordered other up ((hinstalls.parent other hother).symm.trans hup)
  · intro other up hchild
    rw [hinstalls.below] at hchild
    exact hinstalls.parent_of_some (hlisted.below other up hchild)
  · intro id hid
    rw [hinstalls.roots] at hid
    exact hinstalls.parent_of_some (hlisted.roots id hid)
  intro other hother
  apply (hlisted.all other).of_eq (hinstalls.parent other hother) (hinstalls.needed hother)
    hinstalls.below
  rw [hinstalls.roots]

theorem Installs.keptAt (hne : other ≠ node) (hkept : KeptAt memory other) : KeptAt next other := by
  intro hknown hunneeded
  rw [hinstalls.parent other hne] at hknown
  rw [hinstalls.needed hne] at hunneeded
  rw [hinstalls.dropQueue, hinstalls.pins]
  exact hkept hknown hunneeded

/-- Relisting a changed node, then queueing it when it is not needed, keeps the index tidy. -/
theorem Installs.tidy (htidy : Tidy memory) : Tidy ((next.relist node).dropIfUnneeded node) := by
  refine ⟨(hinstalls.listedBut htidy.toListed).relist.dropIfUnneeded, ?_⟩
  intro other
  by_cases hother : other = node
  · rw [hother]
    exact keptAt_dropIfUnneeded_self
  · exact (hinstalls.keptAt hother (htidy.kept other)).relist.dropIfUnneeded

/-- A live node needs no queueing. -/
theorem Installs.tidy_of_isLive (htidy : Tidy memory)
    (hlive : next.isLive node = true) : Tidy (next.relist node) := by
  refine ⟨(hinstalls.listedBut htidy.toListed).relist, ?_⟩
  intro other
  by_cases hother : other = node
  · apply keptAt_of_needed
    rw [hother, Memory.needed, (relists_relist node).isLive, hlive, Bool.true_or]
  · exact (hinstalls.keptAt hother (htidy.kept other)).relist

end

variable {fields : TaskNode}

theorem parent_task_of_taskNode (hfields : memory.taskNode id = some fields) :
    memory.parent (.task id) = some (some (parentNode fields)) := by
  rw [Memory.parent, hfields, map_some]

theorem live_eq_none_of_taskNode (hunknown : memory.taskNode id = none) :
    memory.live id = none := by
  rw [Memory.taskNode] at hunknown
  split at hunknown
  · cases hunknown
  · assumption

variable {owner : Option TaskId}

theorem parent_putEdge_self {id : ConversationId} :
    (memory.putEdge id owner).parent (.conversation id) = some (owner.map Node.task) := by
  rw [Memory.parent, putEdge]
  dsimp only
  rw [update_self, map_some]

theorem installs_putEdge {id : ConversationId}
    (hnew : memory.edges id = none) (howner : ∀ task ∈ owner, task < id) :
    Installs memory (memory.putEdge id owner) (.conversation id) := by
  refine ⟨rfl, rfl, rfl, rfl, ?_, ?_, .inl ?_, ?_⟩
  · intro other hother
    cases other with
    | task _ => rfl
    | conversation other =>
      rw [Memory.parent, Memory.parent, putEdge]
      dsimp only
      rw [update_of_ne fun heq => hother (congrArg Node.conversation heq)]
  · intro other _
    cases other <;> rfl
  · rw [Memory.parent, hnew, map_none]
  intro up hup
  rw [parent_putEdge_self, some_inj, map_eq_some_iff] at hup
  obtain ⟨task, htask, rfl⟩ := hup
  exact howner task htask

theorem taskNode_putSettled_self (hnew : memory.taskNode id = none) :
    (memory.putSettled id fields).taskNode id = some fields := by
  have hlive := live_eq_none_of_taskNode hnew
  rw [Memory.taskNode, putSettled]
  dsimp only
  rw [hlive, update_self]

theorem installs_putSettled (hnew : memory.taskNode id = none)
    (hordered : (parentNode fields).id < id) :
    Installs memory (memory.putSettled id fields) (.task id) := by
  refine ⟨rfl, rfl, rfl, rfl, ?_, ?_, .inl ?_, ?_⟩
  · intro other hother
    cases other with
    | task other =>
      rw [Memory.parent, Memory.parent, Memory.taskNode, Memory.taskNode, putSettled]
      dsimp only
      rw [update_of_ne fun heq => hother (congrArg Node.task heq)]
    | conversation _ => rfl
  · intro other _
    cases other <;> rfl
  · rw [Memory.parent, hnew, map_none]
  intro up hup
  obtain rfl := some.inj (some.inj
    ((parent_task_of_taskNode (taskNode_putSettled_self hnew)).symm.trans hup))
  exact hordered

theorem Tidy.setEdge (htidy : Tidy memory) {id : ConversationId}
    (hnew : memory.edges id = none) (howner : ∀ task ∈ owner, task < id) :
    Tidy (memory.setEdge id owner) :=
  (installs_putEdge hnew howner).tidy htidy

theorem Tidy.settle (htidy : Tidy memory) {id : TaskId} {fields : TaskNode}
    (hnew : memory.taskNode id = none) (hordered : (parentNode fields).id < id) :
    Tidy (memory.settle id fields) :=
  (installs_putSettled hnew hordered).tidy htidy

/-- A record's ownership fields are those known of its task, and it hangs from an older node. -/
structure Fits (memory : Memory) (record : TaskRecord) : Prop where
  fields : ∀ fields, memory.taskNode record.id = some fields → fields = record.toTaskNode
  ordered : (parentNode record.toTaskNode).id < record.id

variable {record : TaskRecord}

/-- Changing what is known of one task to its record's own fields. -/
theorem Fits.installs (hfits : Fits memory record)
    (hbelow : next.below = memory.below) (hroots : next.roots = memory.roots)
    (hqueue : next.dropQueue = memory.dropQueue) (hpins : next.pins = memory.pins)
    (hedges : next.edges = memory.edges)
    (hlive : ∀ id, id ≠ record.id → next.live id = memory.live id)
    (hsettled : ∀ id, id ≠ record.id → next.settled id = memory.settled id)
    (hself : next.taskNode record.id = some record.toTaskNode) :
    Installs memory next (.task record.id) := by
  refine ⟨hbelow, hroots, hqueue, hpins, ?_, ?_, ?_, ?_⟩
  · intro other hother
    cases other with
    | task id =>
      have hid : id ≠ record.id := fun heq => hother (congrArg Node.task heq)
      rw [Memory.parent, Memory.parent, Memory.taskNode, Memory.taskNode, hlive id hid,
        hsettled id hid]
    | conversation id => rw [Memory.parent, Memory.parent, hedges]
  · intro other hother
    cases other with
    | task id =>
      have hid : id ≠ record.id := fun heq => hother (congrArg Node.task heq)
      rw [Memory.isLive, Memory.isLive, hlive id hid]
    | conversation id => rfl
  · cases hknown : memory.taskNode record.id with
    | none =>
      left
      rw [Memory.parent, hknown, map_none]
    | some fields =>
      right
      obtain rfl := hfits.fields fields hknown
      rw [parent_task_of_taskNode hknown, parent_task_of_taskNode hself]
  intro up hup
  obtain rfl := some.inj (some.inj ((parent_task_of_taskNode hself).symm.trans hup))
  exact hfits.ordered

theorem taskNode_setLive_self :
    (memory.setLive record).taskNode record.id = some record.toTaskNode := by
  rw [Memory.taskNode, setLive]
  dsimp only
  rw [update_self]

theorem isLive_setLive_self : (memory.setLive record).isLive (.task record.id) = true := by
  rw [Memory.isLive, setLive]
  dsimp only
  rw [update_self, isSome_some]

theorem taskNode_setEnded_self :
    (memory.setEnded record).taskNode record.id = some record.toTaskNode := by
  rw [Memory.taskNode, setEnded]
  dsimp only
  rw [update_self, update_self]

theorem Fits.installs_setEnded (hfits : Fits memory record) :
    Installs memory (memory.setEnded record) (.task record.id) :=
  hfits.installs (by rfl) (by rfl) (by rfl) (by rfl) (by rfl)
    (fun _ hid => update_of_ne hid ..) (fun _ hid => update_of_ne hid ..)
    taskNode_setEnded_self

theorem Fits.installs_setLive (hfits : Fits memory record) :
    Installs memory (memory.setLive record) (.task record.id) :=
  hfits.installs (by rfl) (by rfl) (by rfl) (by rfl) (by rfl)
    (fun _ hid => update_of_ne hid ..) (fun _ _ => rfl) taskNode_setLive_self

theorem Fits.installs_markUnloaded (hfits : Fits memory record) :
    Installs memory ((memory.setLive record).markUnloaded record) (.task record.id) :=
  hfits.installs (by rfl) (by rfl) (by rfl) (by rfl) (by rfl)
    (fun _ hid => update_of_ne hid ..) (fun _ _ => rfl) taskNode_setLive_self

/-- A live node whose record changes stays where it is. -/
theorem Installs.tidy_of_live (hinstalls : Installs memory next node) (htidy : Tidy memory)
    (hbefore : memory.isLive node = true) (hafter : next.isLive node = true)
    (hknown : memory.parent node ≠ none) : Tidy next := by
  have hneeded : next.needed node = memory.needed node := by
    rw [Memory.needed, Memory.needed, hbefore, hafter, Bool.true_or, Bool.true_or]
  refine ⟨(hinstalls.listedBut htidy.toListed).listed ?_, ?_⟩
  · apply (htidy.all node).of_eq (hinstalls.self.resolve_left hknown) hneeded hinstalls.below
    rw [hinstalls.roots]
  intro other
  by_cases hother : other = node
  · apply keptAt_of_needed
    rw [hother, Memory.needed, hafter, Bool.true_or]
  · exact hinstalls.keptAt hother (htidy.kept other)

theorem Tidy.track (htidy : Tidy memory) {record : TaskRecord} (hfits : Fits memory record) :
    Tidy (memory.track record) := by
  rw [Memory.track]
  split
  · exact hfits.installs_setEnded.tidy htidy
  split
  next previous hprevious =>
    apply hfits.installs_setLive.tidy_of_live htidy _ isLive_setLive_self
    · rw [Memory.parent, Memory.taskNode, hprevious]
      exact some_ne_none _
    · rw [Memory.isLive, hprevious, isSome_some]
  · exact hfits.installs_markUnloaded.tidy_of_isLive htidy isLive_setLive_self

/-! ### Sweeps -/

/-- Some unneeded nodes are forgotten, and nothing else changes. -/
structure Forgets (memory next : Memory) (gone : Node → Prop) : Prop where
  live : next.live = memory.live
  below : next.below = memory.below
  pins : next.pins = memory.pins
  unneeded : ∀ node, gone node → memory.needed node = false
  taskNode : ∀ id, ¬ gone (.task id) → next.taskNode id = memory.taskNode id
  taskGone : ∀ id, gone (.task id) → next.taskNode id = none
  edge : ∀ id, ¬ gone (.conversation id) → next.edges id = memory.edges id
  edgeGone : ∀ id, gone (.conversation id) → next.edges id = none
  unloaded : ∀ id, id ∈ next.unloaded ↔ id ∈ memory.unloaded ∧ ¬ gone (.task id)
  roots : ∀ id, id ∈ next.roots ↔ id ∈ memory.roots ∧ ¬ gone (.conversation id)

variable {gone goneNext : Node → Prop}

section

variable (hforgets : Forgets memory next gone)
include hforgets

theorem Forgets.parent (hkept : ¬ gone node) : next.parent node = memory.parent node := by
  cases node with
  | task id => rw [Memory.parent, Memory.parent, hforgets.taskNode id hkept]
  | conversation id => rw [Memory.parent, Memory.parent, hforgets.edge id hkept]

theorem Forgets.parent_gone (hgone : gone node) : next.parent node = none := by
  cases node with
  | task id => rw [Memory.parent, hforgets.taskGone id hgone, map_none]
  | conversation id => rw [Memory.parent, hforgets.edgeGone id hgone, map_none]

theorem Forgets.needed (node : Node) : next.needed node = memory.needed node := by
  have hlive : next.isLive node = memory.isLive node := by
    cases node with
    | task id => rw [Memory.isLive, Memory.isLive, hforgets.live]
    | conversation id => rfl
  rw [Memory.needed, Memory.needed, hlive, hasBelow, hasBelow, hforgets.below]

end

theorem forgets_nothing : Forgets memory memory fun _ => False := by
  refine ⟨rfl, rfl, rfl, fun _ h => h.elim, fun _ _ => rfl, fun _ h => h.elim,
    fun _ _ => rfl, fun _ h => h.elim, ?_, ?_⟩
  · exact fun id => (and_iff_left not_false).symm
  · exact fun id => (and_iff_left not_false).symm

theorem Forgets.trans {last : Memory} (hfirst : Forgets memory next gone)
    (hsecond : Forgets next last goneNext) :
    Forgets memory last fun node => gone node ∨ goneNext node := by
  refine ⟨hsecond.live.trans hfirst.live, hsecond.below.trans hfirst.below,
    hsecond.pins.trans hfirst.pins, ?_, ?_, ?_, ?_, ?_, ?_, ?_⟩
  · rintro node (hgone | hgone)
    · exact hfirst.unneeded node hgone
    · exact (hfirst.needed node).symm.trans (hsecond.unneeded node hgone)
  · intro id hkept
    rw [not_or] at hkept
    exact (hsecond.taskNode id hkept.2).trans (hfirst.taskNode id hkept.1)
  · intro id hgone
    by_cases hnext : goneNext (.task id)
    · exact hsecond.taskGone id hnext
    · exact (hsecond.taskNode id hnext).trans (hfirst.taskGone id (hgone.resolve_right hnext))
  · intro id hkept
    rw [not_or] at hkept
    exact (hsecond.edge id hkept.2).trans (hfirst.edge id hkept.1)
  · intro id hgone
    by_cases hnext : goneNext (.conversation id)
    · exact hsecond.edgeGone id hnext
    · exact (hsecond.edge id hnext).trans (hfirst.edgeGone id (hgone.resolve_right hnext))
  · intro id
    rw [hsecond.unloaded, hfirst.unloaded, not_or, and_assoc]
  · intro id
    rw [hsecond.roots, hfirst.roots, not_or, and_assoc]

/-- A node a sweep drops. -/
def Droppable (memory : Memory) (node : Node) : Prop :=
  memory.needed node = false ∧ node ∉ memory.pins

theorem forgets_drop_of_not_droppable (hkept : ¬ Droppable memory node) :
    Forgets memory memory fun other => other = node ∧ Droppable memory node := by
  have hnothing : (fun other => other = node ∧ Droppable memory node) = fun _ => False := by
    funext other
    rw [eq_iff_iff, iff_false]
    exact fun hboth => hkept hboth.2
  rw [hnothing]
  exact forgets_nothing

theorem forgets_drop_conversation {id : ConversationId}
    (hdrop : Droppable memory (.conversation id)) :
    Forgets memory
      { memory with
        edges := update memory.edges id none
        roots := delete memory.roots id }
      fun other => other = .conversation id ∧ Droppable memory (.conversation id) := by
  refine ⟨rfl, rfl, rfl, ?_, ?_, ?_, ?_, ?_, ?_, ?_⟩
  · rintro other ⟨rfl, hother⟩
    exact hother.1
  · intro other _
    rfl
  · rintro other ⟨heq, -⟩
    cases heq
  · intro other hkept
    exact update_of_ne (fun heq => hkept ⟨congrArg Node.conversation heq, hdrop⟩) ..
  · rintro other ⟨heq, -⟩
    cases heq
    exact update_self ..
  · intro other
    refine (and_iff_left ?_).symm
    rintro ⟨heq, -⟩
    cases heq
  · intro other
    rw [mem_delete, and_iff_left hdrop, Node.conversation.injEq]

theorem forgets_drop_task (hdrop : Droppable memory (.task id))
    (hlive : memory.live id = none) :
    Forgets memory
      { memory with
        settled := update memory.settled id none
        unloaded := delete memory.unloaded id }
      fun other => other = .task id ∧ Droppable memory (.task id) := by
  refine ⟨rfl, rfl, rfl, ?_, ?_, ?_, ?_, ?_, ?_, ?_⟩
  · rintro other ⟨rfl, hother⟩
    exact hother.1
  · intro other hkept
    rw [Memory.taskNode, Memory.taskNode]
    dsimp only
    rw [update_of_ne fun heq => hkept ⟨congrArg Node.task heq, hdrop⟩]
  · rintro other ⟨heq, -⟩
    cases heq
    rw [Memory.taskNode]
    dsimp only
    rw [hlive, update_self]
  · intro other _
    rfl
  · rintro other ⟨heq, -⟩
    cases heq
  · intro other
    rw [mem_delete, and_iff_left hdrop, Node.task.injEq]
  intro other
  refine (and_iff_left ?_).symm
  rintro ⟨heq, -⟩
  cases heq

theorem forgets_drop (memory : Memory) (node : Node) :
    Forgets memory (memory.drop node) fun other => other = node ∧ Droppable memory node := by
  rw [Memory.drop.eq_def]
  split
  next hskip =>
    apply forgets_drop_of_not_droppable
    rintro ⟨hunneeded, hunpinned⟩
    rw [Memory.needed, Bool.or_eq_false_iff] at hunneeded
    rw [hunneeded.2, Bool.false_or, decide_eq_true_eq] at hskip
    exact hunpinned hskip
  rename_i hdrop
  rw [Bool.not_eq_true, Bool.or_eq_false_iff, decide_eq_false_iff_not] at hdrop
  split
  next id =>
    apply forgets_drop_conversation
    exact ⟨by rw [Memory.needed, hdrop.1]; rfl, hdrop.2⟩
  rename_i id
  split
  next hlive =>
    apply forgets_drop_of_not_droppable
    rintro ⟨hunneeded, -⟩
    rw [Memory.needed, Memory.isLive, hlive, Bool.true_or] at hunneeded
    cases hunneeded
  next hlive =>
    rw [Bool.not_eq_true, isSome_eq_false_iff, isNone_iff_eq_none] at hlive
    apply forgets_drop_task _ hlive
    exact ⟨by rw [Memory.needed, Memory.isLive, hlive, hdrop.1]; rfl, hdrop.2⟩

theorem Forgets.droppable (hforgets : Forgets memory next gone) :
    Droppable next node ↔ Droppable memory node := by
  rw [Droppable, Droppable, hforgets.needed, hforgets.pins]

theorem forgets_foldl_drop (queue : List Node) :
    Forgets memory (queue.foldl drop memory) fun node => node ∈ queue ∧ Droppable memory node := by
  induction queue generalizing memory with
  | nil =>
    simp only [not_mem_nil, false_and]
    exact forgets_nothing
  | cons first rest ih =>
    have hboth := (forgets_drop memory first).trans ih
    have hgone : (fun node => (node = first ∧ Droppable memory first) ∨
        node ∈ rest ∧ Droppable (memory.drop first) node) =
        fun node => node ∈ first :: rest ∧ Droppable memory node := by
      funext node
      rw [(forgets_drop memory first).droppable, mem_cons, or_and_right, eq_iff_iff]
      exact or_congr_left ⟨fun h => ⟨h.1, h.1 ▸ h.2⟩, fun h => ⟨h.1, h.1 ▸ h.2⟩⟩
    rw [hgone] at hboth
    exact hboth

/-- A sweep drops the queued nodes that are neither needed nor pinned. -/
def Swept (memory : Memory) (node : Node) : Prop :=
  node ∈ memory.dropQueue ∧ Droppable memory node

theorem Listed.forgets (hlisted : Listed memory) (hforgets : Forgets memory next gone) :
    Listed next := by
  have hkept : ∀ {node found}, memory.parent node = some found → memory.needed node = true →
      next.parent node = some found := by
    intro node found hfound hneeded
    rw [hforgets.parent, hfound]
    intro hgone
    rw [hforgets.unneeded node hgone] at hneeded
    cases hneeded
  refine ⟨⟨?_, ?_, ?_⟩, ?_⟩
  · intro node up hup
    by_cases hgone : gone node
    · cases (hforgets.parent_gone hgone).symm.trans hup
    · exact hlisted.ordered node up ((hforgets.parent hgone).symm.trans hup)
  · intro node up hchild
    rw [hforgets.below] at hchild
    have hup := hlisted.below node up hchild
    exact hkept hup (((hlisted.all node).below up hup).mp hchild)
  · intro id hid
    have hold := (hforgets.roots id).mp hid
    have hroot := hlisted.roots id hold.1
    exact hkept hroot (((hlisted.all _).root hroot).mp hold.1)
  intro node
  by_cases hgone : gone node
  · constructor
    · intro up hup
      cases (hforgets.parent_gone hgone).symm.trans hup
    intro hroot
    cases (hforgets.parent_gone hgone).symm.trans hroot
  constructor
  · intro up hup
    rw [hforgets.below, hforgets.needed]
    exact (hlisted.all node).below up ((hforgets.parent hgone).symm.trans hup)
  intro hroot
  rw [hforgets.needed, hforgets.roots]
  have hold := (hforgets.parent hgone).symm.trans hroot
  rw [← (hlisted.all node).root hold, and_iff_left]
  rwa [← eq_conversation_of_parent_eq_some_none hold]

theorem forgets_sweep (memory : Memory) : Forgets memory memory.sweep (Swept memory) := by
  have hforgets := @forgets_foldl_drop memory memory.dropQueue
  exact ⟨hforgets.live, hforgets.below, hforgets.pins, hforgets.unneeded, hforgets.taskNode,
    hforgets.taskGone, hforgets.edge, hforgets.edgeGone, hforgets.unloaded, hforgets.roots⟩

theorem Tidy.sweep (htidy : Tidy memory) : Tidy memory.sweep := by
  have hforgets := forgets_sweep memory
  refine ⟨htidy.toListed.forgets hforgets, ?_⟩
  intro node hknown hunneeded
  right
  have hbefore : memory.needed node = false := (hforgets.needed node).symm.trans hunneeded
  rw [hforgets.pins]
  by_contra hunpinned
  by_cases hqueued : node ∈ memory.dropQueue
  · exact hknown (hforgets.parent_gone ⟨hqueued, hbefore, hunpinned⟩)
  have hold : memory.parent node ≠ none := by
    rw [← hforgets.parent fun hgone => hqueued hgone.1]
    exact hknown
  exact (htidy.kept node hold hbefore).elim hqueued hunpinned

/-! ### Pins -/

theorem Tidy.congr (htidy : Tidy memory) (hsame : SameNodes memory next)
    (hbelow : next.below = memory.below) (hroots : next.roots = memory.roots)
    (hkept : ∀ node, KeptAt next node) : Tidy next :=
  ⟨⟨htidy.toHung.congr hsame hbelow hroots,
    fun node => (htidy.all node).congr hsame hbelow hroots⟩, hkept⟩

theorem Tidy.pin (htidy : Tidy memory) : Tidy (memory.pin node) := by
  have hsame : SameNodes memory (memory.pin node) := ⟨rfl, rfl, rfl⟩
  apply htidy.congr hsame rfl rfl
  intro other
  exact (htidy.kept other).congr hsame rfl id (mem_append_left _)

theorem Tidy.loaded (htidy : Tidy memory) (passed : List TaskId) : Tidy (memory.loaded passed) := by
  have hsame : SameNodes memory (memory.loaded passed) := ⟨rfl, rfl, rfl⟩
  apply htidy.congr hsame rfl rfl
  intro other
  exact (htidy.kept other).congr hsame rfl id id

theorem Tidy.unpin (htidy : Tidy memory) : Tidy (memory.unpin node) := by
  have hsame : SameNodes memory { memory with pins := memory.pins.erase node } := ⟨rfl, rfl, rfl⟩
  have hothers : ∀ other, other ≠ node →
      KeptAt { memory with pins := memory.pins.erase node } other := by
    intro other hother
    exact (htidy.kept other).congr hsame rfl id (mem_erase_of_ne hother).mpr
  rw [Memory.unpin]
  split
  next hpinned =>
    apply htidy.congr hsame rfl rfl
    intro other
    by_cases hother : other = node
    · intro _ _
      rw [hother]
      exact .inr hpinned
    · exact hothers other hother
  have hdrop := @relists_dropIfUnneeded { memory with pins := memory.pins.erase node } node
  refine htidy.congr ⟨hdrop.live, hdrop.settled, hdrop.edges⟩ ?_ ?_ ?_
  · exact below_dropIfUnneeded node
  · exact roots_dropIfUnneeded node
  intro other
  by_cases hother : other = node
  · rw [hother]
    exact keptAt_dropIfUnneeded_self
  · exact (hothers other hother).dropIfUnneeded

end Memory

end Hummin.Scheduler
