/-
Walks down a tree given by the children of each node.  The walk lists a node's children,
then what lies below those it enters, the last one first, as a stack gives them.
-/
import Mathlib.Data.List.Basic

namespace Hummin

universe u

variable {α : Type u} {children : α → List α} {enters : α → Bool} {start node : α}

namespace TreeWalk

/-- The nodes found below `start`, at most `depth` levels down. -/
def walk (children : α → List α) (enters : α → Bool) : Nat → α → List α
  | 0, _ => []
  | depth + 1, start =>
    children start ++
      ((children start).filter enters).reverse.flatMap (walk children enters depth)

/-- The nodes whose children a walk from `start` lists. -/
inductive Entered (children : α → List α) (enters : α → Bool) (start : α) : α → Prop
  | start : Entered children enters start start
  | child {up node : α} (hup : Entered children enters start up) (hchild : node ∈ children up)
      (henters : enters node = true) : Entered children enters start node

theorem mem_walk_succ {depth : Nat} :
    node ∈ walk children enters (depth + 1) start ↔
      node ∈ children start ∨ ∃ child ∈ children start, enters child = true ∧
        node ∈ walk children enters depth child := by
  rw [walk, List.mem_append, List.mem_flatMap]
  simp only [List.mem_reverse, List.mem_filter, and_assoc]

/-- What a walk from an entered child enters, the walk from the node enters. -/
theorem Entered.head {child : α} (hchild : child ∈ children start)
    (henters : enters child = true) (hentered : Entered children enters child node) :
    Entered children enters start node := by
  induction hentered with
  | start => exact .child .start hchild henters
  | child _ hnode henter ih => exact .child ih hnode henter

/-- An entered node is the start, or entered from one of its children. -/
theorem Entered.cases_head (hentered : Entered children enters start node) :
    node = start ∨ ∃ child ∈ children start, enters child = true ∧
      Entered children enters child node := by
  induction hentered with
  | start => exact .inl rfl
  | @child up node hup hnode henter ih =>
    right
    rcases ih with rfl | ⟨child, hchild, hchildEnters, hrest⟩
    · exact ⟨node, hnode, henter, .start⟩
    · exact ⟨child, hchild, hchildEnters, .child hrest hnode henter⟩

/-- The walk finds children of entered nodes only. -/
theorem exists_entered_of_mem_walk {depth : Nat} (hnode : node ∈ walk children enters depth start) :
    ∃ up, Entered children enters start up ∧ node ∈ children up := by
  induction depth generalizing start with
  | zero => cases hnode
  | succ depth ih =>
    rcases mem_walk_succ.mp hnode with hchild | ⟨child, hchild, henters, hbelow⟩
    · exact ⟨start, .start, hchild⟩
    obtain ⟨up, hup, hfound⟩ := ih hbelow
    exact ⟨up, hup.head hchild henters, hfound⟩

/-- With ranks that grow downward below a bound, a walk deep enough finds them all. -/
theorem mem_walk_iff {rank : α → Nat} {bound depth : Nat}
    (hrank : ∀ up child, child ∈ children up → rank up < rank child ∧ rank child < bound)
    (hdepth : bound ≤ rank start + depth) :
    node ∈ walk children enters depth start ↔
      ∃ up, Entered children enters start up ∧ node ∈ children up := by
  refine ⟨exists_entered_of_mem_walk, ?_⟩
  rintro ⟨up, hup, hchild⟩
  induction depth generalizing start with
  | zero =>
    -- Nothing below a node of the bound's rank.
    have hempty : ∀ other, Entered children enters start other → rank start ≤ rank other := by
      intro other hother
      induction hother with
      | start => exact Nat.le_refl _
      | child _ hnode _ ih => exact Nat.le_trans ih (Nat.le_of_lt (hrank _ _ hnode).1)
    have hstart := hempty up hup
    have hnode := hrank up node hchild
    omega
  | succ depth ih =>
    rw [mem_walk_succ]
    rcases hup.cases_head with rfl | ⟨child, hfirst, henters, hrest⟩
    · exact .inl hchild
    right
    refine ⟨child, hfirst, henters, ih ?_ hrest⟩
    have hlower := (hrank start child hfirst).1
    omega

end TreeWalk

end Hummin
