/-
Relations without cycles, and when edges may be added to them.
-/
import Mathlib.Logic.Relation
import Mathlib.Order.WellFoundedSet

namespace Hummin

universe u

variable {α : Type u} {edge old new : α → α → Prop} {x : α}

open Relation

/-- No node leads back to itself. -/
def Acyclic (edge : α → α → Prop) : Prop :=
  ∀ x, ¬ TransGen edge x x

variable {targets : α → Prop}

/-- A path uses edges that were there, or leads to the node that got new ones and on from
one of their targets. -/
theorem path_of_new_edges {a b : α} (hnew : ∀ a b, new a b → old a b ∨ (a = x ∧ targets b))
    (hpath : ReflTransGen new a b) :
    ReflTransGen old a b ∨
      (ReflTransGen old a x ∧ ∃ target, targets target ∧ ReflTransGen old target b) := by
  induction hpath with
  | refl => exact .inl .refl
  | @tail b c _ hedge ih =>
    rcases hnew b c hedge with hold | ⟨rfl, htarget⟩
    · rcases ih with hpath | ⟨hpath, target, htarget, hrest⟩
      · exact .inl (hpath.tail hold)
      · exact .inr ⟨hpath, target, htarget, hrest.tail hold⟩
    right
    rcases ih with hpath | ⟨hpath, -⟩
    · exact ⟨hpath, c, htarget, .refl⟩
    · exact ⟨hpath, c, htarget, .refl⟩

/-- New edges of one node close no cycle when none of their targets leads to it. -/
theorem Acyclic.add_edges (hold : Acyclic old)
    (hnew : ∀ a b, new a b → old a b ∨ (a = x ∧ targets b))
    (hfree : ∀ target, targets target → ¬ ReflTransGen old target x) : Acyclic new := by
  intro y hcycle
  obtain ⟨z, hfirst, hrest⟩ := TransGen.head'_iff.mp hcycle
  rcases hnew y z hfirst with hedge | ⟨rfl, htarget⟩
  · rcases path_of_new_edges hnew hrest with hpath | ⟨hpath, target, htarget, hback⟩
    · exact hold y (TransGen.head' hedge hpath)
    · exact hfree target htarget ((hback.tail hedge).trans hpath)
  rcases path_of_new_edges hnew hrest with hpath | ⟨-, target, hother, hback⟩
  · exact hfree z htarget hpath
  · exact hfree target hother hback

/-- New nodes close no cycle when their edges lead to new nodes of larger rank only. -/
theorem Acyclic.add_nodes {fresh : α → Prop} {rank : α → Nat} (hold : Acyclic old)
    (hnew : ∀ a b, new a b → ¬ fresh b → old a b)
    (hfresh : ∀ a b, fresh a → new a b → fresh b ∧ rank a < rank b) : Acyclic new := by
  have hlater : ∀ a b, TransGen new a b → fresh a → fresh b ∧ rank a < rank b := by
    intro a b hpath ha
    induction hpath with
    | single hedge => exact hfresh a _ ha hedge
    | tail _ hedge ih =>
      obtain ⟨hmiddle, hrank⟩ := ih
      obtain ⟨hlast, hgrows⟩ := hfresh _ _ hmiddle hedge
      exact ⟨hlast, lt_trans hrank hgrows⟩
  have hstays : ∀ a b, TransGen new a b → ¬ fresh b → TransGen old a b := by
    intro a b hpath hb
    induction hpath with
    | single hedge => exact .single (hnew a _ hedge hb)
    | @tail middle last _ hedge ih =>
      have hmiddle : ¬ fresh middle := fun hmiddle => hb (hfresh middle last hmiddle hedge).1
      exact (ih hmiddle).tail (hnew middle last hedge hb)
  intro y hcycle
  by_cases hy : fresh y
  · exact lt_irrefl _ (hlater y y hcycle hy).2
  · exact hold y (hstays y y hcycle hy)

/-- A node on a cycle has an edge from another node on it. -/
theorem exists_edge_of_cycle (hcycle : TransGen edge x x) : ∃ y, edge y x ∧ TransGen edge y y := by
  obtain ⟨y, hpath, hedge⟩ := TransGen.tail'_iff.mp hcycle
  exact ⟨y, hedge, TransGen.head' hedge hpath⟩

/-- Among finitely many nodes, edges without cycles are well founded. -/
theorem Acyclic.wellFounded {nodes : Set α} (hacyclic : Acyclic edge) (hfinite : nodes.Finite)
    (hnodes : ∀ a b, edge a b → a ∈ nodes ∧ b ∈ nodes) : WellFounded edge := by
  have horder : IsStrictOrder α (TransGen edge) :=
    { irrefl := hacyclic, trans := fun _ _ _ => TransGen.trans }
  have hwell : nodes.WellFoundedOn (TransGen edge) := hfinite.wellFoundedOn
  refine Subrelation.wf (fun {a b} hedge => ?_) (Set.wellFoundedOn_iff.mp hwell)
  exact ⟨.single hedge, hnodes a b hedge⟩

end Hummin
