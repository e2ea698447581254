/-
Derives of JSON values, diffed as Delta diffs revisions, and a batch that marks a derive twice.
-/
import Hummin.DeltaSame
import Hummin.DeriveRuns

namespace Hummin.Derives

open Delta

variable {ι : Type}

/-- An immutable JSON value: the identity of a container tells its contents. -/
structure Revision (content : ι → JsonValue) where
  tree : JsonTree ι
  strict : tree.Strict
  identified : ∀ path node mark, tree.getAt path = some node →
    identity node = .arr mark ∨ identity node = .obj mark → JsonTree.SameValue node (content mark)

theorem Revision.identitySound {content : ι → JsonValue} (before after : Revision content) :
    IdentitySound before.tree after.tree := by
  intro path path' left right hleft hright hidentity
  have hcontainers : ∀ mark, identity left = .arr mark ∨ identity left = .obj mark →
      JsonTree.SameValue left right := by
    intro mark hmark
    exact (before.identified path left mark hleft hmark).trans
      (after.identified path' right mark hright (hidentity ▸ hmark)).symm
  cases left with
  | null | bool | num | str =>
    cases right <;> cases hidentity
    exact .refl _
  | arr mark items => exact hcontainers mark (.inl rfl)
  | obj mark fields => exact hcontainers mark (.inr rfl)

/-- Delta's operations between revisions. -/
def json [DecidableEq ι] (content : ι → JsonValue) : Deltas (Revision content) JsonValue (Op Unit) where
  diff before after := ((diffRevisions before.tree after.tree).getD []).map Op.erase
  replace value := .r value.tree.erase
  apply held ops := (applyImmutable held ops).toOption
  hold value := value.tree.erase
  Same held value := JsonTree.SameValue held value.tree
  same_hold value := (JsonTree.sameValue_erase value.tree).symm
  apply_nil held := by
    have hnil : applyImmutable held [] = .ok held := by
      rw [applyImmutable, applyImmutableBatches_eq_ok_iff]
      rfl
    rw [hnil]
    rfl
  apply_diff held before after hheld := by
    obtain ⟨ops, hops, result, hresult, hsame⟩ := diffRevisions_replays before.strict after.strict
      (before.identitySound after) hheld
    refine ⟨result, ?_, hsame⟩
    rw [hops, Option.getD_some, hresult]
    rfl
  apply_replace held after := by
    have hreplace : applyImmutable held [.r after.tree.erase] = .ok after.tree.erase := by
      rw [applyImmutable, applyImmutableBatches_eq_ok_iff, List.flatten_singleton]
      exact applyOps_singleton held _
    rw [hreplace]
    exact ⟨_, rfl, (JsonTree.sameValue_erase after.tree).symm⟩

/-! ### A derive marked twice before its frame -/

end Hummin.Derives
