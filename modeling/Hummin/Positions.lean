/-
Elements of a list by position: the positions of those with a property, the elements at some
positions, and the removal of positions from the last one to the first.
-/
import Mathlib.Data.List.Sort

namespace Hummin

open List

universe u v

variable {α : Type u} {κ : Type v}

/-- The positions of the elements that satisfy `p`. -/
def indexesWhere (p : α → Bool) (items : List α) : List Nat :=
  (items.zipIdx.filter fun pair => p pair.1).map fun pair => pair.2

/-- The elements at some positions. -/
def elementsAt (items : List α) (indexes : List Nat) : List α :=
  indexes.filterMap fun index => items[index]?

/-- The elements at the positions that are not in `indexes`, the first at position `first`. -/
def without (indexes : List Nat) : Nat → List α → List α
  | _, [] => []
  | first, item :: rest =>
    if first ∈ indexes then without indexes (first + 1) rest
    else item :: without indexes (first + 1) rest

variable {p : α → Bool}

theorem mem_indexesWhere {items : List α} {index : Nat} :
    index ∈ indexesWhere p items ↔ ∃ item, items[index]? = some item ∧ p item = true := by
  simp only [indexesWhere, mem_map, mem_filter, Prod.exists, mk_mem_zipIdx_iff_getElem?]
  constructor
  · rintro ⟨item, found, ⟨hitem, hp⟩, rfl⟩
    exact ⟨item, hitem, hp⟩
  rintro ⟨item, hitem, hp⟩
  exact ⟨item, index, ⟨hitem, hp⟩, rfl⟩

theorem pairwise_indexesWhere (p : α → Bool) (items : List α) :
    (indexesWhere p items).Pairwise (· < ·) := by
  have hall : (items.zipIdx.map fun pair => pair.2).Pairwise (· < ·) := by
    have hrange : (items.zipIdx.map fun pair => pair.2) = range' 0 items.length :=
      zipIdx_map_snd 0 items
    rw [hrange]
    exact pairwise_lt_range'
  exact hall.sublist (filter_sublist.map _)

variable {items : List α} {indexes : List Nat}

theorem mem_elementsAt {item : α} :
    item ∈ elementsAt items indexes ↔ ∃ index ∈ indexes, items[index]? = some item :=
  mem_filterMap

theorem elementsAt_append (items : List α) (indexes others : List Nat) :
    elementsAt items (indexes ++ others) = elementsAt items indexes ++ elementsAt items others :=
  filterMap_append

/-- Ascending positions give the elements in their order. -/
theorem pairwise_elementsAt {R : α → α → Prop} {items : List α} (hitems : items.Pairwise R)
    {indexes : List Nat} (hindexes : indexes.Pairwise (· < ·)) :
    (elementsAt items indexes).Pairwise R := by
  rw [elementsAt, pairwise_filterMap]
  refine hindexes.imp ?_
  intro index later hlt item hitem other hother
  obtain ⟨hindex, rfl⟩ := List.getElem?_eq_some_iff.1 hitem
  obtain ⟨hlater, rfl⟩ := List.getElem?_eq_some_iff.1 hother
  exact pairwise_iff_getElem.1 hitems index later hindex hlater hlt

variable {key : α → κ}

/-- Where keys are distinct, an element's key tells its position. -/
theorem index_eq_of_key_eq {items : List α} (hkeys : (items.map key).Nodup)
    {index other : Nat} {item found : α} (hitem : items[index]? = some item)
    (hfound : items[other]? = some found) (hsame : key item = key found) : index = other := by
  have hlt : index < (items.map key).length := by
    rw [length_map]
    exact (List.getElem?_eq_some_iff.1 hitem).1
  apply (getElem?_inj hlt hkeys).1
  rw [getElem?_map, getElem?_map, hitem, hfound]
  exact congrArg some hsame

/-- Different positions give elements with different keys. -/
theorem nodup_map_elementsAt {items : List α} (hkeys : (items.map key).Nodup)
    {indexes : List Nat} (hindexes : indexes.Nodup) : ((elementsAt items indexes).map key).Nodup := by
  rw [List.Nodup, pairwise_map, elementsAt, pairwise_filterMap]
  refine hindexes.imp ?_
  intro index other hne item hitem found hfound hsame
  exact hne (index_eq_of_key_eq hkeys hitem hfound hsame)

theorem without_of_lt {first : Nat} (hindexes : ∀ index ∈ indexes, index < first)
    (items : List α) : without indexes first items = items := by
  induction items generalizing first with
  | nil => rfl
  | cons item rest ih =>
    have hfirst : first ∉ indexes := fun hmem => lt_irrefl first (hindexes first hmem)
    rw [without, if_neg hfirst, ih]
    exact fun index hindex => Nat.lt_succ_of_lt (hindexes index hindex)

/-- Removing a position after all of `indexes`, and then those. -/
theorem without_eraseIdx {indexes : List Nat} {first index : Nat}
    (hindexes : ∀ other ∈ indexes, other < first + index) (items : List α) :
    without indexes first (items.eraseIdx index) = without ((first + index) :: indexes) first items := by
  induction items generalizing first index with
  | nil => simp [without]
  | cons item rest ih =>
    cases index with
    | zero =>
      have hlt : ∀ other ∈ indexes, other < first := hindexes
      have hnone : ∀ other ∈ first :: indexes, other < first + 1 := by
        intro other hother
        rcases mem_cons.1 hother with rfl | hrest
        · exact Nat.lt_succ_self other
        · exact Nat.lt_succ_of_lt (hlt other hrest)
      rw [eraseIdx_cons_zero, without_of_lt hlt, without, Nat.add_zero, if_pos mem_cons_self,
        without_of_lt hnone]
    | succ index =>
      have hshift : first + (index + 1) = first + 1 + index := by omega
      have hother : (first ∈ (first + (index + 1)) :: indexes) ↔ first ∈ indexes := by
        rw [mem_cons, or_iff_right]
        omega
      rw [eraseIdx_cons_succ, without, without]
      simp only [hother]
      rw [hshift] at hindexes ⊢
      rw [ih hindexes]

theorem foldl_eraseIdx_descending (hindexes : indexes.Pairwise (· > ·)) (items : List α) :
    indexes.foldl eraseIdx items = without indexes 0 items := by
  induction indexes generalizing items with
  | nil => exact (without_of_lt (by simp) items).symm
  | cons index rest ih =>
    rw [pairwise_cons] at hindexes
    rw [foldl_cons, ih hindexes.2]
    have hall := @without_eraseIdx _ rest 0 index (by simpa using hindexes.1) items
    rwa [Nat.zero_add] at hall

theorem without_eq_filter {first : Nat} {items : List α}
    (hp : ∀ index item, items[index]? = some item → (first + index ∈ indexes ↔ p item = true)) :
    without indexes first items = items.filter fun item => !p item := by
  induction items generalizing first with
  | nil => rfl
  | cons item rest ih =>
    have hrest := @ih (first + 1) (by
      intro index other hother
      have hnext := hp (index + 1) other hother
      rwa [show first + (index + 1) = first + 1 + index by omega] at hnext)
    have hitem := hp 0 item rfl
    rw [Nat.add_zero] at hitem
    rw [without, hrest, filter_cons]
    by_cases hhere : p item = true
    · rw [if_pos (hitem.2 hhere), if_neg (by simp [hhere])]
    · rw [if_neg fun hmem => hhere (hitem.1 hmem), if_pos (by simpa using hhere)]

/-- With distinct keys, what is left is told by the keys of what was taken. -/
theorem without_eq_filter_keys [DecidableEq κ] {items : List α}
    (hkeys : (items.map key).Nodup)
    (indexes : List Nat) :
    without indexes 0 items =
      items.filter fun item => !decide (key item ∈ (elementsAt items indexes).map key) := by
  apply without_eq_filter
  intro index item hitem
  rw [Nat.zero_add, decide_eq_true_eq]
  constructor
  · intro hindex
    exact mem_map_of_mem (mem_elementsAt.2 ⟨index, hindex, hitem⟩)
  intro hmem
  obtain ⟨other, hother, hsame⟩ := mem_map.1 hmem
  obtain ⟨found, hfound, hat⟩ := mem_elementsAt.1 hother
  exact index_eq_of_key_eq hkeys hat hitem hsame ▸ hfound

/-- Two relations that hold along a list: the first decides the order of two elements. -/
theorem pairwise_of_ordered {R S : α → α → Prop} {items : List α} (hS : items.Pairwise S)
    (hR : items.Pairwise R) (hasymm : ∀ item other, S item other → ¬ S other item)
    (hirrefl : ∀ item, ¬ S item item) {item other : α} (hitem : item ∈ items) (hother : other ∈ items)
    (hordered : S item other) : R item other := by
  induction items with
  | nil => simp at hitem
  | cons head rest ih =>
    rw [pairwise_cons] at hS hR
    rcases mem_cons.1 hitem with hhead | hlater
    · subst hhead
      rcases mem_cons.1 hother with hsame | hrest
      · subst hsame
        exact absurd hordered (hirrefl _)
      · exact hR.1 other hrest
    rcases mem_cons.1 hother with hhead | hrest
    · subst hhead
      exact absurd hordered (hasymm _ _ (hS.1 item hlater))
    · exact ih hS.2 hR.2 hlater hrest

end Hummin
