/-
Maps bounded to a number of entries.  A key moves to the end when it is read or set,
and the first one leaves when there are too many.
-/
import Hummin.JsMap

namespace Hummin

open List PropertyList

universe u v

namespace Lru

variable {K : Type u} {V : Type v} [DecidableEq K]

/-- The value and the map after the read. -/
def get (key : K) (map : List (K × V)) : Option V × List (K × V) :=
  match PropertyList.get key map with
  | none => (none, map)
  | some value => (some value, PropertyList.erase key map ++ [(key, value)])

def set (capacity : Nat) (key : K) (value : V) (map : List (K × V)) : List (K × V) :=
  let kept := PropertyList.erase key map ++ [(key, value)]
  if capacity < kept.length then kept.tail else kept

theorem fst_get (key : K) (map : List (K × V)) : (get key map).1 = PropertyList.get key map := by
  rw [get]
  split <;> simp_all

variable {key : K} {map : List (K × V)} {pair : K × V}

theorem mem_erase (hpair : pair ∈ erase key map) : pair ∈ map ∧ pair.1 ≠ key := by
  have hmem := mem_filter.mp hpair
  exact ⟨hmem.1, by simpa using hmem.2⟩

/-- A read keeps what is there. -/
theorem mem_get (hpair : pair ∈ (get key map).2) : pair ∈ map := by
  rw [get] at hpair
  split at hpair
  · exact hpair
  rename_i value hvalue
  rcases mem_append.mp hpair with hold | hnew
  · exact (mem_erase hold).1
  rw [mem_singleton.mp hnew]
  exact mem_of_get_eq_some hvalue

/-- After a write nothing else is new, and nothing old has the key. -/
theorem mem_set {capacity : Nat} {key : K} {value : V} {map : List (K × V)}
    {pair : K × V} (hpair : pair ∈ set capacity key value map) :
    pair = (key, value) ∨ (pair ∈ map ∧ pair.1 ≠ key) := by
  have hkept : pair ∈ erase key map ++ [(key, value)] := by
    rw [set] at hpair
    split at hpair
    · exact mem_of_mem_tail hpair
    · exact hpair
  rcases mem_append.mp hkept with hold | hnew
  · exact .inr (mem_erase hold)
  · exact .inl (mem_singleton.mp hnew)

theorem has_set {capacity : Nat} {key other : K} {value : V} {map : List (K × V)}
    (hhas : JsMap.has other (set capacity key value map) = true) :
    other = key ∨ JsMap.has other map = true := by
  rw [JsMap.has, get_isSome_iff] at hhas ⊢
  obtain ⟨pair, hpair, rfl⟩ := mem_map.mp hhas
  rcases mem_set hpair with rfl | ⟨hold, -⟩
  · exact .inl rfl
  · exact .inr (mem_map_of_mem hold)

end Lru

end Hummin
