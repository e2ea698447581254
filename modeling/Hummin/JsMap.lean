/-
JavaScript maps: key-value pairs in the order in which the keys were first set.
Setting a key that is present keeps its place; the lookups are those of property
lists.
-/
import Hummin.PropertyList

namespace Hummin

open List Option PropertyList

universe u v

namespace JsMap

variable {K : Type u} {V : Type v} [DecidableEq K]

/-- `Map.set`. -/
def set (key : K) (value : V) (map : List (K × V)) : List (K × V) :=
  PropertyList.put (fun _ _ => false) key value map

/-- `Map.has`. -/
def has (key : K) (map : List (K × V)) : Bool :=
  (PropertyList.get key map).isSome

/-- `new Map(pairs)`. -/
def ofPairs (pairs : List (K × V)) : List (K × V) :=
  pairs.foldl (fun map pair => set pair.1 pair.2 map) []

theorem get_set (key other : K) (value : V) (map : List (K × V)) :
    get other (set key value map) =
      if other = key then some value else get other map :=
  get_put _ key other value map

omit [DecidableEq K] in
theorem place_never (key : K) (value : V) (map : List (K × V)) :
    place (fun _ _ => false) key value map = map ++ [(key, value)] := by
  induction map with
  | nil => rfl
  | cons pair rest ih => simp [place, ih]

/-- A new key is set at the end. -/
theorem set_of_not_has {key : K} {map : List (K × V)} (hnew : has key map = false)
    (value : V) : set key value map = map ++ [(key, value)] := by
  have hnone : (get key map).isSome = false := hnew
  rw [set, put, hnone]
  exact place_never key value map

theorem erase_of_not_has {key : K} {map : List (K × V)}
    (hnew : has key map = false) : erase key map = map := by
  rw [has, isSome_eq_false_iff, isNone_iff_eq_none, get_eq_none_iff] at hnew
  rw [erase, filter_eq_self]
  intro pair hpair
  have hne : pair.1 ≠ key := by
    rintro rfl
    exact hnew (mem_map_of_mem hpair)
  simpa using hne

/-- Setting a new key and deleting it again leaves the map as it was. -/
theorem erase_set_of_not_has {key : K} {map : List (K × V)}
    (hnew : has key map = false) (value : V) : erase key (set key value map) = map := by
  rw [set_of_not_has hnew]
  have hkept := erase_of_not_has hnew
  simp only [erase, filter_append] at hkept ⊢
  rw [hkept]
  simp

theorem keys_set_nodup (key : K) (value : V) {map : List (K × V)} (hdistinct : (keys map).Nodup) :
    (keys (set key value map)).Nodup :=
  keys_put_nodup _ key value hdistinct

theorem mem_set {key : K} {value : V} {map : List (K × V)}
    (hdistinct : (keys map).Nodup) {pair : K × V}
    (hpair : pair ∈ set key value map) : pair = (key, value) ∨ pair ∈ map := by
  have hget := get_eq_some_of_mem (keys_set_nodup key value hdistinct) hpair
  rw [get_set] at hget
  split at hget
  next hkey =>
    exact .inl (Prod.ext hkey (some.inj hget).symm)
  · exact .inr (mem_of_get_eq_some hget)

variable {pairs : List (K × V)}

/-- Pairs with distinct PropertyList.keys are set in their order. -/
theorem foldl_set_of_nodup {map : List (K × V)}
    (hdistinct : (PropertyList.keys (map ++ pairs)).Nodup) :
    pairs.foldl (fun map pair => set pair.1 pair.2 map) map = map ++ pairs := by
  induction pairs generalizing map with
  | nil => simp
  | cons pair rest ih =>
    have hnew : has pair.1 map = false := by
      rw [has, isSome_eq_false_iff, isNone_iff_eq_none, get_eq_none_iff]
      intro hmem
      rw [PropertyList.keys, map_append, nodup_append] at hdistinct
      exact hdistinct.2.2 pair.1 hmem pair.1 (by simp) rfl
    rw [foldl_cons, set_of_not_has hnew, ih (by simpa using hdistinct)]
    simp

theorem ofPairs_of_nodup (hdistinct : (keys pairs).Nodup) : ofPairs pairs = pairs := by
  have hall := @foldl_set_of_nodup _ _ _ pairs [] (by simpa using hdistinct)
  rwa [nil_append] at hall

/-! ### Maps keyed by a part of their values -/

/-- Each value stands under its own key. -/
structure Keyed (key : V → K) (map : List (K × V)) : Prop where
  distinct : (PropertyList.keys map).Nodup
  named : ∀ pair ∈ map, pair.1 = key pair.2

/-- Values set under their own keys, in order. -/
def setAll (key : V → K) (values : List V) (map : List (K × V)) : List (K × V) :=
  values.foldl (fun map value => set (key value) value map) map

/-- Keys deleted in order. -/
def eraseAll (keys : List K) (map : List (K × V)) : List (K × V) :=
  keys.foldl (fun map key => PropertyList.erase key map) map

section Keyed

variable {key : V → K} {map : List (K × V)}

omit [DecidableEq K] in
theorem keyed_nil (key : V → K) : Keyed key [] := ⟨nodup_nil, forall_mem_nil _⟩

section

variable (hmap : Keyed key map)
include hmap

theorem Keyed.set (value : V) : Keyed key (set (key value) value map) where
  distinct := keys_set_nodup (key value) value hmap.distinct
  named := by
    intro pair hpair
    rcases mem_set hmap.distinct hpair with rfl | hpair
    · rfl
    · exact hmap.named pair hpair

theorem Keyed.setAll (values : List V) : Keyed key (setAll key values map) := by
  induction values generalizing map with
  | nil => exact hmap
  | cons value rest ih => exact ih (hmap.set value)

theorem Keyed.eraseAll (keys : List K) : Keyed key (eraseAll keys map) := by
  induction keys generalizing map with
  | nil => exact hmap
  | cons name rest ih =>
    apply ih
    exact ⟨keys_erase_nodup name hmap.distinct,
      fun pair hpair => hmap.named pair (mem_of_mem_filter hpair)⟩

theorem Keyed.get_iff (name : K) (value : V) :
    get name map = some value ↔ value ∈ map.map Prod.snd ∧ key value = name := by
  constructor
  · intro hget
    have hmem := mem_of_get_eq_some hget
    exact ⟨mem_map.2 ⟨_, hmem, rfl⟩, (hmap.named _ hmem).symm⟩
  rintro ⟨hmem, rfl⟩
  obtain ⟨⟨name, value⟩, hpair, rfl⟩ := mem_map.1 hmem
  have hname : name = key value := hmap.named _ hpair
  subst hname
  exact get_eq_some_of_mem hmap.distinct hpair

end

omit [DecidableEq K] in
/-- The PropertyList.keys of a map are those of its values. -/
theorem Keyed.keys_eq (hmap : Keyed key map) : (map.map Prod.snd).map key = PropertyList.keys map := by
  rw [List.map_map, PropertyList.keys]
  apply map_congr_left
  intro pair hpair
  exact (hmap.named pair hpair).symm

theorem get_eraseAll (keys : List K) (name : K) (map : List (K × V)) :
    get name (eraseAll keys map) = if name ∈ keys then none else get name map := by
  induction keys generalizing map with
  | nil => rfl
  | cons first rest ih =>
    rw [eraseAll, foldl_cons]
    refine (ih _).trans ?_
    rw [get_erase]
    by_cases hfirst : name = first
    · simp [hfirst]
    · simp [hfirst]

variable {values : List V}

theorem get_setAll_of_not_mem {name : K} (hname : name ∉ values.map key) :
    get name (setAll key values map) = get name map := by
  induction values generalizing map with
  | nil => rfl
  | cons value rest ih =>
    rw [map_cons, mem_cons, not_or] at hname
    rw [setAll, foldl_cons]
    refine (ih hname.2).trans ?_
    rw [get_set, if_neg hname.1]

theorem get_setAll_of_mem (hdistinct : (values.map key).Nodup) {value : V}
    (hvalue : value ∈ values) : get (key value) (setAll key values map) = some value := by
  induction values generalizing map with
  | nil => cases hvalue
  | cons first rest ih =>
    rw [map_cons, nodup_cons] at hdistinct
    rw [setAll, foldl_cons]
    rcases mem_cons.1 hvalue with rfl | hrest
    · refine (get_setAll_of_not_mem hdistinct.1).trans ?_
      rw [get_set, if_pos rfl]
    · exact ih hdistinct.2 hrest

/-- Values whose PropertyList.keys are new are set at the end. -/
theorem setAll_of_new (hdistinct : (values.map key).Nodup)
    (hnew : ∀ name ∈ values.map key, name ∉ PropertyList.keys map) :
    setAll key values map = map ++ values.map fun value => (key value, value) := by
  induction values generalizing map with
  | nil => exact (append_nil map).symm
  | cons value rest ih =>
    rw [map_cons, nodup_cons] at hdistinct
    have hnone : has (key value) map = false := by
      rw [has, isSome_eq_false_iff, isNone_iff_eq_none, get_eq_none_iff]
      exact hnew _ mem_cons_self
    rw [setAll, foldl_cons, set_of_not_has hnone]
    refine (ih hdistinct.2 ?_).trans ?_
    · intro name hname
      rw [PropertyList.keys, map_append, mem_append, not_or]
      refine ⟨hnew name (mem_cons_of_mem _ hname), ?_⟩
      rw [map_singleton, mem_singleton]
      rintro rfl
      exact hdistinct.1 hname
    rw [append_assoc]
    rfl

/-- The values of a map, set again, give the map. -/
theorem Keyed.replay (hmap : Keyed key map) : JsMap.setAll key (map.map Prod.snd) [] = map := by
  have hpairs : (map.map Prod.snd).map (fun value => (key value, value)) = map := by
    rw [List.map_map]
    conv_rhs => rw [← map_id map]
    apply map_congr_left
    intro pair hpair
    exact Prod.ext (hmap.named pair hpair).symm rfl
  rw [setAll_of_new, hpairs, nil_append]
  · rw [hmap.keys_eq]
    exact hmap.distinct
  · exact fun _ _ => not_mem_nil

end Keyed

end JsMap

end Hummin
