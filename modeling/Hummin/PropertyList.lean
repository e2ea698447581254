/-
Ordered property lists: the own properties of a record in the order in which
they are enumerated.  A new key goes before the first key it precedes, a key
that is present keeps its place.  The order enters only through an arbitrary
Boolean relation, so the lookup laws below hold for every enumeration order.
-/
import Mathlib.Data.List.Basic
import Mathlib.Data.List.Nodup

namespace Hummin

open List

universe u v w

namespace PropertyList

variable {K : Type u} {V : Type v} {W : Type w} [DecidableEq K]

/-- The value of the first property named `key`. -/
def get (key : K) : List (K × V) → Option V
  | [] => none
  | (name, value) :: rest => if name = key then some value else get key rest

/-- Overwrite the first property named `key` where it stands. -/
def replace (key : K) (value : V) : List (K × V) → List (K × V)
  | [] => []
  | (name, old) :: rest =>
    if name = key then (name, value) :: rest
    else (name, old) :: replace key value rest

/-- Insert a new property before the first one it precedes. -/
def place (precedes : K → K → Bool) (key : K) (value : V) :
    List (K × V) → List (K × V)
  | [] => [(key, value)]
  | (name, old) :: rest =>
    if precedes key name then (key, value) :: (name, old) :: rest
    else (name, old) :: place precedes key value rest

/-- Define a property: in place when the key is present, else placed. -/
def put (precedes : K → K → Bool) (key : K) (value : V)
    (fields : List (K × V)) : List (K × V) :=
  if (get key fields).isSome then replace key value fields
  else place precedes key value fields

/-- Delete every property named `key`. -/
def erase (key : K) (fields : List (K × V)) : List (K × V) :=
  fields.filter fun field => field.1 ≠ key

def keys (fields : List (K × V)) : List K :=
  fields.map Prod.fst

variable (f : V → W) (precedes : K → K → Bool) (key : K)

@[simp]
theorem get_nil : get key ([] : List (K × V)) = none := rfl

theorem get_cons (name : K) (value : V) (rest : List (K × V)) :
    get key ((name, value) :: rest) =
      if name = key then some value else get key rest := rfl

variable (other : K) (value : V)

@[simp]
theorem get_cons_self (rest : List (K × V)) : get key ((key, value) :: rest) = some value := by
  simp [get]

theorem get_cons_of_ne {key name : K} (hne : name ≠ key) (value : V) (rest : List (K × V)) :
    get key ((name, value) :: rest) = get key rest := by
  simp [get, hne]

variable (first second : V) (fields : List (K × V))

theorem get_isSome_iff : (get key fields).isSome ↔ key ∈ keys fields := by
  induction fields with
  | nil => simp [keys]
  | cons field rest ih =>
    obtain ⟨name, value⟩ := field
    by_cases hname : name = key
    · simp [get, keys, hname]
    simp only [get, hname, ↓reduceIte, ih, keys, map_cons, mem_cons]
    constructor
    · exact Or.inr
    rintro (heq | hmem)
    · exact absurd heq.symm hname
    · exact hmem

theorem get_eq_none_iff : get key fields = none ↔ key ∉ keys fields := by
  rw [← get_isSome_iff, Option.not_isSome_iff_eq_none]

theorem mem_of_get_eq_some {key : K} {value : V} {fields : List (K × V)}
    (hget : get key fields = some value) : (key, value) ∈ fields := by
  induction fields with
  | nil => simp at hget
  | cons field rest ih =>
    obtain ⟨name, old⟩ := field
    by_cases hname : name = key
    · simp only [get, hname, ↓reduceIte, Option.some.injEq] at hget
      simp [hname, hget]
    simp only [get, hname, ↓reduceIte] at hget
    exact mem_cons_of_mem _ (ih hget)

theorem get_eq_some_of_mem {key : K} {value : V} {fields : List (K × V)}
    (hnodup : (keys fields).Nodup) (hmem : (key, value) ∈ fields) :
    get key fields = some value := by
  induction fields with
  | nil => simp at hmem
  | cons field rest ih =>
    obtain ⟨name, old⟩ := field
    simp only [keys, map_cons, nodup_cons] at hnodup
    rcases mem_cons.mp hmem with heq | hrest
    · simp only [Prod.mk.injEq] at heq
      simp [get, heq.1, heq.2]
    have hne : name ≠ key := by
      rintro rfl
      exact hnodup.1 (mem_map_of_mem (f := Prod.fst) hrest)
    rw [get_cons_of_ne hne]
    exact ih hnodup.2 hrest

/-! ### Lookup after an update -/

theorem get_replace :
    get other (replace key value fields) =
      if other = key then (get key fields).map fun _ => value
      else get other fields := by
  induction fields with
  | nil => simp [replace]
  | cons field rest ih =>
    obtain ⟨name, old⟩ := field
    by_cases hname : name = key
    · by_cases hother : other = key
      · simp [replace, get, hname, hother]
      have hne : key ≠ other := fun heq => hother heq.symm
      simp [replace, get, hname, hother, hne]
    by_cases hother : other = key
    · subst hother
      simp [replace, get, hname, ih]
    · simp only [replace, hname, ↓reduceIte, get, ih, hother]

theorem get_place {key : K} (other : K) (value : V)
    {fields : List (K × V)} (hnone : get key fields = none) :
    get other (place precedes key value fields) =
      if other = key then some value else get other fields := by
  induction fields with
  | nil =>
    by_cases hother : other = key
    · simp [place, hother]
    have hne : key ≠ other := fun heq => hother heq.symm
    simp [place, get, hother, hne]
  | cons field rest ih =>
    obtain ⟨name, old⟩ := field
    have hname : name ≠ key := by
      rintro rfl
      simp at hnone
    rw [get_cons_of_ne hname] at hnone
    by_cases hother : other = key
    · subst hother
      by_cases hbefore : precedes other name = true
      · simp [place, hbefore]
      · simp [place, hbefore, get_cons_of_ne hname, ih hnone]
    have hne : key ≠ other := fun heq => hother heq.symm
    by_cases hbefore : precedes key name = true
    · simp [place, hbefore, get, hne, hother]
    · simp only [place, hbefore, Bool.false_eq_true, ↓reduceIte, get, ih hnone, hother]

theorem get_filter {key : K} {keep : K → Bool} (hkeep : keep key = true)
    (fields : List (K × V)) :
    get key (fields.filter fun field => keep field.1) = get key fields := by
  induction fields with
  | nil => rfl
  | cons field rest ih =>
    by_cases hname : field.1 = key
    · rw [filter_cons_of_pos (by rw [hname, hkeep]), get_cons, get_cons, if_pos hname,
        if_pos hname]
    rw [get_cons, if_neg hname, ← ih]
    cases hfield : keep field.1 with
    | true => rw [filter_cons_of_pos (by exact hfield), get_cons, if_neg hname]
    | false => rw [filter_cons_of_neg (by simp [hfield])]

/-- Defining a property changes the lookup of that key and of no other. -/
theorem get_put :
    get other (put precedes key value fields) =
      if other = key then some value else get other fields := by
  unfold put
  cases hget : get key fields with
  | none => simpa using get_place precedes other value hget
  | some old => simp [get_replace, hget]

@[simp]
theorem get_put_self : get key (put precedes key value fields) = some value := by
  simp [get_put]

theorem get_put_of_ne {key other : K} (hne : other ≠ key) (value : V) (fields : List (K × V)) :
    get other (put precedes key value fields) = get other fields := by
  simp [get_put, hne]

theorem get_erase :
    get other (erase key fields) =
      if other = key then none else get other fields := by
  induction fields with
  | nil => simp [erase]
  | cons field rest ih =>
    obtain ⟨name, old⟩ := field
    unfold erase at ih ⊢
    by_cases hname : name = key
    · rw [filter_cons_of_neg (by simp [hname]), ih]
      by_cases hother : other = key
      · simp [hother]
      have hne : key ≠ other := fun heq => hother heq.symm
      simp [get, hname, hother, hne]
    rw [filter_cons_of_pos (by simp [hname])]
    by_cases hother : other = key
    · subst hother
      simpa [get, hname] using ih
    · simp only [get, ih, hother, ↓reduceIte]

/-! ### Updates that change nothing, and updates that meet -/

theorem replace_eq_self {key : K} {value : V} {fields : List (K × V)}
    (hget : get key fields = some value) : replace key value fields = fields := by
  induction fields with
  | nil => rfl
  | cons field rest ih =>
    obtain ⟨name, old⟩ := field
    by_cases hname : name = key
    · simp only [get, hname, ↓reduceIte, Option.some.injEq] at hget
      simp [replace, hname, hget]
    simp only [get, hname, ↓reduceIte] at hget
    simp [replace, hname, ih hget]

/-- Writing back the value that is there leaves the list as it is. -/
theorem put_eq_self {key : K} {value : V}
    {fields : List (K × V)} (hget : get key fields = some value) :
    put precedes key value fields = fields := by
  simp [put, hget, replace_eq_self hget]

theorem replace_replace :
    replace key second (replace key first fields) = replace key second fields := by
  induction fields with
  | nil => rfl
  | cons field rest ih =>
    obtain ⟨name, old⟩ := field
    by_cases hname : name = key
    · simp [replace, hname]
    · simp [replace, hname, ih]

theorem replace_place {key : K} (first second : V)
    {fields : List (K × V)} (hnone : get key fields = none) :
    replace key second (place precedes key first fields) = place precedes key second fields := by
  induction fields with
  | nil => simp [place, replace]
  | cons field rest ih =>
    obtain ⟨name, old⟩ := field
    have hname : name ≠ key := by
      rintro rfl
      simp at hnone
    rw [get_cons_of_ne hname] at hnone
    by_cases hbefore : precedes key name = true
    · simp [place, hbefore, replace]
    · simp [place, hbefore, replace, hname, ih hnone]

/-- The second of two writes to one key wins and keeps the key's place. -/
theorem put_put :
    put precedes key second (put precedes key first fields) = put precedes key second fields := by
  have hpresent : (get key (put precedes key first fields)).isSome := by simp
  rw [put, if_pos hpresent]
  cases hget : get key fields with
  | none => simp [put, hget, replace_place precedes first second hget]
  | some old => simp [put, hget, replace_replace]

theorem replace_comm {key other : K} (hne : key ≠ other) (value second : V)
    (fields : List (K × V)) :
    replace key value (replace other second fields) =
      replace other second (replace key value fields) := by
  induction fields with
  | nil => rfl
  | cons field rest ih =>
    obtain ⟨name, old⟩ := field
    by_cases hname : name = key
    · simp [replace, hname, hne]
    by_cases hother : name = other
    · have hkey : other ≠ key := fun heq => hne heq.symm
      simp [replace, hother, hkey]
    · simp [replace, hname, hother, ih]

theorem replace_place_comm {key other : K}
    (hne : key ≠ other) (value second : V) (fields : List (K × V)) :
    replace key value (place precedes other second fields) =
      place precedes other second (replace key value fields) := by
  have hother : other ≠ key := fun heq => hne heq.symm
  induction fields with
  | nil => simp [place, replace, hother]
  | cons field rest ih =>
    obtain ⟨name, old⟩ := field
    by_cases hbefore : precedes other name = true
    · by_cases hname : name = key
      · subst hname
        simp [place, replace, hbefore, hother]
      · simp [place, replace, hbefore, hother, hname]
    by_cases hname : name = key
    · subst hname
      simp [place, replace, hbefore]
    · simp [place, replace, hbefore, hname, ih]

/-- A write to a key that is present commutes with a write to another key. -/
theorem put_comm_of_isSome {key other : K}
    (hne : key ≠ other) (value second : V) {fields : List (K × V)}
    (hkey : (get key fields).isSome) :
    put precedes key value (put precedes other second fields) =
      put precedes other second (put precedes key value fields) := by
  have hkey' : (get key (put precedes other second fields)).isSome := by
    rw [get_put_of_ne precedes hne]
    exact hkey
  rw [put, if_pos hkey']
  have hother : get other (put precedes key value fields) =
      get other fields := get_put_of_ne precedes hne.symm value fields
  have hput : put precedes key value fields = replace key value fields := by
    rw [put, if_pos hkey]
  rw [hput] at hother ⊢
  cases hget : get other fields with
  | none =>
    rw [put, put, hother, hget]
    simp [replace_place_comm precedes hne]
  | some old =>
    rw [put, put, hother, hget]
    simp [replace_comm hne]

/-! ### Keys -/

theorem keys_replace : keys (replace key value fields) = keys fields := by
  induction fields with
  | nil => rfl
  | cons field rest ih =>
    obtain ⟨name, old⟩ := field
    unfold keys at ih ⊢
    by_cases hname : name = key
    · simp [replace, hname]
    · simp [replace, hname, ih]

omit [DecidableEq K] in
theorem keys_place_perm : (keys (place precedes key value fields)).Perm (key :: keys fields) := by
  induction fields with
  | nil => simp [place, keys]
  | cons field rest ih =>
    obtain ⟨name, old⟩ := field
    by_cases hbefore : precedes key name = true
    · simp [place, hbefore, keys]
    simp only [place, hbefore, Bool.false_eq_true, ↓reduceIte, keys, map_cons]
    exact (List.Perm.cons name ih).trans (List.Perm.swap key name _)

theorem keys_put_nodup {fields : List (K × V)} (hnodup : (keys fields).Nodup) :
    (keys (put precedes key value fields)).Nodup := by
  unfold put
  cases hget : get key fields with
  | none =>
    have hkey : key ∉ keys fields := (get_eq_none_iff key fields).mp hget
    have hperm := keys_place_perm precedes key value fields
    simpa using hperm.nodup_iff.mpr (nodup_cons.mpr ⟨hkey, hnodup⟩)
  | some old => simpa [keys_replace] using hnodup

theorem keys_erase_nodup {fields : List (K × V)}
    (hnodup : (keys fields).Nodup) : (keys (erase key fields)).Nodup :=
  hnodup.sublist (List.Sublist.map _ filter_sublist)

theorem mem_put {precedes : K → K → Bool} {key : K} {value : V}
    {fields : List (K × V)} {field : K × V} (hmem : field ∈ put precedes key value fields) :
    field.2 = value ∨ field ∈ fields := by
  unfold put at hmem
  split at hmem
  · induction fields with
    | nil => simp [replace] at hmem
    | cons head rest ih =>
      obtain ⟨name, old⟩ := head
      by_cases hname : name = key
      · simp only [replace, hname, ↓reduceIte, mem_cons] at hmem
        rcases hmem with rfl | hrest
        · exact Or.inl rfl
        · exact Or.inr (mem_cons_of_mem _ hrest)
      simp only [replace, hname, ↓reduceIte, mem_cons] at hmem
      rcases hmem with rfl | hrest
      · exact Or.inr mem_cons_self
      rename_i hsome
      rw [get_cons_of_ne hname] at hsome
      rcases ih hsome hrest with hvalue | hold
      · exact Or.inl hvalue
      · exact Or.inr (mem_cons_of_mem _ hold)
  clear * - hmem
  induction fields with
  | nil =>
    simp only [place, mem_singleton] at hmem
    exact Or.inl (by rw [hmem])
  | cons head rest ih =>
    obtain ⟨name, old⟩ := head
    by_cases hbefore : precedes key name = true
    · simp only [place, hbefore, ↓reduceIte, mem_cons] at hmem
      rcases hmem with rfl | rfl | hrest
      · exact Or.inl rfl
      · exact Or.inr mem_cons_self
      · exact Or.inr (mem_cons_of_mem _ hrest)
    simp only [place, hbefore, Bool.false_eq_true, ↓reduceIte, mem_cons] at hmem
    rcases hmem with rfl | hrest
    · exact Or.inr mem_cons_self
    rcases ih hrest with hvalue | hold
    · exact Or.inl hvalue
    · exact Or.inr (mem_cons_of_mem _ hold)

/-! ### Mapping the values -/

def mapValues (f : V → W) (fields : List (K × V)) : List (K × W) :=
  fields.map fun field => (field.1, f field.2)

theorem get_mapValues : get key (mapValues f fields) = (get key fields).map f := by
  induction fields with
  | nil => rfl
  | cons field rest ih =>
    obtain ⟨name, value⟩ := field
    unfold mapValues at ih ⊢
    by_cases hname : name = key
    · simp [get, hname]
    · simp [get, hname, ih]

theorem mapValues_replace :
    mapValues f (replace key value fields) = replace key (f value) (mapValues f fields) := by
  induction fields with
  | nil => rfl
  | cons field rest ih =>
    obtain ⟨name, old⟩ := field
    unfold mapValues at ih ⊢
    by_cases hname : name = key
    · simp [replace, hname]
    · simp [replace, hname, ih]

omit [DecidableEq K] in
theorem mapValues_place :
    mapValues f (place precedes key value fields) =
      place precedes key (f value) (mapValues f fields) := by
  induction fields with
  | nil => rfl
  | cons field rest ih =>
    obtain ⟨name, old⟩ := field
    unfold mapValues at ih ⊢
    by_cases hbefore : precedes key name = true
    · simp [place, hbefore]
    · simp [place, hbefore, ih]

theorem mapValues_put :
    mapValues f (put precedes key value fields) =
      put precedes key (f value) (mapValues f fields) := by
  unfold put
  rw [get_mapValues]
  cases hget : get key fields with
  | none => simp [mapValues_place]
  | some old => simp [mapValues_replace]

theorem mapValues_erase : mapValues f (erase key fields) = erase key (mapValues f fields) := by
  simp [mapValues, erase, filter_map, Function.comp_def]

end PropertyList

end Hummin
