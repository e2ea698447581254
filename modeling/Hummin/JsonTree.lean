/-
Strict JSON values as JavaScript holds them.  The containers of a tree carry a
mark: `Unit` for plain values, an identity where the program compares containers
with `===`, an address where it copies them on write.  Numbers are exact
rationals, so that the two zeros of a double are one value, as they are for
every comparison the program makes.
-/
import Mathlib.Data.Rat.Defs
import Hummin.JsString
import Hummin.PropertyList

namespace Hummin

open List PropertyList

/-- A JSON value whose containers are marked.  The fields of an object stand in
the order in which its own properties are enumerated. -/
inductive JsonTree (α : Type) where
  | null
  | bool (value : Bool)
  | num (value : ℚ)
  | str (text : JsString)
  | arr (mark : α) (items : List (JsonTree α))
  | obj (mark : α) (fields : List (JsString × JsonTree α))
deriving Repr

/-- A plain strict-JSON value. -/
abbrev JsonValue := JsonTree Unit

variable {α β γ : Type}

namespace JsonTree

/-- The induction principle over items and field values. -/
@[elab_as_elim, induction_eliminator]
theorem induct {motive : JsonTree α → Prop}
    (null : motive .null) (bool : ∀ value, motive (.bool value))
    (num : ∀ value, motive (.num value)) (str : ∀ text, motive (.str text))
    (arr : ∀ mark items, (∀ item ∈ items, motive item) → motive (.arr mark items))
    (obj : ∀ mark fields, (∀ field ∈ fields, motive field.2) →
      motive (.obj mark fields)) (tree : JsonTree α) : motive tree := by
  apply JsonTree.rec (motive_1 := motive)
    (motive_2 := fun items => ∀ item ∈ items, motive item)
    (motive_3 := fun fields => ∀ field ∈ fields, motive field.2)
    (motive_4 := fun field => motive field.2)
  · exact null
  · exact bool
  · exact num
  · exact str
  · exact arr
  · exact obj
  · simp
  · intro head tail hhead htail item hitem
    rcases mem_cons.mp hitem with rfl | hitem
    · exact hhead
    · exact htail item hitem
  · simp
  · intro head tail hhead htail field hfield
    rcases mem_cons.mp hfield with rfl | hfield
    · exact hhead
    · exact htail field hfield
  · intro key value hvalue
    exact hvalue

mutual

def decEq [DecidableEq α] : (left right : JsonTree α) → Decidable (left = right)
  | .null, right => match right with
      | .null => isTrue rfl
      | .bool _ | .num _ | .str _ | .arr _ _ | .obj _ _ => isFalse (by simp)
  | .bool value, right => match right with
      | .bool other => decidable_of_iff (value = other) (by simp)
      | .null | .num _ | .str _ | .arr _ _ | .obj _ _ => isFalse (by simp)
  | .num value, right => match right with
      | .num other => decidable_of_iff (value = other) (by simp)
      | .null | .bool _ | .str _ | .arr _ _ | .obj _ _ => isFalse (by simp)
  | .str text, right => match right with
      | .str other => decidable_of_iff (text = other) (by simp)
      | .null | .bool _ | .num _ | .arr _ _ | .obj _ _ => isFalse (by simp)
  | .arr mark items, right => match right with
      | .arr mark' items' =>
        have := decEqItems items items'
        decidable_of_iff (mark = mark' ∧ items = items') (by simp)
      | .null | .bool _ | .num _ | .str _ | .obj _ _ => isFalse (by simp)
  | .obj mark fields, right => match right with
      | .obj mark' fields' =>
        have := decEqFields fields fields'
        decidable_of_iff (mark = mark' ∧ fields = fields') (by simp)
      | .null | .bool _ | .num _ | .str _ | .arr _ _ => isFalse (by simp)

def decEqItems [DecidableEq α] :
    (left right : List (JsonTree α)) → Decidable (left = right)
  | [], [] => isTrue rfl
  | [], _ :: _ => isFalse (by simp)
  | _ :: _, [] => isFalse (by simp)
  | head :: tail, head' :: tail' =>
    have := decEq head head'
    have := decEqItems tail tail'
    decidable_of_iff (head = head' ∧ tail = tail') (by simp)

def decEqFields [DecidableEq α] :
    (left right : List (JsString × JsonTree α)) → Decidable (left = right)
  | [], [] => isTrue rfl
  | [], _ :: _ => isFalse (by simp)
  | _ :: _, [] => isFalse (by simp)
  | (key, value) :: tail, (key', value') :: tail' =>
    have := decEq value value'
    have := decEqFields tail tail'
    decidable_of_iff ((key = key' ∧ value = value') ∧ tail = tail') (by simp)

end

instance [DecidableEq α] : DecidableEq (JsonTree α) := decEq

/-- `isObj`: neither a primitive nor null. -/
def isObj : JsonTree α → Bool
  | .arr _ _ | .obj _ _ => true
  | _ => false

/-! ### Changing the marks -/

mutual

/-- Replace every mark by its image. -/
def mapMark (f : α → β) : JsonTree α → JsonTree β
  | .null => .null
  | .bool value => .bool value
  | .num value => .num value
  | .str text => .str text
  | .arr mark items => .arr (f mark) (mapMarkItems f items)
  | .obj mark fields => .obj (f mark) (mapMarkFields f fields)

def mapMarkItems (f : α → β) : List (JsonTree α) → List (JsonTree β)
  | [] => []
  | item :: rest => mapMark f item :: mapMarkItems f rest

def mapMarkFields (f : α → β) :
    List (JsString × JsonTree α) → List (JsString × JsonTree β)
  | [] => []
  | (key, value) :: rest => (key, mapMark f value) :: mapMarkFields f rest

end

variable (f : α → β)

theorem mapMarkItems_eq (items : List (JsonTree α)) :
    mapMarkItems f items = items.map (mapMark f) := by
  induction items with
  | nil => rfl
  | cons item rest ih => simp [mapMarkItems, ih]

variable (fields : List (JsString × JsonTree α))

theorem mapMarkFields_eq : mapMarkFields f fields = mapValues (mapMark f) fields := by
  induction fields with
  | nil => rfl
  | cons field rest ih =>
    obtain ⟨key, value⟩ := field
    simp [mapMarkFields, mapValues, ih]

/-- The value without its marks. -/
def erase (tree : JsonTree α) : JsonValue :=
  tree.mapMark fun _ => ()

@[simp] theorem mapMark_null : mapMark f .null = .null := rfl

@[simp] theorem mapMark_bool (value : Bool) : mapMark f (.bool value) = .bool value := rfl

@[simp] theorem mapMark_num (value : ℚ) : mapMark f (.num value) = .num value := rfl

@[simp] theorem mapMark_str (text : JsString) : mapMark f (.str text) = .str text := rfl

@[simp]
theorem mapMark_arr (mark : α) (items : List (JsonTree α)) :
    mapMark f (.arr mark items) = .arr (f mark) (items.map (mapMark f)) := by
  rw [mapMark, mapMarkItems_eq]

@[simp]
theorem mapMark_obj (mark : α) (fields : List (JsString × JsonTree α)) :
    mapMark f (.obj mark fields) = .obj (f mark) (mapValues (mapMark f) fields) := by
  rw [mapMark, mapMarkFields_eq]

variable (tree : JsonTree α)

@[simp]
theorem isObj_mapMark : (tree.mapMark f).isObj = tree.isObj := by
  cases tree <;> simp [isObj]

theorem mapMark_mapMark (g : β → γ) (f : α → β) (tree : JsonTree α) :
    (tree.mapMark f).mapMark g = tree.mapMark (g ∘ f) := by
  induction tree with
  | null | bool | num | str => rfl
  | arr mark items ih => simpa using ih
  | obj mark fields ih =>
    simp only [mapMark_obj, obj.injEq, Function.comp_apply, true_and]
    simp only [mapValues, map_map, map_inj_left, Function.comp_apply, Prod.mk.injEq, true_and]
    exact ih

@[simp]
theorem erase_mapMark : (tree.mapMark f).erase = tree.erase := by
  rw [erase, mapMark_mapMark]
  rfl

theorem mapMark_id : tree.mapMark id = tree := by
  induction tree with
  | null | bool | num | str => rfl
  | arr mark items ih =>
    simp only [mapMark_arr, arr.injEq, id_eq, true_and]
    exact (map_congr_left ih).trans (map_id items)
  | obj mark fields ih =>
    simp only [mapMark_obj, obj.injEq, id_eq, true_and]
    refine (map_congr_left fun field hfield => ?_).trans
      (map_id fields)
    rw [ih field hfield]
    rfl

@[simp]
theorem erase_self (tree : JsonValue) : tree.erase = tree :=
  mapMark_id tree

/-! ### Strictness -/

mutual

/-- No object has two fields of one name. -/
def strict : JsonTree α → Bool
  | .arr _ items => strictItems items
  | .obj _ fields =>
    decide (PropertyList.keys fields).Nodup && strictFields fields
  | _ => true

def strictItems : List (JsonTree α) → Bool
  | [] => true
  | item :: rest => strict item && strictItems rest

def strictFields : List (JsString × JsonTree α) → Bool
  | [] => true
  | (_, value) :: rest => strict value && strictFields rest

end

/-- The value is one that JSON can hold. -/
def Strict (tree : JsonTree α) : Prop := tree.strict = true

instance (tree : JsonTree α) : Decidable tree.Strict :=
  inferInstanceAs (Decidable (_ = true))

theorem strictItems_iff (items : List (JsonTree α)) :
    strictItems items = true ↔ ∀ item ∈ items, item.Strict := by
  induction items with
  | nil => simp [strictItems]
  | cons item rest ih => simp [strictItems, ih, Strict]

variable (fields : List (JsString × JsonTree α))

theorem strictFields_iff : strictFields fields = true ↔ ∀ field ∈ fields, field.2.Strict := by
  induction fields with
  | nil => simp [strictFields]
  | cons field rest ih =>
    obtain ⟨key, value⟩ := field
    simp [strictFields, ih, Strict]

@[simp]
theorem strict_arr_iff (mark : α) (items : List (JsonTree α)) :
    (JsonTree.arr mark items).Strict ↔ ∀ item ∈ items, item.Strict :=
  strictItems_iff items

@[simp]
theorem strict_obj_iff (mark : α) (fields : List (JsString × JsonTree α)) :
    (JsonTree.obj mark fields).Strict ↔ (keys fields).Nodup ∧ ∀ field ∈ fields, field.2.Strict := by
  rw [Strict, strict, Bool.and_eq_true, decide_eq_true_iff, strictFields_iff]

@[simp] theorem strict_null : (JsonTree.null : JsonTree α).Strict := rfl

@[simp] theorem strict_bool (value : Bool) : (JsonTree.bool value : JsonTree α).Strict := rfl

@[simp] theorem strict_num (value : ℚ) : (JsonTree.num value : JsonTree α).Strict := rfl

@[simp] theorem strict_str (text : JsString) : (JsonTree.str text : JsonTree α).Strict := rfl

theorem Strict.of_get {mark : α} {fields : List (JsString × JsonTree α)}
    (hstrict : (JsonTree.obj mark fields).Strict) {key : JsString}
    {value : JsonTree α} (hget : get key fields = some value) : value.Strict :=
  ((strict_obj_iff mark fields).mp hstrict).2 _
    (mem_of_get_eq_some hget)

/-! ### Equality up to the order of object keys -/

/-- The two values are equal up to the order of object keys (and marks). -/
inductive SameValue : JsonTree α → JsonTree β → Prop
  | null : SameValue .null .null
  | bool (value : Bool) : SameValue (.bool value) (.bool value)
  | num (value : ℚ) : SameValue (.num value) (.num value)
  | str (text : JsString) : SameValue (.str text) (.str text)
  | arr {mark : α} {mark' : β} {items : List (JsonTree α)}
      {items' : List (JsonTree β)} (length_eq : items.length = items'.length)
      (items_same : ∀ (i : Nat) (item : JsonTree α) (item' : JsonTree β),
        items[i]? = some item → items'[i]? = some item' → SameValue item item') :
      SameValue (.arr mark items) (.arr mark' items')
  | obj {mark : α} {mark' : β} {fields : List (JsString × JsonTree α)}
      {fields' : List (JsString × JsonTree β)}
      (keys_same : ∀ key, (PropertyList.get key fields).isSome =
        (PropertyList.get key fields').isSome)
      (values_same : ∀ (key : JsString) (value : JsonTree α)
        (value' : JsonTree β), PropertyList.get key fields = some value →
        PropertyList.get key fields' = some value' → SameValue value value') :
      SameValue (.obj mark fields) (.obj mark' fields')

theorem SameValue.refl_mapMark (f : α → β) (tree : JsonTree α) :
    SameValue tree (tree.mapMark f) := by
  induction tree with
  | null => exact .null
  | bool value => exact .bool value
  | num value => exact .num value
  | str text => exact .str text
  | arr mark items ih =>
    rw [mapMark_arr]
    refine .arr (by simp) fun i item item' hitem hitem' => ?_
    rw [getElem?_map, hitem] at hitem'
    cases hitem'
    exact ih item (mem_of_getElem? hitem)
  | obj mark fields ih =>
    rw [mapMark_obj]
    refine .obj (fun key => by simp [get_mapValues])
      fun key value value' hvalue hvalue' => ?_
    rw [get_mapValues, hvalue] at hvalue'
    cases hvalue'
    exact ih _ (mem_of_get_eq_some hvalue)

variable (tree : JsonTree α)

@[refl]
theorem SameValue.refl : SameValue tree tree := by
  have hsame := SameValue.refl_mapMark id tree
  rwa [mapMark_id] at hsame

variable {left : JsonTree α}

theorem SameValue.symm {right : JsonTree β}
    (hsame : SameValue left right) : SameValue right left := by
  induction hsame with
  | null => exact .null
  | bool value => exact .bool value
  | num value => exact .num value
  | str text => exact .str text
  | arr length_eq _ ih =>
    exact .arr length_eq.symm fun i item' item hitem' hitem =>
      ih i item item' hitem hitem'
  | obj keys_same _ ih =>
    exact .obj (fun key => (keys_same key).symm)
      fun key value' value hvalue' hvalue => ih key value value' hvalue hvalue'

theorem SameValue.trans {middle : JsonTree β} {right : JsonTree γ} (hleft : SameValue left middle)
    (hright : SameValue middle right) : SameValue left right := by
  induction hleft generalizing right with
  | null => cases hright; exact .null
  | bool value => cases hright; exact .bool value
  | num value => cases hright; exact .num value
  | str text => cases hright; exact .str text
  | arr length_eq _ ih =>
    cases hright with
    | arr length_eq' items_same' =>
      refine .arr (length_eq.trans length_eq')
        fun i item item' hitem hitem' => ?_
      have hlt : i < _ := (List.getElem?_eq_some_iff.mp hitem).1
      rw [length_eq] at hlt
      have hmiddle := getElem?_eq_getElem hlt
      exact ih i item _ hitem hmiddle (items_same' i _ item' hmiddle hitem')
  | obj keys_same _ ih =>
    cases hright with
    | obj keys_same' values_same' =>
      refine .obj (fun key => (keys_same key).trans (keys_same' key))
        fun key value value' hvalue hvalue' => ?_
      have hsome := keys_same key
      rw [hvalue, Option.isSome_some] at hsome
      obtain ⟨middle, hmiddle⟩ := Option.isSome_iff_exists.mp hsome.symm
      exact ih key value middle hvalue hmiddle
        (values_same' key middle value' hmiddle hvalue')

theorem sameValue_erase : SameValue tree tree.erase :=
  SameValue.refl_mapMark _ tree

end JsonTree

end Hummin
