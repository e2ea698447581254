/-
Paths into JSON values.  A segment is a property name or a number; a number
names an array element, or the property its decimal text names on an object.
Mutating a container through a reference is replacing the node at its path.
-/
import Hummin.JsonTree

namespace Hummin

open List Option PropertyList

variable {α β : Type}

/-- `Seg`: a string or a number. -/
inductive Seg where
  | key (name : JsString)
  | index (at_ : Nat)
deriving Repr, DecidableEq

abbrev Path := List Seg

/-- The property name a segment has on an object. -/
def Seg.text : Seg → JsString
  | .key name => name
  | .index at_ => decimal at_

def Seg.isNumber : Seg → Bool
  | .key _ => false
  | .index _ => true

def Seg.toJson : Seg → JsonValue
  | .key name => .str name
  | .index at_ => .num at_

def Path.toJson (path : Path) : JsonValue :=
  .arr () (path.map Seg.toJson)

/-- Own-property order: array indices ascending, then names as defined. -/
def keyPrecedes (key name : JsString) : Bool :=
  match arrayIndex key, arrayIndex name with
  | some i, some j => i < j
  | some _, none => true
  | none, _ => false

namespace JsonTree

def isArray : JsonTree α → Bool
  | .arr _ _ => true
  | _ => false

/-- The own property of a container that a segment names. -/
def child : JsonTree α → Seg → Option (JsonTree α)
  | .arr _ items, .index at_ => items[at_]?
  | .obj _ fields, seg => PropertyList.get seg.text fields
  | _, _ => none

/-- `Object.defineProperty` with a plain data descriptor.  `none` where the
container would stop being strict JSON: a hole, or a name on an array. -/
def defineProperty : JsonTree α → Seg → JsonTree α → Option (JsonTree α)
  | .arr mark items, .index at_, value =>
    if at_ < items.length then some (.arr mark (items.set at_ value))
    else if at_ = items.length then some (.arr mark (items ++ [value]))
    else none
  | .obj mark fields, seg, value =>
    some (.obj mark (PropertyList.put keyPrecedes seg.text value fields))
  | _, _, _ => none

/-- Overwrite an own property. -/
def setChild : JsonTree α → Seg → JsonTree α → JsonTree α
  | .arr mark items, .index at_, value => .arr mark (items.set at_ value)
  | .obj mark fields, seg, value =>
    .obj mark (PropertyList.put keyPrecedes seg.text value fields)
  | node, _, _ => node

/-- The node at a path of own properties. -/
def getAt : JsonTree α → Path → Option (JsonTree α)
  | node, [] => some node
  | node, seg :: rest => (node.child seg).bind fun next => next.getAt rest

/-- The root after the node at `path` was replaced. -/
def replaceAt : JsonTree α → Path → JsonTree α → JsonTree α
  | _, [], value => value
  | node, seg :: rest, value =>
    match node.child seg with
    | some next => node.setChild seg (next.replaceAt rest value)
    | none => node

@[simp] theorem getAt_nil (node : JsonTree α) : node.getAt [] = some node := rfl

@[simp]
theorem getAt_cons (node : JsonTree α) (seg : Seg) (rest : Path) :
    node.getAt (seg :: rest) =
      (node.child seg).bind fun next => next.getAt rest := rfl

@[simp]
theorem replaceAt_nil (node value : JsonTree α) : node.replaceAt [] value = value := rfl

variable {node next : JsonTree α}

variable {seg : Seg}

theorem replaceAt_cons (hchild : node.child seg = some next) (rest : Path) (value : JsonTree α) :
    node.replaceAt (seg :: rest) value = node.setChild seg (next.replaceAt rest value) := by
  rw [replaceAt, hchild]

/-! ### One step -/

/-- An own property is an element at its index, or a field under its name. -/
theorem child_cases (hchild : node.child seg = some next) :
    (∃ mark items at_, node = .arr mark items ∧ seg = .index at_ ∧ items[at_]? = some next) ∨
      ∃ mark fields, node = .obj mark fields ∧ get seg.text fields = some next := by
  cases node with
  | null | bool | num | str => simp [child] at hchild
  | arr mark items =>
    cases seg with
    | key name => simp [child] at hchild
    | index at_ => exact .inl ⟨mark, items, at_, rfl, rfl, hchild⟩
  | obj mark fields => exact .inr ⟨mark, fields, rfl, hchild⟩

theorem child_setChild (hchild : node.child seg = some next) (value : JsonTree α) :
    (node.setChild seg value).child seg = some value := by
  rcases child_cases hchild with ⟨mark, items, at_, rfl, rfl, hitem⟩ | ⟨mark, fields, rfl, hfield⟩
  · have hlt := (List.getElem?_eq_some_iff.mp hitem).1
    simp [setChild, child, hlt]
  · simp [setChild, child]

theorem setChild_self (hchild : node.child seg = some next) : node.setChild seg next = node := by
  rcases child_cases hchild with ⟨mark, items, at_, rfl, rfl, hitem⟩ | ⟨mark, fields, rfl, hfield⟩
  · obtain ⟨hlt, hitem⟩ := List.getElem?_eq_some_iff.mp hitem
    rw [setChild, ← hitem, set_getElem_self]
  · rw [setChild, put_eq_self keyPrecedes hfield]

theorem setChild_setChild (node : JsonTree α) (seg : Seg) (first second : JsonTree α) :
    (node.setChild seg first).setChild seg second = node.setChild seg second := by
  cases node with
  | null | bool | num | str => rfl
  | arr mark items => cases seg <;> simp [setChild]
  | obj mark fields => simp [setChild, put_put]

theorem defineProperty_eq_setChild (hchild : node.child seg = some next) (value : JsonTree α) :
    node.defineProperty seg value = some (node.setChild seg value) := by
  rcases child_cases hchild with ⟨mark, items, at_, rfl, rfl, hitem⟩ | ⟨mark, fields, rfl, hfield⟩
  · have hlt := (List.getElem?_eq_some_iff.mp hitem).1
    simp [defineProperty, setChild, hlt]
  · rfl

theorem isObj_of_child (hchild : node.child seg = some next) : node.isObj = true := by
  obtain ⟨_, _, _, rfl, -⟩ | ⟨_, _, rfl, -⟩ := child_cases hchild <;> rfl

/-! ### Whole paths -/

theorem getAt_append (node : JsonTree α) (path rest : Path) :
    node.getAt (path ++ rest) =
      (node.getAt path).bind fun next => next.getAt rest := by
  induction path generalizing node with
  | nil => simp
  | cons seg tail ih =>
    simp only [cons_append, getAt_cons]
    cases node.child seg with
    | none => rfl
    | some next => exact ih next

variable {old : JsonTree α} {path : Path}

theorem getAt_append_of_eq (hpath : node.getAt path = some next) (rest : Path) :
    node.getAt (path ++ rest) = next.getAt rest := by
  rw [getAt_append, hpath]
  rfl

section

variable (hpath : node.getAt path = some old)
include hpath

/-- Replacing the node at a path and looking there gives the new node. -/
theorem getAt_replaceAt (value : JsonTree α) :
    (node.replaceAt path value).getAt path = some value := by
  induction path generalizing node with
  | nil => rfl
  | cons seg rest ih =>
    rw [getAt_cons, bind_eq_some_iff] at hpath
    obtain ⟨next, hchild, hrest⟩ := hpath
    rw [replaceAt_cons hchild, getAt_cons, child_setChild hchild]
    exact ih hrest

theorem replaceAt_self : node.replaceAt path old = node := by
  induction path generalizing node with
  | nil => exact some.inj hpath.symm
  | cons seg rest ih =>
    rw [getAt_cons, bind_eq_some_iff] at hpath
    obtain ⟨next, hchild, hrest⟩ := hpath
    rw [replaceAt_cons hchild, ih hrest, setChild_self hchild]

theorem replaceAt_replaceAt (first second : JsonTree α) :
    (node.replaceAt path first).replaceAt path second = node.replaceAt path second := by
  induction path generalizing node with
  | nil => rfl
  | cons seg rest ih =>
    rw [getAt_cons, bind_eq_some_iff] at hpath
    obtain ⟨next, hchild, hrest⟩ := hpath
    rw [replaceAt_cons hchild, replaceAt_cons hchild,
      replaceAt_cons (child_setChild hchild _), ih hrest, setChild_setChild]

end

/-- Replacing below a path is replacing at the path the node edited below. -/
theorem replaceAt_append (hpath : node.getAt path = some next) (rest : Path) (value : JsonTree α) :
    node.replaceAt (path ++ rest) value = node.replaceAt path (next.replaceAt rest value) := by
  induction path generalizing node with
  | nil =>
    cases hpath
    rfl
  | cons seg tail ih =>
    rw [getAt_cons, bind_eq_some_iff] at hpath
    obtain ⟨step, hchild, htail⟩ := hpath
    rw [cons_append, replaceAt_cons hchild, replaceAt_cons hchild, ih htail]

/-! ### Marks -/

variable (f : α → β)

@[simp]
theorem isArray_mapMark (node : JsonTree α) : (node.mapMark f).isArray = node.isArray := by
  cases node <;> simp [isArray]

theorem child_mapMark (node : JsonTree α) (seg : Seg) :
    (node.mapMark f).child seg = (node.child seg).map (mapMark f) := by
  cases node with
  | null | bool | num | str => rfl
  | arr mark items => cases seg <;> simp [child]
  | obj mark fields => simp [child, get_mapValues]

theorem setChild_mapMark (node : JsonTree α) (seg : Seg) (value : JsonTree α) :
    (node.mapMark f).setChild seg (value.mapMark f) = (node.setChild seg value).mapMark f := by
  cases node with
  | null | bool | num | str => rfl
  | arr mark items => cases seg <;> simp [setChild]
  | obj mark fields => simp [setChild, mapValues_put]

theorem defineProperty_mapMark (node : JsonTree α) (seg : Seg) (value : JsonTree α) :
    (node.mapMark f).defineProperty seg (value.mapMark f) =
      (node.defineProperty seg value).map (mapMark f) := by
  cases node with
  | null | bool | num | str => rfl
  | arr mark items =>
    cases seg with
    | key name => simp [defineProperty]
    | index at_ =>
      simp only [mapMark_arr, defineProperty, length_map]
      split
      · simp
      · split <;> simp
  | obj mark fields => simp [defineProperty, mapValues_put]

theorem getAt_mapMark (node : JsonTree α) (path : Path) :
    (node.mapMark f).getAt path = (node.getAt path).map (mapMark f) := by
  induction path generalizing node with
  | nil => rfl
  | cons seg rest ih =>
    rw [getAt_cons, getAt_cons, child_mapMark]
    cases node.child seg with
    | none => rfl
    | some next => exact ih next

theorem replaceAt_mapMark (node : JsonTree α) (path : Path) (value : JsonTree α) :
    (node.mapMark f).replaceAt path (value.mapMark f) = (node.replaceAt path value).mapMark f := by
  induction path generalizing node with
  | nil => rfl
  | cons seg rest ih =>
    rw [replaceAt, replaceAt, child_mapMark]
    cases node.child seg with
    | none => rfl
    | some next =>
      simp only [map_some]
      rw [ih next, setChild_mapMark]

/-! ### Strictness -/

theorem Strict.child {node next : JsonTree α} (hstrict : node.Strict)
    (hchild : node.child seg = some next) : next.Strict := by
  rcases child_cases hchild with ⟨mark, items, at_, rfl, rfl, hitem⟩ | ⟨mark, fields, rfl, hfield⟩
  · exact (strict_arr_iff mark items).mp hstrict next (mem_of_getElem? hitem)
  · exact hstrict.of_get hfield

theorem Strict.getAt (hstrict : node.Strict)
    {path : Path} (hpath : node.getAt path = some next) : next.Strict := by
  induction path generalizing node with
  | nil =>
    cases hpath
    exact hstrict
  | cons seg rest ih =>
    rw [getAt_cons, bind_eq_some_iff] at hpath
    obtain ⟨step, hchild, hrest⟩ := hpath
    exact ih (hstrict.child hchild) hrest

variable {value : JsonTree α}

theorem Strict.put {mark : α} {fields : List (JsString × JsonTree α)}
    (hstrict : (JsonTree.obj mark fields).Strict) (key : JsString) (hvalue : value.Strict) :
    (JsonTree.obj mark (put keyPrecedes key value fields)).Strict := by
  rw [strict_obj_iff] at hstrict ⊢
  refine ⟨keys_put_nodup keyPrecedes key value hstrict.1, ?_⟩
  intro field hfield
  rcases mem_put hfield with heq | hold
  · rw [heq]
    exact hvalue
  · exact hstrict.2 field hold

theorem Strict.setChild (hstrict : node.Strict) (seg : Seg) (hvalue : value.Strict) :
    (node.setChild seg value).Strict := by
  cases node with
  | null | bool | num | str => exact hstrict
  | arr mark items =>
    cases seg with
    | key name => exact hstrict
    | index at_ =>
      rw [JsonTree.setChild, strict_arr_iff]
      intro item hitem
      rcases mem_or_eq_of_mem_set hitem with hold | rfl
      · exact (strict_arr_iff mark items).mp hstrict item hold
      · exact hvalue
  | obj mark fields => exact hstrict.put seg.text hvalue

/-- A property is defined in an object, over an item of an array or behind its last one. -/
theorem defineProperty_cases {result : JsonTree α}
    (hdefine : node.defineProperty seg value = some result) :
    (∃ mark fields, node = .obj mark fields ∧
      result = .obj mark (put keyPrecedes seg.text value fields)) ∨
    ∃ mark items index, node = .arr mark items ∧ seg = .index index ∧
      (index < items.length ∧ result = .arr mark (items.set index value) ∨
        index = items.length ∧ result = .arr mark (items ++ [value])) := by
  cases node with
  | null | bool | num | str => simp [JsonTree.defineProperty] at hdefine
  | obj mark fields => exact .inl ⟨mark, fields, rfl, (some.inj hdefine).symm⟩
  | arr mark items =>
    cases seg with
    | key name => simp [JsonTree.defineProperty] at hdefine
    | index at_ =>
      refine .inr ⟨mark, items, at_, rfl, rfl, ?_⟩
      simp only [JsonTree.defineProperty] at hdefine
      split at hdefine
      next hlt =>
        exact .inl ⟨hlt, (some.inj hdefine).symm⟩
      split at hdefine
      next hlength =>
        exact .inr ⟨hlength, (some.inj hdefine).symm⟩
      · cases hdefine

theorem Strict.defineProperty (hstrict : node.Strict) {result : JsonTree α} (hvalue : value.Strict)
    (hdefine : node.defineProperty seg value = some result) : result.Strict := by
  rcases defineProperty_cases hdefine with ⟨mark, fields, rfl, rfl⟩ |
    ⟨mark, items, at_, rfl, rfl, ⟨-, rfl⟩ | ⟨-, rfl⟩⟩
  · exact hstrict.put seg.text hvalue
  · exact hstrict.setChild (.index at_) hvalue
  rw [strict_arr_iff] at hstrict ⊢
  exact forall_mem_append.mpr ⟨hstrict, forall_mem_singleton.mpr hvalue⟩

theorem Strict.replaceAt (hstrict : node.Strict) (path : Path) (hvalue : value.Strict) :
    (node.replaceAt path value).Strict := by
  induction path generalizing node with
  | nil => exact hvalue
  | cons seg rest ih =>
    rw [JsonTree.replaceAt]
    split
    next next hchild =>
      exact hstrict.setChild seg (ih (hstrict.child hchild))
    · exact hstrict

end JsonTree

end Hummin
