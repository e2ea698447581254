/-
The payloads of a link: a value's byte leaves travel as raw segments, each with a reference
to its segment in its place.
-/
import Hummin.JsonParsed

namespace Hummin.LinkPayload

open List PropertyList Option

abbrev Segments := List (List UInt8)

/-- What a payload is built of: JSON values and `Uint8Array` leaves. -/
inductive Value where
  | null
  | bool (value : Bool)
  | num (value : ℚ)
  | str (text : JsString)
  | bytes (content : List UInt8)
  | arr (items : List Value)
  | obj (fields : List (JsString × Value))

def bytesKey : JsString := js "$bytes".toList

def reference (index : Nat) : JsonValue :=
  .obj () [(bytesKey, .num index)]

/-! ### Writing -/

mutual

/-- The tree that the replacer makes `JSON.stringify` write, with the segments so far.
None: an object has the reserved key. -/
def replaced : Value → Segments → Option (JsonValue × Segments)
  | .null, segments => some (.null, segments)
  | .bool value, segments => some (.bool value, segments)
  | .num value, segments => some (.num value, segments)
  | .str text, segments => some (.str text, segments)
  | .bytes content, segments => some (reference segments.length, segments ++ [content])
  | .arr items, segments => do
    let (items, segments) ← replacedItems items segments
    return (.arr () items, segments)
  | .obj fields, segments =>
    if bytesKey ∈ keys fields then none
    else do
      let (fields, segments) ← replacedFields fields segments
      return (.obj () fields, segments)

def replacedItems : List Value → Segments → Option (List JsonValue × Segments)
  | [], segments => some ([], segments)
  | item :: rest, segments => do
    let (item, segments) ← replaced item segments
    let (rest, segments) ← replacedItems rest segments
    return (item :: rest, segments)

def replacedFields :
    List (JsString × Value) → Segments → Option (List (JsString × JsonValue) × Segments)
  | [], segments => some ([], segments)
  | (key, value) :: rest, segments => do
    let (value, segments) ← replaced value segments
    let (rest, segments) ← replacedFields rest segments
    return ((key, value) :: rest, segments)

end

inductive Thrown where
  | syntaxError
  | invalid (code message : String)
  | error (message : String)

structure Part where
  json : JsString
  segments : Segments

/-- `payloadPart` of a method whose schema has byte leaves. -/
def payloadPart (value : Value) : Except Thrown Part :=
  match replaced value [] with
  | none => .error (.invalid "args" "\"$bytes\" is reserved in values crossing a link")
  | some (tree, segments) => .ok ⟨JsonText.stringify tree, segments⟩

/-! ### Reading -/

def segmentAt (segments : Segments) (index : ℚ) : Option (List UInt8) :=
  if index.den = 1 ∧ 0 ≤ index.num then segments[index.num.toNat]? else none

/-- The segment a node with the reserved key refers to. -/
def resolveReference (segments : Segments) (fields : List (JsString × JsonValue)) :
    JsonValue → Option Value
  | .num index => if fields.length ≠ 1 then none else (segmentAt segments index).map .bytes
  | _ => none

mutual

/-- None: a reference is malformed. -/
def resolveSegments (segments : Segments) : JsonValue → Option Value
  | .null => some .null
  | .bool value => some (.bool value)
  | .num value => some (.num value)
  | .str text => some (.str text)
  | .arr _ items => (resolveItems segments items).map .arr
  | .obj _ fields =>
    match get bytesKey fields with
    | some index => resolveReference segments fields index
    | none => (resolveFields segments fields).map .obj

def resolveItems (segments : Segments) : List JsonValue → Option (List Value)
  | [] => some []
  | item :: rest => do
    let item ← resolveSegments segments item
    let rest ← resolveItems segments rest
    return item :: rest

def resolveFields (segments : Segments) :
    List (JsString × JsonValue) → Option (List (JsString × Value))
  | [] => some []
  | (key, value) :: rest => do
    let value ← resolveSegments segments value
    let rest ← resolveFields segments rest
    return (key, value) :: rest

end

def parsePayload (json : JsString) (segments : Segments) : Except Thrown Value :=
  match JsonText.parse json with
  | none => .error .syntaxError
  | some tree =>
    match resolveSegments segments tree with
    | none => .error (.error "payload: a malformed byte segment reference")
    | some value => .ok value

/-! ### The reserved key -/

def Value.isLeaf : Value → Bool
  | .arr _ | .obj _ => false
  | _ => true

/-- No object in it has the reserved key. -/
inductive Free : Value → Prop
  | leaf {value : Value} (hleaf : value.isLeaf = true) : Free value
  | arr {items : List Value} (hitems : ∀ item ∈ items, Free item) : Free (.arr items)
  | obj {fields : List (JsString × Value)} (hkey : bytesKey ∉ keys fields)
      (hfields : ∀ field ∈ fields, Free field.2) : Free (.obj fields)

/-- The values that JavaScript holds. -/
inductive Held : Value → Prop
  | leaf {value : Value} (hleaf : value.isLeaf = true)
      (hnum : ∀ number, value = .num number → IsDouble number) : Held value
  | arr {items : List Value} (hitems : ∀ item ∈ items, Held item) : Held (.arr items)
  | obj {fields : List (JsString × Value)} (hordered : JsonText.NamesOrdered (keys fields))
      (hfields : ∀ field ∈ fields, Held field.2) : Held (.obj fields)

mutual

theorem free_of_resolved (segments : Segments) (tree : JsonValue) (value : Value)
    (hvalue : resolveSegments segments tree = some value) : Free value := by
  cases tree with
  | null | bool | num | str => cases hvalue; exact .leaf rfl
  | arr _ items =>
    obtain ⟨items', hitems, rfl⟩ := map_eq_some_iff.mp hvalue
    exact .arr (free_of_resolvedItems segments items items' hitems)
  | obj _ fields =>
    unfold resolveSegments at hvalue
    split at hvalue
    next index _ =>
      cases index with
      | num index =>
        simp only [resolveReference, ite_eq_iff, reduceCtorEq, and_false, false_or,
          map_eq_some_iff] at hvalue
        obtain ⟨-, content, -, rfl⟩ := hvalue
        exact .leaf rfl
      | _ => cases hvalue
    next hnone =>
      obtain ⟨fields', hfields, rfl⟩ := map_eq_some_iff.mp hvalue
      obtain ⟨hkeys, hfree⟩ := free_of_resolvedFields segments fields fields' hfields
      exact .obj (hkeys ▸ (get_eq_none_iff _ _).mp hnone) hfree

theorem free_of_resolvedItems (segments : Segments) (trees : List JsonValue)
    (items : List Value) (hitems : resolveItems segments trees = some items) :
    ∀ item ∈ items, Free item := by
  cases trees with
  | nil => cases hitems; exact nofun
  | cons tree trees =>
    simp only [resolveItems, bind_eq_bind, bind_eq_some_iff, Option.pure_def, some.injEq] at hitems
    obtain ⟨item, hitem, rest, hrest, rfl⟩ := hitems
    exact forall_mem_cons.mpr ⟨free_of_resolved segments tree item hitem,
      free_of_resolvedItems segments trees rest hrest⟩

theorem free_of_resolvedFields (segments : Segments) (trees : List (JsString × JsonValue))
    (fields : List (JsString × Value)) (hfields : resolveFields segments trees = some fields) :
    keys trees = keys fields ∧ ∀ field ∈ fields, Free field.2 := by
  match trees with
  | [] => cases hfields; exact ⟨rfl, nofun⟩
  | (key, tree) :: trees =>
    simp only [resolveFields, bind_eq_bind, bind_eq_some_iff, Option.pure_def,
      some.injEq] at hfields
    obtain ⟨value, hvalue, rest, hrest, rfl⟩ := hfields
    obtain ⟨hkeys, hfree⟩ := free_of_resolvedFields segments trees rest hrest
    exact ⟨congrArg (key :: ·) hkeys, forall_mem_cons.mpr
      ⟨free_of_resolved segments tree value hvalue, hfree⟩⟩

end

mutual

theorem free_of_replaced (value : Value) (segments : Segments) {written : JsonValue × Segments}
    (hwritten : replaced value segments = some written) : Free value := by
  cases value with
  | null | bool | num | str | bytes => exact .leaf rfl
  | arr items =>
    simp only [replaced, bind_eq_bind, bind_eq_some_iff] at hwritten
    obtain ⟨rest, hrest, -⟩ := hwritten
    exact .arr (free_of_replacedItems items segments hrest)
  | obj fields =>
    simp only [replaced, ite_eq_iff, reduceCtorEq, and_false, false_or, bind_eq_bind,
      bind_eq_some_iff] at hwritten
    obtain ⟨hkey, rest, hrest, -⟩ := hwritten
    exact .obj hkey (free_of_replacedFields fields segments hrest)

theorem free_of_replacedItems (items : List Value) (segments : Segments)
    {written : List JsonValue × Segments}
    (hwritten : replacedItems items segments = some written) : ∀ item ∈ items, Free item := by
  cases items with
  | nil => exact nofun
  | cons item rest =>
    simp only [replacedItems, bind_eq_bind, bind_eq_some_iff] at hwritten
    obtain ⟨first, hfirst, others, hothers, -⟩ := hwritten
    exact forall_mem_cons.mpr ⟨free_of_replaced item segments hfirst,
      free_of_replacedItems rest first.2 hothers⟩

theorem free_of_replacedFields (fields : List (JsString × Value)) (segments : Segments)
    {written : List (JsString × JsonValue) × Segments}
    (hwritten : replacedFields fields segments = some written) :
    ∀ field ∈ fields, Free field.2 := by
  match fields with
  | [] => exact nofun
  | (key, value) :: rest =>
    simp only [replacedFields, bind_eq_bind, bind_eq_some_iff] at hwritten
    obtain ⟨first, hfirst, others, hothers, -⟩ := hwritten
    exact forall_mem_cons.mpr ⟨free_of_replaced value segments hfirst,
      free_of_replacedFields rest first.2 hothers⟩

end

/-! ### The round trip -/

mutual

/-- What is written is read back, whatever segments follow, and can be put into text. -/
theorem replaced_spec (value : Value) (segments : Segments) (hfree : Free value) :
    ∃ tree added, replaced value segments = some (tree, segments ++ added) ∧
      (∀ later, resolveSegments (segments ++ added ++ later) tree = some value) ∧
      (Held value → (segments ++ added).length < 2 ^ 32 → JsonText.Held tree) := by
  cases value with
  | null => exact ⟨.null, [], by simp [replaced], fun _ => rfl, fun _ _ => .null⟩
  | bool value => exact ⟨.bool value, [], by simp [replaced], fun _ => rfl, fun _ _ => .bool value⟩
  | str text => exact ⟨.str text, [], by simp [replaced], fun _ => rfl, fun _ _ => .str text⟩
  | num value =>
    refine ⟨.num value, [], by simp [replaced], fun _ => rfl, fun hheld _ => ?_⟩
    obtain ⟨-, hnum⟩ := hheld
    exact .num (hnum value rfl)
  | bytes content =>
    refine ⟨reference segments.length, [content], rfl, fun later => ?_, fun _ hlength => ?_⟩
    · simp [reference, resolveSegments, get_cons_self, resolveReference, segmentAt]
    have hdouble : IsDouble (segments.length : ℚ) := isDouble_natCast (by
      rw [length_append] at hlength
      omega)
    exact .obj (pairwise_singleton _ _) (by simpa using JsonText.Held.num hdouble)
  | arr items =>
    have hitems : ∀ item ∈ items, Free item := by
      cases hfree with
      | leaf hleaf => cases hleaf
      | arr hitems => exact hitems
    obtain ⟨trees, added, hreplaced, hresolved, hheld⟩ :=
      replacedItems_spec items segments hitems
    refine ⟨.arr () trees, added, by simp [replaced, hreplaced], fun later => ?_,
      fun hvalue hlength => .arr (hheld ?_ hlength)⟩
    · rw [resolveSegments, hresolved, map_some]
    cases hvalue with
    | leaf hleaf => cases hleaf
    | arr hitems => exact hitems
  | obj fields =>
    obtain ⟨hkey, hfields⟩ : bytesKey ∉ keys fields ∧ ∀ field ∈ fields, Free field.2 := by
      cases hfree with
      | leaf hleaf => cases hleaf
      | obj hkey hfields => exact ⟨hkey, hfields⟩
    obtain ⟨trees, added, hreplaced, hkeys, hresolved, hheld⟩ :=
      replacedFields_spec fields segments hfields
    refine ⟨.obj () trees, added, by simp [replaced, hkey, hreplaced], fun later => ?_,
      fun hvalue hlength => ?_⟩
    · rw [resolveSegments, (get_eq_none_iff _ _).mpr (hkeys ▸ hkey), hresolved, map_some]
    cases hvalue with
    | leaf hleaf => cases hleaf
    | obj hordered hvalues =>
      exact .obj ((JsonText.ordered_iff trees).mpr (hkeys ▸ hordered)) (hheld hvalues hlength)

theorem replacedItems_spec (items : List Value) (segments : Segments)
    (hfree : ∀ item ∈ items, Free item) :
    ∃ trees added, replacedItems items segments = some (trees, segments ++ added) ∧
      (∀ later, resolveItems (segments ++ added ++ later) trees = some items) ∧
      ((∀ item ∈ items, Held item) → (segments ++ added).length < 2 ^ 32 →
        ∀ tree ∈ trees, JsonText.Held tree) := by
  cases items with
  | nil => exact ⟨[], [], by simp [replacedItems], fun _ => rfl, fun _ _ => nofun⟩
  | cons item rest =>
    obtain ⟨tree, added, hreplaced, hresolved, hheld⟩ :=
      replaced_spec item segments (hfree item mem_cons_self)
    obtain ⟨trees, others, hreplaced', hresolved', hheld'⟩ :=
      replacedItems_spec rest (segments ++ added) fun item hmem =>
        hfree item (mem_cons_of_mem _ hmem)
    refine ⟨tree :: trees, added ++ others, by simp [replacedItems, hreplaced, hreplaced'],
      fun later => ?_, fun hitems hlength => ?_⟩
    · have hfirst := hresolved (others ++ later)
      simp only [append_assoc] at hfirst hresolved' ⊢
      simp [resolveItems, hfirst, hresolved']
    obtain ⟨hitem, hrest⟩ := forall_mem_cons.mp hitems
    rw [← append_assoc] at hlength
    exact forall_mem_cons.mpr ⟨hheld hitem (by rw [length_append] at hlength; omega),
      hheld' hrest hlength⟩

theorem replacedFields_spec (fields : List (JsString × Value)) (segments : Segments)
    (hfree : ∀ field ∈ fields, Free field.2) :
    ∃ trees added, replacedFields fields segments = some (trees, segments ++ added) ∧
      keys trees = keys fields ∧
      (∀ later, resolveFields (segments ++ added ++ later) trees = some fields) ∧
      ((∀ field ∈ fields, Held field.2) → (segments ++ added).length < 2 ^ 32 →
        ∀ tree ∈ trees, JsonText.Held tree.2) := by
  match fields with
  | [] => exact ⟨[], [], by simp [replacedFields], rfl, fun _ => rfl, fun _ _ => nofun⟩
  | (key, value) :: rest =>
    obtain ⟨tree, added, hreplaced, hresolved, hheld⟩ :=
      replaced_spec value segments (hfree (key, value) mem_cons_self)
    obtain ⟨trees, others, hreplaced', hkeys, hresolved', hheld'⟩ :=
      replacedFields_spec rest (segments ++ added) fun field hmem =>
        hfree field (mem_cons_of_mem _ hmem)
    refine ⟨(key, tree) :: trees, added ++ others,
      by simp [replacedFields, hreplaced, hreplaced'], congrArg (key :: ·) hkeys,
      fun later => ?_, fun hfields hlength => ?_⟩
    · have hfirst := hresolved (others ++ later)
      simp only [append_assoc] at hfirst hresolved' ⊢
      simp [resolveFields, hfirst, hresolved']
    obtain ⟨hvalue, hrest⟩ := forall_mem_cons.mp hfields
    rw [← append_assoc] at hlength
    exact forall_mem_cons.mpr ⟨hheld hvalue (by rw [length_append] at hlength; omega),
      hheld' hrest hlength⟩

end

theorem payloadPart_reserved {value : Value} (hreserved : ¬ Free value) :
    payloadPart value =
      .error (.invalid "args" "\"$bytes\" is reserved in values crossing a link") := by
  cases hwritten : replaced value [] with
  | none => rw [payloadPart, hwritten]
  | some written => exact absurd (free_of_replaced value [] hwritten) hreserved

theorem free_of_parsePayload {json : JsString} {segments : Segments} {value : Value}
    (hvalue : parsePayload json segments = .ok value) : Free value := by
  unfold parsePayload at hvalue
  split at hvalue
  · cases hvalue
  split at hvalue
  · cases hvalue
  next hresolved =>
    cases hvalue
    exact free_of_resolved segments _ _ hresolved

/-- A payload without reserved keys is written and, with as many segments as an array can
hold, read back; one with a reserved key is refused; no payload that is read has one. -/
theorem payload_round_trip :
    (∀ value, Held value → Free value → ∃ part, payloadPart value = .ok part ∧
      (part.segments.length < 2 ^ 32 → parsePayload part.json part.segments = .ok value)) ∧
    (∀ value, ¬ Free value → payloadPart value =
      .error (.invalid "args" "\"$bytes\" is reserved in values crossing a link")) ∧
    ∀ json segments value, parsePayload json segments = .ok value → Free value := by
  refine ⟨fun value hheld hfree => ?_, fun value => payloadPart_reserved,
    fun json segments value => free_of_parsePayload⟩
  obtain ⟨tree, added, hreplaced, hresolved, htree⟩ := replaced_spec value [] hfree
  refine ⟨⟨JsonText.stringify tree, [] ++ added⟩, by rw [payloadPart, hreplaced],
    fun hlength => ?_⟩
  have hback := hresolved []
  rw [append_nil] at hback
  rw [parsePayload, JsonText.parse_stringify (htree hheld hlength)]
  simp only [hback]

theorem payload_round_trip_nested :
    (∃ part, payloadPart (.arr [.bytes [1, 2], .bytes []]) = .ok part ∧
      parsePayload part.json part.segments = .ok (.arr [.bytes [1, 2], .bytes []])) ∧
    payloadPart (.obj [(bytesKey, .null)]) =
      .error (.invalid "args" "\"$bytes\" is reserved in values crossing a link") := by
  have hleaf (content : List UInt8) : Free (.bytes content) := .leaf rfl
  have hbytes (content : List UInt8) : Held (.bytes content) := .leaf rfl nofun
  obtain ⟨part, hpart, hback⟩ := payload_round_trip.1 (.arr [.bytes [1, 2], .bytes []])
    (.arr (by simp [hbytes])) (.arr (by simp [hleaf]))
  refine ⟨⟨part, hpart, hback ?_⟩, payload_round_trip.2.1 _ fun hfree => ?_⟩
  · cases hpart
    decide
  · cases hfree with
    | leaf hleaf => cases hleaf
    | obj hkey _ => exact hkey mem_cons_self

end Hummin.LinkPayload
