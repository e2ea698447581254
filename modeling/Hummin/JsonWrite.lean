/-
Writing one property at a path.  A write of a primitive changes no container but
the one it writes into, so writes at two different places commute; the places
are told apart by their paths when numbers address array elements only.
-/
import Hummin.JsonPath

namespace Hummin

open List Option PropertyList

variable {α : Type}

namespace JsonTree

/-- Define the property a path names; `none` where the path leads nowhere. -/
@[grind =]
def writeAt : JsonTree α → Path → JsonTree α → Option (JsonTree α)
  | _, [], _ => none
  | node, [seg], value => node.defineProperty seg value
  | node, seg :: next :: rest, value =>
    (node.child seg).bind fun below =>
      (below.writeAt (next :: rest) value).map (node.setChild seg)

/-- A number does not name a property of an object. -/
def spellsSegment : JsonTree α → Seg → Bool
  | .obj _ _, .index _ => false
  | _, _ => true

/-- Along the path numbers address arrays and names address objects. -/
def spells : JsonTree α → Path → Bool
  | _, [] => true
  | node, seg :: rest =>
    node.spellsSegment seg &&
      match node.child seg with
      | some below => below.spells rest
      | none => true

variable {node result : JsonTree α} {seg : Seg}

variable {rest : Path}

theorem spells_cons (hspells : node.spells (seg :: rest) = true) :
    node.spellsSegment seg = true ∧
      ∀ below, node.child seg = some below → below.spells rest = true := by
  rw [spells, Bool.and_eq_true] at hspells
  refine ⟨hspells.1, fun below hbelow => ?_⟩
  have htail := hspells.2
  rw [hbelow] at htail
  exact htail

theorem spells_cons_iff (node : JsonTree α) (seg : Seg) (rest : Path) :
    node.spells (seg :: rest) = true ↔
      node.spellsSegment seg = true ∧
        ∀ below, node.child seg = some below → below.spells rest = true := by
  refine ⟨spells_cons, fun ⟨hseg, hbelow⟩ => ?_⟩
  rw [spells, hseg, Bool.true_and]
  split
  next below hchild =>
    exact hbelow below hchild
  · rfl

/-! ### Two different children -/

/-- The two segments name different properties of the node. -/
def Apart : JsonTree α → Seg → Seg → Prop
  | .obj _ _, seg, other => seg.text ≠ other.text
  | _, seg, other => seg ≠ other

variable {value : JsonTree α} {other : Seg}

theorem apart_of_ne (hne : seg ≠ other) (hseg : node.spellsSegment seg = true)
    (hother : node.spellsSegment other = true) : node.Apart seg other := by
  cases node with
  | null | bool | num | str | arr => exact hne
  | obj mark fields =>
    cases seg with
    | index at_ => simp [spellsSegment] at hseg
    | key name =>
      cases other with
      | index at_ => simp [spellsSegment] at hother
      | key name' => simpa [Apart, Seg.text] using hne

theorem child_setChild_of_apart (hapart : node.Apart seg other) (value : JsonTree α) :
    (node.setChild other value).child seg = node.child seg := by
  cases node with
  | null | bool | num | str => rfl
  | obj mark fields =>
    exact get_put_of_ne keyPrecedes hapart value fields
  | arr mark items =>
    cases other with
    | key name => rfl
    | index j =>
      cases seg with
      | key name => rfl
      | index i =>
        have hne : j ≠ i := fun heq => hapart (by rw [heq])
        exact getElem?_set_ne hne

variable {old : JsonTree α}

theorem setChild_comm (hapart : node.Apart seg other)
    (hchild : node.child seg = some old) (value second : JsonTree α) :
    (node.setChild other second).setChild seg value =
      (node.setChild seg value).setChild other second := by
  rcases child_cases hchild with ⟨mark, items, i, rfl, rfl, -⟩ | ⟨mark, fields, rfl, hfield⟩
  · cases other with
    | key name => rfl
    | index j =>
      have hne : i ≠ j := fun heq => hapart (by rw [heq])
      simp only [setChild]
      rw [set_comm _ _ hne.symm]
  simp only [setChild]
  rw [put_comm_of_isSome keyPrecedes hapart value second (by rw [hfield]; rfl)]

/-- Defining a property keeps every other child. -/
theorem child_defineProperty_of_apart (hapart : node.Apart seg other) {value : JsonTree α}
    (hchild : node.child seg = some old) (hdefine : node.defineProperty other value = some result) :
    result.child seg = some old := by
  rcases defineProperty_cases hdefine with ⟨mark, fields, rfl, rfl⟩ |
    ⟨mark, items, j, rfl, rfl, hitems⟩
  · exact (get_put_of_ne keyPrecedes hapart value fields).trans hchild
  cases seg with
  | key name => simp [child] at hchild
  | index i =>
    rcases hitems with ⟨-, rfl⟩ | ⟨-, rfl⟩
    · have hne : j ≠ i := fun heq => hapart (by rw [heq])
      exact (getElem?_set_ne hne).trans hchild
    · exact (getElem?_append_left (List.getElem?_eq_some_iff.mp hchild).1).trans hchild

/-- Overwriting a child commutes with defining another property. -/
theorem defineProperty_setChild (hapart : node.Apart seg other) {value : JsonTree α}
    (hchild : node.child seg = some old) (hdefine : node.defineProperty other value = some result)
    (second : JsonTree α) :
    (node.setChild seg second).defineProperty other value = some (result.setChild seg second) := by
  rcases defineProperty_cases hdefine with ⟨mark, fields, rfl, rfl⟩ |
    ⟨mark, items, j, rfl, rfl, hitems⟩
  · change get seg.text fields = some old at hchild
    simp only [setChild, defineProperty]
    rw [put_comm_of_isSome keyPrecedes hapart second value (by rw [hchild]; rfl)]
  cases seg with
  | key name => simp [child] at hchild
  | index i =>
    have hne : i ≠ j := fun heq => hapart (by rw [heq])
    simp only [defineProperty, setChild, length_set]
    rcases hitems with ⟨hj, rfl⟩ | ⟨hlength, rfl⟩
    · rw [if_pos hj, set_comm _ _ hne]
    rw [if_neg (by omega), if_pos hlength]
    simp only
    rw [set_append_left _ _ (List.getElem?_eq_some_iff.mp hchild).1]

/-! ### The same child, or another one -/

theorem child_defineProperty {seg : Seg} (hdefine : node.defineProperty seg value = some result) :
    result.child seg = some value := by
  rcases defineProperty_cases hdefine with ⟨mark, fields, rfl, rfl⟩ |
    ⟨mark, items, at_, rfl, rfl, ⟨hlt, rfl⟩ | ⟨hlength, rfl⟩⟩
  · exact get_put_self keyPrecedes seg.text value fields
  · simp [child, hlt]
  · simp [child, hlength]

variable {first : JsonTree α}

theorem defineProperty_defineProperty
    {seg : Seg} (hdefine : node.defineProperty seg first = some result) (second : JsonTree α) :
    node.defineProperty seg second = some (result.setChild seg second) := by
  rcases defineProperty_cases hdefine with ⟨mark, fields, rfl, rfl⟩ |
    ⟨mark, items, at_, rfl, rfl, ⟨hlt, rfl⟩ | ⟨hlength, rfl⟩⟩
  · simp [defineProperty, setChild, put_put]
  · simp [defineProperty, hlt, setChild]
  · simp [defineProperty, setChild, hlength]

variable {found : JsonTree α}

/-- What stands at a segment after a property was defined. -/
theorem child_defineProperty_cases
    {seg other : Seg} (hdefine : node.defineProperty other value = some result)
    (hfound : result.child seg = some found) : found = value ∨ node.child seg = some found := by
  rcases defineProperty_cases hdefine with ⟨mark, fields, rfl, rfl⟩ |
    ⟨mark, items, j, rfl, rfl, hitems⟩
  · simp only [child, get_put] at hfound ⊢
    split at hfound
    · exact Or.inl (some.inj hfound).symm
    · exact Or.inr hfound
  rcases hitems with ⟨hlt, rfl⟩ | ⟨-, rfl⟩
  · cases seg with
    | key name => simp [child] at hfound
    | index i =>
      rw [child, getElem?_set, if_pos hlt] at hfound
      split at hfound
      · exact Or.inl (some.inj hfound).symm
      · exact Or.inr hfound
  cases seg with
  | key name => simp [child] at hfound
  | index i =>
    rw [child, getElem?_append] at hfound
    split at hfound
    · exact Or.inr hfound
    · exact Or.inl (mem_singleton.mp (mem_of_getElem? hfound))

/-- What stands at a segment after a child was overwritten. -/
theorem child_setChild_cases {next value : JsonTree α}
    {seg other : Seg} (hnext : node.child other = some next)
    (hfound : (node.setChild other value).child seg = some found) :
    (found = value ∧ node.child seg = some next) ∨ node.child seg = some found := by
  rcases child_cases hnext with ⟨mark, items, j, rfl, rfl, hitem⟩ | ⟨mark, fields, rfl, hfield⟩
  · cases seg with
    | key name => simp [setChild, child] at hfound
    | index i =>
      simp only [setChild, child, getElem?_set] at hfound ⊢
      split at hfound
      next hij =>
        split at hfound
        · rw [← hij]
          exact Or.inl ⟨(some.inj hfound).symm, hitem⟩
        · simp at hfound
      · exact Or.inr hfound
  simp only [setChild, child, get_put] at hfound ⊢
  split at hfound
  next hkey =>
    rw [hkey]
    exact Or.inl ⟨(some.inj hfound).symm, hfield⟩
  · exact Or.inr hfound

theorem spellsSegment_defineProperty (hdefine : node.defineProperty other value = some result)
    (seg : Seg) : result.spellsSegment seg = node.spellsSegment seg := by
  rcases defineProperty_cases hdefine with ⟨mark, fields, rfl, rfl⟩ |
    ⟨mark, items, j, rfl, rfl, ⟨-, rfl⟩ | ⟨-, rfl⟩⟩
  all_goals cases seg <;> rfl

theorem spellsSegment_setChild (node : JsonTree α) (other : Seg) (value : JsonTree α) (seg : Seg) :
    (node.setChild other value).spellsSegment seg = node.spellsSegment seg := by
  cases node with
  | null | bool | num | str => rfl
  | obj mark fields => cases seg <;> rfl
  | arr mark items => cases other <;> cases seg <;> rfl

theorem child_of_not_isObj (hprimitive : node.isObj = false)
    (seg : Seg) : node.child seg = none := by
  cases node with
  | null | bool | num | str => rfl
  | arr | obj => simp [isObj] at hprimitive

theorem spells_of_not_isObj (hprimitive : node.isObj = false) (path : Path) :
    node.spells path = true := by
  cases path with
  | nil => rfl
  | cons seg rest =>
    rw [spells_cons_iff]
    refine ⟨?_, fun below hbelow => ?_⟩
    · cases node with
      | null | bool | num | str => rfl
      | arr | obj => simp [isObj] at hprimitive
    rw [child_of_not_isObj hprimitive] at hbelow
    simp at hbelow

/-! ### Writes along paths -/

theorem writeAt_cons {below : JsonTree α} {seg : Seg}
    (hchild : node.child seg = some below) (hrest : rest ≠ []) (value : JsonTree α) :
    node.writeAt (seg :: rest) value = (below.writeAt rest value).map (node.setChild seg) := by
  cases rest with
  | nil => exact absurd rfl hrest
  | cons next tail =>
    rw [writeAt, hchild]
    rfl

/-- A write below the first segment, taken apart. -/
theorem writeAt_cons_eq_some (hrest : rest ≠ []) {value : JsonTree α}
    (hwrite : node.writeAt (seg :: rest) value = some result) :
    ∃ below written, node.child seg = some below ∧
      below.writeAt rest value = some written ∧
      result = node.setChild seg written := by
  cases rest with
  | nil => exact absurd rfl hrest
  | cons next tail =>
    rw [writeAt, bind_eq_some_iff] at hwrite
    obtain ⟨below, hbelow, hwrite⟩ := hwrite
    obtain ⟨written, hwritten, heq⟩ := map_eq_some_iff.mp hwrite
    exact ⟨below, written, hbelow, hwritten, heq.symm⟩

theorem writeAt_of_getAt {path : Path} (hget : node.getAt path = some old) (hne : path ≠ [])
    (value : JsonTree α) : node.writeAt path value = some (node.replaceAt path value) := by
  induction path generalizing node with
  | nil => exact absurd rfl hne
  | cons seg rest ih =>
    rw [getAt_cons, bind_eq_some_iff] at hget
    obtain ⟨below, hchild, hrest⟩ := hget
    rw [replaceAt_cons hchild]
    cases rest with
    | nil => exact defineProperty_eq_setChild hchild value
    | cons next tail =>
      rw [writeAt_cons hchild (by simp), ih hrest (by simp)]
      rfl

variable {path : Path}

theorem getAt_writeAt (hwrite : node.writeAt path value = some result) :
    result.getAt path = some value := by
  induction path generalizing node result with
  | nil => simp [writeAt] at hwrite
  | cons seg rest ih =>
    cases rest with
    | nil =>
      rw [getAt_cons, child_defineProperty hwrite]
      rfl
    | cons next tail =>
      obtain ⟨below, written, hchild, hwritten, rfl⟩ :=
        writeAt_cons_eq_some (by simp) hwrite
      rw [getAt_cons, child_setChild hchild]
      exact ih hwritten

/-- Writing at a path what was to be written over there at once. -/
theorem writeAt_writeAt {path : Path}
    (hwrite : node.writeAt path first = some result) (second : JsonTree α) :
    node.writeAt path second = some (result.replaceAt path second) := by
  induction path generalizing node result with
  | nil => simp [writeAt] at hwrite
  | cons seg rest ih =>
    cases rest with
    | nil =>
      rw [replaceAt_cons (child_defineProperty hwrite)]
      exact defineProperty_defineProperty hwrite second
    | cons next tail =>
      obtain ⟨below, written, hchild, hwritten, rfl⟩ :=
        writeAt_cons_eq_some (by simp) hwrite
      rw [writeAt_cons hchild (by simp), ih hwritten,
        replaceAt_cons (child_setChild hchild written), setChild_setChild]
      rfl

variable {place : Path}

/-- A write of a primitive makes no container. -/
theorem isObj_of_writeAt (hvalue : value.isObj = false)
    (hwrite : node.writeAt path value = some result)
    {container : JsonTree α} (hget : result.getAt place = some container)
    (hobj : container.isObj = true) : ∃ old, node.getAt place = some old ∧ old.isObj = true := by
  induction place generalizing node result path with
  | nil =>
    refine ⟨node, rfl, ?_⟩
    cases path with
    | nil => simp [writeAt] at hwrite
    | cons seg rest =>
      cases rest with
      | nil =>
        cases node with
        | null | bool | num | str =>
          simp [writeAt, defineProperty] at hwrite
        | arr | obj => rfl
      | cons next tail =>
        obtain ⟨below, -, hchild, -⟩ :=
          writeAt_cons_eq_some (by simp) hwrite
        exact isObj_of_child hchild
  | cons place rest ih =>
    rw [getAt_cons, bind_eq_some_iff] at hget
    obtain ⟨found, hfound, hget⟩ := hget
    cases path with
    | nil => simp [writeAt] at hwrite
    | cons seg tail =>
      cases tail with
      | nil =>
        rcases child_defineProperty_cases hwrite hfound with rfl | hold
        · -- nothing lies below the primitive, and it is no container
          cases rest with
          | nil =>
            cases hget
            rw [hvalue] at hobj
            simp at hobj
          | cons next below =>
            rw [getAt_cons, child_of_not_isObj hvalue] at hget
            simp at hget
        · exact ⟨container, by rw [getAt_cons, hold]; exact hget, hobj⟩
      | cons next tail =>
        obtain ⟨below, written, hchild, hwritten, rfl⟩ :=
          writeAt_cons_eq_some (by simp) hwrite
        rcases child_setChild_cases hchild hfound with
          ⟨rfl, hsame⟩ | hold
        · obtain ⟨old, hold, hobj'⟩ := ih hwritten hget
          exact ⟨old, by rw [getAt_cons, hsame]; exact hold, hobj'⟩
        · exact ⟨container, by rw [getAt_cons, hold]; exact hget, hobj⟩

theorem spells_writeAt (hvalue : value.isObj = false)
    (hwrite : node.writeAt path value = some result)
    (hspells : node.spells place = true) : result.spells place = true := by
  induction place generalizing node result path with
  | nil => rfl
  | cons place rest ih =>
    obtain ⟨hplace, hrest⟩ := spells_cons hspells
    rw [spells_cons_iff]
    cases path with
    | nil => simp [writeAt] at hwrite
    | cons seg tail =>
      cases tail with
      | nil =>
        refine ⟨?_, fun found hfound => ?_⟩
        · rw [spellsSegment_defineProperty hwrite]
          exact hplace
        rcases child_defineProperty_cases hwrite hfound with
          rfl | hold
        · exact spells_of_not_isObj hvalue rest
        · exact hrest found hold
      | cons next tail =>
        obtain ⟨below, written, hchild, hwritten, rfl⟩ :=
          writeAt_cons_eq_some (by simp) hwrite
        refine ⟨?_, fun found hfound => ?_⟩
        · rw [spellsSegment_setChild]
          exact hplace
        rcases child_setChild_cases hchild hfound with
          ⟨rfl, hsame⟩ | hold
        · exact ih hwritten (hrest below hsame)
        · exact hrest found hold

/-- A write elsewhere keeps the primitive at a path, and commutes with
overwriting it. -/
theorem writeAt_frame {value : JsonTree α} {path : Path}
    (hplace : node.getAt place = some old) (hold : old.isObj = false)
    (hwrite : node.writeAt path value = some result)
    (hspells : node.spells place = true) (hspells' : node.spells path = true)
    (hnot : ¬ path <+: place) :
    result.getAt place = some old ∧ ∀ second,
      (node.replaceAt place second).writeAt path value =
        some (result.replaceAt place second) := by
  induction place generalizing node result path with
  | nil =>
    obtain rfl := some.inj hplace
    cases path with
    | nil => exact absurd nil_prefix hnot
    | cons seg rest =>
      cases rest with
      | nil =>
        cases node with
        | null | bool | num | str =>
          simp [writeAt, defineProperty] at hwrite
        | arr | obj => simp [isObj] at hold
      | cons next tail =>
        obtain ⟨below, -, hchild, -⟩ :=
          writeAt_cons_eq_some (by simp) hwrite
        rw [child_of_not_isObj hold] at hchild
        simp at hchild
  | cons seg rest ih =>
    rw [getAt_cons, bind_eq_some_iff] at hplace
    obtain ⟨next, hchild, hplace⟩ := hplace
    obtain ⟨hseg, hrest⟩ := spells_cons hspells
    cases path with
    | nil => exact absurd nil_prefix hnot
    | cons other tail =>
      obtain ⟨hother, htail⟩ := spells_cons hspells'
      by_cases hsame : other = seg
      · -- both go into the same child
        subst hsame
        rw [cons_prefix_cons] at hnot
        have hnot : ¬ tail <+: rest := fun hprefix => hnot ⟨rfl, hprefix⟩
        have htailne : tail ≠ [] := by
          rintro rfl
          exact hnot nil_prefix
        obtain ⟨below, written, hbelow, hwritten, rfl⟩ :=
          writeAt_cons_eq_some htailne hwrite
        obtain rfl : next = below := some.inj (hchild.symm.trans hbelow)
        obtain ⟨hget, hcomm⟩ := ih hplace hwritten (hrest next hchild)
          (htail next hchild) hnot
        refine ⟨?_, fun second => ?_⟩
        · rw [getAt_cons, child_setChild hchild]
          exact hget
        rw [replaceAt_cons hchild, writeAt_cons (child_setChild hchild _) htailne, hcomm second,
          replaceAt_cons (child_setChild hchild _), setChild_setChild]
        rw [map_some, setChild_setChild]
      have hapart : node.Apart seg other :=
        apart_of_ne (fun heq => hsame heq.symm) hseg hother
      cases tail with
      | nil =>
        have hkept := child_defineProperty_of_apart hapart hchild hwrite
        refine ⟨?_, fun second => ?_⟩
        · rw [getAt_cons, hkept]
          exact hplace
        rw [replaceAt_cons hchild, replaceAt_cons hkept]
        exact defineProperty_setChild hapart hchild hwrite _
      | cons step tail =>
        obtain ⟨below, written, hbelow, hwritten, rfl⟩ :=
          writeAt_cons_eq_some (by simp) hwrite
        have hkept : (node.setChild other written).child seg =
            some next := by
          rw [child_setChild_of_apart hapart, hchild]
        have hbelow' : ∀ second, (node.setChild seg second).child
            other = some below := by
          intro second
          rw [child_setChild_of_apart, hbelow]
          exact apart_of_ne hsame hother hseg
        refine ⟨?_, fun second => ?_⟩
        · rw [getAt_cons, hkept]
          exact hplace
        rw [replaceAt_cons hchild, replaceAt_cons hkept,
          writeAt_cons (hbelow' _) (by simp), hwritten,
          map_some, setChild_comm hapart hchild]

end JsonTree

end Hummin
