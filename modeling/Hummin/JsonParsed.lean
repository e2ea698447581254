/-
The values that `JSON.parse` returns.  Their numbers are doubles or infinities
and their objects stand in own-property order, so writing one out and reading it
back gives the value with `null` for its infinities.
-/
import Hummin.JsNumberRound
import Hummin.JsonGrammar

namespace Hummin.JsonText

open List PropertyList

mutual

/-- The value with `null` for every infinity, as `JSON.stringify` writes it. -/
def finitise : JsonValue → JsonValue
  | .num value => if |value| < infinite then .num value else .null
  | .arr mark items => .arr mark (finitiseItems items)
  | .obj mark fields => .obj mark (finitiseFields fields)
  | .null => .null
  | .bool value => .bool value
  | .str text => .str text

def finitiseItems : List JsonValue → List JsonValue
  | [] => []
  | item :: rest => finitise item :: finitiseItems rest

def finitiseFields : List (JsString × JsonValue) → List (JsString × JsonValue)
  | [] => []
  | (key, value) :: rest => (key, finitise value) :: finitiseFields rest

end

theorem finitiseItems_eq (items : List JsonValue) : finitiseItems items = items.map finitise := by
  induction items with
  | nil => rfl
  | cons item rest ih => rw [finitiseItems, ih, map_cons]

theorem finitiseFields_eq (fields : List (JsString × JsonValue)) :
    finitiseFields fields = fields.map fun field => (field.1, finitise field.2) := by
  induction fields with
  | nil => rfl
  | cons field rest ih => rw [finitiseFields, ih, map_cons]

mutual

theorem stringify_finitise (value : JsonValue) : stringify (finitise value) = stringify value := by
  match value with
  | .null | .bool _ | .str _ => rfl
  | .num value =>
    rw [finitise]
    split
    · rfl
    next hinfinite =>
      rw [stringify, stringify, if_neg hinfinite]
  | .arr _ items =>
    rw [finitise, stringify, stringify, stringifyItems_finitise items]
  | .obj _ fields =>
    rw [finitise, stringify, stringify, stringifyFields_finitise fields]

theorem stringifyItems_finitise (items : List JsonValue) :
    stringifyItems (finitiseItems items) = stringifyItems items := by
  match items with
  | [] => rfl
  | item :: rest =>
    rw [finitiseItems, stringifyItems, stringifyItems, stringify_finitise item,
      stringifyMore_finitise rest]

theorem stringifyMore_finitise (items : List JsonValue) :
    stringifyMore (finitiseItems items) = stringifyMore items := by
  match items with
  | [] => rfl
  | item :: rest =>
    rw [finitiseItems, stringifyMore, stringifyMore, stringify_finitise item,
      stringifyMore_finitise rest]

theorem stringifyFields_finitise (fields : List (JsString × JsonValue)) :
    stringifyFields (finitiseFields fields) = stringifyFields fields := by
  match fields with
  | [] => rfl
  | (key, value) :: rest =>
    rw [finitiseFields, stringifyFields, stringifyFields,
      stringify_finitise value, stringifyOthers_finitise rest]

theorem stringifyOthers_finitise (fields : List (JsString × JsonValue)) :
    stringifyOthers (finitiseFields fields) = stringifyOthers fields := by
  match fields with
  | [] => rfl
  | (key, value) :: rest =>
    rw [finitiseFields, stringifyOthers, stringifyOthers,
      stringify_finitise value, stringifyOthers_finitise rest]

end

mutual

/-- Some number of the value is an infinity: the text's number is beyond the
largest double. -/
def hasInfinity : JsonValue → Bool
  | .num value => decide (infinite ≤ |value|)
  | .arr _ items => anyInfinity items
  | .obj _ fields => anyFieldInfinity fields
  | .null | .bool _ | .str _ => false

def anyInfinity : List JsonValue → Bool
  | [] => false
  | item :: rest => hasInfinity item || anyInfinity rest

def anyFieldInfinity : List (JsString × JsonValue) → Bool
  | [] => false
  | (_, value) :: rest => hasInfinity value || anyFieldInfinity rest

end

mutual

theorem finitise_eq_self_iff (value : JsonValue) :
    finitise value = value ↔ hasInfinity value = false := by
  match value with
  | .null | .bool _ | .str _ => simp [finitise, hasInfinity]
  | .num value =>
    by_cases hfinite : |value| < infinite
    · simp [finitise, hasInfinity, hfinite]
    · simp [finitise, hasInfinity, hfinite, not_lt.mp hfinite]
  | .arr _ items => simp [finitise, hasInfinity, finitiseItems_eq_self_iff items]
  | .obj _ fields => simp [finitise, hasInfinity, finitiseFields_eq_self_iff fields]

theorem finitiseItems_eq_self_iff (items : List JsonValue) :
    finitiseItems items = items ↔ anyInfinity items = false := by
  match items with
  | [] => simp [finitiseItems, anyInfinity]
  | item :: rest =>
    simp [finitiseItems, anyInfinity, finitise_eq_self_iff item, finitiseItems_eq_self_iff rest]

theorem finitiseFields_eq_self_iff (fields : List (JsString × JsonValue)) :
    finitiseFields fields = fields ↔ anyFieldInfinity fields = false := by
  match fields with
  | [] => simp [finitiseFields, anyFieldInfinity]
  | (key, value) :: rest =>
    simp [finitiseFields, anyFieldInfinity, finitise_eq_self_iff value,
      finitiseFields_eq_self_iff rest]

end

/-! ### Own-property order -/

theorem keyPrecedes_asymm {first second : JsString} (hprecedes : keyPrecedes first second = true) :
    keyPrecedes second first = false := by
  unfold keyPrecedes at *
  split at hprecedes <;> simp_all
  omega

theorem keyPrecedes_trans {first second third : JsString} (hfirst : keyPrecedes first second = true)
    (hsecond : keyPrecedes second third = true) : keyPrecedes first third = true := by
  unfold keyPrecedes at *
  split at hfirst <;> split at hsecond <;> simp_all
  omega

/-- Names in own-property order. -/
def NamesOrdered (names : List JsString) : Prop :=
  names.Pairwise fun former later =>
    former ≠ later ∧ keyPrecedes later former = false

theorem ordered_iff (fields : List (JsString × JsonValue)) :
    Ordered fields ↔ NamesOrdered (PropertyList.keys fields) := by
  rw [NamesOrdered, PropertyList.keys, pairwise_map, Ordered]

variable {fields : List (JsString × JsonValue)}

theorem place_namesOrdered (hordered : NamesOrdered (PropertyList.keys fields)) {key : JsString}
    (hfresh : key ∉ PropertyList.keys fields) (value : JsonValue) :
    NamesOrdered (PropertyList.keys (place keyPrecedes key value fields)) := by
  induction fields with
  | nil => exact pairwise_singleton _ _
  | cons field rest ih =>
    obtain ⟨name, old⟩ := field
    rw [PropertyList.keys, map_cons] at hordered hfresh
    obtain ⟨hname, hrest⟩ := pairwise_cons.mp hordered
    rw [mem_cons, not_or] at hfresh
    obtain ⟨hne, hfresh⟩ := hfresh
    rw [place]
    split
    next hbefore =>
      refine pairwise_cons.mpr ⟨?_, hordered⟩
      intro other hother
      rcases mem_cons.mp hother with rfl | hother
      · exact ⟨hne, keyPrecedes_asymm hbefore⟩
      refine ⟨?_, ?_⟩
      · rintro rfl
        exact hfresh hother
      by_contra hafter
      rw [Bool.not_eq_false] at hafter
      have hcross := keyPrecedes_trans hafter hbefore
      rw [(hname other hother).2] at hcross
      cases hcross
    next hbefore =>
      refine pairwise_cons.mpr ⟨?_, ih hrest hfresh⟩
      intro other hother
      have hperm := keys_place_perm keyPrecedes key value rest
      rcases mem_cons.mp (hperm.mem_iff.mp hother) with rfl | hother
      · exact ⟨Ne.symm hne, by simpa using hbefore⟩
      · exact hname other hother

theorem put_ordered (hordered : Ordered fields) (key : JsString) (value : JsonValue) :
    Ordered (put keyPrecedes key value fields) := by
  rw [ordered_iff] at hordered ⊢
  rw [put]
  split
  · rw [keys_replace]
    exact hordered
  next hnone =>
    apply place_namesOrdered hordered
    rwa [← get_eq_none_iff, ← Option.not_isSome_iff_eq_none]

theorem foldl_put_spec (entries fields : List (JsString × JsonValue))
    (hordered : Ordered fields) {Holds : JsonValue → Prop}
    (hfields : ∀ field ∈ fields, Holds field.2)
    (hentries : ∀ entry ∈ entries, Holds entry.2) :
    Ordered (entries.foldl (fun fields entry =>
      put keyPrecedes entry.1 entry.2 fields) fields) ∧
    ∀ field ∈ entries.foldl (fun fields entry =>
      put keyPrecedes entry.1 entry.2 fields) fields,
        Holds field.2 := by
  induction entries generalizing fields with
  | nil => exact ⟨hordered, hfields⟩
  | cons entry rest ih =>
    apply ih _ (put_ordered hordered entry.1 entry.2)
    · intro field hfield
      rcases mem_put hfield with hvalue | hold
      · rw [hvalue]
        exact hentries entry mem_cons_self
      · exact hfields field hold
    intro other hother
    exact hentries other (mem_cons_of_mem entry hother)

/-- The object of any entries has its fields in order, with values of theirs. -/
theorem fromEntries_spec {entries : List (JsString × JsonValue)}
    {Holds : JsonValue → Prop} (hentries : ∀ entry ∈ entries, Holds entry.2) :
    Ordered (fromEntries entries) ∧ ∀ field ∈ fromEntries entries, Holds field.2 :=
  foldl_put_spec entries [] List.Pairwise.nil (by simp) hentries

/-! ### What is parsed can be written -/

theorem roundNumber_spec {magnitude : ℚ} (hmagnitude : 0 ≤ magnitude) :
    roundNumber magnitude = infinite ∨ IsDouble (roundNumber magnitude) := by
  rw [roundNumber]
  cases hround : roundDouble magnitude with
  | none => exact .inl rfl
  | some rounded => exact .inr (isDouble_of_roundDouble hmagnitude hround)

variable {text rest : JsString} {value : ℚ}

theorem isDouble_neg (hdouble : IsDouble value) : IsDouble (-value) := by
  rw [IsDouble, abs_neg]
  exact hdouble

theorem infinite_pos : 0 < infinite := by
  rw [infinite]
  positivity

theorem held_finitise_num (hvalue : |value| = infinite ∨ IsDouble value) :
    Held (finitise (.num value)) := by
  rw [finitise]
  split
  next hlt =>
    rcases hvalue with hinfinite | hdouble
    · rw [hinfinite] at hlt
      exact absurd hlt (lt_irrefl _)
    · exact .num hdouble
  · exact .null

theorem readMagnitude_spec (hread : readMagnitude text = some (value, rest)) :
    |value| = infinite ∨ IsDouble value := by
  obtain ⟨-, -, fraction, middle, scale, -, -, rfl⟩ := readMagnitude_eq_some hread
  have hnonneg : 0 ≤ (decimalValue (text.takeWhile isDigitUnit ++ fraction) : ℚ) *
      (10 : ℚ) ^ (scale - (fraction.length : ℤ)) :=
    mul_nonneg (Nat.cast_nonneg _) (zpow_nonneg (by norm_num) _)
  rcases roundNumber_spec hnonneg with hinfinite | hdouble
  · left
    rw [hinfinite, abs_of_pos infinite_pos]
  · exact .inr hdouble

theorem readNumber_spec (hread : readNumber text = some (value, rest)) :
    |value| = infinite ∨ IsDouble value := by
  cases text with
  | nil => simp [readNumber] at hread
  | cons unit text =>
    rw [readNumber] at hread
    split_ifs at hread
    · obtain ⟨read, hinner, heq⟩ := Option.map_eq_some_iff.mp hread
      cases heq
      rw [abs_neg]
      exact (readMagnitude_spec hinner).imp id isDouble_neg
    · exact readMagnitude_spec hread

def Phrase.Writable : Phrase → Prop
  | .value found => Held (finitise found)
  | .items found => ∀ item ∈ found, Held (finitise item)
  | .fields found => ∀ field ∈ found, Held (finitise field.2)

theorem held_finitise_obj (hordered : Ordered fields)
    (hfields : ∀ field ∈ fields, Held (finitise field.2)) : Held (finitise (.obj () fields)) := by
  rw [finitise, finitiseFields_eq]
  apply Held.obj
  · rw [Ordered, pairwise_map]
    exact hordered
  intro field hfield
  obtain ⟨entry, hentry, rfl⟩ := mem_map.mp hfield
  exact hfields entry hentry

theorem held_finitise_arr {items : List JsonValue} (hitems : ∀ item ∈ items, Held (finitise item)) :
    Held (finitise (.arr () items)) := by
  rw [finitise, finitiseItems_eq]
  apply Held.arr
  intro item hitem
  obtain ⟨original, horiginal, rfl⟩ := mem_map.mp hitem
  exact hitems original horiginal

/-- Whatever is read can be written, up to its infinities. -/
theorem Derives.writable {phrase : Phrase}
    (hderives : Derives text phrase rest) : phrase.Writable := by
  induction hderives with
  | str hspace hbody => exact .str _
  | emptyArr hspace hclose => exact held_finitise_arr (by simp)
  | arr hspace hclose hitems ih => exact held_finitise_arr ih
  | emptyObj hspace hclose => exact held_finitise_obj List.Pairwise.nil (by simp)
  | obj hspace hclose hfields ih =>
    obtain ⟨hordered, hvalues⟩ :=
      @fromEntries_spec _ (fun value => Held (finitise value)) ih
    exact held_finitise_obj hordered hvalues
  | scalar hspace hquote hbracket hbrace hread =>
    rcases readScalar_eq_some hread with
      ⟨keyword, -, -, -, rfl | ⟨truth, rfl⟩⟩ | ⟨number, rfl, hnumber⟩
    · exact .null
    · exact .bool truth
    · exact held_finitise_num (readNumber_spec hnumber)
  | lastItem hitem hclose ih =>
    intro item hmem
    rw [mem_singleton.mp hmem]
    exact ih
  | moreItems hitem hcomma hitems ihItem ihItems =>
    exact forall_mem_cons.mpr ⟨ihItem, ihItems⟩
  | lastField hkey hvalue hclose ih =>
    intro field hmem
    rw [mem_singleton.mp hmem]
    exact ih
  | moreFields hkey hvalue hcomma hfields ihValue ihFields =>
    exact forall_mem_cons.mpr ⟨ihValue, ihFields⟩

/-- Writing a parsed value and parsing it again loses its infinities only. -/
theorem parse_stringify_of_parse {value : JsonValue} (hparse : parse text = some value) :
    parse (stringify value) = some (finitise value) := by
  obtain ⟨rest, hderives, -⟩ := (parse_eq_some_iff text value).mp hparse
  rw [← stringify_finitise value]
  exact parse_stringify hderives.writable

end Hummin.JsonText
