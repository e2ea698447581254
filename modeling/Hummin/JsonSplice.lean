/-
JSON text put together from pieces: lists written around texts that are spliced
in unparsed.  A text spells a value when the parser reads the value from it
whatever text follows, up to space behind it; a list of such texts spells the
list of their values, and no front of it is JSON.
-/
import Mathlib.Data.List.TakeWhile
import Hummin.JsonParsed

namespace Hummin.JsonText

open List

/-- `texts.join(",")`. -/
def joinComma (texts : List JsString) : JsString :=
  List.intercalate [commaUnit] texts

/-- The texts as the items of a list. -/
def bracketed (texts : List JsString) : JsString :=
  openBracket :: (joinComma texts ++ [closeBracket])

theorem joinComma_nil : joinComma [] = [] := rfl

variable (text : JsString)

theorem joinComma_singleton : joinComma [text] = text := by
  simp [joinComma]

theorem joinComma_cons {rest : List JsString} (hrest : rest ≠ []) (text : JsString) :
    joinComma (text :: rest) = text ++ commaUnit :: joinComma rest := by
  simp [joinComma, intercalate_cons_of_ne_nil hrest]

theorem joinComma_cons_cons (next : JsString) (more : List JsString) :
    joinComma (text :: next :: more) = text ++ commaUnit :: joinComma (next :: more) :=
  joinComma_cons (by simp) text

variable {front back : List JsString}

theorem joinComma_append (hfront : front ≠ []) (hback : back ≠ []) :
    joinComma (front ++ back) = joinComma front ++ commaUnit :: joinComma back := by
  induction front with
  | nil => exact absurd rfl hfront
  | cons text rest ih =>
    cases rest with
    | nil =>
      rw [singleton_append, joinComma_cons hback, joinComma_singleton]
    | cons next more =>
      have hrest : joinComma (next :: (more ++ back)) =
          joinComma (next :: more) ++ commaUnit :: joinComma back :=
        ih (by simp)
      rw [cons_append, cons_append, joinComma_cons_cons, hrest,
        joinComma_cons_cons, append_assoc, cons_append]

variable (more : List JsString)

/-- Each text after the first stands behind a comma. -/
theorem joinComma_eq_flatMap :
    joinComma (text :: more) = text ++ more.flatMap fun next => commaUnit :: next := by
  induction more generalizing text with
  | nil => simp [joinComma_singleton]
  | cons next more ih =>
    rw [joinComma_cons_cons, ih, flatMap_cons, cons_append]

theorem bracketed_cons :
    bracketed (text :: more) = openBracket ::
      (text ++ (more.flatMap fun next => commaUnit :: next) ++ [closeBracket]) := by
  rw [bracketed, joinComma_eq_flatMap]

theorem stringifyItems_eq_joinComma (items : List JsonValue) :
    stringifyItems items = joinComma (items.map stringify) := by
  induction items with
  | nil => rfl
  | cons item rest ih =>
    cases rest with
    | nil =>
      rw [stringifyItems, stringifyMore, append_nil, map_singleton, joinComma_singleton]
    | cons next more =>
      rw [stringifyItems, stringifyMore_cons, ih]
      simp only [map_cons]
      rw [joinComma_cons_cons]

theorem stringify_arr (items : List JsonValue) :
    stringify (.arr () items) = bracketed (items.map stringify) := by
  rw [stringify, stringifyItems_eq_joinComma, bracketed]

/-- A closed list, opened again and continued. -/
theorem bracketed_dropLast (texts : List JsString) :
    (bracketed texts).dropLast = openBracket :: joinComma texts := by
  rw [bracketed, ← cons_append, dropLast_concat]

theorem bracketed_append (hfront : front ≠ []) (hback : back ≠ []) :
    (bracketed front).dropLast ++ commaUnit :: (joinComma back ++ [closeBracket]) =
      bracketed (front ++ back) := by
  rw [bracketed_dropLast, bracketed, joinComma_append hfront hback]
  simp

/-! ### What a text spells -/

/-- The parser reads the value from the text, whatever follows. -/
def Spells (text : JsString) (value : JsonValue) : Prop :=
  ∀ rest, stopsNumber rest = true → ∃ space, (∀ unit ∈ space, isSpace unit = true) ∧
    Derives (text ++ rest) (.value value) (space ++ rest)

variable {texts : List JsString} {value : JsonValue}

theorem spells_stringify (hheld : Held value) : Spells (stringify value) value := by
  intro rest hstop
  refine ⟨[], by simp, ?_⟩
  exact derives_of_parsedBy _ (readsBack_of_held hheld _ rest le_rfl hstop)

theorem skipSpace_eq_nil_iff : skipSpace text = [] ↔ ∀ unit ∈ text, isSpace unit = true := by
  rw [skipSpace, dropWhile_eq_nil_iff]

theorem spells_of_parse {text : JsString} {value : JsonValue}
    (hparse : parse text = some value) : Spells text value := by
  intro rest hstop
  obtain ⟨space, hderives, hspace⟩ := (parse_eq_some_iff text value).mp hparse
  exact ⟨space, (skipSpace_eq_nil_iff space).mp hspace, hderives.extend fun _ _ => hstop⟩

theorem Spells.parse {text : JsString} {value : JsonValue}
    (hspells : Spells text value) : parse text = some value := by
  obtain ⟨space, hspace, hderives⟩ := hspells [] rfl
  rw [append_nil, append_nil] at hderives
  exact (parse_eq_some_iff text value).mpr
    ⟨space, hderives, (skipSpace_eq_nil_iff space).mpr hspace⟩

theorem skipSpace_append {space : JsString}
    (hspace : ∀ unit ∈ space, isSpace unit = true) {unit : UInt16}
    (hunit : isSpace unit = false) (rest : JsString) :
    skipSpace (space ++ unit :: rest) = unit :: rest := by
  rw [skipSpace, dropWhile_append_of_pos hspace,
    dropWhile_cons_of_neg (by simp [hunit])]

variable {rest : JsString}

theorem Derives.head_ne_closeBracket {text : JsString} {value : JsonValue}
    (hderives : Derives text (.value value) rest) : (skipSpace text).head? ≠ some closeBracket := by
  cases hderives with
  | str hspace _ | emptyArr hspace _ | arr hspace _ _ | emptyObj hspace _
  | obj hspace _ _ =>
    rw [hspace, head?_cons]
    decide
  | scalar hspace _ _ _ hread =>
    rw [hspace, head?_cons]
    intro heq
    cases heq
    rcases readScalar_eq_some hread with
      ⟨keyword, htext, hne, hkeyword, -⟩ | ⟨number, -, hnumber⟩
    · have hread' := hread
      simp [readScalar, nullText, trueText, falseText, js, readNumber, minusUnit,
        closeBracket, readMagnitude, isDigitUnit] at hread'
    obtain ⟨unit, body, heq, hunit⟩ := readNumber_head hnumber
    cases heq
    revert hunit
    decide

variable {values : List JsonValue}

theorem derives_items (hspells : List.Forall₂ Spells texts values) (hne : texts ≠ [])
    (rest : JsString) : Derives (joinComma texts ++ closeBracket :: rest) (.items values) rest := by
  induction hspells with
  | nil => exact absurd rfl hne
  | @cons text value texts values hspell hspells ih =>
    cases hspells with
    | nil =>
      rw [joinComma_singleton]
      obtain ⟨space, hspace, hderives⟩ := hspell (closeBracket :: rest) rfl
      exact .lastItem hderives (skipSpace_append hspace (by decide) rest)
    | cons hnext hmore =>
      rw [joinComma_cons_cons, append_assoc, cons_append]
      obtain ⟨space, hspace, hderives⟩ := hspell (commaUnit :: _) rfl
      exact .moreItems hderives (skipSpace_append hspace (by decide) _)
        (ih (by simp))

/-- A list of spelled texts spells the list of their values. -/
theorem spells_bracketed (hspells : List.Forall₂ Spells texts values) :
    Spells (bracketed texts) (.arr () values) := by
  intro rest hstop
  refine ⟨[], by simp, ?_⟩
  have htext : bracketed texts ++ rest =
      openBracket :: (joinComma texts ++ closeBracket :: rest) := by
    simp [bracketed]
  rw [htext, nil_append]
  cases hspells with
  | nil =>
    exact .emptyArr (skipSpace_cons (by decide) _) (skipSpace_cons (by decide) _)
  | cons hspell hspells =>
    refine .arr (skipSpace_cons (by decide) _) ?_
      (derives_items (.cons hspell hspells) (by simp) rest)
    have hitems := derives_items (.cons hspell hspells) (by simp) rest
    cases hitems with
    | lastItem hitem _ => exact hitem.head_ne_closeBracket
    | moreItems hitem _ _ => exact hitem.head_ne_closeBracket

/-! ### Fronts of a list -/

theorem Derives.isNumber_of_openBracket {text body : JsString}
    {value : JsonValue} (hderives : Derives text (.value value) rest)
    (hspace : skipSpace text = openBracket :: body) : (Phrase.value value).isNumber = false := by
  cases hderives with
  | str _ _ | emptyArr _ _ | arr _ _ _ | emptyObj _ _ | obj _ _ _ => rfl
  | scalar hspace' _ hbracket _ _ =>
    rw [hspace] at hspace'
    exact absurd (cons.inj hspace').1.symm hbracket

/-- A list that is cut short is no JSON. -/
theorem parse_front_of_bracketed (hspells : Spells (bracketed texts) value) {front back : JsString}
    (hcut : bracketed texts = front ++ back) (hback : back ≠ []) : JsonText.parse front = none := by
  cases hparse : JsonText.parse front with
  | none => rfl
  | some found =>
    exfalso
    obtain ⟨rest, hderives, hrest⟩ := (parse_eq_some_iff front found).mp hparse
    obtain ⟨unit, body, hstart⟩ := hderives.start
    -- The front starts with the bracket, so it is a list and ends by itself.
    have hopen : skipSpace front = openBracket :: front.tail := by
      cases front with
      | nil => simp [skipSpace] at hstart
      | cons first front =>
        rw [bracketed, cons_append] at hcut
        obtain ⟨rfl, -⟩ := cons.inj hcut
        exact skipSpace_cons (by decide) front
    have hlist := hderives.isNumber_of_openBracket hopen
    have hwhole : Derives (front ++ back) (.value found) (rest ++ back) :=
      hderives.extend (by simp [hlist])
    rw [← hcut] at hwhole
    obtain ⟨space, hspace, hspelled⟩ := hspells [] rfl
    rw [append_nil, append_nil] at hspelled
    have hrests := (hwhole.unique hspelled).2
    have hlast : back.getLast hback = closeBracket := by
      have hend : (bracketed texts).getLast (by simp [bracketed]) = closeBracket := by
        simp [bracketed]
      simp only [hcut] at hend
      rwa [getLast_append_of_ne_nil _ hback] at hend
    have hmem : closeBracket ∈ space := by
      rw [← hrests, ← hlast]
      exact mem_append_right _ (getLast_mem hback)
    cases hspace closeBracket hmem

end Hummin.JsonText
