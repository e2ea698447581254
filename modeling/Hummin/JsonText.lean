/-
JSON text: `JSON.stringify` without indentation and `JSON.parse`.  The parser
takes fuel for its recursion, one unit at most for each code unit it reads, and
returns what follows the value.
-/
import Hummin.JsNumberText
import Hummin.JsonQuote
import Hummin.JsonPath

namespace Hummin.JsonText

def commaUnit : UInt16 := 44
def colonUnit : UInt16 := 58
def quoteUnit : UInt16 := 34
def openBracket : UInt16 := 91
def closeBracket : UInt16 := 93
def openBrace : UInt16 := 123
def closeBrace : UInt16 := 125

def nullText : JsString := js ['n', 'u', 'l', 'l']
def trueText : JsString := js ['t', 'r', 'u', 'e']
def falseText : JsString := js ['f', 'a', 'l', 's', 'e']

/-! ### Writing -/

mutual

/-- `JSON.stringify` of a JSON value; an infinity is written as `null`. -/
def stringify : JsonValue → JsString
  | .null => nullText
  | .bool value => if value then trueText else falseText
  | .num value => if |value| < infinite then numberText value else nullText
  | .str text => JsonQuote.quote text
  | .arr _ items => openBracket :: (stringifyItems items ++ [closeBracket])
  | .obj _ fields => openBrace :: (stringifyFields fields ++ [closeBrace])

/-- The items with commas between them. -/
@[grind =]
def stringifyItems : List JsonValue → JsString
  | [] => []
  | item :: rest => stringify item ++ stringifyMore rest

/-- Each item behind a comma. -/
def stringifyMore : List JsonValue → JsString
  | [] => []
  | item :: rest => commaUnit :: (stringify item ++ stringifyMore rest)

@[grind =]
def stringifyFields : List (JsString × JsonValue) → JsString
  | [] => []
  | (key, value) :: rest =>
    JsonQuote.quote key ++ colonUnit :: (stringify value ++ stringifyOthers rest)

def stringifyOthers : List (JsString × JsonValue) → JsString
  | [] => []
  | (key, value) :: rest =>
    commaUnit :: (JsonQuote.quote key ++ colonUnit :: (stringify value ++ stringifyOthers rest))

end

/-! ### Reading -/

def isSpace (unit : UInt16) : Bool :=
  unit == 32 || unit == 9 || unit == 10 || unit == 13

def skipSpace (text : JsString) : JsString :=
  text.dropWhile isSpace

/-- A keyword or a number. -/
def readScalar (text : JsString) : Option (JsonValue × JsString) :=
  if nullText.isPrefixOf text then some (.null, text.drop 4)
  else if trueText.isPrefixOf text then some (.bool true, text.drop 4)
  else if falseText.isPrefixOf text then some (.bool false, text.drop 5)
  else (readNumber text).map fun read => (.num read.1, read.2)

/-- The object of the fields in the order of their text: a later one overwrites
an earlier one of its name. -/
def fromEntries (entries : List (JsString × JsonValue)) :
    List (JsString × JsonValue) :=
  entries.foldl (fun fields entry =>
    PropertyList.put keyPrecedes entry.1 entry.2 fields) []

/-- A key with its colon. -/
def parseKey (text : JsString) : Option (JsString × JsString) :=
  match skipSpace text with
  | [] => none
  | unit :: rest =>
    if unit = quoteUnit then
      match JsonQuote.readBody rest with
      | none => none
      | some (key, rest) =>
        match skipSpace rest with
        | [] => none
        | unit :: rest =>
          if unit = colonUnit then some (key, rest) else none
    else none

mutual

/-- A value, with the space before it. -/
def parseValue : Nat → JsString → Option (JsonValue × JsString)
  | 0, _ => none
  | fuel + 1, text =>
    match skipSpace text with
    | [] => none
    | unit :: rest =>
      if unit = quoteUnit then
        (JsonQuote.readBody rest).map fun read => (.str read.1, read.2)
      else if unit = openBracket then
        if (skipSpace rest).head? = some closeBracket then
          some (.arr () [], (skipSpace rest).drop 1)
        else (parseItems fuel rest).map fun read => (.arr () read.1, read.2)
      else if unit = openBrace then
        if (skipSpace rest).head? = some closeBrace then
          some (.obj () [], (skipSpace rest).drop 1)
        else (parseFields fuel rest).map fun read =>
          (.obj () (fromEntries read.1), read.2)
      else readScalar (unit :: rest)

/-- The items of an array up to its bracket. -/
def parseItems : Nat → JsString → Option (List JsonValue × JsString)
  | 0, _ => none
  | fuel + 1, text =>
    match parseValue fuel text with
    | none => none
    | some (item, rest) =>
      match skipSpace rest with
      | [] => none
      | unit :: rest =>
        if unit = commaUnit then
          (parseItems fuel rest).map fun read =>
            (item :: read.1, read.2)
        else if unit = closeBracket then some ([item], rest)
        else none

/-- The fields of an object up to its brace. -/
def parseFields : Nat → JsString → Option (List (JsString × JsonValue) × JsString)
  | 0, _ => none
  | fuel + 1, text =>
    match parseKey text with
    | none => none
    | some (key, rest) =>
      match parseValue fuel rest with
      | none => none
      | some (value, rest) =>
        match skipSpace rest with
        | [] => none
        | unit :: rest =>
          if unit = commaUnit then
            (parseFields fuel rest).map fun read =>
              ((key, value) :: read.1, read.2)
          else if unit = closeBrace then some ([(key, value)], rest)
          else none

end

/-- `JSON.parse`. -/
def parse (text : JsString) : Option JsonValue :=
  match parseValue (text.length + 1) text with
  | none => none
  | some (value, rest) => if (skipSpace rest).isEmpty then some value else none

end Hummin.JsonText
