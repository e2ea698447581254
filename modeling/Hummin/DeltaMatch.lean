/-
How the differ compares values and aligns two arrays.  `===` is equality of
identities: the value of a primitive, the mark of a container.  Each alignment
is a list of index pairs that ascends in both coordinates; nothing else about it
matters for the soundness of a diff.
-/
import Hummin.JsonPath
import Hummin.Slice

namespace Hummin

variable {ι : Type} [DecidableEq ι]

namespace Delta

/-- What `===` compares. -/
inductive Identity (ι : Type) where
  | null
  | bool (value : Bool)
  | num (value : ℚ)
  | str (text : JsString)
  | arr (mark : ι)
  | obj (mark : ι)
deriving DecidableEq

def identity : JsonTree ι → Identity ι
  | .null => .null
  | .bool value => .bool value
  | .num value => .num value
  | .str text => .str text
  | .arr mark _ => .arr mark
  | .obj mark _ => .obj mark

mutual

def equalJson : JsonTree ι → JsonTree ι → Bool
  | .arr mark items, right =>
    decide (Identity.arr mark = identity right) ||
      match right with
      | .arr _ others =>
        items.length == others.length && equalItems items others
      | _ => false
  | .obj mark fields, right =>
    decide (Identity.obj mark = identity right) ||
      match right with
      | .obj _ others =>
        fields.length == others.length && equalFields fields others
      | _ => false
  | left, right => decide (identity left = identity right)

def equalItems : List (JsonTree ι) → List (JsonTree ι) → Bool
  | item :: rest, other :: others =>
    equalJson item other && equalItems rest others
  | _, _ => true

def equalFields :
    List (JsString × JsonTree ι) → List (JsString × JsonTree ι) → Bool
  | [], _ => true
  | (key, value) :: rest, others =>
    (match PropertyList.get key others with
      | some other => equalJson value other
      | none => false) && equalFields rest others

end

def sameValue (left right : JsonTree ι) : Bool :=
  decide (identity left = identity right) || equalJson left right

/-- A container, and the same one. -/
def sameContainer (left right : JsonTree ι) : Bool :=
  left.isObj && decide (identity left = identity right)

def semanticallyAligned (left right : JsonTree ι) : Bool :=
  sameValue left right ||
    match left, right with
    | .arr _ items, .arr _ others =>
      items.length == others.length &&
        (items.zip others).any fun pair => sameContainer pair.1 pair.2
    | .obj _ fields, .obj _ others =>
      fields.any fun field =>
        match PropertyList.get field.1 others with
        | some other => sameContainer field.2 other
        | none => false
    | _, _ => false

/-! ### Positions by identity -/

/-- `Map` keyed by value: insertion order does not matter to its users. -/
def addPosition (positions : List (Identity ι × List Nat))
    (key : Identity ι) (at_ : Nat) : List (Identity ι × List Nat) :=
  PropertyList.put (fun _ _ => false) key
    ((PropertyList.get key positions).getD [] ++ [at_]) positions

/-- The loop that collects the positions of each value, from index `at_` on. -/
def collectPositions : List (Identity ι × List Nat) → List (JsonTree ι) → Nat →
    List (Identity ι × List Nat)
  | positions, [], _ => positions
  | positions, item :: rest, at_ =>
    collectPositions (addPosition positions (identity item) at_) rest (at_ + 1)

/-- The loop of `permutation` over `after`; `used` counts what was handed out
of each entry. -/
def takePositions (positions : List (Identity ι × List Nat)) :
    List (Identity ι × Nat) → List (JsonTree ι) → Option (List Nat)
  | _, [] => some []
  | used, value :: rest => do
      let indices ← PropertyList.get (identity value) positions
      let count := (PropertyList.get (identity value) used).getD 0
      let index ← indices[count]?
      let tail ← takePositions positions
        (PropertyList.put (fun _ _ => false) (identity value) (count + 1) used)
        rest
      some (index :: tail)

def permutation (before after : List (JsonTree ι)) : Option (List Nat) :=
  if before.length ≠ after.length then none
  else takePositions (collectPositions [] before 0) [] after

/-! ### Alignments -/

abbrev ArrayMatch := Nat × Nat

/-- Pairs ascending in both coordinates, within the two ranges. -/
def Aligned : Nat → Nat → Nat → Nat → List ArrayMatch → Prop
  | beforeAt, beforeEnd, afterAt, afterEnd, [] =>
    beforeAt ≤ beforeEnd ∧ afterAt ≤ afterEnd
  | beforeAt, beforeEnd, afterAt, afterEnd, (before, after) :: rest =>
    beforeAt ≤ before ∧ before < beforeEnd ∧ afterAt ≤ after ∧
      after < afterEnd ∧
      Aligned (before + 1) beforeEnd (after + 1) afterEnd rest

/-- The positional matches of two ranges of one length. -/
def positionalMatches : List (JsonTree ι) → List (JsonTree ι) → Nat → Nat →
    List ArrayMatch
  | left :: lefts, right :: rights, beforeAt, afterAt =>
    let rest := positionalMatches lefts rights (beforeAt + 1) (afterAt + 1)
    if sameValue left right then (beforeAt, afterAt) :: rest else rest
  | _, _, _, _ => []

/-- The inner `while`: the next position of a value, and what follows it. -/
def scan (value : JsonTree ι) :
    List (JsonTree ι) → Nat → Option (Nat × List (JsonTree ι))
  | [], _ => none
  | item :: rest, at_ =>
    if identity item = identity value then some (at_, rest)
    else scan value rest (at_ + 1)

/-- Every needle found in the haystack in order: the pairs of positions, the
haystack's first. -/
def subsequence : List (JsonTree ι) → Nat → List (JsonTree ι) → Nat →
    Option (List (Nat × Nat))
  | _, _, [], _ => some []
  | hay, hayAt, needle :: needles, needleAt => do
      let (found, rest) ← scan needle hay hayAt
      let tail ← subsequence rest (found + 1) needles (needleAt + 1)
      some ((found, needleAt) :: tail)

/-- `identitySubsequence` on the two ranges, given as slices. -/
def identitySubsequence (before : List (JsonTree ι)) (beforeStart : Nat)
    (after : List (JsonTree ι)) (afterStart : Nat) :
    Option (List ArrayMatch) :=
  if after.length < before.length then
    subsequence before beforeStart after afterStart
  else if before.length < after.length then
    (subsequence after afterStart before beforeStart).map
      (List.map Prod.swap)
  else none

/-- One iteration of the binary search per unit of fuel. -/
def lowerBoundLoop (values : List Nat) (value : Nat) : Nat → Nat → Nat → Nat
  | 0, low, _ => low
  | fuel + 1, low, high =>
    if low < high then
      let middle := (low + high) / 2
      if values.getD middle 0 < value then
        lowerBoundLoop values value fuel (middle + 1) high
      else lowerBoundLoop values value fuel low middle
    else low

def lowerBound (values : List Nat) (value : Nat) : Nat :=
  lowerBoundLoop values value values.length 0 values.length

/-- The loop of `greedyIdentityAnchors`; `least` is `previous + 1`. -/
def greedyIdentityAnchors (positions : List (Identity ι × List Nat)) :
    Nat → List (JsonTree ι) → Nat → List ArrayMatch
  | _, [], _ => []
  | least, value :: rest, afterAt =>
    match (PropertyList.get (identity value) positions).bind
        fun candidates => candidates[lowerBound candidates least]? with
    | some beforeIndex =>
      (beforeIndex, afterAt) ::
        greedyIdentityAnchors positions (beforeIndex + 1) rest (afterAt + 1)
    | none => greedyIdentityAnchors positions least rest (afterAt + 1)

def maxIdentityCandidates : Nat := 200000

def candidateCount (positions : List (Identity ι × List Nat))
    (after : List (JsonTree ι)) : Nat :=
  (after.map fun value =>
    ((PropertyList.get (identity value) positions).getD []).length).sum

/-- `MatchCandidate`; `previous` is an earlier candidate. -/
structure MatchCandidate where
  before : Nat
  after : Nat
  previous : Option Nat

/-- The arrays of the patience search. -/
structure Anchors where
  candidates : List MatchCandidate
  tails : List Nat
  tailValues : List Nat

/-- Assigning an element at or right behind the end of an array. -/
def assignAt {V : Type} (items : List V) (at_ : Nat) (value : V) : List V :=
  if at_ < items.length then items.set at_ value else items ++ [value]

def addCandidate (afterIndex : Nat) (anchors : Anchors) (beforeIndex : Nat) :
    Anchors :=
  let at_ := lowerBound anchors.tailValues beforeIndex
  let previous := if at_ = 0 then none else anchors.tails[at_ - 1]?
  { candidates := anchors.candidates ++ [⟨beforeIndex, afterIndex, previous⟩]
    tails := assignAt anchors.tails at_ anchors.candidates.length
    tailValues := assignAt anchors.tailValues at_ beforeIndex }

/-- The loop over `after`, the positions of each value from the last on. -/
def collectAnchors (positions : List (Identity ι × List Nat)) :
    Anchors → List (JsonTree ι) → Nat → Anchors
  | anchors, [], _ => anchors
  | anchors, value :: rest, afterAt =>
    let indices := (PropertyList.get (identity value) positions).getD []
    collectAnchors positions
      (indices.reverse.foldl (addCandidate afterAt) anchors) rest
      (afterAt + 1)

/-- The chain of a candidate, from the last pair on. -/
def traceBack (candidates : List MatchCandidate) :
    Nat → Option Nat → List ArrayMatch
  | 0, _ => []
  | _, none => []
  | fuel + 1, some at_ =>
    match candidates[at_]? with
    | some candidate =>
      (candidate.before, candidate.after) ::
        traceBack candidates fuel candidate.previous
    | none => []

/-- `identityAnchors` on the two ranges, given as slices. -/
def identityAnchors (before : List (JsonTree ι)) (beforeStart : Nat)
    (after : List (JsonTree ι)) (afterStart : Nat) : List ArrayMatch :=
  let positions := collectPositions [] before beforeStart
  let count := candidateCount positions after
  if maxIdentityCandidates < count then
    greedyIdentityAnchors positions 0 after afterStart
  else if count = 0 then []
  else
    let anchors := collectAnchors positions ⟨[], [], []⟩ after afterStart
    (traceBack anchors.candidates anchors.candidates.length anchors.tails.getLast?).reverse

/-- One row of the table, from the row below it. -/
def lcsRow (equal : JsonTree ι → Bool) : List (JsonTree ι) → List Nat → List Nat
  | right :: rights, below :: belows =>
    let row := lcsRow equal rights belows
    let length := if equal right then belows.headD 0 + 1
      else max below (row.headD 0)
    length :: row
  | _, _ => [0]

/-- The rows of the table, the last of zeros. -/
def lcsTable (equal : JsonTree ι → JsonTree ι → Bool)
    (after : List (JsonTree ι)) : List (JsonTree ι) → List (List Nat)
  | [] => [List.replicate (after.length + 1) 0]
  | left :: lefts =>
    let rows := lcsTable equal after lefts
    lcsRow (equal left) after (rows.headD []) :: rows

def lcsAt (table : List (List Nat)) (left right : Nat) : Nat :=
  (table.getD left []).getD right 0

/-- The walk through the table; each round moves at least one index. -/
def lcsWalk (equal : JsonTree ι → JsonTree ι → Bool) (table : List (List Nat))
    (before after : List (JsonTree ι)) : Nat → Nat → Nat → List ArrayMatch
  | 0, _, _ => []
  | fuel + 1, left, right =>
    match before[left]?, after[right]? with
    | some first, some second =>
      if equal first second ∧ lcsAt table left right =
          lcsAt table (left + 1) (right + 1) + 1 then
        (left, right) ::
          lcsWalk equal table before after fuel (left + 1) (right + 1)
      else if lcsAt table left (right + 1) ≤ lcsAt table (left + 1) right then
        lcsWalk equal table before after fuel (left + 1) right
      else lcsWalk equal table before after fuel left (right + 1)
    | _, _ => []

def lcsMatches (before after : List (JsonTree ι))
    (equal : JsonTree ι → JsonTree ι → Bool) (maxCells : Nat) :
    Option (List ArrayMatch) :=
  if before.length = 0 ∨ after.length = 0 then some []
  else if maxCells < before.length * after.length then none
  else some (lcsWalk equal (lcsTable equal after before) before after
    (before.length + after.length) 0 0)

end Delta

end Hummin
