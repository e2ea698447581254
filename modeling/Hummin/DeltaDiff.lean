/-
The differ: a batch of operations from two immutable revisions.  The batch is
state that every function extends; once it overflows it stays as it is and the
result is a replacement.  The recursion into values is bounded by the depth of
the earlier revision and the recursion into array regions by their size; `none`
is a bound reached.
-/
import Hummin.DeltaMatch
import Hummin.DeltaOp
import Hummin.JsNumber

namespace Hummin

variable {ι : Type} [DecidableEq ι]

namespace Delta

def maxDeltaOperations : Nat := 4096
def maxSemanticCells : Nat := 65536
def defaultOverlapScan : Nat := 65536

/-- The operations so far, and whether they are in `overflowedBatches`. -/
structure Batch (ι : Type) where
  ops : List (Op ι)
  overflowed : Bool

def Batch.empty : Batch ι := ⟨[], false⟩

def emitOperation (batch : Batch ι) (op : Op ι) : Batch ι :=
  if batch.overflowed then batch
  else if maxDeltaOperations ≤ batch.ops.length then
    { batch with overflowed := true }
  else { batch with ops := batch.ops ++ [op] }

def emitSet (path : Path) (value : JsonTree ι) (batch : Batch ι) : Batch ι :=
  if path.isEmpty then emitOperation batch (.r value)
  else emitOperation batch (.s path value)

/-! ### Strings -/

/-- `indexOf` in the text that starts at `at_`. -/
def indexOf (pattern : JsString) : JsString → Nat → Option Nat
  | [], at_ => if pattern.isEmpty then some at_ else none
  | unit :: rest, at_ =>
    if pattern.isPrefixOf (unit :: rest) then some at_
    else indexOf pattern rest (at_ + 1)

/-- The inner loop of `overlap`, one candidate per unit of budget. -/
def probeOverlap (tail head b : JsString) : Nat → Nat → Option Nat
  | 0, _ => none
  | budget + 1, from_ =>
    match indexOf head (tail.drop from_) from_ with
    | none => none
    | some k =>
      let n := tail.length - k
      if n ≤ b.length ∧ tail.drop k = b.take n then some n
      else probeOverlap tail head b budget (k + 1)

/-- `overlap`: a suffix of `a` that is a prefix of `b`. -/
def overlap (a b : JsString) (scan probe maxCandidates : Nat) : Nat :=
  if a.length = 0 ∨ b.length = 0 ∨ scan = 0 then 0
  else
    let tail := if scan < a.length then a.drop (a.length - scan) else a
    let h := min probe b.length
    match probeOverlap tail (b.take h) b maxCandidates 0 with
    | some n => n
    | none =>
      if h = 1 then 0
      else (probeOverlap tail (b.take 1) b maxCandidates 0).getD 0

def emitString (before after : JsString) (path : Path) (batch : Batch ι) :
    Batch ι :=
  if before = after then batch
  else if before.length < after.length ∧ after.take before.length = before then
    emitOperation batch (.a path (after.drop before.length))
  else
    let shared := overlap before after defaultOverlapScan 64 8
    if shared = 0 then emitOperation batch (.s path (.str after))
    else
      let trimmed := emitOperation batch (.t path (before.length - shared))
      if shared < after.length then
        emitOperation trimmed (.a path (after.drop shared))
      else trimmed

/-! ### Arrays -/

abbrev ValueDiff (ι : Type) :=
  JsonTree ι → JsonTree ι → Path → Batch ι → Option (Batch ι)

/-- A region: start and end in `before`, in `after`, and its start in the
array as rewritten so far. -/
abbrev RegionDiff (ι : Type) :=
  Nat → Nat → Nat → Nat → Nat → Batch ι → Option (Batch ι)

section Arrays

variable (region : RegionDiff ι) (value : ValueDiff ι)
  (before after : List (JsonTree ι)) (path : Path)

/-- The gaps and the matched pairs, in order. -/
def processArrayMatches (beforeEnd afterEnd : Nat) :
    Nat → Nat → Nat → List ArrayMatch → Batch ι → Option (Batch ι)
  | beforeAt, afterAt, outputAt, [], batch =>
    if batch.overflowed then some batch
    else region beforeAt beforeEnd afterAt afterEnd outputAt batch
  | beforeAt, afterAt, outputAt, (beforeMatch, afterMatch) :: rest, batch =>
    if batch.overflowed then some batch
    else do
      let batch ← region beforeAt beforeMatch afterAt afterMatch outputAt batch
      let outputAt := outputAt + (afterMatch - afterAt)
      let left ← before[beforeMatch]?
      let right ← after[afterMatch]?
      let batch ←
        if sameValue left right then some batch
        else value left right (path ++ [.index outputAt]) batch
      processArrayMatches beforeEnd afterEnd (beforeMatch + 1)
        (afterMatch + 1) (outputAt + 1) rest batch

end Arrays

/-- The rounds of the loop over a common front. -/
def sameCount : List (JsonTree ι) → List (JsonTree ι) → Nat
  | left :: lefts, right :: rights =>
    if sameValue left right then sameCount lefts rights + 1 else 0
  | _, _ => 0

/-- The first alignment of two ranges that finds something, in the order in
which they are tried. -/
def alignRegion (lefts : List (JsonTree ι)) (beforeStart : Nat)
    (rights : List (JsonTree ι)) (afterStart : Nat) : List ArrayMatch :=
  let positional :=
    if lefts.length = rights.length then
      positionalMatches lefts rights beforeStart afterStart
    else []
  if !positional.isEmpty then positional
  else
    let subsequence :=
      (identitySubsequence lefts beforeStart rights afterStart).getD []
    if !subsequence.isEmpty then subsequence
    else
      let identity := identityAnchors lefts beforeStart rights afterStart
      if !identity.isEmpty then identity
      else
        ((lcsMatches lefts rights semanticallyAligned maxSemanticCells).getD
          []).map fun pair => (beforeStart + pair.1, afterStart + pair.2)

/-- The region's remainder once its common ends are cut off. -/
def diffTrimmedRegion (region : RegionDiff ι) (value : ValueDiff ι)
    (before after : List (JsonTree ι)) (path : Path)
    (beforeStart beforeEnd afterStart afterEnd outputStart : Nat)
    (batch : Batch ι) : Option (Batch ι) :=
  let beforeCount := beforeEnd - beforeStart
  let afterCount := afterEnd - afterStart
  let splice := Op.p path outputStart beforeCount
    (slice after afterStart afterEnd)
  if beforeCount = 0 ∧ afterCount = 0 then some batch
  else if beforeCount = 0 ∨ afterCount = 0 then
    some (emitOperation batch splice)
  else
    let matches_ := alignRegion (slice before beforeStart beforeEnd) beforeStart
      (slice after afterStart afterEnd) afterStart
    if !matches_.isEmpty then
      processArrayMatches region value before after path beforeEnd afterEnd
        beforeStart afterStart outputStart matches_ batch
    else if beforeCount = 1 ∧ afterCount = 1 then do
      let left ← before[beforeStart]?
      let right ← after[afterStart]?
      value left right (path ++ [Seg.index outputStart]) batch
    else some (emitOperation batch splice)

def diffArrayRegion (value : ValueDiff ι) (before after : List (JsonTree ι))
    (path : Path) : Nat → RegionDiff ι
  | 0 => fun _ _ _ _ _ _ => none
  | fuel + 1 =>
    fun beforeStart beforeEnd afterStart afterEnd outputStart batch =>
      if batch.overflowed then some batch
      else
        let lead := sameCount (slice before beforeStart beforeEnd)
          (slice after afterStart afterEnd)
        let trail :=
          sameCount (slice before (beforeStart + lead) beforeEnd).reverse
            (slice after (afterStart + lead) afterEnd).reverse
        diffTrimmedRegion (diffArrayRegion value before after path fuel) value
          before after path (beforeStart + lead) (beforeEnd - trail)
          (afterStart + lead) (afterEnd - trail) (outputStart + lead) batch

/-- Whether the two lists differ at their ends, where a permutation is tried. -/
def endsDiffer (before after : List (JsonTree ι)) : Bool :=
  match before.head?, after.head?, before.getLast?, after.getLast? with
  | some first, some first', some last, some last' =>
    !sameValue first first' && !sameValue last last'
  | _, _, _, _ => false

def diffArray (value : ValueDiff ι) (mark mark' : ι)
    (before after : List (JsonTree ι)) (path : Path) (batch : Batch ι) :
    Option (Batch ι) :=
  let region := fun _ : Unit =>
    diffArrayRegion value before after path (before.length + after.length + 1)
      0 before.length 0 after.length 0 batch
  if mark = mark' ∨ equalJson (.arr mark before) (.arr mark' after) then
    some batch
  else if before.length = after.length ∧ 1 < before.length ∧
      endsDiffer before after then
    match permutation before after with
    | some order => some (emitOperation batch (.m path order))
    | none => region ()
  else region ()

/-! ### Objects -/

def isReservedName (name : JsString) : Bool :=
  reservedSegments.contains name

/-- The loop over the keys of `after`. -/
def diffFields (value : ValueDiff ι) (before : List (JsString × JsonTree ι))
    (path : Path) : List (JsString × JsonTree ι) → Batch ι → Option (Batch ι)
  | [], batch => some batch
  | (key, right) :: rest, batch =>
    if batch.overflowed then some batch
    else do
      let batch ←
        match PropertyList.get key before with
        | some left => value left right (path ++ [.key key]) batch
        | none => some (emitSet (path ++ [.key key]) right batch)
      diffFields value before path rest batch

/-- The loop over the keys of `before`. -/
def deleteFields (after : List (JsString × JsonTree ι)) (path : Path) :
    List JsString → Batch ι → Batch ι
  | [], batch => batch
  | key :: rest, batch =>
    if batch.overflowed then batch
    else if (PropertyList.get key after).isSome then
      deleteFields after path rest batch
    else deleteFields after path rest
      (emitOperation batch (.d (path ++ [.key key])))

def diffObject (value : ValueDiff ι) (mark mark' : ι)
    (before after : List (JsString × JsonTree ι)) (path : Path)
    (batch : Batch ι) : Option (Batch ι) :=
  if (PropertyList.keys before ++ PropertyList.keys after).any isReservedName
  then
    if equalJson (.obj mark before) (.obj mark' after) then some batch
    else some (emitSet path (.obj mark' after) batch)
  else do
    let batch ← diffFields value before path after batch
    if batch.overflowed then some batch
    else some (deleteFields after path (PropertyList.keys before) batch)

/-! ### Values -/

def diffValue : Nat → ValueDiff ι
  | 0 => fun _ _ _ _ => none
  | fuel + 1 => fun before after path batch =>
    if identity before = identity after ∨ batch.overflowed then some batch
    else match before, after with
      | .str first, .str second =>
        if path.isEmpty then some (emitSet path (.str second) batch)
        else some (emitString first second path batch)
      | .arr mark items, .arr mark' items' =>
        diffArray (diffValue fuel) mark mark' items items' path batch
      | .obj mark fields, .obj mark' fields' =>
        diffObject (diffValue fuel) mark mark' fields fields' path batch
      | _, after => some (emitSet path after batch)

/-! ### Costs -/

mutual

def jsonCost : JsonTree ι → Nat
  | .null => 4
  | .str text => text.length + 2
  | .num value => (numberText value).length
  | .bool value => if value then 4 else 5
  | .arr _ items => 2 + itemsCost items 0
  | .obj _ fields => 2 + fieldsCost fields 0

/-- The items with a separator before all but the first. -/
def itemsCost : List (JsonTree ι) → Nat → Nat
  | [], _ => 0
  | item :: rest, separator =>
    jsonCost item + separator + itemsCost rest 1

def fieldsCost : List (JsString × JsonTree ι) → Nat → Nat
  | [], _ => 0
  | (key, value) :: rest, separator =>
    key.length + 3 + jsonCost value + separator + fieldsCost rest 1

end

def segmentCost : Seg → Nat
  | .key name => name.length + 2
  | .index at_ => (decimal at_).length

def pathCost (path : Path) : Nat :=
  2 + (path.map segmentCost).sum + (path.length - 1)

/-- `jsonCost` of an array of numbers. -/
def indicesCost (indices : List Nat) : Nat :=
  2 + (indices.map fun index => (decimal index).length).sum +
    (indices.length - 1)

def operationCost : Op ι → Nat
  | .r value => 6 + jsonCost value
  | .s path value => 7 + pathCost path + jsonCost value
  | .d path => 6 + pathCost path
  | .a path text => 7 + pathCost path + text.length + 2
  | .t path count => 7 + pathCost path + (decimal count).length
  | .p path index remove items =>
    10 + pathCost path + (decimal index).length + (decimal remove).length +
      (2 + itemsCost items 0)
  | .m path order => 7 + pathCost path + indicesCost order

mutual

/-- The nesting of a value; the recursion of the differ is bounded by it. -/
def depth : JsonTree ι → Nat
  | .arr _ items => depthItems items + 1
  | .obj _ fields => depthFields fields + 1
  | _ => 1

def depthItems : List (JsonTree ι) → Nat
  | [] => 0
  | item :: rest => max (depth item) (depthItems rest)

def depthFields : List (JsString × JsonTree ι) → Nat
  | [] => 0
  | (_, value) :: rest => max (depth value) (depthFields rest)

end

/-- Compute a compact operation batch from two immutable revisions. -/
def diffRevisions (before after : JsonTree ι) : Option (List (Op ι)) := do
  let batch ← diffValue (depth before) before after [] Batch.empty
  if batch.overflowed then some [.r after]
  else if batch.ops.isEmpty ∨ isBase batch.ops then some batch.ops
  else
    let deltaCost := 2 + (batch.ops.map fun op => operationCost op + 1).sum
    if deltaCost < 65536 then some batch.ops
    else if jsonCost after + 6 ≤ deltaCost then some [.r after]
    else some batch.ops

end Delta

end Hummin
