/-
Delta operations on the wire: their tuples, the two validators over arbitrary
JSON, and the encoder and decoder with their path dictionaries.  Interning
happens on a path's second use, a repeated path is omitted within a batch, and
a replacement empties both dictionaries.
-/
import Hummin.DeltaOp
import Hummin.ExceptBind
import Hummin.JsonQuote

namespace Hummin.Delta

/-- An operation without its path: the verb and its payload. -/
inductive Edit where
  | s (value : JsonValue)
  | d
  | a (text : JsString)
  | t (count : Nat)
  | p (index remove : Nat) (items : List JsonValue)
  | m (permutation : List Nat)
deriving Repr, DecidableEq

def Edit.at (path : Path) : Edit → Op Unit
  | .s value => .s path value
  | .d => .d path
  | .a text => .a path text
  | .t count => .t path count
  | .p index remove items => .p path index remove items
  | .m permutation => .m path permutation

/-- The verbs that may address the root. -/
def Edit.mayTargetRoot : Edit → Bool
  | .p _ _ _ | .m _ => true
  | _ => false

/-- A path inline, an id of the dictionary, or the path of the operation
before. -/
inductive PathRef where
  | inline (path : Path)
  | id (number : Nat)
  | omitted
deriving Repr, DecidableEq

inductive WireOp where
  | r (value : JsonValue)
  | edit (ref : PathRef) (change : Edit)
  | define (id : Nat) (path : Path)
deriving Repr, DecidableEq

/-! ### Tuples -/

def tuple (verb : Char) (fields : List JsonValue) : JsonValue :=
  .arr () (.str (js [verb]) :: fields)

def natJson (n : Nat) : JsonValue :=
  .num n

def Edit.verb : Edit → Char
  | .s _ => 's'
  | .d => 'd'
  | .a _ => 'a'
  | .t _ => 't'
  | .p _ _ _ => 'p'
  | .m _ => 'm'

def Edit.payload : Edit → List JsonValue
  | .s value => [value]
  | .d => []
  | .a text => [.str text]
  | .t count => [.num count]
  | .p index remove items => [.num index, .num remove, .arr () items]
  | .m permutation => [.arr () (permutation.map natJson)]

def PathRef.fields : PathRef → List JsonValue
  | .inline path => [path.toJson]
  | .id number => [.num number]
  | .omitted => []

def WireOp.toTuple : WireOp → JsonValue
  | .r value => tuple 'r' [value]
  | .edit ref change => tuple change.verb (ref.fields ++ change.payload)
  | .define id path => tuple '#' [.num id, path.toJson]

def Op.toTuple : Op Unit → JsonValue
  | .r value => tuple 'r' [value]
  | .s path value => tuple 's' [path.toJson, value]
  | .d path => tuple 'd' [path.toJson]
  | .a path text => tuple 'a' [path.toJson, .str text]
  | .t path count => tuple 't' [path.toJson, .num count]
  | .p path index remove items =>
    tuple 'p' [path.toJson, .num index, .num remove, .arr () items]
  | .m path permutation =>
    tuple 'm' [path.toJson, .arr () (permutation.map natJson)]

/-! ### Validators over arbitrary JSON

Each validator narrows its argument, so it returns the operation it read. -/

/-- `Number.isInteger(value) && value >= 0`, and that integer. -/
def natural? (value : ℚ) : Option Nat :=
  if value.den = 1 ∧ 0 ≤ value.num then some value.num.toNat else none

def naturalArg (message : String) : JsonValue → Except Failure Nat
  | .num value =>
    match natural? value with
    | some n => .ok n
    | none => .error (.typeError message)
  | _ => .error (.typeError message)

def safeSegment : JsonValue → Except Failure Seg
  | .str name =>
    if reservedSegments.contains name then .error (.unsafePath (.str name))
    else .ok (.key name)
  | .num value =>
    match natural? value with
    | some n => .ok (.index n)
    | none => .error (.unsafePath (.num value))
  | other => .error (.unsafePath other)

/-- `assertSafePath` on an array of arbitrary JSON. -/
def safePath : List JsonValue → Except Failure Path
  | [] => .ok []
  | seg :: rest => do
      let seg ← safeSegment seg
      let rest ← safePath rest
      .ok (seg :: rest)

def pathArg (nonEmpty : Bool) : JsonValue → Except Failure Path
  | .arr _ segments =>
    if nonEmpty && segments.isEmpty then .error (.typeError "path is empty")
    else safePath segments
  | _ => .error (.typeError "path is not an array")

def permutationIndices : List JsonValue → Except Failure (List Nat)
  | [] => .ok []
  | index :: rest => do
      let index ← naturalArg "m permutation is not a bijection" index
      let rest ← permutationIndices rest
      .ok (index :: rest)

def permutationArg : JsonValue → Except Failure (List Nat)
  | .arr _ items => do
      let permutation ← permutationIndices items
      assertPermutation permutation
      .ok permutation
  | _ => .error (.typeError "m permutation is not an array")

def textArg (message : String) : JsonValue → Except Failure JsString
  | .str text => .ok text
  | _ => .error (.typeError message)

def itemsArg : JsonValue → Except Failure (List JsonValue)
  | .arr _ items => .ok items
  | _ => .error (.typeError "p items")

def spliceArg (index remove items : JsonValue) : Except Failure Edit := do
  let index ← naturalArg "p index" index
  let remove ← naturalArg "p remove" remove
  let items ← itemsArg items
  .ok (.p index remove items)

/-- `assertValidOp`: inline paths, no `#`, no short forms. -/
def readOp (op : JsonValue) : Except Failure (Op Unit) :=
  match op with
  | .arr _ (verb :: fields) =>
    if verb = .str (js ['r']) then
      match fields with
      | [value] => .ok (.r value)
      | _ => .error (.typeError "r arity")
    else if verb = .str (js ['s']) then
      match fields with
      | [path, value] => do
          let path ← pathArg true path
          .ok (.s path value)
      | _ => .error (.typeError "s arity")
    else if verb = .str (js ['d']) then
      match fields with
      | [path] => do
          let path ← pathArg true path
          .ok (.d path)
      | _ => .error (.typeError "d arity")
    else if verb = .str (js ['a']) then
      match fields with
      | [path, text] => do
          let text ← textArg "a shape" text
          let path ← pathArg true path
          .ok (.a path text)
      | _ => .error (.typeError "a shape")
    else if verb = .str (js ['t']) then
      match fields with
      | [path, count] => do
          let count ← naturalArg "t shape" count
          let path ← pathArg true path
          .ok (.t path count)
      | _ => .error (.typeError "t shape")
    else if verb = .str (js ['p']) then
      match fields with
      | [path, index, remove, items] => do
          let path ← pathArg false path
          let edit ← spliceArg index remove items
          .ok (edit.at path)
      | _ => .error (.typeError "p arity")
    else if verb = .str (js ['m']) then
      match fields with
      | [path, permutation] => do
          let path ← pathArg false path
          let permutation ← permutationArg permutation
          .ok (.m path permutation)
      | _ => .error (.typeError "m arity")
    else .error (.unknownVerb verb)
  | _ => .error (.typeError "op is not a tuple")

/-- `okRef`: a path id or an inline path. -/
def okRef : JsonValue → Except Failure PathRef
  | .num value =>
    match natural? value with
    | some n => .ok (.id n)
    | none => .error (.typeError "bad path id")
  | .arr _ segments => do
      let path ← safePath segments
      .ok (.inline path)
  | _ => .error (.typeError "path is not an array")

/-- `assertValidWireOp`: ids and short forms are legal, arity tells. -/
@[grind =]
def readWireOp (op : JsonValue) : Except Failure WireOp :=
  match op with
  | .arr _ (verb :: fields) =>
    if verb = .str (js ['r']) then
      match fields with
      | [value] => .ok (.r value)
      | _ => .error (.typeError "r arity")
    else if verb = .str (js ['s']) then
      match fields with
      | [ref, value] => do
          let ref ← okRef ref
          .ok (.edit ref (.s value))
      | [value] => .ok (.edit .omitted (.s value))
      | _ => .error (.typeError "s arity")
    else if verb = .str (js ['d']) then
      match fields with
      | [ref] => do
          let ref ← okRef ref
          .ok (.edit ref .d)
      | [] => .ok (.edit .omitted .d)
      | _ => .error (.typeError "d arity")
    else if verb = .str (js ['a']) then
      match fields with
      | [ref, text] => do
          let ref ← okRef ref
          let text ← textArg "a value" text
          .ok (.edit ref (.a text))
      | [text] => do
          let text ← textArg "a value" text
          .ok (.edit .omitted (.a text))
      | _ => .error (.typeError "a arity")
    else if verb = .str (js ['t']) then
      match fields with
      | [ref, count] => do
          let ref ← okRef ref
          let count ← naturalArg "t count" count
          .ok (.edit ref (.t count))
      | [count] => do
          let count ← naturalArg "t count" count
          .ok (.edit .omitted (.t count))
      | _ => .error (.typeError "t arity")
    else if verb = .str (js ['p']) then
      match fields with
      | [ref, index, remove, items] => do
          let ref ← okRef ref
          let edit ← spliceArg index remove items
          .ok (.edit ref edit)
      | [index, remove, items] => do
          let edit ← spliceArg index remove items
          .ok (.edit .omitted edit)
      | _ => .error (.typeError "p arity")
    else if verb = .str (js ['m']) then
      match fields with
      | [ref, permutation] => do
          let ref ← okRef ref
          let permutation ← permutationArg permutation
          .ok (.edit ref (.m permutation))
      | [permutation] => do
          let permutation ← permutationArg permutation
          .ok (.edit .omitted (.m permutation))
      | _ => .error (.typeError "m arity")
    else if verb = .str (js ['#']) then
      match fields with
      | [.num id, .arr _ segments] =>
        match natural? id with
        | some id => do
            let path ← safePath segments
            .ok (.define id path)
        | none => .error (.typeError "# shape")
      | _ => .error (.typeError "# shape")
    else .error (.unknownVerb verb)
  | _ => .error (.typeError "op is not a tuple")

/-! ### The encoder -/

def segmentText : Seg → JsString
  | .key name => JsonQuote.quote name
  | .index at_ => decimal at_

/-- The segments after the first, and the closing bracket. -/
def pathKeyTail : Path → JsString
  | [] => [93]
  | seg :: rest => 44 :: (segmentText seg ++ pathKeyTail rest)

/-- `pathKey`: the JSON text of the path. -/
def pathKey : Path → JsString
  | [] => [91, 93]
  | seg :: rest => 91 :: (segmentText seg ++ pathKeyTail rest)

/-- The encoder's dictionary: paths used once, paths with an id. -/
structure Encoder where
  seen : List JsString
  ids : List (JsString × Nat)
  nextId : Nat
deriving Repr, DecidableEq

def encoder : Encoder := ⟨[], [], 0⟩

/-- An operation as its path and edit; `none` for a replacement. -/
def Op.split : Op Unit → Option (Path × Edit)
  | .r _ => none
  | .s path value => some (path, .s value)
  | .d path => some (path, .d)
  | .a path text => some (path, .a text)
  | .t path count => some (path, .t count)
  | .p path index remove items => some (path, .p index remove items)
  | .m path permutation => some (path, .m permutation)

/-- One round of `encode`: the dictionary and the previous path's key after it,
and what it pushed. -/
def encodeOp (state : Encoder) (previous : Option JsString) :
    Op Unit → (Encoder × Option JsString) × List WireOp
  | .r value => ((encoder, none), [.r value])
  | op =>
    match op.split with
    | none => ((state, previous), [])
    | some (path, edit) =>
      let key := pathKey path
      if previous = some key then ((state, previous), [.edit .omitted edit])
      else match PropertyList.get key state.ids with
        | some id => ((state, some key), [.edit (.id id) edit])
        | none =>
          if key ∈ state.seen then
            (({ state with
                ids := state.ids ++ [(key, state.nextId)]
                nextId := state.nextId + 1 }, some key),
              [.define state.nextId path, .edit (.id state.nextId) edit])
          else
            (({ state with seen := key :: state.seen }, some key),
              [.edit (.inline path) edit])

def encodeOps : Encoder → Option JsString → List (Op Unit) →
    Encoder × List WireOp
  | state, _, [] => (state, [])
  | state, previous, op :: rest =>
    let round := encodeOp state previous op
    let tail := encodeOps round.1.1 round.1.2 rest
    (tail.1, round.2 ++ tail.2)

/-- `encode`: one batch, as its wire tuples. -/
def Encoder.encode (state : Encoder) (ops : List (Op Unit)) :
    Encoder × List JsonValue :=
  let result := encodeOps state none ops
  (result.1, result.2.map WireOp.toTuple)

/-! ### The decoder -/

/-- The decoder's dictionary. -/
abbrev Decoder := List (Nat × Path)

def decoder : Decoder := []

def Decoder.set (paths : Decoder) (id : Nat) (path : Path) : Decoder :=
  PropertyList.put (fun _ _ => false) id path paths

/-- The path of an operation: omitted, by id, or inline. -/
def resolveRef (paths : Decoder) (previous : Option Path) :
    PathRef → Except Failure Path
  | .omitted =>
    match previous with
    | some path => .ok path
    | none => .error (.pathError (Path.toJson []))
  | .id number =>
    match PropertyList.get number paths with
    | some path => .ok path
    | none => .error (.pathError (.num number))
  | .inline path => .ok path

/-- One round of `decode`: the dictionary and the previous path after it, and
what it pushed. -/
def decodeOp (paths : Decoder) (previous : Option Path) (op : JsonValue) :
    Except Failure ((Decoder × Option Path) × List (Op Unit)) := do
  match ← readWireOp op with
  | .define id path => .ok ((paths.set id path, previous), [])
  | .r value => .ok (([], none), [.r value])
  | .edit ref edit => do
      let path ← resolveRef paths previous ref
      if !edit.mayTargetRoot && path.isEmpty then
        .error (.pathError path.toJson)
      else .ok ((paths, some path), [edit.at path])

def decodeOps : Decoder → Option Path → List JsonValue →
    Except Failure (Decoder × List (Op Unit))
  | paths, _, [] => .ok (paths, [])
  | paths, previous, op :: rest => do
      let round ← decodeOp paths previous op
      let tail ← decodeOps round.1.1 round.1.2 rest
      .ok (tail.1, round.2 ++ tail.2)

/-- `decode`: one wire batch. -/
def Decoder.decode (paths : Decoder) (wire : List JsonValue) :
    Except Failure (Decoder × List (Op Unit)) :=
  decodeOps paths none wire

/-! ### Streams of batches -/

/-- The batches one encoder writes, in order. -/
def encodeBatches : Encoder → List (List (Op Unit)) →
    Encoder × List (List JsonValue)
  | state, [] => (state, [])
  | state, batch :: rest =>
    let result := state.encode batch
    let tail := encodeBatches result.1 rest
    (tail.1, result.2 :: tail.2)

/-- The batches one decoder reads, in order. -/
def decodeBatches : Decoder → List (List JsonValue) →
    Except Failure (List (List (Op Unit)))
  | _, [] => .ok []
  | paths, wire :: rest => do
      let result ← paths.decode wire
      let tail ← decodeBatches result.1 rest
      .ok (result.2 :: tail)

end Hummin.Delta
